import CkGit.Digest.Model

/-!
The digest is the one of the standard however the message was cut into calls:
the state after any bytes is the hash value of the full blocks read, and finish
adds the standard's padding.
-/
namespace CkGit.Digest
open CkGit.Base
open CkGit.Base.Sha256 (ch maj upper0 upper1 lower0 lower1 constant primes_eq primeTable fraction fraction_eq Registers
  initial messageWord schedule roundStep hashBlock hashBlocks hashBlock_congr
  hashBlocks_succ hashBlocks_append zeros zeros_eq padded bigEndian bigEndian_length digest)

/-- The whole part of a cube root below seven. -/
def wholeCube (n : Nat) : Nat := if n < 8 then 1 else if n < 27 then 2 else if n < 64 then 3 else if n < 125 then 4
  else if n < 216 then 5 else 6

/-- The cube root that a constant is the fractional part of. -/
def cubeRoot (t : Nat) : Nat := wholeCube (primeTable.getD t 0) * 2 ^ 32 + (constants.getD t 0).toNat

theorem cubeRoot_spec : ∀ t < 64, cubeRoot t ^ 3 ≤ primeTable.getD t 0 * 2 ^ (32 * 3) ∧
    primeTable.getD t 0 * 2 ^ (32 * 3) < (cubeRoot t + 1) ^ 3 := by
  decide +kernel

theorem fraction_part (whole : Nat) (word : Word) : BitVec.ofNat 32 (whole * 2 ^ 32 + word.toNat) = word := by
  apply BitVec.eq_of_toNat_eq
  have small := word.isLt
  rw [BitVec.toNat_ofNat]
  omega

theorem constants_spec {t : Nat} (small : t < 64) : constants.getD t 0 = constant t := by
  obtain ⟨low, high⟩ := cubeRoot_spec t small
  have root : constant t = BitVec.ofNat 32 (cubeRoot t) := by
    rw [constant, primes_eq]
    exact fraction_eq (by decide) low high
  rw [root, cubeRoot, fraction_part]

theorem squareRoot {n whole : Nat} {word : Word} (low : (whole * 2 ^ 32 + word.toNat) ^ 2 ≤ n * 2 ^ (32 * 2))
    (high : n * 2 ^ (32 * 2) < (whole * 2 ^ 32 + word.toNat + 1) ^ 2) : fraction 2 n = word :=
  (fraction_eq (by decide) low high).trans (fraction_part whole word)

theorem initial_spec :
    initial =
      { a := 0x6a09e667, b := 0xbb67ae85, c := 0x3c6ef372, d := 0xa54ff53a,
        e := 0x510e527f, f := 0x9b05688c, g := 0x1f83d9ab, h := 0x5be0cd19 } := by
  have root2 : fraction 2 2 = 0x6a09e667 := @squareRoot 2 1 0x6a09e667 (by decide) (by decide)
  have root3 : fraction 2 3 = 0xbb67ae85 := @squareRoot 3 1 0xbb67ae85 (by decide) (by decide)
  have root5 : fraction 2 5 = 0x3c6ef372 := @squareRoot 5 2 0x3c6ef372 (by decide) (by decide)
  have root7 : fraction 2 7 = 0xa54ff53a := @squareRoot 7 2 0xa54ff53a (by decide) (by decide)
  have root11 : fraction 2 11 = 0x510e527f := @squareRoot 11 3 0x510e527f (by decide) (by decide)
  have root13 : fraction 2 13 = 0x9b05688c := @squareRoot 13 3 0x9b05688c (by decide) (by decide)
  have root17 : fraction 2 17 = 0x1f83d9ab := @squareRoot 17 4 0x1f83d9ab (by decide) (by decide)
  have root19 : fraction 2 19 = 0x5be0cd19 := @squareRoot 19 4 0x5be0cd19 (by decide) (by decide)
  rw [initial, primes_eq]
  simp only [primeTable, List.getD_cons_zero, List.getD_cons_succ, root2, root3, root5, root7, root11, root13, root17, root19]

/-- The word of four bytes, as the code shifts it together. -/
theorem shifted_word (b0 b1 b2 b3 : BitVec 8) :
    ((((((0 : Word) <<< 8 ||| b0.setWidth 32) <<< 8) ||| b1.setWidth 32) <<< 8 ||| b2.setWidth 32) <<< 8)
      ||| b3.setWidth 32 = b0 ++ b1 ++ b2 ++ b3 := by
  apply BitVec.eq_of_getLsbD_eq
  intro i small
  simp only [BitVec.getLsbD_or, BitVec.getLsbD_shiftLeft, BitVec.getLsbD_setWidth, BitVec.getLsbD_append]
  grind

/-- Word `index` of a block in its buffer. -/
def blockWord (block : Vector UInt8 64) (index : Nat) : Word :=
  (block[index * 4]?.getD 0).toBitVec ++ (block[index * 4 + 1]?.getD 0).toBitVec
    ++ (block[index * 4 + 2]?.getD 0).toBitVec ++ (block[index * 4 + 3]?.getD 0).toBitVec

theorem loadWord_eq {block : Vector UInt8 64} {words : Vector Word 64} {index : Nat} (empty : words[index]? = some 0) :
    loadWord block words index = words.setIfInBounds index (blockWord block index) := by
  have inside : index < 64 := (Vector.getElem?_eq_some_iff.mp empty).1
  have set (w v : Word) : (words.setIfInBounds index v)[index]?.getD w = v := by
    simp [inside]
  rw [loadWord, blockWord, ← shifted_word]
  simp only [List.range_succ, List.range_zero, List.nil_append, List.foldl_append, List.foldl_cons, List.foldl_nil,
    loadByte, set, Vector.setIfInBounds_setIfInBounds, empty, Option.getD_some, Nat.add_zero]

theorem loaded_words (block : Vector UInt8 64) {count : Nat} (most : count ≤ 16) {t : Nat} (small : t < 64) :
    ((List.range count).foldl (loadWord block) (Vector.replicate 64 0))[t]?
      = some (if t < count then blockWord block t else 0) := by
  induction count generalizing t with
  | zero => simp [small]
  | succ count ih =>
    have empty := ih (by omega) (show count < 64 by omega)
    rw [if_neg (Nat.lt_irrefl count)] at empty
    rw [List.range_succ, List.foldl_append, List.foldl_cons, List.foldl_nil, loadWord_eq empty,
      Vector.getElem?_setIfInBounds]
    by_cases here : count = t
    · subst here
      simp [small]
    · rw [if_neg here, ih (by omega) small]
      have same : t < count + 1 ↔ t < count := by omega
      simp only [same]

theorem extended_words (block : Vector UInt8 64) {count : Nat} (most : count ≤ 48) {t : Nat} (small : t < 64) :
    ((List.range' 16 count).foldl extendWord ((List.range 16).foldl (loadWord block) (Vector.replicate 64 0)))[t]?
      = some (if t < 16 + count then schedule (blockWord block) t else 0) := by
  induction count generalizing t with
  | zero =>
    rw [List.range'_zero, List.foldl_nil, loaded_words block (le_refl 16) small]
    by_cases first : t < 16
    · simp [first, schedule]
    · simp [first]
  | succ count ih =>
    have earlier {back : Nat} (positive : 0 < back) (less : back ≤ 16) :
        ((List.range' 16 count).foldl extendWord
          ((List.range 16).foldl (loadWord block) (Vector.replicate 64 0)))[16 + count - back]?.getD 0
          = schedule (blockWord block) (16 + count - back) := by
      rw [ih (by omega) (by omega), if_pos (by omega), Option.getD_some]
    rw [List.range'_1_concat, List.foldl_append, List.foldl_cons, List.foldl_nil, extendWord,
      Vector.getElem?_setIfInBounds]
    by_cases here : 16 + count = t
    · rw [if_pos here, if_pos (by omega), if_pos (by omega), earlier (by decide) (by decide), earlier (by decide) (by decide),
        earlier (by decide) (by decide), earlier (by decide) (by decide), ← here,
        schedule.eq_def _ (16 + count), if_neg (by omega)]
      have turned (w x y z : Word) : w + x + y + z = z + y + x + w := by
        rw [BitVec.add_comm _ z, BitVec.add_comm _ y, BitVec.add_comm w x, ← BitVec.add_assoc, ← BitVec.add_assoc]
      exact congrArg some (turned _ _ _ _)
    · rw [if_neg here, ih (by omega) small]
      have same : t < 16 + (count + 1) ↔ t < 16 + count := by omega
      simp only [same]

theorem words_spec (block : Vector UInt8 64) {t : Nat} (small : t < 64) :
    (words block)[t]?.getD 0 = schedule (blockWord block) t := by
  have all := extended_words block (le_refl 48) small
  rw [if_pos small] at all
  rw [words, all, Option.getD_some]

def Variables.registers (v : Variables) : Registers :=
  { a := v.a, b := v.b, c := v.c, d := v.d, e := v.e, f := v.f, g := v.g, h := v.h }

theorem mix_spec (block : Vector UInt8 64) (v : Variables) {t : Nat} (small : t < 64) :
    (mix (words block) v t).registers = roundStep (schedule (blockWord block)) v.registers t := by
  simp only [mix, roundStep, Variables.registers, words_spec block small, constants_spec small, ch, maj, upper0, upper1]

theorem rounds_spec (block : Vector UInt8 64) (v : Variables) {count : Nat} (most : count ≤ 64) :
    ((List.range count).foldl (mix (words block)) v).registers
      = (List.range count).foldl (roundStep (schedule (blockWord block))) v.registers := by
  induction count with
  | zero => rfl
  | succ count ih =>
    rw [List.range_succ, List.foldl_append, List.foldl_append, ← ih (by omega)]
    exact mix_spec block _ (by omega)

theorem compress_spec (hash : Sha256) : hash.compress.value = hashBlock hash.value (blockWord hash.block) := by
  have rounds := rounds_spec hash.block
    ⟨hash.state[0], hash.state[1], hash.state[2], hash.state[3], hash.state[4], hash.state[5], hash.state[6], hash.state[7]⟩
    (le_refl 64)
  have start : Variables.registers
    ⟨hash.state[0], hash.state[1], hash.state[2], hash.state[3], hash.state[4], hash.state[5], hash.state[6], hash.state[7]⟩
      = hash.value := rfl
  rw [start] at rounds
  rw [hashBlock, ← rounds]
  simp only [Sha256.compress, Sha256.value, Registers.add, Variables.registers, BitVec.add_comm]
  rfl

/-- The hash value covers the full blocks of what was added, the buffer holds the rest. -/
structure Represents (hash : Sha256) (message : Bytes) : Prop where
  value : hash.value = hashBlocks message (message.length / 64)
  used : hash.used.val = message.length % 64
  block : ∀ j < message.length % 64, hash.block[j]?.getD 0 = message.getD (64 * (message.length / 64) + j) 0

theorem represents_empty : Represents {} [] where
  value := by
    change _ = initial
    rw [initial_spec]
    rfl
  used := rfl
  block := fun j none => absurd none (Nat.not_lt_zero j)

/-- Words whose bytes agree. -/
theorem blockWord_eq {block : Vector UInt8 64} {message : Bytes} {i t : Nat} (small : t < 16)
    (same : ∀ j < 64, block[j]?.getD 0 = message.getD (64 * i + j) 0) :
    blockWord block t = messageWord message i t := by
  rw [blockWord, messageWord, Nat.mul_comm t 4, same _ (by omega), same _ (by omega), same _ (by omega),
    same _ (by omega)]
  rfl

theorem Represents.buffered {hash : Sha256} {message : Bytes} (h : Represents hash message) (byte : UInt8) :
    ∀ j < message.length % 64 + 1, (hash.block.set hash.used byte hash.used.isLt)[j]?.getD 0
      = (message ++ [byte]).getD (64 * (message.length / 64) + j) 0 := by
  intro j inside
  rw [Vector.getElem?_set]
  by_cases last : hash.used.val = j
  · have position : 64 * (message.length / 64) + j = message.length := by
      have := h.used
      omega
    rw [if_pos last, position]
    simp
  · have older : j < message.length % 64 := by
      have := h.used
      omega
    rw [if_neg last, h.block j older, List.getD_append _ _ _ _ (by omega)]

theorem Represents.addByte {hash : Sha256} {message : Bytes} (h : Represents hash message) (byte : UInt8) :
    Represents (hash.addByte byte) (message ++ [byte]) := by
  have used := h.used
  have buffered := h.buffered byte
  have length : (message ++ [byte]).length = message.length + 1 := List.length_append
  have value : hash.value = hashBlocks (message ++ [byte]) (message.length / 64) := by
    rw [hashBlocks_append (by omega), h.value]
  by_cases full : hash.used.val + 1 = 64
  · have blocks : (message.length + 1) / 64 = message.length / 64 + 1 := by omega
    have shape : hash.addByte byte
        = { ({ hash with block := hash.block.set hash.used byte } : Sha256).compress with used := 0 } := if_pos full
    refine ⟨?_, ?_, fun j inside => ?_⟩
    · rw [length, blocks, hashBlocks_succ, ← value, shape]
      have whole := compress_spec { hash with block := hash.block.set hash.used byte }
      refine whole.trans (hashBlock_congr (fun t small => ?_) _)
      exact blockWord_eq small fun j inside => buffered j (by omega)
    · rw [shape, length]
      change 0 = _
      omega
    · rw [length] at inside
      omega
  · have blocks : (message.length + 1) / 64 = message.length / 64 := by omega
    have shape : hash.addByte byte = { hash with block := hash.block.set hash.used byte, used := hash.used + 1 } :=
      if_neg full
    refine ⟨?_, ?_, fun j inside => ?_⟩
    · rw [length, blocks, shape]
      exact value
    · rw [shape, length]
      change (hash.used + 1).val = _
      omega
    · rw [length] at inside
      rw [shape, length, blocks]
      exact buffered j (by omega)

theorem Represents.foldl {hash : Sha256} {message : Bytes} (h : Represents hash message) (bytes : Bytes) :
    Represents (bytes.foldl Sha256.addByte hash) (message ++ bytes) := by
  induction bytes generalizing hash message with
  | nil => rwa [List.append_nil]
  | cons byte rest ih =>
    have more := ih (h.addByte byte)
    rwa [List.append_assoc] at more

theorem Represents.add {hash : Sha256} {message : Bytes} (h : Represents hash message) (bytes : Bytes) :
    Represents (hash.add bytes) (message ++ bytes) := by
  have counted : Represents { hash with total := hash.total + BitVec.ofNat 64 bytes.length } message :=
    ⟨h.value, h.used, h.block⟩
  exact counted.foldl bytes

theorem add_total (hash : Sha256) (bytes : Bytes) :
    (hash.add bytes).total = hash.total + BitVec.ofNat 64 bytes.length := by
  have kept (start : Sha256) : (bytes.foldl Sha256.addByte start).total = start.total := by
    induction bytes generalizing start with
    | nil => rfl
    | cons byte rest ih =>
      rw [List.foldl_cons, ih]
      unfold Sha256.addByte
      split <;> rfl
  exact kept _

theorem Represents.fill {hash : Sha256} {message : Bytes} (h : Represents hash message) :
    ∃ k, Represents hash.fill (message ++ List.replicate k 0) ∧ (message.length + k) % 64 = 56 ∧
      ∀ less < k, (message.length + less) % 64 ≠ 56 := by
  fun_induction Sha256.fill hash generalizing message with
  | case1 hash done =>
    refine ⟨0, by rwa [List.replicate_zero, List.append_nil], ?_, by simp⟩
    rw [Nat.add_zero, ← h.used, done]
    rfl
  | case2 hash short ih =>
    obtain ⟨k, filled, fits, least⟩ := ih (h.add [0])
    refine ⟨k + 1, ?_, ?_, fun less inside => ?_⟩
    · rwa [List.append_assoc, List.singleton_append] at filled
    · simpa [Nat.add_assoc, Nat.add_comm 1 k] using fits
    · cases less with
      | zero =>
        rw [Nat.add_zero, ← h.used]
        exact fun same => short (Fin.ext same)
      | succ less =>
        have := least less (by omega)
        simpa [Nat.add_assoc, Nat.add_comm 1 less] using this

/-- The length in bits, byte by byte. -/
theorem length_bytes {n : Nat} (small : n < 2 ^ 61) :
    ((List.range 8).map fun index => UInt8.ofBitVec (((BitVec.ofNat 64 n * 8) >>> ((7 - index) * 8)).setWidth 8))
      = bigEndian 8 (8 * n) := by
  refine List.map_congr_left fun index inside => ?_
  have bits : (BitVec.ofNat 64 n * 8).toNat = 8 * n := by
    rw [BitVec.toNat_mul, BitVec.toNat_ofNat, show BitVec.toNat (8 : BitVec 64) = 8 from rfl]
    omega
  apply UInt8.toNat_inj.mp
  change (((BitVec.ofNat 64 n * 8) >>> ((7 - index) * 8)).setWidth 8).toNat = _
  rw [BitVec.toNat_setWidth, BitVec.toNat_ushiftRight, bits, Nat.shiftRight_eq_div_pow, UInt8.toNat_ofNat',
    Nat.mul_comm (7 - index) 8, Nat.pow_mul]

def hexLetters (count n : Nat) : List Char := (List.range count).map fun i => Nat.digitChar (n / 16 ^ (count - 1 - i) % 16)

theorem hexLetters_succ (count n : Nat) :
    hexLetters (count + 1) n = hexLetters count (n / 16) ++ [Nat.digitChar (n % 16)] := by
  rw [hexLetters, List.range_succ, List.map_append, List.map_singleton, hexLetters]
  congr 1
  · refine List.map_congr_left fun i inside => ?_
    have below := List.mem_range.mp inside
    rw [Nat.div_div_eq_div_mul, ← Nat.pow_succ', show (count - 1 - i).succ = count + 1 - 1 - i by omega]
  · simp

/-- Digits filled up with zeros to a width are the letters of that width. -/
theorem filled_digits {count n : Nat} (positive : 0 < count) (small : n < 16 ^ count) :
    List.replicate (count - (Nat.toDigits 16 n).length) '0' ++ Nat.toDigits 16 n = hexLetters count n := by
  induction count, positive using Nat.le_induction generalizing n with
  | base =>
    rw [Nat.toDigits_of_lt_base (by simpa using small), hexLetters]
    simp [Nat.mod_eq_of_lt (show n < 16 by simpa using small)]
  | succ count positive ih =>
    rw [hexLetters_succ]
    by_cases one : n < 16
    · have zero : n / 16 = 0 := by omega
      have rest := ih (n := 0) (Nat.pow_pos (by decide))
      rw [Nat.toDigits_zero, List.length_singleton, ← List.replicate_succ', Nat.sub_add_cancel positive] at rest
      rw [Nat.toDigits_of_lt_base one, zero, ← rest, Nat.mod_eq_of_lt one]
      simp
    · have less : n / 16 < 16 ^ count := by
        rw [Nat.div_lt_iff_lt_mul (by decide), ← Nat.pow_succ]
        exact small
      rw [Nat.toDigits_of_base_le (by decide) (not_lt.mp one), ← ih less]
      simp

theorem hexDigit_ofNat {d : Nat} (small : d < 16) : hexDigit (UInt8.ofNat d) = (Nat.digitChar d).toUInt8 := by
  revert d
  decide

theorem hex_of_byte (n : Nat) :
    hexEncode [UInt8.ofNat n] = [(Nat.digitChar (n / 16 % 16)).toUInt8, (Nat.digitChar (n % 16)).toUInt8] := by
  have high : UInt8.ofNat n >>> 4 = UInt8.ofNat (n / 16 % 16) := by
    apply UInt8.toNat_inj.mp
    rw [UInt8.toNat_shiftRight, UInt8.toNat_ofNat', UInt8.toNat_ofNat']
    change (n % 256) >>> 4 = _
    rw [Nat.shiftRight_eq_div_pow]
    omega
  have low : UInt8.ofNat n &&& 0x0f = UInt8.ofNat (n % 16) := by
    apply UInt8.toNat_inj.mp
    rw [UInt8.toNat_and, UInt8.toNat_ofNat', UInt8.toNat_ofNat']
    change (n % 256) &&& 2 ^ 4 - 1 = _
    rw [Nat.and_two_pow_sub_one_eq_mod]
    omega
  rw [hexEncode_cons, hexEncode_nil, high, low, hexDigit_ofNat (Nat.mod_lt _ (by decide)),
    hexDigit_ofNat (Nat.mod_lt _ (by decide))]

theorem hexWord_spec (word : Word) : hexWord word = hexEncode (bigEndian 4 word.toNat) := by
  have letters : hexWord word = (hexLetters 8 word.toNat).map Char.toUInt8 := by
    rw [← filled_digits (by decide) word.isLt, hexWord]
    simp
  have four (a b c d : UInt8) :
      hexEncode [a, b, c, d] = hexEncode [a] ++ hexEncode [b] ++ hexEncode [c] ++ hexEncode [d] := rfl
  rw [letters, hexLetters, bigEndian]
  simp only [List.range_succ, List.range_zero, List.nil_append, List.cons_append, List.map_cons, List.map_nil]
  rw [four]
  simp only [hex_of_byte, Nat.div_div_eq_div_mul, List.cons_append, List.nil_append]
  rfl

theorem value_words (hash : Sha256) : hash.value.words = hash.state.toList := by
  obtain ⟨⟨⟨words⟩, size⟩, block, used, total⟩ := hash
  match words, size with
  | [_, _, _, _, _, _, _, _], _ => rfl

/-- The digest of a message given in any pieces is the lowercase hex of its
SHA-256 by the standard. -/
theorem add_finish_standard (pieces : List Bytes) (short : pieces.flatten.length < 2 ^ 61) :
    (pieces.foldl Sha256.add {}).finish = hexEncode (digest pieces.flatten) := by
  have added (hash : Sha256) (message : Bytes) (h : Represents hash message)
      (total : hash.total = BitVec.ofNat 64 message.length) :
      Represents (pieces.foldl Sha256.add hash) (message ++ pieces.flatten) ∧
      (pieces.foldl Sha256.add hash).total = BitVec.ofNat 64 (message ++ pieces.flatten).length := by
    clear short
    induction pieces generalizing hash message with
    | nil =>
      rw [List.flatten_nil, List.append_nil]
      exact ⟨h, total⟩
    | cons piece rest ih =>
      rw [List.foldl_cons, List.flatten_cons, ← List.append_assoc]
      refine ih _ _ (h.add piece) ?_
      rw [add_total, total, List.length_append, BitVec.ofNat_add]
  obtain ⟨represents, total⟩ := added {} [] represents_empty rfl
  rw [List.nil_append] at represents total
  generalize pieces.foldl Sha256.add {} = hash at represents total
  generalize pieces.flatten = message at represents total short
  obtain ⟨k, filled, fits, least⟩ := (represents.add [0x80]).fill
  rw [List.length_append, List.length_singleton] at fits least
  have count : zeros message.length = k := zeros_eq fits least
  have whole := filled.add (bigEndian 8 (8 * message.length))
  have shape : message ++ [0x80] ++ List.replicate k 0 ++ bigEndian 8 (8 * message.length) = padded message := by
    rw [padded, count]
    simp
  rw [shape] at whole
  rw [Sha256.finish, total]
  simp only [length_bytes short]
  rw [← value_words, whole.value, digest]
  generalize Registers.words _ = words
  induction words with
  | nil => rfl
  | cons word rest ih =>
    rw [List.flatMap_cons, List.flatMap_cons, ih, hexWord_spec]
    exact (List.flatMap_append ..).symm

theorem add_finish_split :
    (([ascii "a", [], ascii "bc"] : List Bytes).foldl Sha256.add {}).finish = hexEncode (digest (ascii "abc")) :=
  add_finish_standard [ascii "a", [], ascii "bc"] (by decide)

end CkGit.Digest
