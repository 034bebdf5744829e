import Mathlib.Algebra.GroupWithZero.Nat
import Mathlib.Data.List.Basic

/-!
Byte strings and the encodings a line-framed record is made of: decimal
numbers, lowercase hex, lines ended by a newline, comma-separated lists. Each
encoder comes with its length, the bytes it can produce and its round trip.
-/
namespace CkGit.Base

/-- A text of the program: std::string and std::string_view hold bytes. -/
abbrev Bytes := List UInt8

instance : LawfulBEq Bytes := inferInstance

/-- The bytes of an ASCII text. -/
def ascii (text : String) : Bytes := text.toList.map Char.toUInt8

/-- Whether the text contains the piece. -/
def hasInfix (piece text : Bytes) : Bool := text.tails.any piece.isPrefixOf

/-- A text in a message, a character for each byte. -/
def asMessage (text : Bytes) : String := String.ofList (text.map fun byte => Char.ofNat byte.toNat)

def newline : UInt8 := '\n'.toUInt8
def carriage : UInt8 := '\r'.toUInt8
def tab : UInt8 := '\t'.toUInt8
def space : UInt8 := ' '.toUInt8
def comma : UInt8 := ','.toUInt8
def slash : UInt8 := '/'.toUInt8
def colon : UInt8 := ':'.toUInt8

/-- std::isdigit in the C locale. -/
def isDigit (byte : UInt8) : Bool := '0'.toUInt8 ≤ byte && byte ≤ '9'.toUInt8

/-- std::to_string of an unsigned number. -/
def decimal (n : Nat) : Bytes := (Nat.toDigits 10 n).map Char.toUInt8

/-- The number that a row of digits writes. -/
def digitsValue (text : Bytes) : Nat :=
  text.foldl (fun value byte => 10 * value + (byte.toNat - '0'.toNat)) 0

/-- A number written in decimal digits only, at most `limit`. -/
def parseDecimal (limit : Nat) (text : Bytes) : Option Nat :=
  if text ≠ [] ∧ text.all isDigit ∧ digitsValue text ≤ limit then some (digitsValue text) else none

/-- std::to_string of a signed number. -/
def decimalInt (n : Int) : Bytes :=
  match n with
  | .ofNat m => decimal m
  | .negSucc m => '-'.toUInt8 :: decimal (m + 1)

/-- A number with an optional minus sign, within `[-below, limit]`. -/
def parseDecimalInt (below limit : Nat) (text : Bytes) : Option Int :=
  match text with
  | [] => none
  | byte :: rest =>
    if byte = '-'.toUInt8 then (parseDecimal below rest).map fun n => -(n : Int)
    else (parseDecimal limit text).map fun n => (n : Int)

theorem digit_cases {c : Char} (h : c.isDigit) : 48 ≤ c.toNat ∧ c.toNat ≤ 57 := by
  simp only [Char.isDigit, Bool.and_eq_true, decide_eq_true_eq] at h
  exact ⟨h.1, h.2⟩

theorem digit_toUInt8 {c : Char} (h : c.isDigit) : c.toUInt8.toNat = c.toNat := by
  have bounds := digit_cases h
  have small : c.toNat < 256 := by omega
  exact Nat.mod_eq_of_lt small

theorem isDigit_toUInt8 {c : Char} (h : c.isDigit) : isDigit c.toUInt8 := by
  have bounds := digit_cases h
  have same := digit_toUInt8 h
  simp only [isDigit, Bool.and_eq_true, decide_eq_true_eq, UInt8.le_iff_toNat_le]
  rw [same]
  exact bounds

/-- A written number is digits only. -/
theorem decimal_digits (n : Nat) : ∀ byte ∈ decimal n, isDigit byte := by
  intro byte member
  obtain ⟨c, inside, rfl⟩ := List.mem_map.mp member
  exact isDigit_toUInt8 (Nat.isDigit_of_mem_toDigits (by decide) (by decide) inside)

theorem decimal_ne_nil (n : Nat) : decimal n ≠ [] := by
  simp [decimal, Nat.toDigits_ne_nil]

theorem decimal_length_pos (n : Nat) : 0 < (decimal n).length := by
  simp [decimal, Nat.length_toDigits_pos]

/-- A number below `10 ^ k` takes at most `k` digits. -/
theorem decimal_length_le {n k : Nat} (positive : 0 < k) (h : n < 10 ^ k) :
    (decimal n).length ≤ k := by
  simpa [decimal] using (Nat.length_toDigits_le_iff (by decide) positive).mpr h

theorem decimal_length_mono {m n : Nat} (h : m ≤ n) :
    (decimal m).length ≤ (decimal n).length := by
  have positive := decimal_length_pos n
  apply decimal_length_le positive
  have bound := (Nat.length_toDigits_le_iff (b := 10) (n := n) (by decide) positive).mp
    (by simp [decimal])
  exact Nat.lt_of_le_of_lt h bound

/-- The value of digits is the one that the core library reads from them. -/
theorem foldl_digits (chars : List Char) (start : Nat) (h : ∀ c ∈ chars, c.isDigit) :
    (chars.map Char.toUInt8).foldl (fun value byte => 10 * value + (byte.toNat - '0'.toNat)) start
      = Nat.ofDigitChars 10 chars start := by
  induction chars generalizing start with
  | nil => simp
  | cons c rest ih =>
    have same := digit_toUInt8 (h c List.mem_cons_self)
    rw [Nat.ofDigitChars_cons, List.map_cons, List.foldl_cons, same]
    exact ih _ fun d inside => h d (List.mem_cons_of_mem _ inside)

@[simp] theorem digitsValue_decimal (n : Nat) : digitsValue (decimal n) = n := by
  have digits : ∀ c ∈ Nat.toDigits 10 n, c.isDigit := fun c inside =>
    Nat.isDigit_of_mem_toDigits (by decide) (by decide) inside
  rw [digitsValue, decimal, foldl_digits _ _ digits, Nat.ofDigitChars_ten_toDigits]

/-- A number within the limit is read as it was written. -/
theorem parseDecimal_decimal {limit n : Nat} (h : n ≤ limit) :
    parseDecimal limit (decimal n) = some n := by
  have digits : (decimal n).all isDigit := List.all_eq_true.mpr (decimal_digits n)
  simp [parseDecimal, decimal_ne_nil, digits, h]

/-- What is read is within the limit. -/
theorem parseDecimal_le {limit n : Nat} {text : Bytes} (h : parseDecimal limit text = some n) :
    n ≤ limit := by
  simp only [parseDecimal] at h
  split at h
  · rename_i ok
    cases h
    exact ok.2.2
  · cases h

theorem digit_ne {byte other : UInt8} (h : isDigit byte) (differs : isDigit other = false) :
    byte ≠ other := by
  rintro rfl
  rw [h] at differs
  cases differs

/-- A written number has no byte that is not a digit. -/
theorem decimal_avoids {n : Nat} {byte : UInt8} (h : isDigit byte = false) :
    byte ∉ decimal n := by
  intro member
  exact digit_ne (decimal_digits n byte member) h rfl

/-- A signed number within its bounds is read as it was written. -/
theorem parseDecimalInt_decimalInt {below limit : Nat} {n : Int}
    (low : -(below : Int) ≤ n) (high : n ≤ limit) :
    parseDecimalInt below limit (decimalInt n) = some n := by
  cases n with
  | ofNat m =>
    have bound : m ≤ limit := by exact Int.ofNat_le.mp high
    have shape := decimal_ne_nil m
    have first := decimal_digits m
    have back := parseDecimal_decimal bound
    simp only [decimalInt]
    generalize decimal m = text at *
    match text with
    | [] => exact absurd rfl shape
    | byte :: rest =>
      have noSign : byte ≠ '-'.toUInt8 := digit_ne (first byte List.mem_cons_self) rfl
      simp [parseDecimalInt, noSign, back]
  | negSucc m =>
    have bound : m + 1 ≤ below := by omega
    simp only [decimalInt, parseDecimalInt, parseDecimal_decimal bound, if_true]
    rfl

theorem decimalInt_avoids {n : Int} {byte : UInt8} (h : isDigit byte = false)
    (sign : byte ≠ '-'.toUInt8) : byte ∉ decimalInt n := by
  cases n with
  | ofNat m => exact decimal_avoids h
  | negSucc m =>
    simp only [decimalInt, List.mem_cons, not_or]
    exact ⟨sign, decimal_avoids h⟩

def hexDigit (nibble : UInt8) : UInt8 :=
  if nibble < 10 then '0'.toUInt8 + nibble else 'a'.toUInt8 + (nibble - 10)

/-- The value of a lowercase hex digit. -/
def hexNibble (byte : UInt8) : Option UInt8 :=
  if '0'.toUInt8 ≤ byte ∧ byte ≤ '9'.toUInt8 then some (byte - '0'.toUInt8)
  else if 'a'.toUInt8 ≤ byte ∧ byte ≤ 'f'.toUInt8 then some (byte - 'a'.toUInt8 + 10)
  else none

/-- Two lowercase hex digits for each byte, the high one first. -/
def hexEncode (bytes : Bytes) : Bytes :=
  bytes.flatMap fun (byte : UInt8) => [hexDigit (byte >>> 4), hexDigit (byte &&& 0x0f)]

/-- The bytes that pairs of hex digits write. -/
def hexPairs : Bytes → Option Bytes
  | [] => some []
  | [_] => none
  | high :: low :: rest => do
    let h ← hexNibble high
    let l ← hexNibble low
    let decoded ← hexPairs rest
    return ((h <<< 4) ||| l) :: decoded

/-- Hex of at most so many bytes. -/
def hexDecode (hex : Bytes) (maximum_bytes : Nat) : Option Bytes :=
  if hex.length % 2 ≠ 0 ∨ hex.length / 2 > maximum_bytes then none else hexPairs hex

@[simp] theorem hexEncode_nil : hexEncode [] = [] := rfl

theorem hexEncode_cons (byte : UInt8) (rest : Bytes) :
    hexEncode (byte :: rest)
      = hexDigit (byte >>> 4) :: hexDigit (byte &&& 0x0f) :: hexEncode rest := rfl

@[simp] theorem hexEncode_length (bytes : Bytes) :
    (hexEncode bytes).length = 2 * bytes.length := by
  induction bytes with
  | nil => rfl
  | cons byte rest ih =>
    simp only [hexEncode_cons, List.length_cons, ih]
    omega

/-- What holds of the two digits of every byte holds of all hex. -/
theorem hexEncode_all {p : UInt8 → Bool} (digits : ∀ byte : Fin 256, p (hexDigit (UInt8.ofFin byte >>> 4)) = true
    ∧ p (hexDigit (UInt8.ofFin byte &&& 0x0f)) = true) (bytes : Bytes) : (hexEncode bytes).all p = true := by
  induction bytes with
  | nil => rfl
  | cons byte rest ih =>
    have first := digits byte.toFin
    simp only [UInt8.ofFin_toFin] at first
    simp [hexEncode_cons, ih, first]

/-- The two digits of a byte give its halves, and the halves give the byte. -/
theorem hex_byte (byte : UInt8) :
    hexNibble (hexDigit (byte >>> 4)) = some (byte >>> 4)
      ∧ hexNibble (hexDigit (byte &&& 0x0f)) = some (byte &&& 0x0f)
      ∧ ((byte >>> 4) <<< 4) ||| (byte &&& 0x0f) = byte := by
  have all : ∀ n : Fin 256, hexNibble (hexDigit (UInt8.ofFin n >>> 4)) = some (UInt8.ofFin n >>> 4)
      ∧ hexNibble (hexDigit (UInt8.ofFin n &&& 0x0f)) = some (UInt8.ofFin n &&& 0x0f)
      ∧ ((UInt8.ofFin n >>> 4) <<< 4) ||| (UInt8.ofFin n &&& 0x0f) = UInt8.ofFin n := by
    decide +kernel
  exact all byte.toFin

theorem hexPairs_hexEncode (bytes : Bytes) : hexPairs (hexEncode bytes) = some bytes := by
  induction bytes with
  | nil => rfl
  | cons byte rest ih =>
    obtain ⟨high, low, whole⟩ := hex_byte byte
    simp [hexEncode_cons, hexPairs, high, low, ih, whole]

/-- Bytes within the limit are read as they were written. -/
theorem hexDecode_hexEncode {bytes : Bytes} {limit : Nat} (h : bytes.length ≤ limit) :
    hexDecode (hexEncode bytes) limit = some bytes := by
  have even : (2 * bytes.length) % 2 = 0 := by omega
  have half : 2 * bytes.length / 2 = bytes.length := by omega
  have fits : ¬ bytes.length > limit := by omega
  simp [hexDecode, hexPairs_hexEncode, even, half, fits]

theorem hexDecode_same {bytes read : Bytes} {limit : Nat}
    (h : hexDecode (hexEncode bytes) limit = some read) : read = bytes := by
  unfold hexDecode at h
  split at h
  · cases h
  · rw [hexPairs_hexEncode] at h
    exact (Option.some.inj h).symm

theorem hexPairs_length {hex bytes : Bytes} (h : hexPairs hex = some bytes) :
    hex.length = 2 * bytes.length := by
  fun_induction hexPairs hex generalizing bytes with
  | case1 =>
    cases h
    rfl
  | case2 => cases h
  | case3 high low rest ih =>
    simp only [Option.bind_eq_bind, Option.bind_eq_some_iff, pure, Option.some.injEq] at h
    obtain ⟨_, _, _, _, decoded, later, rfl⟩ := h
    have count := ih later
    simp only [List.length_cons]
    omega

theorem hexDecode_length {hex bytes : Bytes} {limit : Nat} (h : hexDecode hex limit = some bytes) :
    bytes.length ≤ limit := by
  unfold hexDecode at h
  split at h
  · cases h
  · rename_i fits
    have count := hexPairs_length h
    omega

theorem hexDigit_not (byte : UInt8) :
    hexDigit (byte >>> 4) ≠ newline ∧ hexDigit (byte &&& 0x0f) ≠ newline
      ∧ hexDigit (byte >>> 4) ≠ comma ∧ hexDigit (byte &&& 0x0f) ≠ comma := by
  have all : ∀ n : Fin 256, hexDigit (UInt8.ofFin n >>> 4) ≠ newline
      ∧ hexDigit (UInt8.ofFin n &&& 0x0f) ≠ newline
      ∧ hexDigit (UInt8.ofFin n >>> 4) ≠ comma ∧ hexDigit (UInt8.ofFin n &&& 0x0f) ≠ comma := by
    decide +kernel
  exact all byte.toFin

/-- Hex holds neither the end of a line nor the separator of a list. -/
theorem hexEncode_avoids (bytes : Bytes) :
    newline ∉ hexEncode bytes ∧ comma ∉ hexEncode bytes := by
  induction bytes with
  | nil => simp
  | cons byte rest ih =>
    obtain ⟨h₁, h₂, h₃, h₄⟩ := hexDigit_not byte
    simp only [hexEncode_cons, List.mem_cons, not_or]
    exact ⟨⟨h₁.symm, h₂.symm, ih.1⟩, ⟨h₃.symm, h₄.symm, ih.2⟩⟩

/-- Each line with its newline. -/
def framed (lines : List Bytes) : Bytes := lines.flatMap fun line => line ++ [newline]

/-- The lines of a text that ends in a newline. -/
def frame (content : Bytes) : Option (List Bytes) :=
  if content.getLast? = some newline then some (content.splitOn newline).dropLast else none

/-- The value behind a key. -/
def expectField (key line : Bytes) : Option Bytes :=
  if key.isPrefixOf line then some (line.drop key.length) else none

@[simp] theorem framed_nil : framed [] = [] := rfl

@[simp] theorem framed_cons (line : Bytes) (rest : List Bytes) :
    framed (line :: rest) = line ++ newline :: framed rest := by
  simp [framed]

@[simp] theorem framed_append (front back : List Bytes) :
    framed (front ++ back) = framed front ++ framed back := by
  simp [framed]

theorem framed_length (lines : List Bytes) :
    (framed lines).length = (lines.map fun line => line.length + 1).sum := by
  induction lines with
  | nil => rfl
  | cons line rest ih => simp [ih]; omega

/-- Short lines make a short text. -/
theorem framed_short {lines : List Bytes} {limit : Nat} (short : ∀ line ∈ lines, line.length ≤ limit) :
    (framed lines).length ≤ lines.length * (limit + 1) := by
  induction lines with
  | nil => exact Nat.zero_le _
  | cons line rest ih =>
    have first := short line (.head _)
    have others := ih fun other member => short other (.tail _ member)
    rw [framed_cons, List.length_append, List.length_cons, List.length_cons, Nat.succ_mul]
    omega

/-- A framed text splits into its lines and the empty rest. -/
theorem splitOn_framed {lines : List Bytes} (clean : ∀ line ∈ lines, newline ∉ line) :
    (framed lines).splitOn newline = lines ++ [[]] := by
  induction lines with
  | nil => simp
  | cons line rest ih =>
    have first := clean line List.mem_cons_self
    have others := ih fun other inside => clean other (List.mem_cons_of_mem _ inside)
    rw [framed_cons, List.splitOn_append_cons_self_of_not_mem first, others, List.cons_append]

theorem framed_getLast {lines : List Bytes} (some_line : lines ≠ []) :
    (framed lines).getLast? = some newline := by
  obtain ⟨front, last, rfl⟩ := List.eq_nil_or_concat lines |>.resolve_left some_line
  simp [List.concat_eq_append]

/-- The framing of lines without newlines is undone. -/
theorem frame_framed {lines : List Bytes} (some_line : lines ≠ [])
    (clean : ∀ line ∈ lines, newline ∉ line) : frame (framed lines) = some lines := by
  simp [frame, framed_getLast some_line, splitOn_framed clean]

theorem splitOn_length_pos (text : Bytes) : 0 < (text.splitOn newline).length :=
  List.length_pos_iff.mpr (List.splitOn_ne_nil _ _)

theorem splitOn_length {text : Bytes} (h : (text.splitOn newline).length = 1) : newline ∉ text := by
  intro member
  obtain ⟨front, back, rfl⟩ := List.append_of_mem member
  have first := splitOn_length_pos front
  have second := splitOn_length_pos back
  rw [List.splitOn_append_cons_self, List.length_append] at h
  omega

/-- Splitting gives no fewer pieces than lines, and no more only where no line holds a newline. -/
theorem framed_pieces (lines : List Bytes) :
    lines.length < ((framed lines).splitOn newline).length
      ∧ (((framed lines).splitOn newline).length = lines.length + 1 →
        ∀ line ∈ lines, newline ∉ line) := by
  induction lines with
  | nil => simp
  | cons line rest ih =>
    have pieces := splitOn_length_pos line
    rw [framed_cons, List.splitOn_append_cons_self, List.length_append, List.length_cons]
    constructor
    · have := ih.1
      omega
    · intro exact_count other member
      have more := ih.1
      rcases List.mem_cons.mp member with rfl | later
      · exact splitOn_length (by omega)
      · exact ih.2 (by omega) other later

/-- A text that frames to as many lines as were written holds exactly those lines. -/
theorem frame_lines {lines others : List Bytes} (read : frame (framed lines) = some others)
    (same : others.length = lines.length) : others = lines ∧ ∀ line ∈ lines, newline ∉ line := by
  unfold frame at read
  split at read
  · rename_i ends
    cases read
    have filled : lines ≠ [] := by
      rintro rfl
      cases ends
    have pieces := splitOn_length_pos (framed lines)
    have clean := (framed_pieces lines).2 (by
      rw [List.length_dropLast] at same
      omega)
    refine ⟨?_, clean⟩
    rw [splitOn_framed clean, List.dropLast_concat]
  · cases read

@[simp] theorem expectField_append (key value : Bytes) :
    expectField key (key ++ value) = some value := by
  simp [expectField, List.isPrefixOf_iff_prefix]

/-- What is read behind a key is the whole rest of the line. -/
theorem expectField_some {key line value : Bytes} (h : expectField key line = some value) : line = key ++ value := by
  unfold expectField at h
  split at h
  · rename_i starts
    obtain ⟨rest, rfl⟩ := List.isPrefixOf_iff_prefix.mp starts
    rw [List.drop_left] at h
    rw [Option.some.inj h]
  · cases h

/-- The items with commas between them; empty items get none. -/
def joined (items : List Bytes) : Bytes :=
  items.foldl (fun text item => text ++ (if text.isEmpty then [] else [comma]) ++ item) []

theorem joined_from {items : List Bytes} (filled : ∀ item ∈ items, item ≠ []) (text : Bytes)
    (started : text ≠ []) :
    items.foldl (fun text item => text ++ (if text.isEmpty then [] else [comma]) ++ item) text
      = text ++ items.flatMap fun item => comma :: item := by
  induction items generalizing text with
  | nil => simp
  | cons item rest ih =>
    have longer : text ++ comma :: item ≠ [] := by simp [started]
    have later := ih (fun other inside => filled other (List.mem_cons_of_mem _ inside)) _ longer
    simpa [started] using later

theorem joined_eq {items : List Bytes} (filled : ∀ item ∈ items, item ≠ []) :
    joined items = [comma].intercalate items := by
  cases items with
  | nil => rfl
  | cons first rest =>
    have started := filled first List.mem_cons_self
    have later := joined_from (fun other inside => filled other (List.mem_cons_of_mem _ inside))
      first started
    have shape : ∀ (first : Bytes) (rest : List Bytes),
        [comma].intercalate (first :: rest) = first ++ rest.flatMap fun item => comma :: item := by
      intro first rest
      induction rest generalizing first with
      | nil => simp
      | cons next others ih => simp [List.intercalate_cons_cons, ih next]
    rw [shape]
    simpa [joined] using later

/-- A list of filled items without separators is read as it was joined. -/
theorem splitOn_joined {items : List Bytes} (some_item : items ≠ [])
    (filled : ∀ item ∈ items, item ≠ []) (clean : ∀ item ∈ items, comma ∉ item) :
    (joined items).splitOn comma = items := by
  rw [joined_eq filled, List.splitOn_intercalate comma clean some_item]

theorem joined_ne_nil {items : List Bytes} (some_item : items ≠ [])
    (filled : ∀ item ∈ items, item ≠ []) : joined items ≠ [] := by
  obtain ⟨first, rest, rfl⟩ := List.exists_cons_of_ne_nil some_item
  have started := filled first List.mem_cons_self
  have later := joined_from (fun other inside => filled other (List.mem_cons_of_mem _ inside))
    first started
  intro nothing
  rw [joined, List.foldl_cons] at nothing
  have equal : first ++ rest.flatMap (fun item => comma :: item) = [] := by
    rw [← later]
    simpa using nothing
  exact started (List.append_eq_nil_iff.mp equal).1

/-- Short items make a short list. -/
theorem joined_length {items : List Bytes} {limit : Nat}
    (short : ∀ item ∈ items, item.length ≤ limit) :
    (joined items).length ≤ items.length * (limit + 1) := by
  have grows : ∀ (rest : List Bytes) (text : Bytes), (∀ item ∈ rest, item.length ≤ limit) →
      (rest.foldl (fun text item => text ++ (if text.isEmpty then [] else [comma]) ++ item)
        text).length ≤ text.length + rest.length * (limit + 1) := by
    intro rest
    induction rest with
    | nil => simp
    | cons item rest ih =>
      intro text fits
      have first := fits item List.mem_cons_self
      have separator : (if text.isEmpty then [] else [comma]).length ≤ 1 := by
        split <;> simp
      have later := ih (text ++ (if text.isEmpty then [] else [comma]) ++ item)
        fun other inside => fits other (List.mem_cons_of_mem _ inside)
      simp only [List.foldl_cons, List.length_cons, List.length_append] at later ⊢
      have product : (rest.length + 1) * (limit + 1) = rest.length * (limit + 1) + (limit + 1) :=
        Nat.succ_mul _ _
      omega
  simpa [joined] using grows items [] short

theorem joined_avoids {items : List Bytes} {byte : UInt8} (other : byte ≠ comma)
    (clean : ∀ item ∈ items, byte ∉ item) : byte ∉ joined items := by
  have kept : ∀ (rest : List Bytes) (text : Bytes), byte ∉ text → (∀ item ∈ rest, byte ∉ item) →
      byte ∉ rest.foldl
        (fun text item => text ++ (if text.isEmpty then [] else [comma]) ++ item) text := by
    intro rest
    induction rest with
    | nil => exact fun text absent _ => absent
    | cons item rest ih =>
      intro text absent others
      apply ih
      · have first := others item List.mem_cons_self
        have separator : byte ∉ (if text.isEmpty then [] else [comma]) := by
          split <;> simp [other]
        simp only [List.mem_append, not_or]
        exact ⟨⟨absent, separator⟩, first⟩
      · exact fun next inside => others next (List.mem_cons_of_mem _ inside)
  exact kept items [] (by simp) clean

end CkGit.Base
