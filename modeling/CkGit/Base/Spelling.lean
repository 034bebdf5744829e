import CkGit.Base.Text
import Mathlib.Data.List.Induction

/-!
One spelling for each value: a decimal without leading zeros is the one its
value is written as, and hex is the encoding of what it decodes to.
-/
namespace CkGit.Base

def zero : UInt8 := '0'.toUInt8

/-- No leading zero, unless it is the only digit. -/
def plain (text : Bytes) : Bool := !(text.length > 1 && text.head? == some zero)

/-- The digits, and the two digits of every byte in hex. -/
theorem digit_table :
    (∀ n : Fin 256, isDigit (UInt8.ofFin n) = true →
      decimal ((UInt8.ofFin n).toNat - '0'.toNat) = [UInt8.ofFin n] ∧ (UInt8.ofFin n).toNat - '0'.toNat < 10
        ∧ (UInt8.ofFin n ≠ zero → 0 < (UInt8.ofFin n).toNat - '0'.toNat))
    ∧ (∀ n : Fin 10, 0 < n.val → (decimal n.val).head? ≠ some zero)
    ∧ (∀ n : Fin 256, ∀ nibble ∈ hexNibble (UInt8.ofFin n), nibble < 16 ∧ hexDigit nibble = UInt8.ofFin n)
    ∧ ∀ a b : Fin 16, ((UInt8.ofNat a <<< 4) ||| UInt8.ofNat b) >>> 4 = UInt8.ofNat a
      ∧ ((UInt8.ofNat a <<< 4) ||| UInt8.ofNat b) &&& 0x0f = UInt8.ofNat b := by
  decide +kernel

theorem decimal_digit {byte : UInt8} (digit : isDigit byte = true) :
    decimal (byte.toNat - '0'.toNat) = [byte] ∧ byte.toNat - '0'.toNat < 10
      ∧ (byte ≠ zero → 0 < byte.toNat - '0'.toNat) := digit_table.1 byte.toFin digit

theorem decimal_snoc {value digit : Nat} (positive : 0 < value) (small : digit < 10) :
    decimal (10 * value + digit) = decimal value ++ decimal digit := by
  rw [decimal, ← Nat.toDigits_append_toDigits (by decide) positive small, List.map_append]
  rfl

theorem digitsValue_snoc (front : Bytes) (byte : UInt8) :
    digitsValue (front ++ [byte]) = 10 * digitsValue front + (byte.toNat - '0'.toNat) := by
  simp [digitsValue]

theorem decimal_digitsValue {text : Bytes} (filled : text ≠ []) (digits : text.all isDigit = true)
    (unpadded : text.head? ≠ some zero) : 0 < digitsValue text ∧ decimal (digitsValue text) = text := by
  induction text using List.reverseRecOn with
  | nil => exact absurd rfl filled
  | append_singleton front byte ih =>
    rw [List.all_append, Bool.and_eq_true] at digits
    have last : isDigit byte = true := by simpa using digits.2
    obtain ⟨same, small, positive⟩ := decimal_digit last
    cases front with
    | nil =>
      have nonzero : byte ≠ zero := fun equal => unpadded (by simp [equal])
      have value : digitsValue ([] ++ [byte]) = byte.toNat - '0'.toNat := by simp [digitsValue]
      rw [value]
      exact ⟨positive nonzero, same⟩
    | cons first rest =>
      have inner := ih (List.cons_ne_nil _ _) digits.1 (by simpa using unpadded)
      rw [digitsValue_snoc]
      refine ⟨by omega, ?_⟩
      rw [decimal_snoc inner.1 small, inner.2, same]

theorem decimal_head {n : Nat} (positive : 0 < n) : (decimal n).head? ≠ some zero := by
  induction n using Nat.strongRecOn with
  | ind n ih =>
    by_cases small : n < 10
    · exact digit_table.2.1 ⟨n, small⟩ positive
    · have split : 10 * (n / 10) + n % 10 = n := Nat.div_add_mod n 10
      have tens : 0 < n / 10 := by omega
      have digits := decimal_ne_nil (n / 10)
      have inner := ih (n / 10) (by omega) tens
      rw [← split, decimal_snoc tens (Nat.mod_lt n (by decide)), List.head?_append_of_ne_nil _ digits]
      exact inner

theorem plain_decimal (n : Nat) : plain (decimal n) = true := by
  rcases Nat.eq_zero_or_pos n with rfl | positive
  · rfl
  · simp [plain, decimal_head positive]

/-- A number in its one spelling. -/
theorem parseDecimal_plain {limit n : Nat} {text : Bytes} :
    parseDecimal limit text = some n ∧ plain text = true ↔ n ≤ limit ∧ text = decimal n := by
  constructor
  · rintro ⟨read, unpadded⟩
    unfold parseDecimal at read
    split at read
    · rename_i accepted
      obtain ⟨filled, digits, bound⟩ := accepted
      obtain rfl := Option.some.inj read
      refine ⟨bound, ?_⟩
      by_cases lone : text.length > 1
      · have head : text.head? ≠ some zero := by simpa [plain, lone] using unpadded
        exact (decimal_digitsValue filled digits head).2.symm
      · have one : text.length = 1 := by
          have positive := List.length_pos_iff.mpr filled
          omega
        obtain ⟨byte, rfl⟩ := List.length_eq_one_iff.mp one
        have digit : isDigit byte = true := by simpa using digits
        have value : digitsValue [byte] = byte.toNat - '0'.toNat := by simp [digitsValue]
        rw [value, (decimal_digit digit).1]
    · cases read
  · rintro ⟨bound, rfl⟩
    exact ⟨parseDecimal_decimal bound, plain_decimal n⟩

/-- A sign, if there is one, before a plain number that is not zero. -/
def plainInt (text : Bytes) : Bool :=
  match text with
  | [] => true
  | byte :: rest => if byte = '-'.toUInt8 then rest.head? != some zero else plain text

theorem plainInt_decimalInt (n : Int) : plainInt (decimalInt n) = true := by
  cases n with
  | ofNat m =>
    have shape := decimal_ne_nil m
    have digits := decimal_digits m
    have good := plain_decimal m
    simp only [decimalInt]
    generalize decimal m = text at *
    cases text with
    | nil => rfl
    | cons byte rest =>
      have noSign : byte ≠ '-'.toUInt8 := digit_ne (digits byte List.mem_cons_self) rfl
      simp only [plainInt, if_neg noSign, good]
  | negSucc m =>
    have head := decimal_head (Nat.succ_pos m)
    simpa [decimalInt, plainInt] using head

theorem parseDecimalInt_plain {below limit : Nat} {n : Int} {text : Bytes} :
    parseDecimalInt below limit text = some n ∧ plainInt text = true
      ↔ (-(below : Int) ≤ n ∧ n ≤ limit) ∧ text = decimalInt n := by
  constructor
  · rintro ⟨read, good⟩
    match text with
    | [] => cases read
    | byte :: rest =>
      simp only [parseDecimalInt] at read
      simp only [plainInt] at good
      split at read
      · rename_i sign
        rw [if_pos sign] at good
        obtain ⟨value, lifted, rfl⟩ := Option.map_eq_some_iff.mp read
        obtain ⟨m, number, same⟩ := Option.bind_eq_some_iff.mp lifted
        obtain rfl := Option.some.inj same
        have unpadded : rest.head? ≠ some zero := by simpa using good
        have spelled : plain rest = true := by simp [plain, unpadded]
        obtain ⟨bound, rfl⟩ := parseDecimal_plain.mp ⟨number, spelled⟩
        cases m with
        | zero => exact absurd rfl unpadded
        | succ m =>
          refine ⟨⟨by omega, by omega⟩, ?_⟩
          rw [sign]
          rfl
      · rename_i unsigned
        rw [if_neg unsigned] at good
        obtain ⟨value, lifted, rfl⟩ := Option.map_eq_some_iff.mp read
        obtain ⟨m, number, same⟩ := Option.bind_eq_some_iff.mp lifted
        obtain rfl := Option.some.inj same
        obtain ⟨bound, spelled⟩ := parseDecimal_plain.mp ⟨number, good⟩
        exact ⟨⟨by omega, by omega⟩, spelled⟩
  · rintro ⟨⟨low, high⟩, rfl⟩
    exact ⟨parseDecimalInt_decimalInt low high, plainInt_decimalInt n⟩

theorem hexDigit_nibble {byte nibble : UInt8} (read : hexNibble byte = some nibble) :
    nibble < 16 ∧ hexDigit nibble = byte := digit_table.2.2.1 byte.toFin nibble read

theorem hex_halves {high low : UInt8} (first : high < 16) (second : low < 16) :
    ((high <<< 4) ||| low) >>> 4 = high ∧ ((high <<< 4) ||| low) &&& 0x0f = low := by
  have found := digit_table.2.2.2 ⟨high.toNat, UInt8.lt_iff_toNat_lt.mp first⟩ ⟨low.toNat, UInt8.lt_iff_toNat_lt.mp second⟩
  simpa using found

theorem hexPairs_spelled {hex bytes : Bytes} (read : hexPairs hex = some bytes) : hex = hexEncode bytes := by
  fun_induction hexPairs hex generalizing bytes with
  | case1 =>
    cases read
    rfl
  | case2 => cases read
  | case3 high low rest ih =>
    simp only [Option.bind_eq_bind, Option.bind_eq_some_iff, pure, Option.some.injEq] at read
    obtain ⟨first, highRead, second, lowRead, decoded, later, rfl⟩ := read
    obtain ⟨one, rfl⟩ := hexDigit_nibble highRead
    obtain ⟨two, rfl⟩ := hexDigit_nibble lowRead
    obtain ⟨up, down⟩ := hex_halves one two
    rw [hexEncode_cons, up, down, ← ih later]

/-- Hex has one spelling. -/
theorem hexDecode_spelled {hex bytes : Bytes} {limit : Nat} :
    hexDecode hex limit = some bytes ↔ bytes.length ≤ limit ∧ hex = hexEncode bytes := by
  constructor
  · intro read
    refine ⟨hexDecode_length read, ?_⟩
    unfold hexDecode at read
    split at read
    · cases read
    · exact hexPairs_spelled read
  · rintro ⟨short, rfl⟩
    exact hexDecode_hexEncode short

end CkGit.Base
