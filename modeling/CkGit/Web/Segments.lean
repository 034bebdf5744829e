import CkGit.Web.Router
import Mathlib.Data.List.Count

/-!
A segment is decoded as it was encoded, and has one spelling only; the searches
of the router find where the pieces of a text were joined.
-/
namespace CkGit.Web
open CkGit.Base CkGit.Ci CkGit.Events

section
variable {sep : UInt8} {piece text front back : Bytes}

theorem splitFirst_none (absent : sep ∉ text) : splitFirst sep text = (text, none) := by
  induction text with
  | nil => rfl
  | cons byte rest ih =>
    obtain ⟨other, later⟩ : sep ≠ byte ∧ sep ∉ rest := by simpa only [List.mem_cons, not_or] using absent
    rw [splitFirst, if_neg (Ne.symm other), ih later]

theorem splitFirst_append (absent : sep ∉ front) : splitFirst sep (front ++ sep :: back) = (front, some back) := by
  induction front with
  | nil => exact if_pos rfl
  | cons byte rest ih =>
    obtain ⟨other, later⟩ : sep ≠ byte ∧ sep ∉ rest := by simpa only [List.mem_cons, not_or] using absent
    rw [List.cons_append, splitFirst, if_neg (Ne.symm other), ih later]

/-- What was found is there. -/
theorem splitLast_some (h : splitLast piece text = some (front, back)) : text = front ++ piece ++ back := by
  induction text generalizing front with
  | nil => cases h
  | cons byte rest ih =>
    rw [splitLast] at h
    split at h
    · rename_i before after found
      obtain ⟨rfl, rfl⟩ := Prod.mk.inj (Option.some.inj h)
      rw [ih found]
      rfl
    · split at h
      · rename_i starts
        obtain ⟨rfl, rfl⟩ := Prod.mk.inj (Option.some.inj h)
        obtain ⟨tail, same⟩ := List.isPrefixOf_iff_prefix.mp starts
        rw [← same]
        simp
      · cases h

/-- The last piece is found where none begins after it. -/
theorem splitLast_append {first : UInt8} (later : splitLast (first :: piece) (piece ++ back) = none) :
    splitLast (first :: piece) (front ++ (first :: piece) ++ back) = some (front, back) := by
  induction front with
  | nil =>
    have starts : (first :: piece).isPrefixOf (first :: (piece ++ back)) = true :=
      List.isPrefixOf_iff_prefix.mpr ⟨back, rfl⟩
    show splitLast (first :: piece) (first :: (piece ++ back)) = _
    rw [splitLast, later]
    simp only [if_pos starts]
    simp
  | cons byte rest ih =>
    rw [List.cons_append, List.cons_append, splitLast, ih]

/-- A piece is not found among fewer of its bytes. -/
theorem splitLast_none (fewer : text.count sep < piece.count sep) : splitLast piece text = none := by
  cases found : splitLast piece text with
  | none => rfl
  | some parts =>
    have same := @splitLast_some piece text parts.1 parts.2 found
    rw [same] at fewer
    simp only [List.count_append] at fewer
    omega

end

theorem unreserved_not_percent {byte : UInt8} (h : unreserved byte = true) : byte ≠ percent := by
  rintro rfl
  cases h

theorem encodeByte_hex (byte : UInt8) (escaped : unreserved byte = false) :
    encodeByte byte = [percent, hexLetter (byte >>> 4), hexLetter (byte &&& 15)] := by
  rw [encodeByte, escaped]
  rfl

theorem hex_letters (byte : UInt8) :
    hexDigit (hexLetter (byte >>> 4)) = some (byte >>> 4)
      ∧ hexDigit (hexLetter (byte &&& 15)) = some (byte &&& 15)
      ∧ ((byte >>> 4) <<< 4) ||| (byte &&& 15) = byte := by
  have all : ∀ n : Fin 256, hexDigit (hexLetter (UInt8.ofFin n >>> 4)) = some (UInt8.ofFin n >>> 4)
      ∧ hexDigit (hexLetter (UInt8.ofFin n &&& 15)) = some (UInt8.ofFin n &&& 15)
      ∧ ((UInt8.ofFin n >>> 4) <<< 4) ||| (UInt8.ofFin n &&& 15) = UInt8.ofFin n := by
    decide +kernel
  exact all byte.toFin

/-- A hex digit has one letter. -/
theorem hexDigit_letter {byte nibble : UInt8} (h : hexDigit byte = some nibble) :
    nibble < 16 ∧ hexLetter nibble = byte := by
  have all : ∀ n : Fin 256, ∀ nibble, hexDigit (UInt8.ofFin n) = some nibble →
      nibble < 16 ∧ hexLetter nibble = UInt8.ofFin n := by
    have each : ∀ n : Fin 256, (hexDigit (UInt8.ofFin n)).all
        fun nibble => nibble < 16 && hexLetter nibble == UInt8.ofFin n := by
      decide +kernel
    intro n nibble same
    have both := each n
    rw [same] at both
    simpa using both
  exact all byte.toFin nibble h

theorem nibbles {high low : UInt8} (first : high < 16) (second : low < 16) :
    ((high <<< 4) ||| low) >>> 4 = high ∧ ((high <<< 4) ||| low) &&& 15 = low := by
  have all : ∀ a b : Fin 16, ((UInt8.ofNat a <<< 4) ||| UInt8.ofNat b) >>> 4 = UInt8.ofNat a
      ∧ ((UInt8.ofNat a <<< 4) ||| UInt8.ofNat b) &&& 15 = UInt8.ofNat b := by
    decide +kernel
  have pair := all ⟨high.toNat, first⟩ ⟨low.toNat, second⟩
  simpa using pair

theorem encodePathSegment_cons (byte : UInt8) (rest : Bytes) :
    encodePathSegment (byte :: rest) = encodeByte byte ++ encodePathSegment rest := rfl

theorem decodeBytes_encode {value : Bytes} (plain : ∀ byte ∈ value, printable byte = true) :
    decodeBytes (encodePathSegment value) = some value := by
  induction value with
  | nil => rfl
  | cons byte rest ih =>
    have later := ih fun other member => plain other (List.mem_cons_of_mem _ member)
    have first := plain byte List.mem_cons_self
    rw [encodePathSegment_cons]
    cases kept : unreserved byte with
    | true =>
      have single : encodeByte byte = [byte] := if_pos kept
      rw [single, List.singleton_append, decodeBytes.eq_def]
      simp only [if_neg (unreserved_not_percent kept), if_pos kept, later]
      rfl
    | false =>
      obtain ⟨high, low, whole⟩ := hex_letters byte
      rw [encodeByte_hex byte kept]
      show decodeBytes (percent :: hexLetter (byte >>> 4) :: hexLetter (byte &&& 15) :: encodePathSegment rest) = _
      rw [decodeBytes, if_pos rfl]
      simp only [high, low, Option.bind_eq_bind, Option.bind_some, whole, kept, first, later]
      rfl

/-- What is decoded has no other spelling. -/
theorem encode_decodeBytes {value decoded : Bytes} (h : decodeBytes value = some decoded) :
    encodePathSegment decoded = value := by
  fun_induction decodeBytes value generalizing decoded with
  | case1 =>
    cases h
    rfl
  | case2 high low rest ih =>
    simp only [Option.bind_eq_bind, Option.bind_eq_some_iff] at h
    obtain ⟨a, first, b, second, h⟩ := h
    split at h
    · cases h
    rename_i accepted
    obtain ⟨later, found, same⟩ := Option.bind_eq_some_iff.mp h
    obtain rfl := Option.some.inj same
    obtain ⟨small_high, rfl⟩ := hexDigit_letter first
    obtain ⟨small_low, rfl⟩ := hexDigit_letter second
    obtain ⟨upper, lower⟩ := nibbles small_high small_low
    have escaped : unreserved ((a <<< 4) ||| b) = false := by
      simp only [Bool.or_eq_true, not_or] at accepted
      simpa using accepted.1
    rw [encodePathSegment_cons, encodeByte_hex _ escaped, upper, lower, ih found]
    rfl
  | case3 => cases h
  | case4 byte rest other kept ih =>
    obtain ⟨later, found, same⟩ := Option.bind_eq_some_iff.mp h
    obtain rfl := Option.some.inj same
    rw [encodePathSegment_cons, encodeByte, if_pos kept, ih found]
    rfl
  | case5 => cases h

/-- A text that a route may hold. -/
structure RouteText (value : Bytes) : Prop where
  utf8 : isValidUtf8 value = true
  controls : hasControl value = false
  printable : ∀ byte ∈ value, printable byte = true

theorem decodePathSegment_encode {value : Bytes} (text : RouteText value)
    (fits : (encodePathSegment value).length ≤ kMaximumRouteBytes) :
    decodePathSegment (encodePathSegment value) = some value := by
  rw [decodePathSegment, if_neg (Nat.not_lt.mpr fits), decodeBytes_encode text.printable]
  simp [text.utf8, text.controls]

theorem encode_decodePathSegment {value decoded : Bytes} (h : decodePathSegment value = some decoded) :
    encodePathSegment decoded = value := by
  unfold decodePathSegment at h
  split at h
  · cases h
  · exact encode_decodeBytes (Option.filter_eq_some_iff.mp h).1

/-- The bytes of an encoded segment. -/
theorem encodeByte_bytes (byte : UInt8) :
    ∀ out ∈ encodeByte byte, isRouteByte out = true ∧ out ≠ colon := by
  have all : ∀ n : Fin 256, (encodeByte (UInt8.ofFin n)).all fun out => isRouteByte out && out != colon := by
    decide +kernel
  intro out member
  have both := List.all_eq_true.mp (all byte.toFin) out member
  simpa using both

theorem encode_bytes {value : Bytes} :
    ∀ out ∈ encodePathSegment value, isRouteByte out = true ∧ out ≠ colon := by
  intro out member
  obtain ⟨byte, -, inside⟩ := List.mem_flatMap.mp member
  exact encodeByte_bytes byte out inside

theorem colon_not_mem_encode (value : Bytes) : colon ∉ encodePathSegment value :=
  fun member => (encode_bytes colon member).2 rfl

end CkGit.Web
