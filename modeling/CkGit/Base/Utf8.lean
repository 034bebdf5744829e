import CkGit.Base.Text

/-!
isValidUtf8 of src/common/text.cpp: shortest forms only, no surrogates, at most
U+10FFFF.
-/
namespace CkGit.Base

def isContinuation (byte : UInt8) : Bool := byte &&& 0xc0 == 0x80

/-- The code point so far, extended by one continuation byte. -/
def extendCodePoint (code_point : Nat) (byte : UInt8) : Nat :=
  code_point * 64 + (byte &&& 0x3f).toNat

def isValidUtf8 (value : Bytes) : Bool :=
  match value with
  | [] => true
  | first :: rest =>
    if first ≤ 0x7f then isValidUtf8 rest
    else if 0xc2 ≤ first ∧ first ≤ 0xdf then
      match rest with
      | a :: rest => isContinuation a && isValidUtf8 rest
      | _ => false
    else if 0xe0 ≤ first ∧ first ≤ 0xef then
      match rest with
      | a :: b :: rest =>
        let code_point := extendCodePoint (extendCodePoint (first &&& 0x0f).toNat a) b
        isContinuation a && isContinuation b && 0x800 ≤ code_point
          && !(0xd800 ≤ code_point && code_point ≤ 0xdfff) && isValidUtf8 rest
      | _ => false
    else if 0xf0 ≤ first ∧ first ≤ 0xf4 then
      match rest with
      | a :: b :: c :: rest =>
        let code_point :=
          extendCodePoint (extendCodePoint (extendCodePoint (first &&& 0x07).toNat a) b) c
        isContinuation a && isContinuation b && isContinuation c && 0x10000 ≤ code_point
          && code_point ≤ 0x10ffff && isValidUtf8 rest
      | _ => false
    else false

theorem isValidUtf8_ascii {text : Bytes} (h : ∀ byte ∈ text, byte ≤ 0x7f) : isValidUtf8 text := by
  induction text with
  | nil => rfl
  | cons first rest ih =>
    have low := h first List.mem_cons_self
    unfold isValidUtf8
    simp only [if_pos low]
    exact ih fun byte member => h byte (List.mem_cons_of_mem _ member)

end CkGit.Base
