import CkGit.Base.Search
import CkGit.Web.Requests

/-!
What the framing test and the byte scan of a request say together: it is its
lines, each ended by CR LF and none but the last one empty, nor the first one
where more follow.
-/
namespace CkGit.Web
open CkGit.Base CkGit.Ci

variable {text line : Bytes} {previous : Option UInt8}

/-- Up to the first line end. -/
theorem cleanBytes_split (clean : cleanBytes previous text = true) (inside : previous ≠ some carriage) :
    isLineText text = true
      ∨ ∃ line rest, isLineText line = true ∧ text = line ++ crlf ++ rest ∧ cleanBytes (some newline) rest = true := by
  induction text generalizing previous with
  | nil => exact .inl rfl
  | cons byte rest ih =>
    rw [cleanBytes] at clean
    obtain ⟨good, later⟩ := Bool.and_eq_true_iff.mp clean
    by_cases ends : byte = carriage
    · subst ends
      rw [if_pos rfl, beq_iff_eq] at good
      obtain ⟨more, rfl⟩ := List.head?_eq_some_iff.mp good
      rw [cleanBytes] at later
      exact .inr ⟨[], more, rfl, rfl, (Bool.and_eq_true_iff.mp later).2⟩
    · rw [if_neg ends] at good
      by_cases line_feed : byte = newline
      · rw [if_pos line_feed, beq_iff_eq] at good
        exact absurd good inside
      · rw [if_neg line_feed] at good
        rcases ih later (fun same => ends (Option.some.inj same)) with plain | ⟨line, more, plain, rfl, tail⟩
        · exact .inl (Bool.and_eq_true_iff.mpr ⟨good, plain⟩)
        · exact .inr ⟨byte :: line, more, Bool.and_eq_true_iff.mpr ⟨good, plain⟩, rfl, tail⟩

/-- Lines, and what follows the last of them. -/
theorem cleanBytes_pieces (clean : cleanBytes previous text = true) (inside : previous ≠ some carriage) :
    ∃ (lines : List Bytes) (tail : Bytes), text = lines.flatMap (· ++ crlf) ++ tail
      ∧ (∀ line ∈ lines, isLineText line = true) ∧ isLineText tail = true := by
  induction size : text.length using Nat.strongRecOn generalizing text previous with
  | ind n ih =>
    rcases cleanBytes_split clean inside with plain | ⟨line, rest, plain, rfl, later⟩
    · exact ⟨[], text, rfl, nofun, plain⟩
    · have shorter : rest.length < n := by
        rw [← size, List.length_append, List.length_append]
        exact Nat.lt_add_of_pos_left (Nat.add_pos_right _ (by decide))
      obtain ⟨lines, tail, rfl, each, ending⟩ := ih _ shorter later (by decide) rfl
      refine ⟨line :: lines, tail, by simp, ?_, ending⟩
      rintro other (_ | ⟨_, member⟩)
      exacts [plain, each other member]

/-- A text that a line end closes leaves nothing after its lines. -/
theorem pieces_closed {lines : List Bytes} {tail front : Bytes} (plain : isLineText tail = true)
    (closed : lines.flatMap (· ++ crlf) ++ tail = front ++ crlf) : tail = [] := by
  rcases List.eq_nil_or_concat' tail with rfl | ⟨before, last, rfl⟩
  · rfl
  · have ends := congrArg List.getLast? closed
    rw [← List.append_assoc, List.getLast?_concat] at ends
    have same : last = newline := by simpa [crlf] using ends
    exact absurd (same ▸ List.mem_append_right before (.head _)) (isLineText_avoids plain).2

theorem lines_closed {lines : List Bytes} {front : Bytes} (closed : lines.flatMap (· ++ crlf) = front ++ crlf) :
    ∃ before last, lines = before ++ [last] ∧ before.flatMap (· ++ crlf) ++ last = front := by
  rcases List.eq_nil_or_concat' lines with rfl | ⟨before, last, rfl⟩
  · exact absurd (congrArg List.length closed) (by simp [crlf])
  · refine ⟨before, last, rfl, ?_⟩
    rw [List.flatMap_append, List.flatMap_singleton, ← List.append_assoc] at closed
    exact List.append_cancel_right closed

/-- What the two tests accept. -/
theorem framed_lines (long : 4 ≤ text.length) (ends : findPiece (crlf ++ crlf) text = some (text.length - 4))
    (clean : cleanBytes none text = true) :
    ∃ line headers, text = requestText (line :: headers) ∧ isLineText line = true
      ∧ ∀ header ∈ headers, isLineText header = true ∧ header ≠ [] := by
  obtain ⟨front, rest, split, length, -⟩ := findPiece_split (by decide) ends
  have last : rest = [] := by
    have whole := congrArg List.length split
    simp only [List.length_append, length, crlf, List.length_cons, List.length_nil] at whole
    exact List.length_eq_zero_iff.mp (by omega)
  rw [last, List.append_nil, ← List.append_assoc] at split
  obtain ⟨lines, tail, shape, plain, ending⟩ := cleanBytes_pieces clean (by decide)
  have no_tail := pieces_closed ending (shape.symm.trans split)
  subst no_tail
  rw [List.append_nil] at shape
  obtain ⟨before, final, rfl, closed⟩ := lines_closed (shape.symm.trans split)
  have no_final := pieces_closed (plain final (by simp)) closed
  subst no_final
  rw [List.append_nil] at closed
  rcases before with _ | ⟨line, headers⟩
  · exact absurd (congrArg List.length closed) (by simp [crlf])
  have whole : text = requestText (line :: headers) := by
    rw [shape, List.flatMap_append]
    rfl
  refine ⟨line, headers, whole, plain line (by simp), fun header member => ⟨plain header (by simp [member]), ?_⟩⟩
  rintro rfl
  -- An empty header line would end the request earlier.
  obtain ⟨above, below, rfl⟩ := List.append_of_mem member
  obtain ⟨start, begins⟩ : ∃ start, (line :: above).flatMap (· ++ crlf) = start ++ crlf := by
    rcases List.eq_nil_or_concat' (line :: above) with none | ⟨most, last, concat⟩
    · cases none
    · exact ⟨most.flatMap (· ++ crlf) ++ last, by rw [concat, List.flatMap_append]; simp⟩
  have early : text = start ++ (crlf ++ crlf) ++ (below.flatMap (· ++ crlf) ++ crlf) := by
    have cut : line :: (above ++ [] :: below) = (line :: above) ++ ([[]] ++ below) := rfl
    rw [whole, requestText, cut, List.flatMap_append, begins, List.flatMap_append]
    simp
  obtain ⟨k, found, small⟩ := @findPiece_le start (below.flatMap (· ++ crlf) ++ crlf) (crlf ++ crlf) (by decide)
  rw [← early, ends, Option.some.injEq] at found
  have total := congrArg List.length early
  simp only [List.length_append, crlf, List.length_cons, List.length_nil] at total
  omega

end CkGit.Web
