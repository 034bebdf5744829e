import CkGit.Responses.Fields

/-!
The lines of a response. Its text is its lines, each ended by a newline; a
grammar whose values have one spelling makes the parser exact, and a formatter
adds one line at a time under the bound.
-/
namespace CkGit.Responses
open CkGit.Base CkGit.Base.Grammar CkGit.Ci
variable {α β : Type}

theorem framed_intercalate {lines : List Bytes} (some_line : lines ≠ []) :
    framed lines = [newline].intercalate lines ++ [newline] := by
  induction lines with
  | nil => exact absurd rfl some_line
  | cons line rest ih =>
    cases rest with
    | nil => simp
    | cons next others =>
      rw [framed_cons, ih (List.cons_ne_nil _ _), List.intercalate_cons_cons]
      simp

theorem frame_spelled {content : Bytes} {lines : List Bytes} :
    frame content = some lines ↔ content = framed lines ∧ lines ≠ [] ∧ ∀ line ∈ lines, newline ∉ line := by
  constructor
  · intro read
    unfold frame at read
    split at read
    · rename_i ended
      obtain rfl := Option.some.inj read
      obtain ⟨front, rfl⟩ := List.getLast?_eq_some_iff.mp ended
      have pieces : (front ++ [newline]).splitOn newline = front.splitOn newline ++ [[]] := by
        rw [List.splitOn_append_cons_self, List.splitOn_nil]
      rw [pieces, List.dropLast_concat]
      refine ⟨?_, List.splitOn_ne_nil _ _, fun line member => splitOn_avoids member⟩
      rw [framed_intercalate (List.splitOn_ne_nil _ _), List.intercalate_splitOn]
    · cases read
  · rintro ⟨rfl, some_line, clean⟩
    exact frame_framed some_line clean

/-- A line of printable characters and spaces. -/
def CleanLine (line : Bytes) : Prop := line.all isLineByte = true

theorem CleanLine.newline_notMem {line : Bytes} (clean : CleanLine line) : newline ∉ line :=
  not_mem_of_all clean (by decide)

theorem unwords_clean {words : List Bytes} (printed : ∀ word ∈ words, word.all isPrinted = true) :
    CleanLine (unwords words) := by
  have each : ∀ word ∈ words, word.all isLineByte = true := by
    intro word member
    exact List.all_eq_true.mpr fun byte inside =>
      (printed_table byte.toFin).2.2.2.2.2.2.1 (List.all_eq_true.mp (printed word member) byte inside)
  clear printed
  induction words with
  | nil => rfl
  | cons word rest ih =>
    have first := each word List.mem_cons_self
    have others := ih fun other member => each other (List.mem_cons_of_mem _ member)
    cases rest with
    | nil => simpa [unwords, CleanLine] using first
    | cons next more =>
      unfold CleanLine unwords at others ⊢
      rw [List.intercalate_cons_cons, List.all_append, List.all_append, first, others]
      rfl

theorem record_clean {keyword : Bytes} (printed : keyword.all isPrinted = true) {fields : List Bytes}
    (each : ∀ field ∈ fields, Printed field) : CleanLine (unwords (keyword :: fields)) := by
  refine unwords_clean fun word member => ?_
  rcases List.mem_cons.mp member with rfl | inside
  · exact printed
  · exact (each word inside).2

theorem responseLines_spelled {response : Bytes} {lines : List Bytes} :
    responseLines response = some lines ↔ response = framed lines ∧ lines ≠ []
      ∧ response.length ≤ kMaximumControlResponseBytes ∧ ∀ line ∈ lines, CleanLine line := by
  unfold responseLines
  constructor
  · intro read
    split at read
    · cases read
    · rename_i accepted
      simp only [Bool.or_eq_true, not_or, decide_eq_true_eq, Nat.not_lt, Bool.not_eq_true] at accepted
      obtain ⟨whole, some_line, avoids⟩ := frame_spelled.mp read
      refine ⟨whole, some_line, accepted.1.2, fun line member => List.all_eq_true.mpr fun byte inside => ?_⟩
      have within : byte ∈ response := by
        rw [whole]
        exact List.mem_flatMap.mpr ⟨line, member, List.mem_append_left _ inside⟩
      have other : byte ≠ newline := fun same => avoids line member (same ▸ inside)
      have safe := List.any_eq_false.mp accepted.2 byte within
      simpa [other] using safe
  · rintro ⟨rfl, some_line, short, clean⟩
    have filled : (framed lines).isEmpty = false := by
      obtain ⟨first, rest, rfl⟩ := List.exists_cons_of_ne_nil some_line
      cases first <;> simp
    have safe : ((framed lines).any fun byte => byte != newline && !isLineByte byte) = false := by
      refine List.any_eq_false.mpr fun byte within => ?_
      obtain ⟨line, member, inside⟩ := List.mem_flatMap.mp within
      rcases List.mem_append.mp inside with body | ending
      · simp [List.all_eq_true.mp (clean line member) byte body]
      · simp [List.mem_singleton.mp ending]
    have within : ¬ (framed lines).length > kMaximumControlResponseBytes := Nat.not_lt.mpr short
    rw [filled, safe, decide_eq_false within]
    exact frame_framed some_line fun line member => (clean line member).newline_notMem

theorem parseResponse_spelled {grammar : Grammar α} {spelled : α → List Bytes → Prop} (law : Spells grammar spelled)
    {response : Bytes} {a : α} :
    parseResponse grammar response = some a ↔ ∃ lines, spelled a lines ∧ response = framed lines ∧ lines ≠ []
      ∧ response.length ≤ kMaximumControlResponseBytes ∧ ∀ line ∈ lines, CleanLine line := by
  have ends : ∀ lines : List Bytes, grammar lines = some (a, []) ↔ spelled a lines := by
    intro lines
    have whole := law lines a []
    simpa only [List.append_nil, exists_eq_right'] using whole
  rw [parseResponse, Option.bind_eq_some_iff]
  constructor
  · rintro ⟨lines, framing, read⟩
    refine ⟨lines, (ends lines).mp ?_, responseLines_spelled.mp framing⟩
    split at read
    · next found shape =>
      rw [shape, Option.some.inj read]
    · cases read
  · rintro ⟨lines, spells, framing⟩
    refine ⟨lines, responseLines_spelled.mpr framing, ?_⟩
    rw [(ends lines).mpr spells]

/-- Where a value has one spelling the parser accepts its text and no other. -/
theorem parseResponse_exact {grammar : Grammar α} {good : α → Prop} {lines : α → List Bytes}
    (law : Spells grammar fun a used => good a ∧ used = lines a) (some_line : ∀ a, lines a ≠ [])
    (clean : ∀ a, good a → ∀ line ∈ lines a, CleanLine line) {response : Bytes} {a : α} :
    parseResponse grammar response = some a
      ↔ good a ∧ response = framed (lines a) ∧ response.length ≤ kMaximumControlResponseBytes := by
  rw [parseResponse_spelled law]
  constructor
  · rintro ⟨used, ⟨fine, rfl⟩, whole, -, short, -⟩
    exact ⟨fine, whole, short⟩
  · rintro ⟨fine, whole, short⟩
    exact ⟨lines a, ⟨fine, rfl⟩, whole, some_line a, short, clean a fine⟩

/-- What adds these lines to a response where the value is good and they fit. -/
def Appends (write : Bytes → Option Bytes) (good : Prop) (lines : List Bytes) : Prop :=
  ∀ response text, response.length ≤ kMaximumControlResponseBytes → (write response = some text
    ↔ good ∧ text = response ++ framed lines ∧ text.length ≤ kMaximumControlResponseBytes)

theorem appends_append (line : Bytes) : Appends (append · line) True [line] := by
  intro response text _
  have size : (response ++ line ++ [newline]).length = response.length + (line.length + 1) := by
    simp only [List.length_append, List.length_singleton]
    omega
  have shape : response ++ framed [line] = response ++ line ++ [newline] := by simp
  rw [shape]
  change append response line = some text ↔ _
  unfold append
  constructor
  · intro written
    split at written
    · cases written
    · obtain rfl := Option.some.inj written
      exact ⟨trivial, rfl, by omega⟩
  · rintro ⟨-, rfl, short⟩
    rw [if_neg (by omega)]

theorem Appends.guard {write : Bytes → Option Bytes} {good : Prop} {lines : List Bytes} (h : Appends write good lines)
    (condition : Bool) :
    Appends (fun response => if condition then write response else none) (condition = true ∧ good) lines := by
  intro response text fits
  cases condition with
  | true => simpa using h response text fits
  | false => simp

theorem Appends.then {first next : Bytes → Option Bytes} {one two : Prop} {front back : List Bytes}
    (h₁ : Appends first one front) (h₂ : Appends next two back) :
    Appends (fun response => (first response).bind next) (one ∧ two) (front ++ back) := by
  intro response text fits
  rw [Option.bind_eq_some_iff]
  constructor
  · rintro ⟨middle, written, continued⟩
    obtain ⟨fine, rfl, within⟩ := (h₁ response middle fits).mp written
    obtain ⟨good, rfl, short⟩ := (h₂ _ text within).mp continued
    exact ⟨⟨fine, good⟩, by simp, short⟩
  · rintro ⟨⟨fine, good⟩, rfl, short⟩
    rw [framed_append, ← List.append_assoc] at short ⊢
    have within : (response ++ framed front).length ≤ kMaximumControlResponseBytes := by
      rw [List.length_append] at short
      omega
    exact ⟨_, (h₁ _ _ fits).mpr ⟨fine, rfl, within⟩, (h₂ _ _ within).mpr ⟨good, rfl, short⟩⟩

theorem appends_foldlM {write : Bytes → α → Option Bytes} {good : α → Prop} {lines : α → List Bytes} (items : List α)
    (each : ∀ item, Appends (write · item) (good item) (lines item)) :
    Appends (items.foldlM write ·) (∀ item ∈ items, good item) (items.flatMap lines) := by
  induction items with
  | nil =>
    intro response text fits
    constructor
    · intro written
      obtain rfl := Option.some.inj written
      exact ⟨nofun, by simp, fits⟩
    · rintro ⟨-, rfl, -⟩
      simp
  | cons item rest ih =>
    intro response text fits
    have both := (each item).then ih response text fits
    rw [List.forall_mem_cons, List.flatMap_cons, ← both]
    exact Iff.rfl

end CkGit.Responses
