import CkGit.Base.Text
import Mathlib.Data.List.Forall2

/-!
# Grammars of tokens

A parser takes tokens from the front of a list. What it accepts is a relation
between a value and the tokens that spell it; the relation of a parser is built
from those of its parts. A line is a record of words with spaces between them.
-/
namespace CkGit.Base

abbrev Grammar := StateT (List Bytes) Option

namespace Grammar
variable {α β : Type}

/-- The parser takes exactly the tokens that spell a value. -/
def Spells (grammar : Grammar α) (spelled : α → List Bytes → Prop) : Prop :=
  ∀ tokens a rest, grammar tokens = some (a, rest) ↔ ∃ used, spelled a used ∧ tokens = used ++ rest

theorem Spells.congr {grammar : Grammar α} {spelled other : α → List Bytes → Prop} (h : Spells grammar spelled)
    (same : ∀ a used, spelled a used ↔ other a used) : Spells grammar other := by
  intro tokens a rest
  rw [h]
  exact exists_congr fun used => and_congr_left' (same a used)

theorem spells_pure (a : α) : Spells (pure a : Grammar α) fun b used => b = a ∧ used = [] := by
  intro tokens b rest
  constructor
  · intro same
    obtain ⟨rfl, rfl⟩ := Prod.mk.inj (Option.some.inj same)
    exact ⟨[], ⟨rfl, rfl⟩, rfl⟩
  · rintro ⟨used, ⟨rfl, rfl⟩, rfl⟩
    rfl

theorem spells_bind {first : Grammar α} {next : α → Grammar β} {spelled : α → List Bytes → Prop}
    {later : α → β → List Bytes → Prop} (one : Spells first spelled) (two : ∀ a, Spells (next a) (later a)) :
    Spells (first >>= next) fun b used =>
      ∃ a front back, spelled a front ∧ later a b back ∧ used = front ++ back := by
  intro tokens b rest
  have unfolded : (first >>= next) tokens = (first tokens).bind fun taken => next taken.1 taken.2 := rfl
  rw [unfolded, Option.bind_eq_some_iff]
  constructor
  · rintro ⟨⟨a, middle⟩, taken, continued⟩
    obtain ⟨front, spells, rfl⟩ := (one tokens a middle).mp taken
    obtain ⟨back, others, rfl⟩ := (two a middle b rest).mp continued
    exact ⟨front ++ back, ⟨a, front, back, spells, others, rfl⟩, (List.append_assoc _ _ _).symm⟩
  · rintro ⟨used, ⟨a, front, back, spells, others, rfl⟩, rfl⟩
    refine ⟨(a, back ++ rest), (one _ _ _).mpr ⟨front, spells, List.append_assoc _ _ _⟩, ?_⟩
    exact (two a _ b rest).mpr ⟨back, others, rfl⟩

/-- A check between tokens. -/
def check (good : Bool) : Grammar Unit := if good then pure () else failure

theorem spells_check (good : Bool) : Spells (check good) fun _ used => good = true ∧ used = [] := by
  cases good with
  | true => exact (spells_pure ()).congr fun _ _ => by simp
  | false =>
    intro tokens a rest
    exact ⟨nofun, fun ⟨_, ⟨good, _⟩, _⟩ => nomatch good⟩

theorem spells_checked {good : Bool} {next : Grammar α} {spelled : α → List Bytes → Prop} (h : Spells next spelled) :
    Spells (check good >>= fun _ => next) fun a used => good = true ∧ spelled a used := by
  refine (spells_bind (spells_check good) fun _ => h).congr fun a used => ?_
  constructor
  · rintro ⟨_, _, back, ⟨fine, rfl⟩, spells, rfl⟩
    exact ⟨fine, spells⟩
  · rintro ⟨fine, spells⟩
    exact ⟨(), [], used, ⟨fine, rfl⟩, spells, rfl⟩

theorem spells_map {grammar : Grammar α} {spelled : α → List Bytes → Prop} (h : Spells grammar spelled) (f : α → β) :
    Spells (grammar >>= fun a => pure (f a)) fun b used => ∃ a, spelled a used ∧ b = f a := by
  refine (spells_bind h fun a => spells_pure (f a)).congr fun b used => ?_
  constructor
  · rintro ⟨a, front, _, spells, ⟨rfl, rfl⟩, rfl⟩
    exact ⟨a, by rwa [List.append_nil], rfl⟩
  · rintro ⟨a, spells, rfl⟩
    exact ⟨a, used, [], spells, ⟨rfl, rfl⟩, (List.append_nil used).symm⟩

/-- One token. -/
def token (read : Bytes → Option α) : Grammar α := fun tokens =>
  match tokens with
  | [] => none
  | first :: rest => (read first).map (·, rest)

theorem spells_token {read : Bytes → Option α} :
    Spells (token read) fun a used => ∃ text, read text = some a ∧ used = [text] := by
  intro tokens a rest
  cases tokens with
  | nil => exact ⟨nofun, fun ⟨_, ⟨_, _, same⟩, whole⟩ => by simp [same] at whole⟩
  | cons first others =>
    constructor
    · intro taken
      obtain ⟨value, found, same⟩ := Option.map_eq_some_iff.mp taken
      obtain ⟨rfl, rfl⟩ := Prod.mk.inj same
      exact ⟨[first], ⟨first, found, rfl⟩, rfl⟩
    · rintro ⟨used, ⟨text, found, rfl⟩, whole⟩
      obtain ⟨rfl, rfl⟩ := List.cons.inj whole
      exact Option.map_eq_some_iff.mpr ⟨a, found, rfl⟩

/-- So many values, each read with those before it in view. -/
def collect (count : Nat) (body : List α → Grammar α) (seen : List α) : Grammar (List α) :=
  match count with
  | 0 => pure seen
  | count + 1 => do
    let a ← body seen
    collect count body (seen ++ [a])

/-- The new values and their tokens, one after the other. -/
def Collected (spelled : List α → α → List Bytes → Prop) (seen new : List α) (used : List Bytes) : Prop :=
  match new with
  | [] => used = []
  | a :: rest => ∃ front back, spelled seen a front ∧ Collected spelled (seen ++ [a]) rest back ∧ used = front ++ back

theorem spells_collect {body : List α → Grammar α} {spelled : List α → α → List Bytes → Prop}
    (each : ∀ seen, Spells (body seen) (spelled seen)) (count : Nat) (seen : List α) :
    Spells (collect count body seen) fun all used =>
      ∃ new, all = seen ++ new ∧ new.length = count ∧ Collected spelled seen new used := by
  induction count generalizing seen with
  | zero =>
    refine (spells_pure seen).congr fun all used => ?_
    constructor
    · rintro ⟨rfl, rfl⟩
      exact ⟨[], (List.append_nil _).symm, rfl, rfl⟩
    · rintro ⟨new, rfl, none, collected⟩
      obtain rfl := List.length_eq_zero_iff.mp none
      exact ⟨List.append_nil _, collected⟩
  | succ count ih =>
    refine (spells_bind (each seen) fun a => ih (seen ++ [a])).congr fun all used => ?_
    constructor
    · rintro ⟨a, front, back, spells, ⟨new, rfl, rfl, collected⟩, rfl⟩
      exact ⟨a :: new, by simp, rfl, front, back, spells, collected, rfl⟩
    · rintro ⟨new, rfl, length, collected⟩
      cases new with
      | nil => cases length
      | cons a rest =>
        obtain ⟨front, back, spells, others, rfl⟩ := collected
        exact ⟨a, front, back, spells, ⟨rest, by simp, Nat.succ.inj length, others⟩, rfl⟩

/-- Values that are each good after those before them. -/
def EachAfter (good : List α → α → Prop) (seen new : List α) : Prop :=
  match new with
  | [] => True
  | a :: rest => good seen a ∧ EachAfter good (seen ++ [a]) rest

theorem eachAfter_iff {good : List α → α → Prop} {seen new : List α} :
    EachAfter good seen new ↔ ∀ front a back, new = front ++ a :: back → good (seen ++ front) a := by
  induction new generalizing seen with
  | nil => exact ⟨fun _ front a back same => by simp at same, fun _ => trivial⟩
  | cons first rest ih =>
    constructor
    · rintro ⟨fine, later⟩ front a back same
      cases front with
      | nil =>
        obtain ⟨rfl, rfl⟩ := List.cons.inj same
        rwa [List.append_nil]
      | cons other front =>
        obtain ⟨rfl, rfl⟩ := List.cons.inj same
        simpa using ih.mp later front a back rfl
    · intro each
      refine ⟨by simpa using each [] first rest rfl, ih.mpr fun front a back same => ?_⟩
      simpa using each (first :: front) a back (by rw [same]; rfl)

theorem EachAfter.mem {good : List α → α → Prop} {seen new : List α} (h : EachAfter good seen new) {a : α}
    (member : a ∈ new) : ∃ before, good before a := by
  obtain ⟨front, back, rfl⟩ := List.append_of_mem member
  exact ⟨_, eachAfter_iff.mp h front a back rfl⟩

theorem collected_exact {good : List α → α → Prop} {lines : α → List Bytes} {seen new : List α} {used : List Bytes} :
    Collected (fun seen a used => good seen a ∧ used = lines a) seen new used
      ↔ EachAfter good seen new ∧ used = new.flatMap lines := by
  induction new generalizing seen used with
  | nil => exact ⟨fun empty => ⟨trivial, empty⟩, fun h => h.2⟩
  | cons a rest ih =>
    constructor
    · rintro ⟨front, back, ⟨fine, rfl⟩, others, rfl⟩
      obtain ⟨later, rfl⟩ := ih.mp others
      exact ⟨⟨fine, later⟩, rfl⟩
    · rintro ⟨⟨fine, later⟩, rfl⟩
      exact ⟨lines a, rest.flatMap lines, ⟨fine, rfl⟩, ih.mpr ⟨later, rfl⟩, rfl⟩

def unwords (words : List Bytes) : Bytes := [space].intercalate words

/-- The words of a record after its keyword, none empty. -/
def words (keyword line : Bytes) : Option (List Bytes) :=
  match line.splitOn space with
  | [] => none
  | first :: fields => if first = keyword ∧ ∀ field ∈ fields, field ≠ [] then some fields else none

/-- One line with this keyword and these fields. -/
def record (keyword : Bytes) (read : List Bytes → Option α) : Grammar α :=
  token fun line => (words keyword line).bind read

theorem splitOn_avoids {sep : UInt8} {text piece : Bytes} (member : piece ∈ text.splitOn sep) : sep ∉ piece := by
  induction text generalizing piece with
  | nil =>
    rw [List.splitOn_nil, List.mem_singleton] at member
    rw [member]
    exact List.not_mem_nil
  | cons byte rest ih =>
    rw [List.splitOn_cons_eq_if_modifyHead] at member
    split at member
    · rcases List.mem_cons.mp member with rfl | later
      · exact List.not_mem_nil
      · exact ih later
    · rename_i different
      cases pieces : rest.splitOn sep with
      | nil => exact absurd pieces (List.splitOn_ne_nil _ _)
      | cons first others =>
        rw [pieces, List.modifyHead_cons] at member
        rcases List.mem_cons.mp member with rfl | later
        · intro inside
          rcases List.mem_cons.mp inside with same | within
          · exact different (by simp [same])
          · exact ih (by rw [pieces]; exact List.mem_cons_self) within
        · exact ih (by rw [pieces]; exact List.mem_cons_of_mem _ later)

/-- A word that stands on its own in a record. -/
def IsWord (word : Bytes) : Prop := word ≠ [] ∧ space ∉ word

theorem words_eq {keyword line : Bytes} {fields : List Bytes} (clean : space ∉ keyword) :
    words keyword line = some fields ↔ line = unwords (keyword :: fields) ∧ ∀ field ∈ fields, IsWord field := by
  unfold words
  constructor
  · intro found
    split at found
    · cases found
    · rename_i first others pieces
      split at found
      · rename_i accepted
        obtain ⟨rfl, filled⟩ := accepted
        obtain rfl := Option.some.inj found
        refine ⟨?_, fun field member => ⟨filled field member, ?_⟩⟩
        · rw [unwords, ← pieces, List.intercalate_splitOn]
        · have inside : field ∈ line.splitOn space := by
            rw [pieces]
            exact List.mem_cons_of_mem _ member
          exact splitOn_avoids inside
      · cases found
  · rintro ⟨rfl, fine⟩
    have pieces : (unwords (keyword :: fields)).splitOn space = keyword :: fields := by
      refine List.splitOn_intercalate space (fun piece member => ?_) (List.cons_ne_nil _ _)
      rcases List.mem_cons.mp member with rfl | inside
      · exact clean
      · exact (fine piece inside).2
    rw [pieces]
    exact if_pos ⟨rfl, fun field member => (fine field member).1⟩

theorem spells_record {keyword : Bytes} {read : List Bytes → Option α} (clean : space ∉ keyword) :
    Spells (record keyword read) fun a used => ∃ fields, read fields = some a
      ∧ (∀ field ∈ fields, IsWord field) ∧ used = [unwords (keyword :: fields)] := by
  refine spells_token.congr fun a used => ?_
  constructor
  · rintro ⟨line, found, rfl⟩
    obtain ⟨fields, whole, taken⟩ := Option.bind_eq_some_iff.mp found
    obtain ⟨rfl, fine⟩ := (words_eq clean).mp whole
    exact ⟨fields, taken, fine, rfl⟩
  · rintro ⟨fields, taken, fine, rfl⟩
    exact ⟨_, Option.bind_eq_some_iff.mpr ⟨fields, (words_eq clean).mpr ⟨rfl, fine⟩, taken⟩, rfl⟩

/-- A record whose fields have one spelling. -/
theorem spells_exact {keyword : Bytes} {read : List Bytes → Option α} {good : α → Prop} {fields : α → List Bytes}
    (clean : space ∉ keyword)
    (exact : ∀ found a, (∀ field ∈ found, IsWord field) → (read found = some a ↔ good a ∧ found = fields a))
    (fine : ∀ a, good a → ∀ field ∈ fields a, IsWord field) :
    Spells (record keyword read) fun a used => good a ∧ used = [unwords (keyword :: fields a)] := by
  refine (spells_record clean).congr fun a used => ?_
  constructor
  · rintro ⟨found, taken, words, rfl⟩
    obtain ⟨holds, rfl⟩ := (exact found a words).mp taken
    exact ⟨holds, rfl⟩
  · rintro ⟨holds, rfl⟩
    exact ⟨fields a, (exact _ a (fine a holds)).mpr ⟨holds, rfl⟩, fine a holds, rfl⟩

end Grammar
end CkGit.Base
