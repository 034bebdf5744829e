import Mathlib.Data.List.Basic
import Mathlib.Data.List.Nodup

/-!
Lists of keys and values, each key once: what is there at a key after a value is
put or erased.
-/
namespace CkGit.Base.Assoc

variable {κ α : Type} [DecidableEq κ]

def get (key : κ) (entries : List (κ × α)) : Option α := entries.lookup key

def erase (key : κ) (entries : List (κ × α)) : List (κ × α) := entries.filter fun entry => entry.1 ≠ key

def put (key : κ) (value : α) (entries : List (κ × α)) : List (κ × α) := (key, value) :: erase key entries

/-- Puts the value, or erases what is there. -/
def set (key : κ) (value : Option α) (entries : List (κ × α)) : List (κ × α) :=
  value.elim (erase key entries) (put key · entries)

@[simp] theorem get_erase (key other : κ) (entries : List (κ × α)) :
    get other (erase key entries) = if other = key then none else get other entries := by
  unfold get
  induction entries with
  | nil => simp [erase]
  | cons entry rest ih =>
    obtain ⟨first, value⟩ := entry
    unfold erase at ih ⊢
    by_cases dropped : first = key
    · subst dropped
      simp only [ne_eq, not_true_eq_false, decide_false, Bool.false_eq_true, not_false_eq_true,
        List.filter_cons_of_neg, ih, List.lookup_cons]
      by_cases same : other = first
      · simp [same]
      · simp [same, beq_eq_false_iff_ne.mpr same]
    · simp only [ne_eq, dropped, not_false_eq_true, decide_true, List.filter_cons_of_pos,
        List.lookup_cons, ih]
      by_cases found : other = first
      · simp [found, dropped]
      · simp [beq_eq_false_iff_ne.mpr found]

@[simp] theorem get_put (key other : κ) (value : α) (entries : List (κ × α)) :
    get other (put key value entries) = if other = key then some value else get other entries := by
  unfold get put
  rw [List.lookup_cons]
  by_cases same : other = key
  · simp [same]
  · rw [beq_eq_false_iff_ne.mpr same, if_neg same]
    exact (get_erase key other entries).trans (if_neg same)

@[simp] theorem get_set (key other : κ) (value : Option α) (entries : List (κ × α)) :
    get other (set key value entries) = if other = key then value else get other entries := by
  cases value <;> simp [set]

theorem get_append (key : κ) (first second : List (κ × α)) :
    get key (first ++ second) = (get key first).or (get key second) := List.lookup_append

theorem get_absent {key : κ} {entries : List (κ × α)} (absent : key ∉ entries.map Prod.fst) :
    get key entries = none := by
  refine List.lookup_eq_none_iff.mpr fun entry member => bne_iff_ne.mpr fun same => absent ?_
  exact List.mem_map.mpr ⟨entry, member, same.symm⟩

theorem mem_of_get {key : κ} {value : α} {entries : List (κ × α)} (h : get key entries = some value) :
    (key, value) ∈ entries := by
  obtain ⟨front, back, rfl, _⟩ := List.lookup_eq_some_iff.mp h
  exact List.mem_append_right _ List.mem_cons_self

theorem get_of_mem {key : κ} {value : α} {entries : List (κ × α)} (once : (entries.map Prod.fst).Nodup)
    (member : (key, value) ∈ entries) : get key entries = some value := by
  obtain ⟨front, back, rfl⟩ := List.append_of_mem member
  rw [List.map_append, List.map_cons] at once
  have before : key ∉ front.map Prod.fst := fun early =>
    (List.nodup_append.mp once).2.2 key early key List.mem_cons_self rfl
  rw [get_append, get_absent before, Option.none_or]
  exact List.lookup_cons_self

theorem get_singleton (key other : κ) (value : α) :
    get key [(other, value)] = if key = other then some value else none := by
  rw [show [(other, value)] = put other value [] from rfl, get_put]
  rfl

/-- The values replaced one by one, under the same keys. -/
theorem get_map {β : Type} (f : α → β) (key : κ) (entries : List (κ × α)) :
    get key (entries.map fun entry => (entry.1, f entry.2)) = (get key entries).map f := by
  unfold get
  induction entries with
  | nil => rfl
  | cons entry rest ih =>
    rw [List.map_cons, List.lookup_cons, List.lookup_cons, ih]
    split <;> rfl

theorem put_put (key : κ) (value other : α) (entries : List (κ × α)) :
    put key value (put key other entries) = put key value entries := by
  simp [put, erase, List.filter_filter]

/-- A filter that keeps the key keeps what is there. -/
theorem get_filter {entries : List (κ × α)} {keep : κ × α → Bool} {key : κ}
    (kept : ∀ value, keep (key, value) = true) : get key (entries.filter keep) = get key entries := by
  induction entries with
  | nil => rfl
  | cons entry rest ih =>
    obtain ⟨first, value⟩ := entry
    unfold get at ih ⊢
    by_cases same : key = first
    · subst same
      rw [List.filter_cons_of_pos (kept value), List.lookup_cons_self, List.lookup_cons_self]
    · rw [List.lookup_cons, beq_eq_false_iff_ne.mpr same, ← ih]
      by_cases stays : keep (first, value) = true
      · rw [List.filter_cons_of_pos stays, List.lookup_cons, beq_eq_false_iff_ne.mpr same]
      · rw [List.filter_cons_of_neg stays]

/-- Every key once. -/
theorem nodup_set {entries : List (κ × α)} (once : (entries.map Prod.fst).Nodup) (key : κ)
    (value : Option α) : ((set key value entries).map Prod.fst).Nodup := by
  have left : ((erase key entries).map Prod.fst).Nodup :=
    once.sublist (List.filter_sublist.map _)
  cases value with
  | none => exact left
  | some value =>
    refine List.nodup_cons.mpr ⟨fun member => ?_, left⟩
    obtain ⟨entry, kept, same⟩ := List.mem_map.mp member
    exact of_decide_eq_true (List.mem_filter.mp kept).2 same

theorem absent_of_get {key : κ} {entries : List (κ × α)} (absent : get key entries = none) :
    key ∉ entries.map Prod.fst := fun member => by
  obtain ⟨entry, inside, rfl⟩ := List.mem_map.mp member
  exact bne_iff_ne.mp (List.lookup_eq_none_iff.mp absent entry inside) rfl

theorem erase_absent {key : κ} {entries : List (κ × α)} (absent : key ∉ entries.map Prod.fst) :
    erase key entries = entries :=
  List.filter_eq_self.mpr fun _ member => decide_eq_true fun same =>
    absent (same ▸ List.mem_map_of_mem member)

/-- A value that is replaced leaves the keys. -/
theorem keys_put {key : κ} {entries : List (κ × α)} (once : (entries.map Prod.fst).Nodup)
    (member : key ∈ entries.map Prod.fst) (value : α) :
    ((put key value entries).map Prod.fst).Perm (entries.map Prod.fst) := by
  refine (List.perm_ext_iff_of_nodup (nodup_set once key (some value)) once).mpr fun other => ?_
  show other ∈ key :: (erase key entries).map Prod.fst ↔ _
  rw [List.mem_cons]
  constructor
  · rintro (rfl | kept)
    · exact member
    · exact (List.filter_sublist.map Prod.fst).subset kept
  · intro known
    by_cases same : other = key
    · exact .inl same
    · obtain ⟨entry, inside, rfl⟩ := List.mem_map.mp known
      exact .inr (List.mem_map_of_mem (List.mem_filter.mpr ⟨inside, decide_eq_true same⟩))

theorem put_absent {key : κ} {entries : List (κ × α)} (absent : key ∉ entries.map Prod.fst) (value : α) :
    put key value entries = (key, value) :: entries :=
  congrArg (List.cons _) (erase_absent absent)

end CkGit.Base.Assoc
