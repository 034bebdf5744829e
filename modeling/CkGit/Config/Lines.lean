import CkGit.Base.Checks
import CkGit.Base.Text

/-!
What the three configuration files have in common (src/common/server_config.cpp,
client_config.cpp and runner_config.cpp): a key and a value on a line, a
schema_version, and no key twice except for the lists.
-/
namespace CkGit.Config
open CkGit.Base

abbrev Setting := Bytes × Bytes

def equals : UInt8 := '='.toUInt8
def hash : UInt8 := '#'.toUInt8

def Setting.line (setting : Setting) : Bytes := setting.1 ++ equals :: setting.2

/-- A configError names the file and the line; an invalid path does not. -/
inductive Refusal where
  | configError (message : String)
  | invalidArgument (message : String)
  deriving DecidableEq, Repr

inductive LoadError where
  | unusable (message : String)
  | configError (line_number : Nat) (message : String)
  | invalidArgument (message : String)
  deriving DecidableEq, Repr

def Refusal.onLine (line_number : Nat) : Refusal → LoadError
  | .configError message => .configError line_number message
  | .invalidArgument message => .invalidArgument message

def kMaximumConfigBytes : Nat := 64 * 1024
def kMaximumLineBytes : Nat := 2048

def schemaKey : Bytes := ascii "schema_version"

/-- What std::getline gives until the file ends. -/
def fileLines (text : Bytes) : List Bytes :=
  let pieces := text.splitOn newline
  if pieces.getLast? = some [] then pieces.dropLast else pieces

/-- What is particular to one of the files. -/
structure Format (σ : Type) where
  /-- The setting of a line, none for an empty line or a comment. -/
  split : Bytes → Except Refusal (Option Setting)
  repeats : Bytes → Bool
  duplicate : String
  field : σ → Setting → Except Refusal σ

structure Loading (σ : Type) where
  config : σ
  seen : List Bytes := []
  has_schema : Bool := false

namespace Format
variable {σ : Type} (format : Format σ)

def note (key : Bytes) (loading : Loading σ) : Loading σ :=
  if format.repeats key then loading else { loading with seen := key :: loading.seen }

def store (loading : Loading σ) (setting : Setting) : Except Refusal (Loading σ) := do
  if setting.1 = schemaKey then
    rejectIf (setting.2 ≠ ascii "1") (.configError "unsupported schema_version")
    return { loading with has_schema := true }
  else return { loading with config := ← format.field loading.config setting }

def readLine (loading : Loading σ) (line : Bytes) : Except Refusal (Loading σ) := do
  match ← format.split line with
  | none => return loading
  | some setting =>
    rejectIf (format.repeats setting.1 = false ∧ setting.1 ∈ loading.seen) (.configError format.duplicate)
    format.store (format.note setting.1 loading) setting

def readLines (line_number : Nat) (loading : Loading σ) (lines : List Bytes) : Except LoadError (Loading σ) :=
  match lines with
  | [] => return loading
  | line :: rest => do
    let loading ← (format.readLine loading line).mapError (·.onLine line_number)
    readLines (line_number + 1) loading rest

variable {format} {loading after : Loading σ} {line : Bytes} {lines : List Bytes} {line_number : Nat}

theorem note_config (key : Bytes) : (format.note key loading).config = loading.config := by
  unfold note
  split <;> rfl

theorem note_has_schema (key : Bytes) : (format.note key loading).has_schema = loading.has_schema := by
  unfold note
  split <;> rfl

theorem mem_note {key other : Bytes} (member : other ∈ (format.note key loading).seen) :
    other = key ∨ other ∈ loading.seen := by
  unfold note at member
  split at member
  exacts [.inr member, List.mem_cons.mp member]

/-- A line that passes changes nothing, or is a setting that is stored. -/
theorem readLine_ok (read : format.readLine loading line = .ok after) :
    after = loading ∨ ∃ setting, format.split line = .ok (some setting)
      ∧ format.store (format.note setting.1 loading) setting = .ok after := by
  unfold readLine at read
  obtain ⟨found, split, read⟩ := bind_ok.mp read
  cases found with
  | none => exact .inl (pure_ok.mp read).symm
  | some setting =>
    obtain ⟨_, -, stored⟩ := bind_ok.mp read
    exact .inr ⟨setting, split, stored⟩

theorem store_ok {setting : Setting} (stored : format.store loading setting = .ok after) :
    (setting.1 = schemaKey ∧ after = { loading with has_schema := true })
      ∨ ∃ config, setting.1 ≠ schemaKey ∧ format.field loading.config setting = .ok config
        ∧ after = { loading with config } := by
  unfold store at stored
  split at stored
  · next schema =>
    obtain ⟨_, -, same⟩ := bind_ok.mp stored
    exact .inl ⟨schema, (pure_ok.mp same).symm⟩
  · next other =>
    obtain ⟨config, read, same⟩ := bind_ok.mp stored
    exact .inr ⟨config, other, read, (pure_ok.mp same).symm⟩

theorem readLines_keeps {P : Loading σ → Prop}
    (turn : ∀ before line after, P before → format.readLine before line = .ok after → P after)
    (start : P loading) (read : format.readLines line_number loading lines = .ok after) : P after := by
  induction lines generalizing loading line_number with
  | nil => exact pure_ok.mp read ▸ start
  | cons line rest ih =>
    obtain ⟨next, first, later⟩ := bind_ok.mp read
    cases one : format.readLine loading line with
    | error refusal =>
      rw [one] at first
      cases first
    | ok made =>
      rw [one] at first
      cases first
      exact ih (turn _ _ _ start one) later

/-- What holds of the defaults and of what each field stores. -/
theorem readLines_config {P : σ → Prop}
    (turn : ∀ config line setting after, format.split line = .ok (some setting) → P config →
      format.field config setting = .ok after → P after)
    (start : P loading.config) (read : format.readLines line_number loading lines = .ok after) : P after.config := by
  refine readLines_keeps (fun before line after (holds : P before.config) one => ?_) start read
  rcases readLine_ok one with rfl | ⟨setting, split, stored⟩
  · exact holds
  · rcases store_ok stored with ⟨-, rfl⟩ | ⟨config, -, read, rfl⟩
    · show P (format.note setting.1 before).config
      rw [note_config]
      exact holds
    · rw [note_config] at read
      exact turn _ line setting config split holds read

theorem readLine_setting {setting : Setting} {config : σ} (split : format.split setting.line = .ok (some setting))
    (plain : setting.1 ≠ schemaKey) (unseen : format.repeats setting.1 = false → setting.1 ∉ loading.seen)
    (stored : format.field loading.config setting = .ok config) :
    format.readLine loading setting.line = .ok { format.note setting.1 loading with config } := by
  have not_twice : ¬(format.repeats setting.1 = false ∧ setting.1 ∈ loading.seen) := fun both => unseen both.1 both.2
  unfold readLine
  rw [split]
  simp only [bind, Except.bind, rejectIf, if_neg not_twice, store, if_neg plain, note_config, stored]
  rfl

/-- Settings that are each read from their line are stored one after the other. -/
theorem readLines_settings {settings : List Setting} {config : σ}
    (splits : ∀ setting ∈ settings, format.split setting.line = .ok (some setting))
    (plain : ∀ setting ∈ settings, setting.1 ≠ schemaKey)
    (once : ((settings.map Prod.fst).filter fun key => !format.repeats key).Nodup)
    (fresh : ∀ setting ∈ settings, format.repeats setting.1 = false → setting.1 ∉ loading.seen)
    (stored : settings.foldlM format.field loading.config = .ok config) :
    ∃ seen, format.readLines line_number loading (settings.map Setting.line) = .ok { loading with config, seen }
      ∧ ∀ key ∈ seen, key ∈ loading.seen ∨ key ∈ settings.map Prod.fst := by
  induction settings generalizing loading line_number with
  | nil =>
    cases pure_ok.mp stored
    exact ⟨loading.seen, rfl, fun key member => .inl member⟩
  | cons setting rest ih =>
    rw [List.foldlM_cons] at stored
    obtain ⟨next, first, later⟩ := bind_ok.mp stored
    have read := readLine_setting (splits setting (.head _)) (plain setting (.head _)) (fresh setting (.head _)) first
    have still : ∀ other ∈ rest, format.repeats other.1 = false →
        other.1 ∉ (format.note setting.1 loading).seen := by
      intro other member single inside
      rcases mem_note inside with same | before
      · rw [List.map_cons, List.filter_cons_of_pos (by rw [← same, single]; rfl), List.nodup_cons] at once
        refine once.1 (List.mem_filter.mpr ⟨?_, by rw [← same, single]; rfl⟩)
        exact same ▸ List.mem_map_of_mem member
      · exact fresh other (.tail _ member) single before
    have rest_once : ((rest.map Prod.fst).filter fun key => !format.repeats key).Nodup := by
      rw [List.map_cons] at once
      exact once.sublist ((List.sublist_cons_self _ _).filter _)
    obtain ⟨seen, ran, from_rest⟩ := @ih { format.note setting.1 loading with config := next } (line_number + 1)
      (fun other member => splits other (.tail _ member)) (fun other member => plain other (.tail _ member))
      rest_once still later
    refine ⟨seen, ?_, fun key member => ?_⟩
    · rw [List.map_cons, readLines, read]
      refine Eq.trans ran ?_
      rw [note_has_schema]
    · rcases from_rest key member with now | later
      · rcases mem_note now with rfl | before
        · exact .inr (.head _)
        · exact .inl before
      · exact .inr (.tail _ later)

end Format

/-- A key and what is written for it, none where the line is left out. -/
abbrev Slot := Bytes × Option Bytes

def written (slots : List Slot) : List Setting := slots.filterMap fun slot => slot.2.map (slot.1, ·)

def settingLines (settings : List Setting) : List Bytes := ((schemaKey, ascii "1") :: settings).map Setting.line

/-- Each setting on a line of its own, the version first. -/
def rendered (settings : List Setting) : Bytes := framed (settingLines settings)

theorem written_cons (slot : Slot) (rest : List Slot) :
    written (slot :: rest) = (slot.2.map (slot.1, ·)).toList ++ written rest := by
  cases h : slot.2 <;> simp [written, h]

theorem written_keys (slots : List Slot) : ((written slots).map Prod.fst).Sublist (slots.map Prod.fst) := by
  induction slots with
  | nil => exact .slnil
  | cons slot rest ih =>
    rw [written_cons, List.map_append]
    cases h : slot.2 with
    | none => exact ih.cons _
    | some value => exact ih.cons_cons _

section
variable {σ : Type} {format : Format σ} {slots : List Slot} {start config : σ}

/-- A line that is read as the setting it was made of. -/
structure Reads (format : Format σ) (setting : Setting) : Prop where
  split : format.split setting.line = .ok (some setting)
  one_line : newline ∉ setting.line
  short : setting.line.length ≤ kMaximumLineBytes

/-- What is written for a slot takes one configuration to the next. -/
structure Puts (format : Format σ) (before after : σ) (slot : Slot) : Prop where
  left_out : slot.2 = none → after = before
  stored : ∀ value, slot.2 = some value → Reads format (slot.1, value) ∧ format.field before (slot.1, value) = .ok after

inductive Fills (format : Format σ) : σ → List Slot → σ → Prop where
  | nil (config : σ) : Fills format config [] config
  | cons {before after final : σ} {slot : Slot} {rest : List Slot} (first : Puts format before after slot)
      (later : Fills format after rest final) : Fills format before (slot :: rest) final

theorem Fills.append {middle : σ} {more : List Slot} (first : Fills format start slots middle)
    (later : Fills format middle more config) : Fills format start (slots ++ more) config := by
  induction first with
  | nil => exact later
  | cons puts _ ih => exact .cons puts (ih later)

theorem Fills.foldlM (fills : Fills format start slots config) :
    (written slots).foldlM format.field start = .ok config := by
  induction fills with
  | nil => rfl
  | @cons before after final slot rest puts _ ih =>
    rw [written_cons, List.foldlM_append]
    cases here : slot.2 with
    | none =>
      cases puts.left_out here
      exact ih
    | some value =>
      have stored := (puts.stored value here).2
      simp only [Option.map_some, Option.toList_some, List.foldlM_cons, List.foldlM_nil, stored]
      exact ih

theorem Fills.reads (fills : Fills format start slots config) :
    ∀ setting ∈ written slots, Reads format setting := by
  induction fills with
  | nil => exact nofun
  | @cons before after final slot rest puts _ ih =>
    intro setting member
    rw [written_cons] at member
    rcases List.mem_append.mp member with here | later
    · obtain ⟨value, has, rfl⟩ := Option.map_eq_some_iff.mp (Option.mem_toList.mp here)
      exact (puts.stored value has).1
    · exact ih setting later

/-- What was written fills the configuration when it is read. -/
theorem Fills.readLines (fills : Fills format start slots config)
    (version : format.split (Setting.line (schemaKey, ascii "1")) = .ok (some (schemaKey, ascii "1")))
    (single : format.repeats schemaKey = false) (plain : ∀ slot ∈ slots, slot.1 ≠ schemaKey)
    (once : ((slots.map Prod.fst).filter fun key => !format.repeats key).Nodup) :
    ∃ seen, format.readLines 1 { config := start } (settingLines (written slots))
        = .ok { config, seen, has_schema := true }
      ∧ ∀ key ∈ seen, key = schemaKey ∨ key ∈ (written slots).map Prod.fst := by
  have keys := written_keys slots
  have other : ∀ setting ∈ written slots, setting.1 ≠ schemaKey := by
    intro setting member
    obtain ⟨slot, inside, same⟩ := List.mem_map.mp (keys.subset (List.mem_map_of_mem member))
    exact same ▸ plain slot inside
  have first : format.readLine { config := start } (Setting.line (schemaKey, ascii "1"))
      = .ok { config := start, seen := [schemaKey], has_schema := true } := by
    unfold Format.readLine
    rw [version]
    simp only [bind, Except.bind, rejectIf, Format.store, Format.note, single, if_true, List.not_mem_nil, and_false,
      if_false, Bool.false_eq_true]
    rfl
  obtain ⟨seen, ran, from_rest⟩ := @Format.readLines_settings σ format
    { config := start, seen := [schemaKey], has_schema := true } 2 (written slots) config
    (fun setting member => (fills.reads setting member).split) other (once.sublist (keys.filter _))
    (fun setting member _ => by simpa using other setting member) fills.foldlM
  refine ⟨seen, ?_, fun key member => ?_⟩
  · rw [settingLines, List.map_cons, Format.readLines, first]
    exact ran
  · rcases from_rest key member with version | setting
    · exact .inl (List.mem_singleton.mp version)
    · exact .inr setting

theorem Fills.one_line (fills : Fills format start slots config) :
    ∀ line ∈ settingLines (written slots), newline ∉ line := by
  intro line member
  obtain ⟨setting, made, rfl⟩ := List.mem_map.mp member
  rcases List.mem_cons.mp made with rfl | inside
  · decide
  · exact (fills.reads setting inside).one_line

theorem Fills.rendered_short (fills : Fills format start slots config) :
    (rendered (written slots)).length ≤ (slots.length + 1) * (kMaximumLineBytes + 1) := by
  have each : ∀ line ∈ settingLines (written slots), line.length ≤ kMaximumLineBytes := by
    intro line member
    obtain ⟨setting, made, rfl⟩ := List.mem_map.mp member
    rcases List.mem_cons.mp made with rfl | inside
    · decide
    · exact (fills.reads setting inside).short
  have fewer : (settingLines (written slots)).length ≤ slots.length + 1 := by
    rw [settingLines, List.length_map, List.length_cons]
    exact Nat.succ_le_succ (List.length_filterMap_le _ _)
  exact Nat.le_trans (framed_short each) (Nat.mul_le_mul_right _ fewer)

end

variable {lines : List Bytes}

theorem fileLines_framed (clean : ∀ line ∈ lines, newline ∉ line) : fileLines (framed lines) = lines := by
  unfold fileLines
  rw [splitOn_framed clean]
  simp

/-- Nor does the last line need to end. -/
theorem fileLines_unended {line : Bytes} (clean : ∀ other ∈ lines, newline ∉ other) (last : newline ∉ line)
    (filled : line ≠ []) : fileLines (framed lines ++ line) = lines ++ [line] := by
  have pieces : (framed lines ++ line).splitOn newline = lines ++ [line] := by
    induction lines with
    | nil => exact List.splitOn_eq_singleton last
    | cons first rest ih =>
      rw [framed_cons, List.append_assoc, List.cons_append,
        List.splitOn_append_cons_self_of_not_mem (clean first (.head _)),
        ih fun other member => clean other (.tail _ member)]
      rfl
  unfold fileLines
  rw [pieces]
  simp [filled]

theorem fileLines_dropped (some_line : lines ≠ []) (clean : ∀ line ∈ lines, newline ∉ line)
    (filled : ∀ line ∈ lines, line ≠ []) : fileLines (framed lines).dropLast = lines := by
  obtain ⟨front, last, rfl⟩ := (List.eq_nil_or_concat' lines).resolve_left some_line
  have dropped : (framed (front ++ [last])).dropLast = framed front ++ last := by
    rw [framed_append, framed_cons, framed_nil, ← List.append_assoc, List.dropLast_concat]
  rw [dropped]
  exact fileLines_unended (fun line member => clean line (List.mem_append_left _ member))
    (clean last List.mem_concat_self) (filled last List.mem_concat_self)

end CkGit.Config
