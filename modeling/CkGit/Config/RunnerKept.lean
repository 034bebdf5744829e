import CkGit.Config.Paths

/-!
A runner configuration that was loaded is loaded again, its paths spelled in one
way, from what is written for it, where that fits a file.
-/
namespace CkGit.Config
open CkGit.Base CkGit.Ci

section
variable {name value : Bytes} {entry : Bytes × Bytes} {entries : List (Bytes × Bytes)}

def Sorted (entries : List (Bytes × Bytes)) : Prop := entries.Pairwise fun first second => first.1 < second.1

theorem mem_assign (member : entry ∈ assign name value entries) : entry = (name, value) ∨ entry ∈ entries := by
  induction entries with
  | nil => exact .inl (List.mem_singleton.mp member)
  | cons first rest ih =>
    rw [assign] at member
    split at member
    · rcases List.mem_cons.mp member with here | later
      exacts [.inl here, .inr (.tail _ later)]
    · split at member
      · rcases List.mem_cons.mp member with here | later
        exacts [.inl here, .inr later]
      · rcases List.mem_cons.mp member with here | later
        · exact .inr (here ▸ .head _)
        · exact (ih later).imp id (.tail _)

theorem assign_sorted (sorted : Sorted entries) : Sorted (assign name value entries) := by
  induction entries with
  | nil => exact List.pairwise_singleton _ _
  | cons first rest ih =>
    obtain ⟨other, kept⟩ := first
    obtain ⟨above, rest_sorted⟩ := List.pairwise_cons.mp sorted
    rw [assign]
    split
    · next same => exact List.pairwise_cons.mpr ⟨same ▸ above, rest_sorted⟩
    · next apart =>
      split
      · next below =>
        refine List.pairwise_cons.mpr ⟨?_, sorted⟩
        rintro later (_ | ⟨_, member⟩)
        exacts [below, List.lt_trans below (above later member)]
      · next not_below =>
        have lower : other < name :=
          (List.le_iff_lt_or_eq.mp (List.not_lt.mp not_below)).resolve_right fun same => apart same.symm
        refine List.pairwise_cons.mpr ⟨fun later member => ?_, ih rest_sorted⟩
        rcases mem_assign member with rfl | before
        exacts [lower, above later before]

/-- After all the names so far. -/
theorem assign_last (above : ∀ entry ∈ entries, entry.1 < name) :
    assign name value entries = entries ++ [(name, value)] := by
  induction entries with
  | nil => rfl
  | cons first rest ih =>
    obtain ⟨other, kept⟩ := first
    have lower := above (other, kept) (.head _)
    have apart : name ≠ other := fun same => List.lt_irrefl _ (same ▸ lower)
    have not_below : ¬name < other := List.lt_asymm lower
    rw [assign, if_neg apart, if_neg not_below, ih fun entry member => above entry (.tail _ member)]
    rfl

end

namespace Runner
variable {config source start after : RunnerConfig} {key value : Bytes} {setting : Setting}

structure PathFits (value : Bytes) : Prop where
  filled : value ≠ []
  utf8 : isValidUtf8 value = true
  plain : hasControlCharacter value = false
  absolute : isAbsolute value = true
  short : value.length ≤ 1024

structure PartFits (part : Bytes) : Prop where
  filled : part ≠ []
  no_colon : ':'.toUInt8 ∉ part
  no_backslash : '\\'.toUInt8 ∉ part
  plain : hasControlCharacter part = false
  relative : isAbsolute part = false
  no_parent : ascii ".." ∉ pathNames part
  utf8 : isValidUtf8 part = true

structure EntryFits (entry : Bytes × Bytes) : Prop where
  name : isEnvironmentName entry.1 = true
  plain : hasControlCharacter entry.2 = false
  short : (environmentPrefix ++ entry.1).length + entry.2.length + 1 ≤ kMaximumLineBytes

def path (config : RunnerConfig) (key : PathKey) : Option Bytes :=
  match key with
  | .ci_build_root => if config.build_root.isEmpty then none else some config.build_root
  | .identity => config.identity
  | .known_hosts => config.known_hosts
  | .ssh_program => some config.ssh_program
  | .ci_cache_root => config.cache_root
  | .ci_macos_native_socket => config.macos_native_socket
  | .ci_macos_vm_base => config.macos_vm_base
  | .ci_macos_vm_work_root => config.macos_vm_work_root
  | .ci_toolchain_root => config.toolchain_root

theorem path_setPath (filled : value ≠ []) (key other : PathKey) :
    path (setPath config key value) other = if other = key then some value else path config other := by
  cases key <;> cases other <;> simp [path, setPath, filled]

structure Kept (config : RunnerConfig) : Prop where
  server : config.server ≠ [] → isValidSshCloneTarget config.server = true
  name : config.name ≠ [] → isValidClientId config.name = true ∧ config.name ≠ kCiPrimaryRunnerName
  paths : ∀ key value, path config key = some value → PathFits value
  wait : 1 ≤ config.claim_wait_seconds ∧ config.claim_wait_seconds ≤ kMaximumCiClaimWaitSeconds
  timeout : ∀ n, config.timeout_seconds = some n → 1 ≤ n ∧ n ≤ 86400
  free : 1 ≤ config.macos_vm_min_free_gib ∧ config.macos_vm_min_free_gib ≤ 65536
  parts : ∀ part ∈ config.toolchain_paths, PartFits part ∧ semicolon ∉ part
  some_part : config.toolchain_paths ≠ []
  few_parts : config.toolchain_paths.length ≤ 32
  short_parts : (ascii "ci_toolchain_paths").length + ([semicolon].intercalate config.toolchain_paths).length + 1
    ≤ kMaximumLineBytes
  entries : ∀ entry ∈ config.toolchain_environment, EntryFits entry
  sorted : Sorted config.toolchain_environment

theorem ssh_fits : PathFits defaultSsh where
  filled := by decide
  utf8 := isValidUtf8_ascii (by decide +kernel)
  plain := by decide
  absolute := by decide
  short := by decide

theorem bin_fits : PartFits (ascii "bin") where
  filled := by decide
  no_colon := by decide
  no_backslash := by decide
  plain := by decide
  relative := by decide
  no_parent := by decide
  utf8 := isValidUtf8_ascii (by decide +kernel)



theorem bin_short : (ascii "ci_toolchain_paths").length + ([semicolon].intercalate defaultToolchainPaths).length + 1
    ≤ kMaximumLineBytes := by
  have key : (ascii "ci_toolchain_paths").length = 18 := by decide
  have value : ([semicolon].intercalate defaultToolchainPaths).length = 3 := by decide
  rw [key, value]
  decide

theorem kept_defaults : Kept {} where
  server filled := absurd rfl filled
  name filled := absurd rfl filled
  paths key value has := by
    cases key with
    | ssh_program => exact Option.some.inj has ▸ ssh_fits
    | _ => cases has
  wait := ⟨Nat.le_of_ble_eq_true rfl, Nat.le_of_ble_eq_true rfl⟩
  timeout n has := by cases has
  free := ⟨Nat.le_of_ble_eq_true rfl, Nat.le_of_ble_eq_true rfl⟩
  parts part member := by
    rw [show part = ascii "bin" from List.mem_singleton.mp member]
    exact ⟨bin_fits, by decide⟩
  some_part := List.cons_ne_nil _ _
  few_parts := Nat.le_of_ble_eq_true rfl
  short_parts := bin_short
  entries := nofun
  sorted := List.Pairwise.nil

/-- What a line that passed says of its setting. -/
theorem split_short {line : Bytes} (split : splitRunnerLine line = .ok (some setting)) :
    setting.1.length + setting.2.length + 1 ≤ kMaximumLineBytes := by
  unfold splitRunnerLine at split
  dsimp only at split
  generalize (if line.getLast? = some carriage then line.dropLast else line) = popped at split
  obtain ⟨_, short, split⟩ := bind_ok.mp split
  rw [rejectIf_ok] at short
  split at split
  · cases pure_ok.mp split
  · split at split
    · cases split
    · next found =>
      cases pure_ok.mp split
      rw [(cut_some found).1, Setting.line, List.length_append, List.length_cons] at short
      omega

theorem absolutePath_ok {path : Bytes} (read : absolutePath value = .ok path) : path = value ∧ PathFits value := by
  unfold absolutePath at read
  obtain ⟨_, filled, read⟩ := bind_ok.mp read
  obtain ⟨_, made, read⟩ := bind_ok.mp read
  obtain ⟨_, good, same⟩ := bind_ok.mp read
  rw [rejectIf_ok] at filled good
  obtain ⟨rfl, utf8⟩ := pathFromUtf8_some made
  simp only [not_or, Bool.not_eq_true', Bool.not_eq_false, Bool.not_eq_true, Nat.not_lt] at good
  exact ⟨(pure_ok.mp same).symm, filled, utf8, good.2.2, good.1, good.2.1⟩

theorem readInteger_ok {low high n : Nat} (read : readInteger value low high = .ok n) : low ≤ n ∧ n ≤ high := by
  unfold readInteger at read
  dsimp only at read
  split at read
  · cases read
  · obtain ⟨_, within, same⟩ := bind_ok.mp read
    rw [rejectIf_ok] at within
    cases pure_ok.mp same
    omega

theorem addToolchainPath_ok {paths more : List Bytes} {part : Bytes} (added : addToolchainPath paths part = .ok more) :
    more = paths ++ [part] ∧ PartFits part ∧ more.length ≤ 32 := by
  unfold addToolchainPath at added
  obtain ⟨_, made, added⟩ := bind_ok.mp added
  obtain ⟨_, good, added⟩ := bind_ok.mp added
  obtain ⟨_, few, same⟩ := bind_ok.mp added
  obtain ⟨rfl, utf8⟩ := pathFromUtf8_some made
  rw [rejectIf_ok] at good few
  simp only [not_or, Bool.not_eq_true] at good
  cases pure_ok.mp same
  obtain ⟨filled, no_colon, no_backslash, plain, relative, no_parent⟩ := good
  exact ⟨rfl, ⟨filled, no_colon, no_backslash, plain, relative, no_parent, utf8⟩, Nat.not_lt.mp few⟩

theorem addToolchainPath_run {paths parts all : List Bytes} (few : paths.length ≤ 32)
    (added : parts.foldlM addToolchainPath paths = .ok all) :
    all = paths ++ parts ∧ (∀ part ∈ parts, PartFits part) ∧ all.length ≤ 32 := by
  induction parts generalizing paths with
  | nil =>
    cases pure_ok.mp added
    exact ⟨(List.append_nil _).symm, nofun, few⟩
  | cons part rest ih =>
    obtain ⟨more, first, later⟩ := bind_ok.mp added
    obtain ⟨rfl, fits, more_few⟩ := addToolchainPath_ok first
    obtain ⟨rfl, rest_fit, all_few⟩ := ih more_few later
    refine ⟨by rw [List.append_assoc]; rfl, ?_, all_few⟩
    rintro other (_ | ⟨_, member⟩)
    exacts [fits, rest_fit other member]

theorem keys_apart : ∀ entry ∈ keys, ∀ other ∈ keys, entry.2 = other.2 → entry = other := by decide

theorem keys_fixed {key : String} {name : Bytes} : (key, Key.ci_toolchain_env name) ∉ keys := by simp [keys]

theorem keyOf_listed {name : String} {field : Key} (listed : (name, field) ∈ keys) (found : keyOf key = some field) :
    key = ascii name := by
  unfold keyOf at found
  split at found
  · next entry first =>
    have same := keys_apart entry (List.mem_of_find?_eq_some first) _ listed (Option.some.inj found)
    have named := List.find?_some first
    rw [same] at named
    exact (eq_of_beq named).symm
  · split at found
    · cases found
      exact absurd listed keys_fixed
    · cases found

theorem keyOf_environment {name : Bytes} (found : keyOf key = some (.ci_toolchain_env name)) :
    key = environmentPrefix ++ name := by
  unfold keyOf at found
  split at found
  · next entry first =>
    have member := List.mem_of_find?_eq_some first
    rw [← Prod.mk.eta (p := entry), Option.some.inj found] at member
    exact absurd member keys_fixed
  · split at found
    · next starts =>
      cases found
      obtain ⟨rest, rfl⟩ := List.isPrefixOf_iff_prefix.mp starts
      rw [List.drop_left]
    · cases found

theorem Kept.setPath (kept : Kept config) (key : PathKey) (fits : PathFits value) :
    Kept (setPath config key value) where
  server := by cases key <;> exact kept.server
  name := by cases key <;> exact kept.name
  paths other found has := by
    rw [path_setPath fits.filled] at has
    split at has
    · exact Option.some.inj has ▸ fits
    · exact kept.paths other found has
  wait := by cases key <;> exact kept.wait
  timeout := by cases key <;> exact kept.timeout
  free := by cases key <;> exact kept.free
  parts := by cases key <;> exact kept.parts
  some_part := by cases key <;> exact kept.some_part
  few_parts := by cases key <;> exact kept.few_parts
  short_parts := by cases key <;> exact kept.short_parts
  entries := by cases key <;> exact kept.entries
  sorted := by cases key <;> exact kept.sorted

theorem Kept.store {field : Key} (kept : Kept config) (found : keyOf key = some field)
    (short : key.length + value.length + 1 ≤ kMaximumLineBytes)
    (stored : storeRunnerField config field value = .ok after) : Kept after := by
  cases field with
  | server =>
    obtain ⟨_, good, same⟩ := bind_ok.mp stored
    cases pure_ok.mp same
    rw [rejectIf_ok, Bool.not_eq_true', Bool.not_eq_false] at good
    exact { kept with server := fun _ => good, paths := kept.paths }
  | name =>
    obtain ⟨_, good, same⟩ := bind_ok.mp stored
    cases pure_ok.mp same
    rw [rejectIf_ok] at good
    simp only [not_or, Bool.not_eq_true', Bool.not_eq_false] at good
    exact { kept with name := fun _ => good, paths := kept.paths }
  | path key =>
    obtain ⟨_, read, same⟩ := bind_ok.mp stored
    cases pure_ok.mp same
    obtain ⟨rfl, fits⟩ := absolutePath_ok read
    exact kept.setPath key fits
  | ci_macos_vm_min_free_gib =>
    obtain ⟨_, read, same⟩ := bind_ok.mp stored
    cases pure_ok.mp same
    exact { kept with free := readInteger_ok read, paths := kept.paths }
  | ci_toolchain_paths =>
    obtain ⟨_, read, same⟩ := bind_ok.mp stored
    cases pure_ok.mp same
    obtain ⟨rfl, fit, few⟩ := addToolchainPath_run (Nat.zero_le _) read
    have listed : ("ci_toolchain_paths", Key.ci_toolchain_paths) ∈ keys := by simp [keys]
    rw [keyOf_listed listed found] at short
    exact { kept with
      paths := kept.paths
      parts := fun part member => ⟨fit part member, Grammar.splitOn_avoids member⟩
      some_part := List.splitOn_ne_nil _ _
      few_parts := few
      short_parts := by rw [List.nil_append, List.intercalate_splitOn]; exact short }
  | claim_wait_seconds =>
    obtain ⟨_, read, same⟩ := bind_ok.mp stored
    cases pure_ok.mp same
    exact { kept with wait := readInteger_ok read, paths := kept.paths }
  | ci_timeout_seconds =>
    obtain ⟨_, read, same⟩ := bind_ok.mp stored
    cases pure_ok.mp same
    exact { kept with timeout := fun _ has => Option.some.inj has ▸ readInteger_ok read, paths := kept.paths }
  | ci_allow_network =>
    obtain ⟨_, _, same⟩ := bind_ok.mp stored
    cases pure_ok.mp same
    exact { kept with paths := kept.paths }
  | ci_allow_degraded =>
    obtain ⟨_, _, same⟩ := bind_ok.mp stored
    cases pure_ok.mp same
    exact { kept with paths := kept.paths }
  | ci_toolchain_env name =>
    obtain ⟨_, good, same⟩ := bind_ok.mp stored
    cases pure_ok.mp same
    rw [rejectIf_ok] at good
    simp only [not_or, Bool.not_eq_true', Bool.not_eq_false, Bool.not_eq_true] at good
    rw [keyOf_environment found] at short
    refine { kept with paths := kept.paths, entries := fun entry member => ?_, sorted := assign_sorted kept.sorted }
    rcases mem_assign member with rfl | before
    exacts [⟨good.1, good.2, short⟩, kept.entries entry before]

theorem free_unchanged {field : Key} (other : field ≠ .ci_macos_vm_min_free_gib)
    (stored : storeRunnerField config field value = .ok after) :
    after.macos_vm_min_free_gib = config.macos_vm_min_free_gib := by
  cases field with
  | ci_macos_vm_min_free_gib => exact absurd rfl other
  | path key =>
    obtain ⟨_, _, same⟩ := bind_ok.mp stored
    cases pure_ok.mp same
    cases key <;> rfl
  | _ =>
    obtain ⟨_, _, same⟩ := bind_ok.mp stored
    cases pure_ok.mp same
    rfl

/-- A minimum that was set was seen. -/
structure Loaded (loading : Loading RunnerConfig) : Prop where
  kept : Kept loading.config
  seen : loading.config.macos_vm_min_free_gib ≠ 20 → ascii "ci_macos_vm_min_free_gib" ∈ loading.seen

theorem note_eq (key : Bytes) (loading : Loading RunnerConfig) :
    runnerFormat.note key loading = { loading with seen := key :: loading.seen } := rfl

theorem loaded_turn {before after : Loading RunnerConfig} {line : Bytes} (loaded : Loaded before)
    (read : runnerFormat.readLine before line = .ok after) : Loaded after := by
  rcases Format.readLine_ok read with rfl | ⟨setting, split, stored⟩
  · exact loaded
  rw [note_eq] at stored
  rcases Format.store_ok stored with ⟨-, rfl⟩ | ⟨config, -, field, rfl⟩
  · exact ⟨loaded.kept, fun set => .tail _ (loaded.seen set)⟩
  change runnerField before.config setting = .ok config at field
  unfold runnerField at field
  split at field
  · cases field
  next key found =>
    refine ⟨loaded.kept.store found (split_short split) field, fun set => ?_⟩
    by_cases same : key = .ci_macos_vm_min_free_gib
    · have listed : ("ci_macos_vm_min_free_gib", Key.ci_macos_vm_min_free_gib) ∈ keys := by simp [keys]
      rw [same] at found
      exact keyOf_listed listed found ▸ .head _
    · rw [free_unchanged same field] at set
      exact .tail _ (loaded.seen set)

/-- What a configuration that was loaded keeps to. -/
theorem loaded_of_load {text : Bytes} (load : loadRunnerConfig text = .ok config) :
    ∃ loading : Loading RunnerConfig, Loaded loading ∧ loading.config = config
      ∧ checkRunnerConfig config loading.has_schema loading.seen = .ok () := by
  unfold loadRunnerConfig at load
  obtain ⟨_, -, load⟩ := bind_ok.mp load
  obtain ⟨loading, read, load⟩ := bind_ok.mp load
  obtain ⟨_, checked, same⟩ := bind_ok.mp load
  cases pure_ok.mp same
  have start : Loaded { config := {} } := ⟨kept_defaults, fun set => absurd rfl set⟩
  exact ⟨loading, Format.readLines_keeps (fun _ _ _ => loaded_turn) start read, rfl, checked⟩

end Runner
end CkGit.Config
