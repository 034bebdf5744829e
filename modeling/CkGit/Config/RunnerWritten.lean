import CkGit.Config.RunnerKept

/-!
What is written for a runner's configuration fills it again, its paths spelled
in one way.
-/
namespace CkGit.Config
open CkGit.Base CkGit.Ci

namespace Runner
variable {config source start after : RunnerConfig} {key value name : Bytes} {entries : List (Bytes × Bytes)}

/-- With the spelling that comes back from what was written. -/
def spelled (config : RunnerConfig) : RunnerConfig :=
  { config with
    ssh_program := if pathKey config.ssh_program = pathKey defaultSsh then defaultSsh else config.ssh_program
    toolchain_paths :=
      if hasDefaultToolchainPaths config then defaultToolchainPaths else config.toolchain_paths.map genericText }

def allSlots (config : RunnerConfig) : List Slot := runnerSlots config ++ environmentSlots config.toolchain_environment

/-- What fits on a line after its key. -/
structure Fits (key value : Bytes) : Prop where
  plain : hasControlCharacter value = false
  short : key.length + value.length + 1 ≤ kMaximumLineBytes

theorem reads_of (fits : KeyFits key) (good : Fits key value) : Reads runnerFormat (key, value) := by
  have short : ¬(Setting.line (key, value)).length > kMaximumLineBytes := Nat.not_lt.mpr (line_length ▸ good.short)
  refine ⟨?_, line_free fits good.plain (by decide), Nat.not_lt.mp short⟩
  show splitRunnerLine _ = _
  unfold splitRunnerLine
  rw [if_neg (line_unreturned fits good.plain)]
  simp only [rejectIf, if_neg short, if_neg (line_counts fits), cut_line fits.filled fits.one_equals, bind, Except.bind]
  rfl

theorem keys_known : ∀ entry ∈ keys, keyOf (ascii entry.1) = some entry.2 ∧ KeyFits (ascii entry.1)
    ∧ (ascii entry.1).length ≤ 40 ∧ environmentPrefix.isPrefixOf (ascii entry.1) = false := by decide +kernel

theorem keyOf_prefixed (name : Bytes) : keyOf (environmentPrefix ++ name) = some (.ci_toolchain_env name) := by
  have begins : environmentPrefix.isPrefixOf (environmentPrefix ++ name) = true :=
    List.isPrefixOf_iff_prefix.mpr (List.prefix_append _ _)
  have unlisted : keys.find? (fun entry => ascii entry.1 == environmentPrefix ++ name) = none := by
    rw [List.find?_eq_none]
    intro entry member same
    have other := (keys_known entry member).2.2.2
    rw [eq_of_beq same, begins] at other
    cases other
  unfold keyOf
  rw [unlisted, begins, List.drop_left]
  rfl

theorem prefix_visible : ∀ byte ∈ environmentPrefix, isVisible byte = true ∧ byte ≠ equals := by decide +kernel

theorem environment_visible (good : isEnvironmentName name = true) :
    ∀ byte ∈ name, isVisible byte = true ∧ byte ≠ equals := by
  unfold isEnvironmentName at good
  simp only [Bool.and_eq_true] at good
  obtain ⟨⟨-, each⟩, -⟩ := good
  intro byte member
  have kind := List.all_eq_true.mp each byte member
  simp only [Bool.or_eq_true, beq_iff_eq] at kind
  rcases kind with (upper | digit) | rfl
  · refine ⟨visible_alnum (by simp [isAlnum, upper]), ?_⟩
    rintro rfl
    cases upper
  · refine ⟨visible_digit digit, ?_⟩
    rintro rfl
    cases digit
  · decide

theorem prefixed_fits (good : isEnvironmentName name = true) : KeyFits (environmentPrefix ++ name) := by
  have each : ∀ byte ∈ environmentPrefix ++ name, isVisible byte = true ∧ byte ≠ equals := by
    intro byte member
    rcases List.mem_append.mp member with before | after
    exacts [prefix_visible byte before, environment_visible good byte after]
  have begins : environmentPrefix.head? = some 'c'.toUInt8 := by decide
  refine ⟨?_, fun member => (each equals member).2 rfl, tidy_visible fun byte member => (each byte member).1, ?_⟩
  · intro none
    rw [(List.append_eq_nil_iff.mp none).1] at begins
    cases begins
  · rw [List.head?_append, begins]
    show some 'c'.toUInt8 ≠ some hash
    decide

theorem puts_of {key : String} {found : Key} {value : Option Bytes} (listed : (key, found) ∈ keys)
    (left_out : value = none → after = start)
    (stored : ∀ text, value = some text → Fits (ascii key) text ∧ storeRunnerField start found text = .ok after) :
    Puts runnerFormat start after (ascii key, value) where
  left_out := left_out
  stored text has := by
    obtain ⟨good, read⟩ := stored text has
    obtain ⟨is, fits, -, -⟩ := keys_known _ listed
    refine ⟨reads_of fits good, ?_⟩
    show runnerField start _ = _
    unfold runnerField
    rw [is]
    exact read

theorem fits_short {key : String} {found : Key} (listed : (key, found) ∈ keys)
    (plain : hasControlCharacter value = false) (short : value.length ≤ 2000) : Fits (ascii key) value := by
  have key_short : (ascii key).length ≤ 40 := (keys_known _ listed).2.2.1
  have limit : kMaximumLineBytes = 2048 := rfl
  exact ⟨plain, by omega⟩

theorem absolutePath_fits (fits : PathFits value) : absolutePath value = .ok value := by
  have short : ¬value.length > 1024 := Nat.not_lt.mpr fits.short
  unfold absolutePath
  simp only [rejectIf, fits.filled, pathFromUtf8_ok fits.utf8 fits.plain, fits.absolute, fits.plain, short,
    Bool.not_true, Bool.false_eq_true, or_self, if_false, bind, Except.bind]
  rfl

theorem puts_path {key : String} {found : PathKey} {value : Option Bytes} (listed : (key, .path found) ∈ keys)
    (fits : ∀ text, value = some text → PathFits text) (left_out : value = none → after = start)
    (set : ∀ text, value = some text → setPath start found text = after) :
    Puts runnerFormat start after (ascii key, value) := by
  refine puts_of listed left_out fun text has => ?_
  have good := fits text has
  refine ⟨fits_short listed good.plain (Nat.le_trans good.short (by decide)), ?_⟩
  simp only [storeRunnerField, absolutePath_fits good, bind, Except.bind, set text has]
  rfl

theorem readInteger_decimal {low high n : Nat} (within : low ≤ n ∧ n ≤ high) (small : high ≤ 2 ^ 32 - 1) :
    readInteger (decimal n) low high = .ok n := by
  have good : ¬(n < low ∨ n > high) := by omega
  unfold readInteger
  simp only [parseDecimal_decimal (Nat.le_trans within.2 small), rejectIf, if_neg good, bind, Except.bind]
  rfl

theorem fits_decimal {key : String} {found : Key} {n : Nat} (listed : (key, found) ∈ keys) (small : n ≤ 86400) :
    Fits (ascii key) (decimal n) := by
  have short : (decimal n).length ≤ 5 := decimal_length_le (by decide) (by omega)
  exact fits_short listed (decimal_tidy n).plain (Nat.le_trans short (by decide))

theorem puts_unless {key : String} {found : Key} {omitted : Prop} [Decidable omitted] (listed : (key, found) ∈ keys)
    (left_out : omitted → after = start)
    (stored : ¬omitted → Fits (ascii key) value ∧ storeRunnerField start found value = .ok after) :
    Puts runnerFormat start after (ascii key, if omitted then none else some value) := by
  by_cases skip : omitted
  · rw [if_pos skip]
    exact puts_of listed (fun _ => left_out skip) nofun
  · rw [if_neg skip]
    exact puts_of listed nofun fun _ has => Option.some.inj has ▸ stored skip

theorem puts_when {key : String} {found : Key} {given : Prop} [Decidable given] (listed : (key, found) ∈ keys)
    (left_out : ¬given → after = start)
    (stored : given → Fits (ascii key) value ∧ storeRunnerField start found value = .ok after) :
    Puts runnerFormat start after (ascii key, if given then some value else none) := by
  by_cases set : given
  · rw [if_pos set]
    exact puts_of listed nofun fun _ has => Option.some.inj has ▸ stored set
  · rw [if_neg set]
    exact puts_of listed (fun _ => left_out set) nofun

theorem generic_part {part : Bytes} (fits : PartFits part) : PartFits (genericText part) where
  filled := (generic_begins fits.filled fits.relative).1
  no_colon := generic_avoids fits.relative (by decide) fits.no_colon
  no_backslash := generic_avoids fits.relative (by decide) fits.no_backslash
  plain := List.any_eq_false.mpr fun byte member control => by
    have other : byte ≠ slash := by
      rintro rfl
      cases control
    exact generic_avoids fits.relative other (control_free fits.plain control) member
  relative := (generic_begins fits.filled fits.relative).2
  no_parent := by
    rw [generic_names fits.filled fits.relative]
    exact fits.no_parent
  utf8 := generic_utf8 fits.relative fits.utf8

theorem addToolchainPath_fits {paths : List Bytes} {part : Bytes} (fits : PartFits part) (few : paths.length < 32) :
    addToolchainPath paths part = .ok (paths ++ [part]) := by
  have room : ¬(paths ++ [part]).length > 32 := by
    rw [List.length_append, List.length_singleton]
    omega
  unfold addToolchainPath
  simp only [rejectIf, pathFromUtf8_ok fits.utf8 fits.plain, fits.filled, fits.no_colon, fits.no_backslash, fits.plain,
    fits.relative, fits.no_parent, room, Bool.false_eq_true, or_self, if_false, bind, Except.bind]
  rfl

theorem addToolchainPath_all {paths parts : List Bytes} (fit : ∀ part ∈ parts, PartFits part)
    (few : paths.length + parts.length ≤ 32) : parts.foldlM addToolchainPath paths = .ok (paths ++ parts) := by
  induction parts generalizing paths with
  | nil => rw [List.append_nil]; rfl
  | cons part rest ih =>
    rw [List.length_cons] at few
    have later := @ih (paths ++ [part]) (fun other member => fit other (.tail _ member))
      (by rw [List.length_append, List.length_singleton]; omega)
    rw [List.append_assoc, List.singleton_append] at later
    rw [List.foldlM_cons, addToolchainPath_fits (fit part (.head _)) (by omega)]
    exact later

theorem generic_shorter {parts : List Bytes} (fit : ∀ part ∈ parts, PartFits part) :
    ((parts.map genericText).map fun part => part.length + 1).sum ≤ (parts.map fun part => part.length + 1).sum := by
  induction parts with
  | nil => exact Nat.le_refl _
  | cons part rest ih =>
    have first := generic_short (fit part (.head _)).filled (fit part (.head _)).relative
    have others := ih fun other member => fit other (.tail _ member)
    simp only [List.map_cons, List.sum_cons]
    omega

/-- What the directories are written as. -/
theorem Kept.joined (kept : Kept config) {joined : Bytes}
    (is : joined = [semicolon].intercalate (config.toolchain_paths.map genericText)) :
    Fits (ascii "ci_toolchain_paths") joined
      ∧ (joined.splitOn semicolon).foldlM addToolchainPath [] = .ok (config.toolchain_paths.map genericText) := by
  have some_part : config.toolchain_paths.map genericText ≠ [] := fun none =>
    kept.some_part (List.map_eq_nil_iff.mp none)
  have fit : ∀ part ∈ config.toolchain_paths.map genericText, PartFits part ∧ semicolon ∉ part := by
    intro part member
    obtain ⟨path, inside, rfl⟩ := List.mem_map.mp member
    obtain ⟨fits, alone⟩ := kept.parts path inside
    exact ⟨generic_part fits, generic_avoids fits.relative (by decide) alone⟩
  have split : joined.splitOn semicolon = config.toolchain_paths.map genericText := by
    rw [is]
    exact List.splitOn_intercalate semicolon (fun part member => (fit part member).2) some_part
  refine ⟨⟨?_, ?_⟩, ?_⟩
  · rw [is]
    refine List.any_eq_false.mpr fun byte member control => ?_
    rcases mem_intercalate member with rfl | ⟨part, inside, within⟩
    · cases control
    · exact control_free (fit part inside).1.plain control within
  · have now := @intercalate_length semicolon _ some_part
    have before := @intercalate_length semicolon _ kept.some_part
    have fewer := generic_shorter fun part member => (kept.parts part member).1
    have short := kept.short_parts
    rw [is]
    omega
  · rw [split]
    refine addToolchainPath_all (fun part member => (fit part member).1) ?_
    rw [List.length_map, List.length_nil, Nat.zero_add]
    exact kept.few_parts

theorem fills_environment (fit : ∀ entry ∈ entries, EntryFits entry)
    (sorted : Sorted (start.toolchain_environment ++ entries)) :
    Fills runnerFormat start (environmentSlots entries)
      { start with toolchain_environment := start.toolchain_environment ++ entries } := by
  induction entries generalizing start with
  | nil =>
    rw [List.append_nil]
    exact .nil _
  | cons entry rest ih =>
    obtain ⟨name, value⟩ := entry
    have fits := fit (name, value) (.head _)
    have above : ∀ other ∈ start.toolchain_environment, other.1 < name := fun other member =>
      (List.pairwise_append.mp sorted).2.2 other member _ (.head _)
    rw [List.append_cons] at sorted
    have later := @ih { start with toolchain_environment := start.toolchain_environment ++ [(name, value)] }
      (fun other member => fit other (.tail _ member)) sorted
    rw [List.append_assoc] at later
    refine .cons ⟨nofun, fun text has => ?_⟩ later
    cases has
    refine ⟨reads_of (prefixed_fits fits.name) ⟨fits.plain, fits.short⟩, ?_⟩
    change runnerField start (environmentPrefix ++ name, value) = _
    unfold runnerField
    rw [keyOf_prefixed]
    simp only [storeRunnerField, rejectIf, fits.name, fits.plain, Bool.not_true, Bool.false_eq_true, or_self, if_false,
      bind, Except.bind, assign_last above]
    rfl

/-- With the path of one key taken from another configuration. -/
def takingPath (start source : RunnerConfig) (key : PathKey) : RunnerConfig :=
  match key with
  | .ci_build_root => { start with build_root := source.build_root }
  | .identity => { start with identity := source.identity }
  | .known_hosts => { start with known_hosts := source.known_hosts }
  | .ssh_program => { start with ssh_program := source.ssh_program }
  | .ci_cache_root => { start with cache_root := source.cache_root }
  | .ci_macos_native_socket => { start with macos_native_socket := source.macos_native_socket }
  | .ci_macos_vm_base => { start with macos_vm_base := source.macos_vm_base }
  | .ci_macos_vm_work_root => { start with macos_vm_work_root := source.macos_vm_work_root }
  | .ci_toolchain_root => { start with toolchain_root := source.toolchain_root }

theorem client_id_visible (valid : isValidClientId value = true) : Tidy value ∧ value.length ≤ 64 := by
  unfold isValidClientId at valid
  simp only [Bool.and_eq_true, decide_eq_true_eq] at valid
  obtain ⟨⟨⟨-, short⟩, -⟩, each⟩ := valid
  refine ⟨tidy_visible fun byte member => ?_, short⟩
  have kind := List.all_eq_true.mp each byte member
  simp only [Bool.or_eq_true, beq_iff_eq] at kind
  rcases kind with (alnum | rfl) | rfl
  exacts [visible_alnum alnum, by decide, by decide]

theorem puts_server (kept : Kept config) (filled : config.server ≠ []) :
    Puts runnerFormat start { start with server := config.server } (ascii "server", some config.server) := by
  have listed : ("server", Key.server) ∈ keys := by simp [keys]
  have good := kept.server filled
  obtain ⟨tidy, short⟩ := ssh_target_tidy good
  refine puts_of listed (fun none => by cases none) fun _ has => Option.some.inj has ▸ ⟨fits_short listed tidy.plain short, ?_⟩
  simp only [storeRunnerField, rejectIf, good]
  rfl

theorem puts_name (kept : Kept config) (filled : config.name ≠ []) :
    Puts runnerFormat start { start with name := config.name } (ascii "name", some config.name) := by
  have listed : ("name", Key.name) ∈ keys := by simp [keys]
  obtain ⟨valid, other⟩ := kept.name filled
  obtain ⟨tidy, short⟩ := client_id_visible valid
  refine puts_of listed (fun none => by cases none) fun _ has => Option.some.inj has ▸
    ⟨fits_short listed tidy.plain (Nat.le_trans short (by decide)), ?_⟩
  simp only [storeRunnerField, rejectIf, valid, other]
  rfl

theorem puts_wait (kept : Kept config) (unset : start.claim_wait_seconds = 60) :
    Puts runnerFormat start { start with claim_wait_seconds := config.claim_wait_seconds } (ascii "claim_wait_seconds",
      if config.claim_wait_seconds = 60 then none else some (decimal config.claim_wait_seconds)) := by
  have listed : ("claim_wait_seconds", Key.claim_wait_seconds) ∈ keys := by simp [keys]
  have limit : kMaximumCiClaimWaitSeconds = 120 := rfl
  have within := kept.wait
  refine puts_unless listed (fun same => by rw [same, ← unset]) fun _ => ⟨fits_decimal listed (by omega), ?_⟩
  simp only [storeRunnerField, readInteger_decimal within (by decide), bind, Except.bind]
  rfl

theorem puts_network (unset : start.allow_network = true) :
    Puts runnerFormat start { start with allow_network := config.allow_network } (ascii "ci_allow_network",
      if config.allow_network then none else some (ascii "false")) := by
  have listed : ("ci_allow_network", Key.ci_allow_network) ∈ keys := by simp [keys]
  have read : readBoolean (ascii "false") = .ok false := by decide
  refine puts_unless listed (fun same => by rw [same, ← unset]) fun offline =>
    ⟨fits_short listed (by decide) (by decide), ?_⟩
  simp only [storeRunnerField, read, bind, Except.bind, Bool.eq_false_iff.mpr offline]
  rfl

theorem puts_degraded (unset : start.allow_degraded = false) :
    Puts runnerFormat start { start with allow_degraded := config.allow_degraded } (ascii "ci_allow_degraded",
      if config.allow_degraded then some (ascii "true") else none) := by
  have listed : ("ci_allow_degraded", Key.ci_allow_degraded) ∈ keys := by simp [keys]
  have read : readBoolean (ascii "true") = .ok true := by decide
  refine puts_when listed (fun same => by rw [Bool.eq_false_iff.mpr same, ← unset]) fun degraded =>
    ⟨fits_short listed (by decide) (by decide), ?_⟩
  simp only [storeRunnerField, read, bind, Except.bind, degraded]
  rfl

theorem puts_timeout (kept : Kept config) (unset : start.timeout_seconds = none) :
    Puts runnerFormat start { start with timeout_seconds := config.timeout_seconds }
      (ascii "ci_timeout_seconds", config.timeout_seconds.map decimal) := by
  have listed : ("ci_timeout_seconds", Key.ci_timeout_seconds) ∈ keys := by simp [keys]
  cases seconds : config.timeout_seconds with
  | none => exact puts_of listed (fun _ => by rw [← unset]) fun _ has => by cases has
  | some n =>
    have within := kept.timeout n seconds
    refine puts_of listed (fun none => by cases none) fun _ has => Option.some.inj has ▸ ⟨fits_decimal listed within.2, ?_⟩
    simp only [storeRunnerField, readInteger_decimal within (by decide), bind, Except.bind]
    rfl

theorem puts_free (kept : Kept config) (unset : start.macos_vm_min_free_gib = 20)
    (given : config.macos_vm_min_free_gib ≠ 20 → config.macos_vm_base.isSome = true) :
    Puts runnerFormat start { start with macos_vm_min_free_gib := config.macos_vm_min_free_gib }
      (ascii "ci_macos_vm_min_free_gib",
        if config.macos_vm_base.isSome ∧ config.macos_vm_min_free_gib ≠ 20 then some (decimal config.macos_vm_min_free_gib)
        else none) := by
  have listed : ("ci_macos_vm_min_free_gib", Key.ci_macos_vm_min_free_gib) ∈ keys := by simp [keys]
  have within := kept.free
  refine puts_when listed (fun skip => ?_) fun _ => ⟨fits_decimal listed (by omega), ?_⟩
  · have same : config.macos_vm_min_free_gib = 20 := by
      by_contra other
      exact skip ⟨given other, other⟩
    rw [same, ← unset]
  · simp only [storeRunnerField, readInteger_decimal within (by decide), bind, Except.bind]
    rfl

theorem puts_toolchain (kept : Kept config) (unset : start.toolchain_paths = defaultToolchainPaths) :
    Puts runnerFormat start { start with toolchain_paths := (spelled config).toolchain_paths }
      (ascii "ci_toolchain_paths", if hasDefaultToolchainPaths config then none
      else some ([semicolon].intercalate (config.toolchain_paths.map genericText))) := by
  have listed : ("ci_toolchain_paths", Key.ci_toolchain_paths) ∈ keys := by simp [keys]
  obtain ⟨fits, read⟩ := kept.joined rfl
  refine puts_unless listed (fun same => by rw [spelled, if_pos same, ← unset]) fun other => ⟨fits, ?_⟩
  simp only [storeRunnerField, read, spelled, if_neg other, bind, Except.bind]
  rfl

theorem puts_root (kept : Kept config) (filled : config.build_root ≠ []) :
    Puts runnerFormat start { start with build_root := config.build_root }
      (ascii "ci_build_root", some config.build_root) :=
  puts_path (show ("ci_build_root", Key.path .ci_build_root) ∈ keys by simp [keys])
    (fun _ has => Option.some.inj has ▸ kept.paths .ci_build_root config.build_root (by simp [path, filled])) nofun
    fun _ has => by rw [← Option.some.inj has]; rfl

theorem puts_ssh (kept : Kept config) (unset : start.ssh_program = defaultSsh) :
    Puts runnerFormat start { start with ssh_program := (spelled config).ssh_program } (ascii "ssh_program",
      if pathKey config.ssh_program = pathKey defaultSsh then none else some config.ssh_program) := by
  have listed : ("ssh_program", Key.path .ssh_program) ∈ keys := by simp [keys]
  have fits := kept.paths .ssh_program config.ssh_program rfl
  refine puts_unless listed (fun same => by rw [spelled, if_pos same, ← unset]) fun other =>
    ⟨fits_short listed fits.plain (Nat.le_trans fits.short (by decide)), ?_⟩
  simp only [storeRunnerField, absolutePath_fits fits, spelled, if_neg other, bind, Except.bind]
  rfl

/-- The paths that have no default. -/
theorem puts_optional {key : String} {found : PathKey} (kept : Kept config) (listed : (key, .path found) ∈ keys)
    (optional : found ≠ .ci_build_root ∧ found ≠ .ssh_program) (unset : path start found = none) :
    Puts runnerFormat start (takingPath start config found) (ascii key, path config found) := by
  refine puts_path listed (kept.paths found) (fun absent => ?_) fun text has => ?_
  · cases found with
    | ci_build_root => exact absurd rfl optional.1
    | ssh_program => exact absurd rfl optional.2
    | _ =>
      simp only [path] at absent unset
      rw [takingPath, absent, ← unset]
  · cases found with
    | ci_build_root => exact absurd rfl optional.1
    | ssh_program => exact absurd rfl optional.2
    | _ =>
      simp only [path] at has
      rw [setPath, takingPath, has]

theorem Kept.fills_slots (kept : Kept config) (server : config.server ≠ []) (name : config.name ≠ [])
    (root : config.build_root ≠ []) (free : config.macos_vm_min_free_gib ≠ 20 → config.macos_vm_base.isSome = true) :
    Fills runnerFormat {} (runnerSlots config) { spelled config with toolchain_environment := [] } := by
  have plain : ∀ {found : PathKey}, found ≠ .ci_build_root → found ≠ .ssh_program →
      found ≠ .ci_build_root ∧ found ≠ .ssh_program := fun first second => ⟨first, second⟩
  refine .cons (puts_server kept server) ?_
  refine .cons (puts_name kept name) ?_
  refine .cons (puts_root kept root) ?_
  refine .cons (@puts_optional config _ _ .identity kept (by simp [keys]) (plain (by decide) (by decide)) rfl) ?_
  refine .cons (@puts_optional config _ _ .known_hosts kept (by simp [keys]) (plain (by decide) (by decide)) rfl) ?_
  refine .cons (puts_ssh kept rfl) ?_
  change Fills runnerFormat
    { server := config.server, name := config.name, build_root := config.build_root, identity := config.identity,
      known_hosts := config.known_hosts, ssh_program := (spelled config).ssh_program } _ _
  refine .cons (puts_wait kept rfl) ?_
  refine .cons (@puts_optional config _ _ .ci_cache_root kept (by simp [keys]) (plain (by decide) (by decide)) rfl) ?_
  refine .cons (@puts_network config _ rfl) ?_
  refine .cons (puts_timeout kept rfl) ?_
  refine .cons (@puts_degraded config _ rfl) ?_
  refine .cons (@puts_optional config _ _ .ci_toolchain_root kept (by simp [keys]) (plain (by decide) (by decide)) rfl) ?_
  change Fills runnerFormat
    { server := config.server, name := config.name, build_root := config.build_root, identity := config.identity,
      known_hosts := config.known_hosts, ssh_program := (spelled config).ssh_program,
      claim_wait_seconds := config.claim_wait_seconds, cache_root := config.cache_root,
      allow_network := config.allow_network, timeout_seconds := config.timeout_seconds,
      allow_degraded := config.allow_degraded, toolchain_root := config.toolchain_root } _ _
  refine .cons (@puts_optional config _ _ .ci_macos_native_socket kept (by simp [keys]) (plain (by decide) (by decide)) rfl) ?_
  refine .cons (@puts_optional config _ _ .ci_macos_vm_base kept (by simp [keys]) (plain (by decide) (by decide)) rfl) ?_
  refine .cons (@puts_optional config _ _ .ci_macos_vm_work_root kept (by simp [keys]) (plain (by decide) (by decide)) rfl) ?_
  refine .cons (puts_free kept rfl free) ?_
  refine .cons (puts_toolchain kept rfl) ?_
  exact .nil _

/-- Every setting that is written is read back into its own field. -/
theorem Kept.fills (kept : Kept config) (server : config.server ≠ []) (name : config.name ≠ [])
    (root : config.build_root ≠ []) (free : config.macos_vm_min_free_gib ≠ 20 → config.macos_vm_base.isSome = true) :
    Fills runnerFormat {} (allSlots config) (spelled config) :=
  (kept.fills_slots server name root free).append (fills_environment kept.entries kept.sorted)

theorem slot_keys (config : RunnerConfig) : (runnerSlots config).map Prod.fst = (runnerSlots {}).map Prod.fst := rfl

theorem slot_keys_once : ((runnerSlots {}).map Prod.fst).Nodup ∧ schemaKey ∉ (runnerSlots {}).map Prod.fst
    ∧ (∀ key ∈ (runnerSlots {}).map Prod.fst, environmentPrefix.isPrefixOf key = false)
    ∧ environmentPrefix.isPrefixOf schemaKey = false := by decide +kernel

theorem environment_key {slot : Slot} (member : slot ∈ environmentSlots entries) :
    ∃ entry ∈ entries, slot.1 = environmentPrefix ++ entry.1 := by
  obtain ⟨entry, inside, rfl⟩ := List.mem_map.mp member
  exact ⟨entry, inside, rfl⟩

theorem prefixed_begins (name : Bytes) : environmentPrefix.isPrefixOf (environmentPrefix ++ name) = true :=
  List.isPrefixOf_iff_prefix.mpr (List.prefix_append _ _)

theorem environment_once (sorted : Sorted entries) : ((environmentSlots entries).map Prod.fst).Nodup := by
  unfold environmentSlots
  rw [List.map_map]
  refine List.pairwise_map.mpr (sorted.imp fun {first second} below same => ?_)
  rw [List.append_cancel_left (show environmentPrefix ++ first.1 = environmentPrefix ++ second.1 from same)] at below
  exact List.lt_irrefl _ below

theorem slots_once (kept : Kept config) : ((allSlots config).map Prod.fst).Nodup := by
  obtain ⟨fixed, -, unprefixed, -⟩ := slot_keys_once
  rw [allSlots, List.map_append]
  refine List.nodup_append.mpr ⟨slot_keys config ▸ fixed, environment_once kept.sorted, fun key one other many => ?_⟩
  rintro rfl
  obtain ⟨slot, member, rfl⟩ := List.mem_map.mp many
  obtain ⟨entry, -, is⟩ := environment_key member
  have no_prefix := unprefixed slot.1 (slot_keys config ▸ one)
  rw [is, prefixed_begins] at no_prefix
  cases no_prefix

theorem slot_plain {slot : Slot} (member : slot ∈ allSlots config) : slot.1 ≠ schemaKey := by
  obtain ⟨-, fixed, -, unprefixed⟩ := slot_keys_once
  rcases List.mem_append.mp member with one | many
  · exact fun same => fixed (slot_keys config ▸ same ▸ List.mem_map_of_mem one)
  · obtain ⟨entry, -, is⟩ := environment_key many
    intro same
    rw [← same, is, prefixed_begins] at unprefixed
    cases unprefixed

/-- The minimum is written for a virtual machine only. -/
theorem free_written (kept : Kept config)
    (member : ascii "ci_macos_vm_min_free_gib" ∈ (written (allSlots config)).map Prod.fst) :
    config.macos_vm_base.isSome = true := by
  obtain ⟨setting, inside, named⟩ := List.mem_map.mp member
  obtain ⟨slot, listed, has⟩ := List.mem_filterMap.mp inside
  obtain ⟨value, given, rfl⟩ := Option.map_eq_some_iff.mp has
  have own : (ascii "ci_macos_vm_min_free_gib",
      if config.macos_vm_base.isSome ∧ config.macos_vm_min_free_gib ≠ 20 then some (decimal config.macos_vm_min_free_gib)
      else none) ∈ allSlots config := List.mem_append_left _ (by simp [runnerSlots])
  have same := List.inj_on_of_nodup_map (slots_once kept) listed own named
  rw [same] at given
  dsimp only at given
  split at given
  · next both => exact both.1
  · cases given

theorem Kept.spelled_default (kept : Kept config) :
    hasDefaultToolchainPaths (spelled config) = hasDefaultToolchainPaths config := by
  by_cases default : hasDefaultToolchainPaths config = true
  · have same : (spelled config).toolchain_paths = defaultToolchainPaths := if_pos default
    rw [default, hasDefaultToolchainPaths, same]
    exact beq_self_eq_true _
  · have same : (spelled config).toolchain_paths = config.toolchain_paths.map genericText := if_neg default
    have keys : (config.toolchain_paths.map genericText).map pathKey = config.toolchain_paths.map pathKey := by
      rw [List.map_map]
      refine List.map_congr_left fun path member => ?_
      obtain ⟨fits, -⟩ := kept.parts path member
      exact generic_key fits.filled fits.relative
    rw [hasDefaultToolchainPaths, same, keys]
    rfl

theorem spelled_shell_safe (safe : isShellSafe config.ssh_program = true) :
    isShellSafe (spelled config).ssh_program = true := by
  unfold spelled
  dsimp only
  split
  · decide
  · exact safe

/-- The checks of all fields say the same of what comes back. -/
theorem Kept.check (kept : Kept config) {has_schema : Bool} {seen again : List Bytes}
    (checked : checkRunnerConfig config has_schema seen = .ok ())
    (given : ascii "ci_macos_vm_min_free_gib" ∈ again → config.macos_vm_base.isSome = true) :
    checkRunnerConfig (spelled config) true again = .ok () := by
  unfold checkRunnerConfig at checked
  obtain ⟨_, complete, checked⟩ := bind_ok.mp checked
  obtain ⟨_, native, checked⟩ := bind_ok.mp checked
  obtain ⟨_, paired, checked⟩ := bind_ok.mp checked
  obtain ⟨_, isolated, checked⟩ := bind_ok.mp checked
  obtain ⟨_, guest_tools, safe⟩ := bind_ok.mp checked
  rw [rejectIf_ok] at complete native paired isolated guest_tools safe
  unfold checkRunnerConfig
  refine bind_ok.mpr ⟨(), rejectIf_ok.mpr ?complete, bind_ok.mpr ⟨(), rejectIf_ok.mpr native, ?_⟩⟩
  case complete =>
    rintro (unversioned | missing)
    · cases unversioned
    · exact complete (.inr missing)
  refine bind_ok.mpr ⟨(), rejectIf_ok.mpr ?paired, bind_ok.mpr ⟨(), rejectIf_ok.mpr isolated, ?_⟩⟩
  case paired =>
    rintro (differ | ⟨set, absent⟩)
    · exact paired (.inl differ)
    · have none : config.macos_vm_base.isNone = true := absent
      rw [← Option.not_isSome, given set] at none
      cases none
  refine bind_ok.mpr ⟨(), rejectIf_ok.mpr ?guest_tools, rejectIf_ok.mpr ?safe⟩
  case guest_tools =>
    rw [kept.spelled_default]
    exact guest_tools
  case safe =>
    simp only [not_or, Bool.not_eq_true', Bool.not_eq_false] at safe ⊢
    exact ⟨safe.1, spelled_shell_safe safe.2⟩

/-- What was loaded, and what is enough to load it again. -/
structure Settled (config : RunnerConfig) : Prop where
  kept : Kept config
  server : config.server ≠ []
  name : config.name ≠ []
  root : config.build_root ≠ []
  free : config.macos_vm_min_free_gib ≠ 20 → config.macos_vm_base.isSome = true
  checked : ∀ seen, (ascii "ci_macos_vm_min_free_gib" ∈ seen → config.macos_vm_base.isSome = true) →
    checkRunnerConfig (spelled config) true seen = .ok ()

theorem settled_of_load {text : Bytes} (load : loadRunnerConfig text = .ok config) : Settled config := by
  obtain ⟨loading, ⟨kept, seen⟩, rfl, checked⟩ := loaded_of_load load
  have parts := checked
  unfold checkRunnerConfig at parts
  obtain ⟨_, complete, parts⟩ := bind_ok.mp parts
  obtain ⟨_, -, parts⟩ := bind_ok.mp parts
  obtain ⟨_, paired, -⟩ := bind_ok.mp parts
  rw [rejectIf_ok] at complete paired
  simp only [not_or] at complete
  refine ⟨kept, complete.2.1, complete.2.2.1, complete.2.2.2, fun set => ?_, fun _ given => kept.check checked given⟩
  by_contra absent
  exact paired (.inr ⟨seen set, by rw [← Option.not_isSome, Bool.eq_false_iff.mpr absent]; rfl⟩)

theorem Settled.fills (settled : Settled config) : Fills runnerFormat {} (allSlots config) (spelled config) :=
  settled.kept.fills settled.server settled.name settled.root settled.free

/-- A file of these lines is loaded. -/
theorem Settled.load {text : Bytes} (settled : Settled config)
    (lines : fileLines text = settingLines (written (allSlots config))) (size : text.length ≤ kMaximumConfigBytes) :
    loadRunnerConfig text = .ok (spelled config) := by
  obtain ⟨seen, read, keys⟩ := settled.fills.readLines (by decide +kernel) rfl (fun slot => slot_plain)
    ((slots_once settled.kept).sublist List.filter_sublist)
  have given : ascii "ci_macos_vm_min_free_gib" ∈ seen → config.macos_vm_base.isSome = true := by
    intro member
    rcases keys _ member with version | setting
    · exact absurd version (by decide +kernel)
    · exact free_written settled.kept setting
  unfold loadRunnerConfig
  rw [rejectIf, if_neg (Nat.not_lt.mpr size), lines]
  simp only [bind, Except.bind, read, settled.checked seen given]
  rfl

end Runner
end CkGit.Config
