import CkGit.Ci.JobCodec
import CkGit.Config.Server

/-!
A server configuration that was loaded is loaded again from what is written for it.
-/
namespace CkGit.Config
open CkGit.Base CkGit.Ci

namespace Server
variable {config : ServerConfig} {value : Bytes} {setting : Setting}

def path (config : ServerConfig) (key : PathKey) : Option Bytes :=
  match key with
  | .repo_root => if config.repo_root.isEmpty then none else some config.repo_root
  | .control_socket => if config.control_socket.isEmpty then none else some config.control_socket
  | .state_root => config.state_root
  | .hook_directory => config.hook_directory
  | .ci_build_root => config.ci_build_root
  | .ci_cache_root => config.ci_cache_root
  | .pages_root => config.pages_root

def number (config : ServerConfig) (key : NumberKey) : Option Nat :=
  match key with
  | .ci_timeout_seconds => config.ci_timeout_seconds
  | .ci_poll_seconds => config.ci_poll_seconds
  | .ci_max_log_bytes => config.ci_max_log_bytes
  | .ci_rescan_seconds => config.ci_rescan_seconds
  | .ci_lease_seconds => config.ci_lease_seconds
  | .ci_max_attempts => config.ci_max_attempts
  | .ci_claim_delay_ms => config.ci_claim_delay_ms
  | .ci_artifact_retention_days => config.ci_artifact_retention_days
  | .ci_artifact_max_retention_days => config.ci_artifact_max_retention_days
  | .ci_artifact_max_bytes => config.ci_artifact_max_bytes
  | .ci_artifact_max_project_bytes => config.ci_artifact_max_project_bytes
  | .ci_artifact_max_total_bytes => config.ci_artifact_max_total_bytes
  | .ci_runs_keep => config.ci_runs_keep
  | .ci_cleanup_interval_seconds => config.ci_cleanup_interval_seconds
  | .pages_keep_versions => config.pages_keep_versions

def port (config : ServerConfig) (key : PortKey) : Option Nat :=
  match key with
  | .http_port => config.http_port
  | .pages_http_port => config.pages_http_port

theorem path_setPath (filled : value ≠ []) (key other : PathKey) :
    path (setPath config key value) other = if other = key then some value else path config other := by
  cases key <;> cases other <;> simp [path, setPath, filled]

theorem number_setNumber (n : Nat) (key other : NumberKey) :
    number (setNumber config key n) other = if other = key then some n else number config other := by
  cases key <;> cases other <;> rfl

theorem port_setPort (n : Nat) (key other : PortKey) :
    port (setPort config key n) other = if other = key then some n else port config other := by
  cases key <;> cases other <;> rfl

structure PathFits (value : Bytes) : Prop where
  absolute : isAbsoluteConfiguredPath value = true
  one_equals : equals ∉ value
  trimmed : hasOuterWhitespace value = false

structure Kept (config : ServerConfig) : Prop where
  paths : ∀ key value, path config key = some value → PathFits value
  numbers : ∀ key n, number config key = some n → refusal key n = none ∧ n < 2 ^ 64
  ports : ∀ key n, port config key = some n → n ≤ 65535
  labels : (∀ label ∈ config.ci_runner_labels, isValidCiLabel label = true)
    ∧ sortedUnique config.ci_runner_labels = config.ci_runner_labels ∧ config.ci_runner_labels.length ≤ kMaximumCiLabels
  target : ∀ value, config.ssh_clone_target = some value → isValidSshCloneTarget value = true
  url : ∀ value, config.pages_public_url = some value → isValidPublicUrl value = true ∧ Tidy value

theorem kept_defaults : Kept {} where
  paths key value has := by cases key <;> cases has
  numbers key n has := by cases key <;> cases has
  ports key n has := by cases key <;> cases has
  labels := ⟨nofun, rfl, by decide⟩
  target _ has := by cases has
  url _ has := by cases has

/-- What a line that passed says of its value. -/
theorem split_tidy {line : Bytes} (split : splitServerLine line = .ok (some setting)) : Tidy setting.2 := by
  unfold splitServerLine at split
  obtain ⟨_, -, split⟩ := bind_ok.mp split
  split at split
  · cases pure_ok.mp split
  · split at split
    · cases split
    · next key value _ =>
      obtain ⟨_, good, same⟩ := bind_ok.mp split
      cases pure_ok.mp same
      rw [rejectIf_ok] at good
      simp only [not_or, Bool.not_eq_true] at good
      exact ⟨good.2.1, good.2.2.2.1⟩

theorem Kept.setPath (kept : Kept config) (key : PathKey) (fits : PathFits value) :
    Kept (setPath config key value) where
  paths other found has := by
    have filled : value ≠ [] := by
      rintro rfl
      cases fits.absolute
    rw [path_setPath filled] at has
    split at has
    · cases has
      exact fits
    · exact kept.paths other found has
  numbers other n has := kept.numbers other n (by rw [← has]; cases key <;> cases other <;> rfl)
  ports other n has := kept.ports other n (by rw [← has]; cases key <;> cases other <;> rfl)
  labels := by cases key <;> exact kept.labels
  target := by cases key <;> exact kept.target
  url := by cases key <;> exact kept.url

theorem Kept.setNumber (kept : Kept config) (key : NumberKey) {n : Nat} (good : refusal key n = none)
    (small : n < 2 ^ 64) : Kept (setNumber config key n) where
  paths other found has := kept.paths other found (by rw [← has]; cases key <;> cases other <;> rfl)
  numbers other found has := by
    rw [number_setNumber] at has
    split at has
    · next same =>
      cases has
      exact ⟨same ▸ good, small⟩
    · exact kept.numbers other found has
  ports other found has := kept.ports other found (by rw [← has]; cases key <;> cases other <;> rfl)
  labels := by cases key <;> exact kept.labels
  target := by cases key <;> exact kept.target
  url := by cases key <;> exact kept.url

theorem Kept.setPort (kept : Kept config) (key : PortKey) {n : Nat} (small : n ≤ 65535) : Kept (setPort config key n) where
  paths other found has := kept.paths other found (by rw [← has]; cases key <;> cases other <;> rfl)
  numbers other found has := kept.numbers other found (by rw [← has]; cases key <;> cases other <;> rfl)
  ports other found has := by
    rw [port_setPort] at has
    split at has
    · cases has
      exact small
    · exact kept.ports other found has
  labels := by cases key <;> exact kept.labels
  target := by cases key <;> exact kept.target
  url := by cases key <;> exact kept.url

theorem Kept.store {after : ServerConfig} {key : Key} (kept : Kept config) (tidy : Tidy value)
    (stored : storeServerField config key value = .ok after) : Kept after := by
  unfold storeServerField at stored
  split at stored
  · next key =>
    obtain ⟨_, good, same⟩ := bind_ok.mp stored
    cases pure_ok.mp same
    rw [rejectIf_ok] at good
    simp only [not_or, Bool.not_eq_true', Bool.not_eq_false] at good
    exact kept.setPath key ⟨good.1, good.2, tidy.trimmed⟩
  · next key =>
    split at stored
    · cases stored
    · next n read =>
      split at stored
      · cases stored
      · next good =>
        cases pure_ok.mp stored
        have small := parseDecimal_le read
        exact kept.setNumber key good (by omega)
  · obtain ⟨_, -, same⟩ := bind_ok.mp stored
    cases pure_ok.mp same
    exact { kept with labels := kept.labels }
  · obtain ⟨_, -, same⟩ := bind_ok.mp stored
    cases pure_ok.mp same
    exact { kept with labels := kept.labels }
  · split at stored
    · cases stored
    · next labels read =>
      cases pure_ok.mp stored
      have valid := parseCiLabelList_valid read
      have sorted := parseCiLabelList_sorted read
      exact { kept with labels := ⟨valid.1, sorted, sorted ▸ valid.2⟩ }
  · obtain ⟨_, good, same⟩ := bind_ok.mp stored
    cases pure_ok.mp same
    rw [rejectIf_ok] at good
    simp only [Bool.not_eq_true', Bool.not_eq_false] at good
    exact { kept with target := fun _ has => Option.some.inj has ▸ good }
  · obtain ⟨_, good, same⟩ := bind_ok.mp stored
    cases pure_ok.mp same
    rw [rejectIf_ok] at good
    simp only [Bool.not_eq_true', Bool.not_eq_false] at good
    exact { kept with url := fun _ has => Option.some.inj has ▸ ⟨good, tidy⟩ }
  · next key =>
    split at stored
    · cases stored
    · next n read =>
      obtain ⟨_, good, same⟩ := bind_ok.mp stored
      cases pure_ok.mp same
      rw [rejectIf_ok] at good
      simp only [not_or, Nat.not_lt] at good
      exact kept.setPort key good.2

/-- With no default to leave out. -/
def withPath (config : ServerConfig) (key : PathKey) (value : Option Bytes) : ServerConfig :=
  match key with
  | .repo_root => { config with repo_root := value.getD [] }
  | .control_socket => { config with control_socket := value.getD [] }
  | .state_root => { config with state_root := value }
  | .hook_directory => { config with hook_directory := value }
  | .ci_build_root => { config with ci_build_root := value }
  | .ci_cache_root => { config with ci_cache_root := value }
  | .pages_root => { config with pages_root := value }

def withNumber (config : ServerConfig) (key : NumberKey) (value : Option Nat) : ServerConfig :=
  match key with
  | .ci_timeout_seconds => { config with ci_timeout_seconds := value }
  | .ci_poll_seconds => { config with ci_poll_seconds := value }
  | .ci_max_log_bytes => { config with ci_max_log_bytes := value }
  | .ci_rescan_seconds => { config with ci_rescan_seconds := value }
  | .ci_lease_seconds => { config with ci_lease_seconds := value }
  | .ci_max_attempts => { config with ci_max_attempts := value }
  | .ci_claim_delay_ms => { config with ci_claim_delay_ms := value }
  | .ci_artifact_retention_days => { config with ci_artifact_retention_days := value }
  | .ci_artifact_max_retention_days => { config with ci_artifact_max_retention_days := value }
  | .ci_artifact_max_bytes => { config with ci_artifact_max_bytes := value }
  | .ci_artifact_max_project_bytes => { config with ci_artifact_max_project_bytes := value }
  | .ci_artifact_max_total_bytes => { config with ci_artifact_max_total_bytes := value }
  | .ci_runs_keep => { config with ci_runs_keep := value }
  | .ci_cleanup_interval_seconds => { config with ci_cleanup_interval_seconds := value }
  | .pages_keep_versions => { config with pages_keep_versions := value }

def withPort (config : ServerConfig) (key : PortKey) (value : Option Nat) : ServerConfig :=
  match key with
  | .http_port => { config with http_port := value }
  | .pages_http_port => { config with pages_http_port := value }

theorem keys_known : ∀ entry ∈ keys,
    keyOf (ascii entry.1) = some entry.2 ∧ KeyFits (ascii entry.1) ∧ (ascii entry.1).length ≤ 40 := by decide +kernel

/-- A tidy value after a known key is read from its line. -/
theorem reads_of {key : Bytes} (fits : KeyFits key) (key_short : key.length ≤ 40) (tidy : Tidy value)
    (short : value.length ≤ 2000) : Reads serverFormat (key, value) := by
  have short_line : (Setting.line (key, value)).length ≤ kMaximumLineBytes := by
    have limit : kMaximumLineBytes = 2048 := rfl
    rw [line_length]
    omega
  refine ⟨?_, line_free fits tidy.plain (by decide), short_line⟩
  show splitServerLine _ = _
  unfold splitServerLine
  rw [cut_line fits.filled fits.one_equals]
  simp only [rejectIf, if_neg (line_taken fits tidy.plain short_line), if_neg (line_counts fits), bind, Except.bind,
    fits.tidy.plain, fits.tidy.trimmed, tidy.plain, tidy.trimmed, fits.one_equals, Bool.false_eq_true, or_self, if_false]
  rfl

theorem PathFits.tidy (fits : PathFits value) : Tidy value ∧ value.length ≤ 2000 := by
  have absolute := fits.absolute
  simp only [isAbsoluteConfiguredPath, Bool.and_eq_true, Bool.not_eq_true', decide_eq_true_eq] at absolute
  exact ⟨⟨absolute.2, fits.trimmed⟩, Nat.le_trans absolute.1.1.1.2 (by decide)⟩

theorem decimal_short {n : Nat} (small : n < 2 ^ 64) : (decimal n).length ≤ 20 :=
  decimal_length_le (by decide) (Nat.lt_trans small (by decide))

theorem puts_of {key : String} {found : Key} {value : Option Bytes} {before after : ServerConfig}
    (listed : (key, found) ∈ keys) (left_out : value = none → after = before)
    (stored : ∀ text, value = some text →
      (Tidy text ∧ text.length ≤ 2000) ∧ storeServerField before found text = .ok after) :
    Puts serverFormat before after (ascii key, value) where
  left_out := left_out
  stored text has := by
    obtain ⟨⟨tidy, short⟩, read⟩ := stored text has
    obtain ⟨is, fits, key_short⟩ := keys_known _ listed
    refine ⟨reads_of fits key_short tidy short, ?_⟩
    show serverField before _ = _
    unfold serverField
    rw [is]
    exact read

theorem puts_path {key : String} {found : PathKey} {path : Option Bytes} (listed : (key, .path found) ∈ keys)
    (fits : ∀ value, path = some value → PathFits value) (unset : Server.path config found = none) :
    Puts serverFormat config (withPath config found path) (ascii key, path) := by
  refine puts_of listed ?_ fun value has => ⟨(fits value has).tidy, ?_⟩
  · rintro rfl
    cases found <;> cases config <;> simp_all [Server.path, withPath]
  · subst has
    have good : ¬((!isAbsoluteConfiguredPath value) = true ∨ equals ∈ value) := by
      rintro (relative | more)
      · rw [(fits value rfl).absolute] at relative
        cases relative
      · exact (fits value rfl).one_equals more
    unfold storeServerField
    simp only [rejectIf, if_neg good]
    cases found <;> rfl

theorem puts_number {key : String} {found : NumberKey} {number : Option Nat} (listed : (key, .number found) ∈ keys)
    (fits : ∀ n, number = some n → refusal found n = none ∧ n < 2 ^ 64) (unset : Server.number config found = none) :
    Puts serverFormat config (withNumber config found number) (ascii key, number.map decimal) := by
  refine puts_of listed (fun none_left => ?_) fun value has => ?_
  · cases Option.map_eq_none_iff.mp none_left
    cases found <;> cases config <;> simp_all [Server.number, withNumber]
  · obtain ⟨n, rfl, rfl⟩ := Option.map_eq_some_iff.mp has
    obtain ⟨good, small⟩ := fits n rfl
    refine ⟨⟨decimal_tidy n, Nat.le_trans (decimal_short small) (by decide)⟩, ?_⟩
    unfold storeServerField
    simp only [parseDecimal_decimal (show n ≤ 2 ^ 64 - 1 by omega), good]
    cases found <;> rfl

theorem puts_port {key : String} {found : PortKey} {port : Option Nat} (listed : (key, .port found) ∈ keys)
    (fits : ∀ n, port = some n → n ≤ 65535) (unset : Server.port config found = none) :
    Puts serverFormat config (withPort config found port) (ascii key, port.map decimal) := by
  refine puts_of listed (fun none_left => ?_) fun value has => ?_
  · cases Option.map_eq_none_iff.mp none_left
    cases found <;> cases config <;> simp_all [Server.port, withPort]
  · obtain ⟨n, rfl, rfl⟩ := Option.map_eq_some_iff.mp has
    have small := fits n rfl
    have short : (decimal n).length ≤ 5 := decimal_length_le (by decide) (by omega)
    refine ⟨⟨decimal_tidy n, Nat.le_trans short (by decide)⟩, ?_⟩
    have good : ¬((decimal n).length > 5 ∨ n > 65535) := by omega
    unfold storeServerField
    simp only [parseDecimal_decimal (show n ≤ 2 ^ 32 - 1 by omega), rejectIf, if_neg good]
    cases found <;> rfl

theorem label_visible {label : Bytes} (valid : isValidCiLabel label = true) :
    ∀ byte ∈ label, isVisible byte = true := by
  intro byte member
  simp only [isValidCiLabel, Bool.and_eq_true] at valid
  have good := List.all_eq_true.mp valid.2 byte member
  simp only [Bool.or_eq_true, beq_iff_eq] at good
  rcases good with (((lower | digit) | rfl) | rfl) | rfl
  exacts [visible_lower lower, visible_digit digit, by decide, by decide, by decide]

theorem labels_tidy {labels : List Bytes} (valid : ∀ label ∈ labels, isValidCiLabel label = true)
    (few : labels.length ≤ kMaximumCiLabels) : Tidy (formatCiLabelList labels) ∧ (formatCiLabelList labels).length ≤ 2000 := by
  constructor
  · refine tidy_visible fun byte member => ?_
    by_contra hidden
    refine joined_avoids (fun same => hidden ?_) (fun label inside within => hidden ?_) member
    · rw [same]
      decide
    · exact label_visible (valid label inside) byte within
  · have short : ∀ label ∈ labels, label.length ≤ kMaximumCiLabelBytes := by
      intro label member
      have good := valid label member
      simp only [isValidCiLabel, Bool.and_eq_true, decide_eq_true_eq] at good
      exact good.1.1.2
    have total := joined_length short
    have bound := Nat.mul_le_mul_right (kMaximumCiLabelBytes + 1) few
    exact Nat.le_trans total (Nat.le_trans bound (by decide))

theorem puts_labels (kept : Kept config) {start : ServerConfig} (unset : start.ci_runner_labels = []) :
    Puts serverFormat start { start with ci_runner_labels := config.ci_runner_labels }
      (ascii "ci_runner_labels",
        if config.ci_runner_labels = [] then none else some (formatCiLabelList config.ci_runner_labels)) := by
  obtain ⟨valid, sorted, few⟩ := kept.labels
  refine @puts_of _ .ci_runner_labels _ _ _ (by simp [keys]) (fun none_left => ?_) fun value has => ?_
  · have none_set : config.ci_runner_labels = [] := by
      by_contra some_set
      simp [some_set] at none_left
    rw [none_set, ← unset]
  · have some_set : config.ci_runner_labels ≠ [] := by
      intro none_set
      simp [none_set] at has
    rw [if_neg some_set, Option.some.injEq] at has
    subst has
    refine ⟨labels_tidy valid few, ?_⟩
    unfold storeServerField
    dsimp only
    rw [parseCiLabelList_format valid (by rw [sorted]; exact few), sorted]
    rfl

theorem puts_network (allow : Bool) {start : ServerConfig} (unset : start.ci_allow_network = false) :
    Puts serverFormat start { start with ci_allow_network := allow }
      (ascii "ci_allow_network", if allow then some (ascii "true") else none) := by
  refine @puts_of _ .ci_allow_network _ _ _ (by simp [keys]) (fun none_left => ?_) fun value has => ?_
  · cases allow with
    | true => cases none_left
    | false => rw [← unset]
  · cases allow with
    | false => cases has
    | true =>
      cases has
      exact ⟨by decide, rfl⟩

theorem puts_latest (latest : Option Bool) {start : ServerConfig} (unset : start.ci_artifact_keep_latest = none) :
    Puts serverFormat start { start with ci_artifact_keep_latest := latest }
      (ascii "ci_artifact_keep_latest", latest.map boolean) := by
  refine @puts_of _ .ci_artifact_keep_latest _ _ _ (by simp [keys]) (fun none_left => ?_) fun value has => ?_
  · rw [Option.map_eq_none_iff.mp none_left, ← unset]
  · obtain ⟨kept, rfl, rfl⟩ := Option.map_eq_some_iff.mp has
    cases kept <;> exact ⟨by decide, rfl⟩

theorem puts_target {target : Option Bytes} (valid : ∀ value, target = some value → isValidSshCloneTarget value = true)
    {start : ServerConfig} (unset : start.ssh_clone_target = none) :
    Puts serverFormat start { start with ssh_clone_target := target } (ascii "ssh_clone_target", target) := by
  refine @puts_of _ .ssh_clone_target _ _ _ (by simp [keys]) (fun none_left => ?_) fun value has => ?_
  · rw [none_left, ← unset]
  · subst has
    have good := valid value rfl
    refine ⟨ssh_target_tidy good, ?_⟩
    unfold storeServerField
    simp only [good]
    rfl

theorem puts_url {url : Option Bytes} (valid : ∀ value, url = some value → isValidPublicUrl value = true ∧ Tidy value)
    {start : ServerConfig} (unset : start.pages_public_url = none) :
    Puts serverFormat start { start with pages_public_url := url } (ascii "pages_public_url", url) := by
  refine @puts_of _ .pages_public_url _ _ _ (by simp [keys]) (fun none_left => ?_) fun value has => ?_
  · rw [none_left, ← unset]
  · subst has
    obtain ⟨good, tidy⟩ := valid value rfl
    have short : value.length ≤ 512 := by
      simp only [isValidPublicUrl, Bool.and_eq_true, decide_eq_true_eq] at good
      exact good.1.1.2
    refine ⟨⟨tidy, Nat.le_trans short (by decide)⟩, ?_⟩
    unfold storeServerField
    simp only [good]
    rfl

/-- Every setting that is written is read back into its own field. -/
theorem Kept.fills (kept : Kept config) (root : config.repo_root ≠ []) (socket : config.control_socket ≠ []) :
    Fills serverFormat {} (serverSlots config) config := by
  have root_fits : ∀ value, some config.repo_root = some value → PathFits value := fun value has =>
    kept.paths .repo_root value (by simpa [path, root] using has)
  have socket_fits : ∀ value, some config.control_socket = some value → PathFits value := fun value has =>
    kept.paths .control_socket value (by simpa [path, socket] using has)
  refine .cons (@puts_path {} "repo_root" .repo_root _ (by simp [keys]) root_fits rfl) ?_
  refine .cons (@puts_path _ "control_socket" .control_socket _ (by simp [keys]) socket_fits rfl) ?_
  refine .cons (@puts_path _ "state_root" .state_root _ (by simp [keys]) (kept.paths .state_root) rfl) ?_
  refine .cons (@puts_path _ "hook_directory" .hook_directory _ (by simp [keys]) (kept.paths .hook_directory) rfl) ?_
  dsimp only [withPath, withNumber, withPort]
  refine .cons (@puts_port _ "http_port" .http_port _ (by simp [keys]) (kept.ports .http_port) rfl) ?_
  refine .cons (puts_target kept.target rfl) ?_
  refine .cons (@puts_path _ "ci_build_root" .ci_build_root _ (by simp [keys]) (kept.paths .ci_build_root) rfl) ?_
  refine .cons (@puts_path _ "ci_cache_root" .ci_cache_root _ (by simp [keys]) (kept.paths .ci_cache_root) rfl) ?_
  dsimp only [withPath, withNumber, withPort]
  refine .cons (@puts_number _ "ci_timeout_seconds" .ci_timeout_seconds _ (by simp [keys])
    (kept.numbers .ci_timeout_seconds) rfl) ?_
  refine .cons (@puts_number _ "ci_max_log_bytes" .ci_max_log_bytes _ (by simp [keys]) (kept.numbers .ci_max_log_bytes) rfl) ?_
  refine .cons (@puts_number _ "ci_poll_seconds" .ci_poll_seconds _ (by simp [keys]) (kept.numbers .ci_poll_seconds) rfl) ?_
  refine .cons (@puts_number _ "ci_rescan_seconds" .ci_rescan_seconds _ (by simp [keys])
    (kept.numbers .ci_rescan_seconds) rfl) ?_
  dsimp only [withPath, withNumber, withPort]
  refine .cons (@puts_number _ "ci_lease_seconds" .ci_lease_seconds _ (by simp [keys]) (kept.numbers .ci_lease_seconds) rfl) ?_
  refine .cons (@puts_number _ "ci_claim_delay_ms" .ci_claim_delay_ms _ (by simp [keys])
    (kept.numbers .ci_claim_delay_ms) rfl) ?_
  refine .cons (puts_labels kept rfl) ?_
  refine .cons (@puts_number _ "ci_max_attempts" .ci_max_attempts _ (by simp [keys]) (kept.numbers .ci_max_attempts) rfl) ?_
  dsimp only [withPath, withNumber, withPort]
  refine .cons (puts_network config.ci_allow_network rfl) ?_
  refine .cons (@puts_number _ "ci_artifact_retention_days" .ci_artifact_retention_days _ (by simp [keys])
    (kept.numbers .ci_artifact_retention_days) rfl) ?_
  refine .cons (@puts_number _ "ci_artifact_max_retention_days" .ci_artifact_max_retention_days _ (by simp [keys])
    (kept.numbers .ci_artifact_max_retention_days) rfl) ?_
  refine .cons (@puts_number _ "ci_artifact_max_bytes" .ci_artifact_max_bytes _ (by simp [keys])
    (kept.numbers .ci_artifact_max_bytes) rfl) ?_
  dsimp only [withPath, withNumber, withPort]
  refine .cons (@puts_number _ "ci_artifact_max_project_bytes" .ci_artifact_max_project_bytes _ (by simp [keys])
    (kept.numbers .ci_artifact_max_project_bytes) rfl) ?_
  refine .cons (@puts_number _ "ci_artifact_max_total_bytes" .ci_artifact_max_total_bytes _ (by simp [keys])
    (kept.numbers .ci_artifact_max_total_bytes) rfl) ?_
  refine .cons (@puts_number _ "ci_runs_keep" .ci_runs_keep _ (by simp [keys]) (kept.numbers .ci_runs_keep) rfl) ?_
  refine .cons (@puts_number _ "ci_cleanup_interval_seconds" .ci_cleanup_interval_seconds _ (by simp [keys])
    (kept.numbers .ci_cleanup_interval_seconds) rfl) ?_
  dsimp only [withPath, withNumber, withPort]
  refine .cons (puts_latest config.ci_artifact_keep_latest rfl) ?_
  refine .cons (@puts_path _ "pages_root" .pages_root _ (by simp [keys]) (kept.paths .pages_root) rfl) ?_
  refine .cons (@puts_port _ "pages_http_port" .pages_http_port _ (by simp [keys]) (kept.ports .pages_http_port) rfl) ?_
  refine .cons (puts_url kept.url rfl) ?_
  dsimp only [withPath, withNumber, withPort]
  refine .cons (@puts_number _ "pages_keep_versions" .pages_keep_versions _ (by simp [keys])
    (kept.numbers .pages_keep_versions) rfl) ?_
  exact .nil config

theorem kept_of_load {text : Bytes} (loaded : loadServerConfig text = .ok config) :
    Kept config ∧ config.repo_root ≠ [] ∧ config.control_socket ≠ [] := by
  unfold loadServerConfig at loaded
  obtain ⟨_, -, loaded⟩ := bind_ok.mp loaded
  obtain ⟨loading, read, loaded⟩ := bind_ok.mp loaded
  obtain ⟨_, complete, same⟩ := bind_ok.mp loaded
  rw [rejectIf_ok] at complete
  simp only [not_or] at complete
  cases pure_ok.mp same
  refine ⟨?_, complete.2.1, complete.2.2⟩
  refine Format.readLines_config (fun before line setting after split kept stored => ?_) kept_defaults read
  change serverField before setting = .ok after at stored
  unfold serverField at stored
  split at stored
  · cases stored
  · exact kept.store (split_tidy split) stored

theorem slot_keys (config : ServerConfig) : (serverSlots config).map Prod.fst = (serverSlots {}).map Prod.fst := rfl

theorem slot_keys_once : ((serverSlots {}).map Prod.fst).Nodup ∧ schemaKey ∉ (serverSlots {}).map Prod.fst := by
  decide +kernel

theorem server_round_trip {text : Bytes} (loaded : loadServerConfig text = .ok config) :
    loadServerConfig (renderServerConfig config) = .ok config := by
  obtain ⟨kept, root, socket⟩ := kept_of_load loaded
  have fills := kept.fills root socket
  have slots : (serverSlots config).length = 29 := rfl
  have size : ¬(renderServerConfig config).length > kMaximumConfigBytes := by
    refine Nat.not_lt.mpr (Nat.le_trans fills.rendered_short ?_)
    rw [slots]
    decide
  obtain ⟨seen, read, -⟩ := fills.readLines (by decide +kernel) rfl
    (fun slot member same => slot_keys_once.2 (slot_keys config ▸ same ▸ List.mem_map_of_mem member))
    (by
      refine List.Nodup.sublist List.filter_sublist ?_
      rw [slot_keys]
      exact slot_keys_once.1)
  unfold loadServerConfig
  rw [rejectIf, if_neg size]
  unfold renderServerConfig rendered
  rw [fileLines_framed fills.one_line]
  simp only [bind, Except.bind, read, root, socket, rejectIf, Bool.not_true, Bool.false_eq_true, or_self, if_false]
  rfl

end Server
end CkGit.Config
