import CkGit.Config.ClientKept
import CkGit.Config.RunnerWritten
import CkGit.Config.ServerKept

/-!
Configuration files that were loaded or written are read back: a server's and a
client's always, a runner's as long as it fits a file.
-/
namespace CkGit.Config
open CkGit.Base CkGit.Ci

/-- The same configuration: paths are compared as paths. -/
structure RunnerConfig.Same (first second : RunnerConfig) : Prop where
  ssh_program : pathKey first.ssh_program = pathKey second.ssh_program
  toolchain_paths : first.toolchain_paths.map pathKey = second.toolchain_paths.map pathKey
  others : { first with ssh_program := second.ssh_program, toolchain_paths := second.toolchain_paths } = second

/-- A key, its value, the sign between them and the end of the line. -/
def settingSize (key : Bytes) (value : Option Bytes) : Nat :=
  match value with
  | none => 0
  | some value => key.length + value.length + 2

/-- What the settings take that are not the defaults, each on its line. -/
def RunnerConfig.size (config : RunnerConfig) : Nat :=
  settingSize schemaKey (some (ascii "1"))
    + settingSize (ascii "server") (some config.server)
    + settingSize (ascii "name") (some config.name)
    + settingSize (ascii "ci_build_root") (some config.build_root)
    + settingSize (ascii "identity") config.identity
    + settingSize (ascii "known_hosts") config.known_hosts
    + (if pathKey config.ssh_program = pathKey defaultSsh then 0 else settingSize (ascii "ssh_program") (some config.ssh_program))
    + (if config.claim_wait_seconds = 60 then 0
      else settingSize (ascii "claim_wait_seconds") (some (decimal config.claim_wait_seconds)))
    + settingSize (ascii "ci_cache_root") config.cache_root
    + (if config.allow_network then 0 else settingSize (ascii "ci_allow_network") (some (ascii "false")))
    + settingSize (ascii "ci_timeout_seconds") (config.timeout_seconds.map decimal)
    + (if config.allow_degraded then settingSize (ascii "ci_allow_degraded") (some (ascii "true")) else 0)
    + settingSize (ascii "ci_toolchain_root") config.toolchain_root
    + settingSize (ascii "ci_macos_native_socket") config.macos_native_socket
    + settingSize (ascii "ci_macos_vm_base") config.macos_vm_base
    + settingSize (ascii "ci_macos_vm_work_root") config.macos_vm_work_root
    + (if config.macos_vm_base.isSome ∧ config.macos_vm_min_free_gib ≠ 20 then
        settingSize (ascii "ci_macos_vm_min_free_gib") (some (decimal config.macos_vm_min_free_gib))
      else 0)
    + (if hasDefaultToolchainPaths config then 0
      else settingSize (ascii "ci_toolchain_paths") (some ([semicolon].intercalate (config.toolchain_paths.map genericText))))
    + (config.toolchain_environment.map fun entry =>
        settingSize (Runner.environmentPrefix ++ entry.1) (some entry.2)).sum

namespace Runner
variable {config : RunnerConfig} {text : Bytes}

theorem Kept.spelled_same (kept : Kept config) : (spelled config).Same config where
  ssh_program := by
    unfold spelled
    dsimp only
    split
    · next same => exact same.symm
    · rfl
  toolchain_paths := by
    unfold spelled
    dsimp only
    split
    · next same => exact (eq_of_beq same).symm
    · rw [List.map_map]
      refine List.map_congr_left fun path member => ?_
      obtain ⟨fits, -⟩ := kept.parts path member
      exact generic_key fits.filled fits.relative
  others := rfl

theorem rendered_size (slots : List Slot) : (rendered (written slots)).length
    = settingSize schemaKey (some (ascii "1")) + (slots.map fun slot => settingSize slot.1 slot.2).sum := by
  have later : (framed ((written slots).map Setting.line)).length
      = (slots.map fun slot => settingSize slot.1 slot.2).sum := by
    induction slots with
    | nil => rfl
    | cons slot rest ih =>
      obtain ⟨key, value⟩ := slot
      rw [written_cons, List.map_append, framed_append, List.length_append, ih, List.map_cons, List.sum_cons]
      cases value with
      | none => rfl
      | some value =>
        congr 1
        simp only [Option.map_some, Option.toList_some, List.map_cons, List.map_nil, framed_cons, List.length_append,
          List.length_cons, line_length, settingSize]
        rfl
  have version : settingSize schemaKey (some (ascii "1")) = schemaKey.length + (ascii "1").length + 2 := rfl
  rw [rendered, settingLines, List.map_cons, framed_cons, List.length_append, List.length_cons, later, line_length, version]
  omega

theorem size_unless {key value : Bytes} {omitted : Prop} [Decidable omitted] :
    settingSize key (if omitted then none else some value) = if omitted then 0 else settingSize key (some value) := by
  split <;> rfl

theorem size_when {key value : Bytes} {given : Prop} [Decidable given] :
    settingSize key (if given then some value else none) = if given then settingSize key (some value) else 0 := by
  split <;> rfl

theorem renderRunnerConfig_length (config : RunnerConfig) : (renderRunnerConfig config).length = config.size := by
  have environment : (environmentSlots config.toolchain_environment).map (fun slot => settingSize slot.1 slot.2)
      = config.toolchain_environment.map fun entry => settingSize (environmentPrefix ++ entry.1) (some entry.2) := by
    rw [environmentSlots, List.map_map]
    rfl
  rw [renderRunnerConfig, rendered_size, List.map_append, List.sum_append, environment, RunnerConfig.size]
  simp only [runnerSlots, List.map_cons, List.map_nil, List.sum_cons, List.sum_nil, size_unless, size_when, Nat.add_assoc,
    Nat.zero_add]

theorem runner_round_trip (load : loadRunnerConfig text = .ok config) :
    (∃ again, loadRunnerConfig (renderRunnerConfig config) = .ok again ∧ again.Same config) ↔ config.size ≤ 64 * 1024 := by
  have settled := settled_of_load load
  rw [← renderRunnerConfig_length]
  constructor
  · rintro ⟨again, read, -⟩
    unfold loadRunnerConfig at read
    obtain ⟨_, size, -⟩ := bind_ok.mp read
    exact Nat.not_lt.mp (rejectIf_ok.mp size)
  · intro size
    exact ⟨_, settled.load (fileLines_framed settled.fills.one_line) size, settled.kept.spelled_same⟩

end Runner

theorem configurations_round_trip (server_text directory client_text runner_text : Bytes) (server : ServerConfig)
    (client : ClientConfig) (runner : RunnerConfig) :
    (loadServerConfig server_text = .ok server → loadServerConfig (renderServerConfig server) = .ok server)
      ∧ (renderClientConfig client = .ok client_text →
        loadClientConfig directory client_text = .ok { client with config_directory := directory })
      ∧ (loadRunnerConfig runner_text = .ok runner →
        ((∃ again, loadRunnerConfig (renderRunnerConfig runner) = .ok again ∧ again.Same runner)
          ↔ runner.size ≤ 64 * 1024)) :=
  ⟨Server.server_round_trip, Client.client_round_trip, Runner.runner_round_trip⟩

def sampleServerText : Bytes := framed
  [ascii "schema_version=1", ascii "repo_root=/srv/git", ascii "control_socket=/run/s", ascii "http_port=8420",
    ascii "ci_runner_labels=arm,linux"]

def sampleClient : ClientConfig where
  client_id := ascii "laptop"
  display_name := ascii "Laptop"
  server := ascii "git@host"
  remote_name := ascii "ckgit"
  scan_roots := [ascii "/home/src"]
  exclusions := [ascii "**/build/**"]
  expose_full_paths := true
  web_host := ascii "host"
  git_program := ascii "/usr/bin/git"
  ssh_program := ascii "/usr/bin/ssh"

def sampleRunnerText : Bytes := framed
  [ascii "schema_version=1", ascii "server=git@host", ascii "name=builder", ascii "ci_build_root=/ci",
    ascii "ci_toolchain_env.CC=clang"]

theorem configurations_round_trip_sample :
    (∃ server, loadServerConfig sampleServerText = .ok server
        ∧ loadServerConfig (renderServerConfig server) = .ok server)
      ∧ (∃ text, renderClientConfig sampleClient = .ok text
        ∧ loadClientConfig (ascii "/etc") text = .ok { sampleClient with config_directory := ascii "/etc" })
      ∧ ∃ runner again, loadRunnerConfig sampleRunnerText = .ok runner
        ∧ loadRunnerConfig (renderRunnerConfig runner) = .ok again ∧ again.Same runner := by
  have server_loads : (loadServerConfig sampleServerText).toOption.isSome = true := by decide +kernel
  have client_renders : (renderClientConfig sampleClient).toOption.isSome = true := by decide +kernel
  have runner_loads : (loadRunnerConfig sampleRunnerText).toOption.any (fun runner => runner.size ≤ 64 * 1024) = true := by
    decide +kernel
  cases server : loadServerConfig sampleServerText with
  | error => rw [server] at server_loads; cases server_loads
  | ok config =>
    cases client : renderClientConfig sampleClient with
    | error => rw [client] at client_renders; cases client_renders
    | ok text =>
      cases runner : loadRunnerConfig sampleRunnerText with
      | error => rw [runner] at runner_loads; cases runner_loads
      | ok builder =>
        rw [runner] at runner_loads
        obtain ⟨same, kept, read⟩ :=
          configurations_round_trip sampleServerText (ascii "/etc") text sampleRunnerText config sampleClient builder
        obtain ⟨again, loaded, equal⟩ := (read runner).mpr (of_decide_eq_true runner_loads)
        exact ⟨⟨config, rfl, same server⟩, ⟨text, rfl, kept client⟩, builder, again, rfl, loaded, equal⟩

namespace Runner

def crowdedName (i : Nat) : Bytes := [UInt8.ofNat (65 + i / 6), UInt8.ofNat (65 + i % 6)]

def crowdedLength (i : Nat) : Nat := if i < 31 then 2028 else 1945

/-- 31 settings of the environment that fill their lines and one that fills the file. -/
def crowded : RunnerConfig :=
  { server := ascii "a@b", name := ascii "a", build_root := ascii "/a",
    toolchain_environment := (List.range 32).map fun i => (crowdedName i, List.replicate (crowdedLength i) 'a'.toUInt8) }

/-- The last line does not end. -/
def crowdedText : Bytes := (renderRunnerConfig crowded).dropLast

private theorem crowded_names : (∀ i ∈ List.range 32, isEnvironmentName (crowdedName i) = true
      ∧ (environmentPrefix ++ crowdedName i).length = 19 ∧ crowdedLength i ≤ 2028)
    ∧ (List.range 32).Pairwise (fun i j => crowdedName i < crowdedName j) := by decide +kernel

private theorem crowded_kept : Kept crowded := by
  refine { kept_defaults with
    server := fun _ => ?_
    name := fun _ => ?_
    paths := fun key value has => ?_
    entries := fun entry member => ?_
    sorted := List.pairwise_map.mpr crowded_names.2 }
  · decide +kernel
  · decide +kernel
  · cases key with
    | ci_build_root =>
      have is : value = ascii "/a" := (Option.some.inj has).symm
      rw [is]
      exact ⟨by decide, isValidUtf8_ascii (by decide +kernel), by decide, by decide, by decide⟩
    | ssh_program => exact Option.some.inj has ▸ ssh_fits
    | _ => cases has
  · obtain ⟨i, inside, rfl⟩ := List.mem_map.mp member
    obtain ⟨name, key, short⟩ := crowded_names.1 i inside
    refine ⟨name, ?_, ?_⟩
    · have plain : isControl 'a'.toUInt8 = false := by decide
      rw [hasControlCharacter, List.any_replicate, plain]
      split <;> rfl
    · have limit : kMaximumLineBytes = 2048 := rfl
      rw [key, List.length_replicate]
      omega

private theorem crowded_spelled : spelled crowded = crowded := by
  have default : hasDefaultToolchainPaths crowded = true := by decide +kernel
  unfold spelled
  rw [if_pos default]
  rfl

private theorem crowded_settled : Settled crowded where
  kept := crowded_kept
  server := by decide +kernel
  name := by decide +kernel
  root := by decide +kernel
  free set := absurd rfl set
  checked seen given := crowded_kept.check (show checkRunnerConfig crowded true [] = .ok () by decide +kernel) given

private theorem crowded_size : crowded.size = 64 * 1024 + 1 := by
  have environment : (crowded.toolchain_environment.map fun entry =>
      settingSize (environmentPrefix ++ entry.1) (some entry.2))
        = (List.range 32).map fun i => (environmentPrefix ++ crowdedName i).length + crowdedLength i + 2 := by
    unfold crowded
    rw [List.map_map]
    refine List.map_congr_left fun i _ => ?_
    simp only [Function.comp_apply, settingSize, List.length_replicate]
  rw [RunnerConfig.size, environment]
  decide +kernel

end Runner

/-- A file of 65536 bytes is loaded, and what is written for it is one byte longer. -/
theorem full_file_not_read_again : Runner.crowdedText.length = 64 * 1024
    ∧ loadRunnerConfig Runner.crowdedText = .ok Runner.crowded
    ∧ ¬∃ again, loadRunnerConfig (renderRunnerConfig Runner.crowded) = .ok again ∧ again.Same Runner.crowded := by
  have settled := Runner.crowded_settled
  have size : (renderRunnerConfig Runner.crowded).length = 64 * 1024 + 1 := by
    rw [Runner.renderRunnerConfig_length, Runner.crowded_size]
  have short : Runner.crowdedText.length = 64 * 1024 := by
    rw [Runner.crowdedText, List.length_dropLast, size, Nat.add_sub_cancel]
  have filled : ∀ line ∈ settingLines (written (Runner.allSlots Runner.crowded)), line ≠ [] := by
    intro line member
    obtain ⟨setting, -, rfl⟩ := List.mem_map.mp member
    exact List.append_ne_nil_of_right_ne_nil _ (List.cons_ne_nil _ _)
  have lines : fileLines Runner.crowdedText = settingLines (written (Runner.allSlots Runner.crowded)) :=
    fileLines_dropped (List.cons_ne_nil _ _) settled.fills.one_line filled
  have load : loadRunnerConfig Runner.crowdedText = .ok Runner.crowded := by
    rw [settled.load lines (Nat.le_of_eq short), Runner.crowded_spelled]
  refine ⟨short, load, ?_⟩
  rw [Runner.runner_round_trip load, Runner.crowded_size]
  decide

end CkGit.Config
