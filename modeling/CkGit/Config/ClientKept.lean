import CkGit.Config.Client

/-!
A client configuration that can be written is read back from its text.
-/
namespace CkGit.Config
open CkGit.Base CkGit.Ci

namespace Client
variable {config : ClientConfig} {key value before after output : Bytes} {setting : Setting}

def slots (config : ClientConfig) : List Slot :=
  [(ascii "client_id", some config.client_id),
   (ascii "display_name", some config.display_name),
   (ascii "server", some config.server),
   (ascii "remote_name", some config.remote_name),
   (ascii "public_path_mode", some (if config.expose_full_paths then ascii "full" else ascii "basename")),
   (ascii "web_host", if config.web_host = [] then none else some config.web_host),
   (ascii "web_port", some (decimal config.web_port.toNat)),
   (ascii "git_program", if config.git_program = [] then none else some config.git_program),
   (ascii "ssh_program", if config.ssh_program = [] then none else some config.ssh_program)]

def rootSlots (roots : List Bytes) : List Slot := roots.map fun root => (ascii "scan_root", some root)

def exclusionSlots (patterns : List Bytes) : List Slot := patterns.map fun pattern => (ascii "exclude", some pattern)

def allSlots (config : ClientConfig) : List Slot :=
  slots config ++ (rootSlots config.scan_roots ++ exclusionSlots config.exclusions)

structure Addable (key value : Bytes) : Prop where
  filled : value ≠ []
  one_equals : equals ∉ value
  tidy : Tidy value
  utf8 : isValidUtf8 value = true
  short : key.length + value.length + 1 ≤ kMaximumLineBytes

/-- Lines of these slots were added. -/
structure Adds (before after : Bytes) (slots : List Slot) : Prop where
  text : after = before ++ framed ((written slots).map Setting.line)
  each : ∀ setting ∈ written slots, Addable setting.1 setting.2
  size : before.length ≤ kMaximumConfigBytes → after.length ≤ kMaximumConfigBytes

theorem Adds.none (output : Bytes) {key : Bytes} : Adds output output [(key, none)] where
  text := (List.append_nil _).symm
  each := nofun
  size := id

theorem written_append (first second : List Slot) : written (first ++ second) = written first ++ written second :=
  List.filterMap_append

theorem Adds.trans {final : Bytes} {first second : List Slot} (adds : Adds before after first)
    (more : Adds after final second) : Adds before final (first ++ second) where
  text := by rw [more.text, adds.text, written_append, List.map_append, framed_append, List.append_assoc]
  each setting member := by
    rw [written_append] at member
    rcases List.mem_append.mp member with here | later
    exacts [adds.each setting here, more.each setting later]
  size fits := more.size (adds.size fits)

theorem add_ok {key : String} (added : add output key value = .ok after) :
    Adds output after [(ascii key, some value)] := by
  unfold add at added
  obtain ⟨_, good, added⟩ := bind_ok.mp added
  obtain ⟨_, size, same⟩ := bind_ok.mp added
  rw [rejectIf_ok] at good size
  simp only [not_or, Bool.not_eq_true, Bool.not_eq_true', Bool.not_eq_false, Nat.not_lt] at good size
  cases pure_ok.mp same
  refine ⟨rfl, fun setting member => ?_, fun _ => size⟩
  rw [show written [(ascii key, some value)] = [(ascii key, value)] from rfl, List.mem_singleton] at member
  rw [member]
  exact ⟨good.1, good.2.1, ⟨good.2.2.1, good.2.2.2.1⟩, good.2.2.2.2.1, good.2.2.2.2.2⟩

theorem addWebHost_ok (added : addWebHost output value = .ok after) :
    Adds output after [(ascii "web_host", if value = [] then Option.none else some value)] := by
  unfold addWebHost at added
  by_cases empty : value = []
  · rw [if_pos empty] at added ⊢
    cases pure_ok.mp added
    exact .none _
  · rw [if_neg empty] at added ⊢
    exact add_ok added

theorem addProgram_ok {key : String} (added : addProgram output key value = .ok after) :
    Adds output after [(ascii key, if value = [] then Option.none else some value)]
      ∧ (value ≠ [] → isAbsolute value = true) := by
  unfold addProgram at added
  by_cases empty : value = []
  · rw [if_pos empty] at added ⊢
    cases pure_ok.mp added
    exact ⟨.none _, fun filled => absurd empty filled⟩
  · rw [if_neg empty] at added ⊢
    obtain ⟨_, good, added⟩ := bind_ok.mp added
    rw [rejectIf_ok] at good
    exact ⟨add_ok added, fun _ => by simpa using good⟩

theorem addScanRoot_run {roots : List Bytes} (added : roots.foldlM addScanRoot output = .ok after) :
    Adds output after (rootSlots roots) ∧ ∀ root ∈ roots, isAbsolute root = true := by
  induction roots generalizing output with
  | nil =>
    cases pure_ok.mp added
    exact ⟨⟨(List.append_nil _).symm, nofun, id⟩, nofun⟩
  | cons root rest ih =>
    obtain ⟨middle, first, later⟩ := bind_ok.mp added
    unfold addScanRoot at first
    obtain ⟨_, good, first⟩ := bind_ok.mp first
    rw [rejectIf_ok] at good
    obtain ⟨adds, absolute⟩ := ih later
    refine ⟨(add_ok first).trans adds, ?_⟩
    rintro other (_ | ⟨_, member⟩)
    exacts [by simpa using good, absolute other member]

theorem addExclusion_run {patterns : List Bytes} (added : patterns.foldlM addExclusion output = .ok after) :
    Adds output after (exclusionSlots patterns) ∧ ∀ pattern ∈ patterns, pattern.length ≤ 256 := by
  induction patterns generalizing output with
  | nil =>
    cases pure_ok.mp added
    exact ⟨⟨(List.append_nil _).symm, nofun, id⟩, nofun⟩
  | cons pattern rest ih =>
    obtain ⟨middle, first, later⟩ := bind_ok.mp added
    unfold addExclusion at first
    obtain ⟨_, good, first⟩ := bind_ok.mp first
    rw [rejectIf_ok, Nat.not_lt] at good
    obtain ⟨adds, short⟩ := ih later
    refine ⟨(add_ok first).trans adds, ?_⟩
    rintro other (_ | ⟨_, member⟩)
    exacts [good, short other member]

/-- A configuration for which there is a text. -/
structure Writable (config : ClientConfig) : Prop where
  version : config.schema_version = 1
  client_id : isValidClientId config.client_id = true
  display_name : isSafeDisplayName config.display_name = true
  server : isValidServer config.server = true
  remote_name : isValidRemoteName config.remote_name = true
  web_host : config.web_host ≠ [] → isValidWebHost config.web_host = true
  web_port : config.web_port ≠ 0
  few_roots : config.scan_roots.length ≤ kMaximumListEntries
  few_exclusions : config.exclusions.length ≤ kMaximumListEntries
  git_program : config.git_program ≠ [] → isAbsolute config.git_program = true
  ssh_program : config.ssh_program ≠ [] → isAbsolute config.ssh_program = true
  roots : ∀ root ∈ config.scan_roots, isAbsolute root = true
  exclusions : ∀ pattern ∈ config.exclusions, pattern.length ≤ 256
  each : ∀ setting ∈ written (allSlots config), Addable setting.1 setting.2

theorem render_ok {text : Bytes} (made : renderClientConfig config = .ok text) :
    Writable config ∧ text = rendered (written (allSlots config)) ∧ text.length ≤ kMaximumConfigBytes := by
  unfold renderClientConfig at made
  obtain ⟨_, checked, made⟩ := bind_ok.mp made
  obtain ⟨o₁, version, made⟩ := bind_ok.mp made
  obtain ⟨o₂, client_id, made⟩ := bind_ok.mp made
  obtain ⟨o₃, display_name, made⟩ := bind_ok.mp made
  obtain ⟨o₄, server, made⟩ := bind_ok.mp made
  obtain ⟨o₅, remote_name, made⟩ := bind_ok.mp made
  obtain ⟨o₆, mode, made⟩ := bind_ok.mp made
  obtain ⟨o₇, web_host, made⟩ := bind_ok.mp made
  obtain ⟨o₈, web_port, made⟩ := bind_ok.mp made
  obtain ⟨o₉, git_program, made⟩ := bind_ok.mp made
  obtain ⟨o₁₀, ssh_program, made⟩ := bind_ok.mp made
  obtain ⟨o₁₁, roots, exclusions⟩ := bind_ok.mp made
  obtain ⟨git_adds, git_absolute⟩ := addProgram_ok git_program
  obtain ⟨ssh_adds, ssh_absolute⟩ := addProgram_ok ssh_program
  obtain ⟨root_adds, root_absolute⟩ := addScanRoot_run roots
  obtain ⟨exclusion_adds, exclusion_short⟩ := addExclusion_run exclusions
  have adds : Adds [] text ((schemaKey, some (ascii "1")) :: allSlots config) :=
    (add_ok version).trans <| (add_ok client_id).trans <| (add_ok display_name).trans <| (add_ok server).trans <|
      (add_ok remote_name).trans <| (add_ok mode).trans <| (addWebHost_ok web_host).trans <| (add_ok web_port).trans <|
      git_adds.trans <| ssh_adds.trans <| root_adds.trans exclusion_adds
  unfold checkClientConfig at checked
  simp only [bind_ok, rejectIf_ok, not_not, not_or, not_and, Nat.not_lt, Bool.not_eq_true', Bool.not_eq_false] at checked
  obtain ⟨_, schema, _, id_ok, _, name_ok, _, server_ok, _, remote_ok, _, host_ok, _, port_ok, few⟩ := checked
  refine ⟨⟨schema, id_ok, name_ok, server_ok, remote_ok, host_ok, port_ok, few.1, few.2, git_absolute, ssh_absolute,
    root_absolute, exclusion_short, fun setting member => adds.each setting ?_⟩, ?_, adds.size (Nat.zero_le _)⟩
  · rw [written_cons]
    exact List.mem_append_right _ member
  · rw [adds.text, written_cons]
    rfl

theorem Writable.addable (writable : Writable config) (member : (key, some value) ∈ allSlots config) :
    Addable key value :=
  writable.each (key, value) (List.mem_filterMap.mpr ⟨_, member, rfl⟩)

theorem keys_known : ∀ entry ∈ keys, keyOf (ascii entry.1) = some entry.2 ∧ KeyFits (ascii entry.1) := by decide +kernel

theorem reads_of (fits : KeyFits key) (good : Addable key value) : Reads clientFormat (key, value) := by
  have short : (Setting.line (key, value)).length ≤ kMaximumLineBytes := line_length ▸ good.short
  refine ⟨?_, line_free fits good.tidy.plain (by decide), short⟩
  show splitClientLine _ = _
  unfold splitClientLine
  rw [cut_line fits.filled fits.one_equals]
  simp only [rejectIf, if_neg (line_taken fits good.tidy.plain short), if_neg (line_counts fits),
    if_neg good.one_equals, bind, Except.bind, fits.tidy.plain, fits.tidy.trimmed, good.tidy.plain, good.tidy.trimmed,
    Bool.false_eq_true, or_self, if_false]
  rfl

theorem puts_of {key : String} {found : Key} {value : Option Bytes} {before after : ClientConfig}
    (listed : (key, found) ∈ keys) (left_out : value = none → after = before)
    (stored : ∀ text, value = some text → Addable (ascii key) text ∧ storeClientField before found text = .ok after) :
    Puts clientFormat before after (ascii key, value) where
  left_out := left_out
  stored text has := by
    obtain ⟨good, read⟩ := stored text has
    obtain ⟨is, fits⟩ := keys_known _ listed
    refine ⟨reads_of fits good, ?_⟩
    show clientField before _ = _
    unfold clientField
    rw [is]
    exact read

theorem readProgram_ok (good : Addable key value) (absolute : isAbsolute value = true) :
    readProgram value = .ok value := by
  unfold readProgram
  simp only [rejectIf, good.utf8, pathFromUtf8_ok good.utf8 good.tidy.plain, absolute, Bool.not_true,
    Bool.false_eq_true, if_false, bind, Except.bind]
  rfl

theorem fills_roots {start : ClientConfig} {roots : List Bytes}
    (good : ∀ root ∈ roots, Addable (ascii "scan_root") root) (absolute : ∀ root ∈ roots, isAbsolute root = true)
    (few : start.scan_roots.length + roots.length ≤ kMaximumListEntries) :
    Fills clientFormat start (rootSlots roots) { start with scan_roots := start.scan_roots ++ roots } := by
  induction roots generalizing start with
  | nil =>
    rw [List.append_nil]
    exact .nil _
  | cons root rest ih =>
    have first := good root (.head _)
    have later := @ih { start with scan_roots := start.scan_roots ++ [root] }
      (fun other member => good other (.tail _ member)) (fun other member => absolute other (.tail _ member))
      (by rw [List.length_append, Nat.add_assoc, List.length_singleton, Nat.add_comm 1]; exact few)
    rw [List.append_assoc] at later
    refine .cons (puts_of (show ("scan_root", Key.scan_root) ∈ keys by simp [keys]) nofun fun text has => ?_) later
    cases has
    refine ⟨first, ?_⟩
    have room : start.scan_roots.length ≠ kMaximumListEntries := by
      rw [List.length_cons] at few
      omega
    show readScanRoot start root = _
    unfold readScanRoot
    simp only [rejectIf, first.filled, first.utf8, pathFromUtf8_ok first.utf8 first.tidy.plain,
      absolute root (.head _), room, Bool.not_true, Bool.false_eq_true, or_self, if_false, bind, Except.bind]
    rfl

theorem fills_exclusions {start : ClientConfig} {patterns : List Bytes}
    (good : ∀ pattern ∈ patterns, Addable (ascii "exclude") pattern)
    (short : ∀ pattern ∈ patterns, pattern.length ≤ 256)
    (few : start.exclusions.length + patterns.length ≤ kMaximumListEntries) :
    Fills clientFormat start (exclusionSlots patterns) { start with exclusions := start.exclusions ++ patterns } := by
  induction patterns generalizing start with
  | nil =>
    rw [List.append_nil]
    exact .nil _
  | cons pattern rest ih =>
    have first := good pattern (.head _)
    have later := @ih { start with exclusions := start.exclusions ++ [pattern] }
      (fun other member => good other (.tail _ member)) (fun other member => short other (.tail _ member))
      (by rw [List.length_append, Nat.add_assoc, List.length_singleton, Nat.add_comm 1]; exact few)
    rw [List.append_assoc] at later
    refine .cons (puts_of (show ("exclude", Key.exclude) ∈ keys by simp [keys]) nofun fun text has => ?_) later
    cases has
    refine ⟨first, ?_⟩
    have room : start.exclusions.length ≠ kMaximumListEntries := by
      rw [List.length_cons] at few
      omega
    unfold storeClientField
    simp only [rejectIf, first.filled, first.utf8, Nat.not_lt.mpr (short pattern (.head _)), room, Bool.not_true,
      Bool.false_eq_true, or_self, if_false, bind, Except.bind]
    rfl

/-- With the field of one key taken from another configuration. -/
def taking (start source : ClientConfig) (key : Key) : ClientConfig :=
  match key with
  | .client_id => { start with client_id := source.client_id }
  | .display_name => { start with display_name := source.display_name }
  | .server => { start with server := source.server }
  | .remote_name => { start with remote_name := source.remote_name }
  | .git_program => { start with git_program := source.git_program }
  | .ssh_program => { start with ssh_program := source.ssh_program }
  | .web_host => { start with web_host := source.web_host }
  | .web_port => { start with web_port := source.web_port }
  | .public_path_mode => { start with expose_full_paths := source.expose_full_paths }
  | .scan_root => { start with scan_roots := source.scan_roots }
  | .exclude => { start with exclusions := source.exclusions }

theorem puts_required {key : String} {found : Key} {start : ClientConfig} (listed : (key, found) ∈ keys)
    (good : Addable (ascii key) value) (stored : storeClientField start found value = .ok (taking start config found)) :
    Puts clientFormat start (taking start config found) (ascii key, some value) :=
  puts_of listed nofun fun _ has => Option.some.inj has ▸ ⟨good, stored⟩

theorem puts_unless {key : String} {found : Key} {start : ClientConfig} (listed : (key, found) ∈ keys)
    (left_out : value = [] → taking start config found = start) (good : value ≠ [] → Addable (ascii key) value)
    (stored : value ≠ [] → storeClientField start found value = .ok (taking start config found)) :
    Puts clientFormat start (taking start config found) (ascii key, if value = [] then none else some value) := by
  by_cases empty : value = []
  · rw [if_pos empty]
    exact puts_of listed (fun _ => left_out empty) nofun
  · rw [if_neg empty]
    exact puts_required listed (good empty) (stored empty)

theorem stores_mode {start : ClientConfig} (full : Bool) :
    storeClientField start .public_path_mode (if full then ascii "full" else ascii "basename")
      = .ok { start with expose_full_paths := full } := by
  have differ : ascii "full" ≠ ascii "basename" := by decide
  unfold storeClientField
  cases full <;> simp [differ, pure, Except.pure]

theorem stores_port {start : ClientConfig} {port : UInt16} (positive : port ≠ 0) :
    storeClientField start .web_port (decimal port.toNat) = .ok { start with web_port := port } := by
  have small := port.toNat_lt
  have some_port : port.toNat ≠ 0 := fun zero => positive (UInt16.toNat_inj.mp zero)
  have good : ¬(port.toNat = 0 ∨ port.toNat > 65535) := by omega
  unfold storeClientField
  simp only [parseDecimal_decimal (show port.toNat ≤ 2 ^ 32 - 1 by omega), rejectIf, if_neg good]
  simp [bind, Except.bind, pure, Except.pure]

theorem Writable.fills_slots (writable : Writable config) :
    Fills clientFormat {} (slots config) { config with config_directory := [], scan_roots := [], exclusions := [] } := by
  have good : ∀ {key value : Bytes}, (key, some value) ∈ slots config → Addable key value := fun member =>
    writable.addable (List.mem_append_left _ member)
  refine .cons (@puts_required config _ "client_id" .client_id _ (by simp [keys]) (good (by simp [slots])) ?_) ?_
  · simp only [storeClientField, writable.client_id]
    rfl
  refine .cons (@puts_required config _ "display_name" .display_name _ (by simp [keys]) (good (by simp [slots])) ?_) ?_
  · simp only [storeClientField, writable.display_name]
    rfl
  refine .cons (@puts_required config _ "server" .server _ (by simp [keys]) (good (by simp [slots])) ?_) ?_
  · simp only [storeClientField, writable.server]
    rfl
  refine .cons (@puts_required config _ "remote_name" .remote_name _ (by simp [keys]) (good (by simp [slots])) ?_) ?_
  · simp only [storeClientField, writable.remote_name]
    rfl
  refine .cons (@puts_required config _ "public_path_mode" .public_path_mode _ (by simp [keys]) (good (by simp [slots])) ?_) ?_
  · exact stores_mode config.expose_full_paths
  refine .cons (@puts_unless config _ "web_host" .web_host _ (by simp [keys]) ?_ (fun filled => good (by simp [slots, filled])) ?_) ?_
  · intro empty
    simp only [taking, empty]
  · intro filled
    simp only [storeClientField, writable.web_host filled]
    rfl
  refine .cons (@puts_required config _ "web_port" .web_port _ (by simp [keys]) (good (by simp [slots])) ?_) ?_
  · exact stores_port writable.web_port
  refine .cons (@puts_unless config _ "git_program" .git_program _ (by simp [keys]) ?_ (fun filled => good (by simp [slots, filled])) ?_) ?_
  · intro empty
    simp only [taking, empty]
  · intro filled
    have addable : Addable (ascii "git_program") config.git_program := good (by simp [slots, filled])
    simp only [storeClientField, readProgram_ok addable (writable.git_program filled)]
    rfl
  refine .cons (@puts_unless config _ "ssh_program" .ssh_program _ (by simp [keys]) ?_ (fun filled => good (by simp [slots, filled])) ?_) ?_
  · intro empty
    simp only [taking, empty]
  · intro filled
    have addable : Addable (ascii "ssh_program") config.ssh_program := good (by simp [slots, filled])
    simp only [storeClientField, readProgram_ok addable (writable.ssh_program filled)]
    rfl
  have same : { config with schema_version := 1 } = config := by rw [← writable.version]
  rw [← same]
  exact .nil _

/-- Every setting that is written is read back into its own field. -/
theorem Writable.fills (writable : Writable config) :
    Fills clientFormat {} (allSlots config) { config with config_directory := [] } := by
  have roots : Fills clientFormat { config with config_directory := [], scan_roots := [], exclusions := [] }
      (rootSlots config.scan_roots) { config with config_directory := [], exclusions := [] } :=
    fills_roots (fun root member => writable.addable (by simp [allSlots, rootSlots, member])) writable.roots
      (by simpa using writable.few_roots)
  have patterns : Fills clientFormat { config with config_directory := [], exclusions := [] }
      (exclusionSlots config.exclusions) { config with config_directory := [] } :=
    fills_exclusions (fun pattern member => writable.addable (by simp [allSlots, exclusionSlots, member]))
      writable.exclusions (by simpa using writable.few_exclusions)
  exact writable.fills_slots.append (roots.append patterns)

theorem slot_keys (config : ClientConfig) : (slots config).map Prod.fst = (slots {}).map Prod.fst := rfl

theorem slot_keys_once : ((slots {}).map Prod.fst).Nodup ∧ schemaKey ∉ (slots {}).map Prod.fst
    ∧ schemaKey ≠ ascii "scan_root" ∧ schemaKey ≠ ascii "exclude" := by decide +kernel

theorem list_slot {slot : Slot} (member : slot ∈ rootSlots config.scan_roots ++ exclusionSlots config.exclusions) :
    slot.1 = ascii "scan_root" ∨ slot.1 = ascii "exclude" := by
  rcases List.mem_append.mp member with root | exclusion
  · obtain ⟨_, -, rfl⟩ := List.mem_map.mp root
    exact .inl rfl
  · obtain ⟨_, -, rfl⟩ := List.mem_map.mp exclusion
    exact .inr rfl

theorem slot_plain {slot : Slot} (member : slot ∈ allSlots config) : slot.1 ≠ schemaKey := by
  obtain ⟨-, single, root, exclusion⟩ := slot_keys_once
  rcases List.mem_append.mp member with one | many
  · exact fun same => single (slot_keys config ▸ same ▸ List.mem_map_of_mem one)
  · rcases list_slot many with key | key
    · exact fun same => root (same ▸ key)
    · exact fun same => exclusion (same ▸ key)

/-- But for the two lists, no key is written twice. -/
theorem slots_once : (((allSlots config).map Prod.fst).filter fun key => !clientFormat.repeats key).Nodup := by
  have none_of_lists : (((rootSlots config.scan_roots ++ exclusionSlots config.exclusions).map Prod.fst).filter
      fun key => !clientFormat.repeats key) = [] := by
    rw [List.filter_eq_nil_iff]
    intro key member
    obtain ⟨slot, inside, rfl⟩ := List.mem_map.mp member
    rcases list_slot inside with key | key <;> rw [key] <;> simp [clientFormat]
  rw [allSlots, List.map_append, List.filter_append, none_of_lists, List.append_nil, slot_keys]
  exact slot_keys_once.1.sublist List.filter_sublist

theorem client_round_trip {directory text : Bytes} (made : renderClientConfig config = .ok text) :
    loadClientConfig directory text = .ok { config with config_directory := directory } := by
  obtain ⟨writable, rfl, size⟩ := render_ok made
  obtain ⟨seen, read, -⟩ := writable.fills.readLines (by decide +kernel) (by decide +kernel)
    (fun slot => slot_plain) slots_once
  have filled : ∀ {value : Bytes} {p : Bytes → Bool}, p value = true → p [] = false → value ≠ [] := by
    rintro value p good bad rfl
    rw [bad] at good
    cases good
  have id_filled := filled writable.client_id rfl
  have name_filled := filled writable.display_name rfl
  have server_filled := filled writable.server (by decide)
  have remote_filled := filled writable.remote_name rfl
  unfold loadClientConfig
  rw [rejectIf, if_neg (Nat.not_lt.mpr size)]
  unfold rendered
  rw [fileLines_framed writable.fills.one_line]
  simp only [bind, Except.bind, read, id_filled, name_filled, server_filled, remote_filled, rejectIf, Bool.not_true,
    Bool.false_eq_true, or_self, if_false]
  rfl

end Client
end CkGit.Config
