import CkGit.Archive.Model
import CkGit.Base.Grammar
import Mathlib.Data.List.Sort

/-!
What is unpacked stays inside: at every moment the tree under the destination is
what the entries so far make of it, nothing else has changed, and the limits
hold. A call that throws leaves no trace.
-/
namespace CkGit.Archive
open CkGit.Base

/-- Which nodes stand at which paths below the destination. -/
abbrev Tree := Path → Node → Prop

/-- The bytes that come before the end of the data or before what spoils it. -/
def contentOf : List Received → Bytes
  | .data bytes :: rest => if bytes = [] then [] else bytes ++ contentOf rest
  | _ => []

def Entry.content (entry : Entry) : Bytes := contentOf entry.data

/-- An entry stands for the directories on its way and for itself. -/
def Entry.Shows (entry : Entry) (content : Bytes) (path : Path) (node : Node) : Prop :=
  entry.plain = true ∧ ∃ parts, entry.parts = .ok parts ∧
    ((path <+: parts ∧ (entry.filetype = .directory ∨ path ≠ parts) ∧ node = .directory)
      ∨ (path = parts ∧ entry.filetype = .regular ∧ node = .file content))

def treeOf (entries : List Entry) : Tree := fun path node =>
  (path = [] ∧ node = .directory) ∨ ∃ entry ∈ entries, entry.Shows entry.content path node

/-- A name that means the same to every file system: one entry of a directory. -/
def IsName (name : Bytes) : Prop := name ≠ [] ∧ slash ∉ name ∧ FileSystem.isEntryName name = true

/-- The tree while these entries are done and another may be under way. -/
structure Progress (options : TarExtractOptions) (done : List Entry) (current : Option Entry) (tree : Tree)
    (bytes : Nat) : Prop where
  kept : ∀ path node, treeOf done path node → tree path node
  only : ∀ path node, tree path node → treeOf done path node
    ∨ ∃ entry ∈ current, ∃ content, content <+: entry.content ∧ entry.Shows content path node
  names : ∀ path node, tree path node → ∀ name ∈ path, IsName name
  accepted : ∀ entry ∈ done, entry.parts.isOk = true ∧ (entry.plain = true ∨ options.skip_non_regular = true)
  count : done.length + current.toList.length ≤ options.max_entries
  file : ∀ path content, tree path (.file content) → content.length ≤ options.max_file_bytes
  total : bytes ≤ options.max_bytes

/-- The bytes of all files at and below a path. -/
def bytesBelow (files : FileSystem) (location : Path) : Nat :=
  (files.nodes.map fun entry => if location <+: entry.1 then entry.2.size else 0).sum

/-- The file system with a new tree at one place. -/
structure Mounted (before : FileSystem) (location : Path) (tree : Tree) (bytes : Nat) (after : FileSystem) : Prop where
  outside : ∀ path, ¬ location <+: path → after.get path = before.get path
  inside : ∀ path node, after.get (location ++ path) = some node ↔ tree path node
  size : bytesBelow after location = bytes

theorem components_names {path : Bytes} {parts : Path} (read : components path = .ok parts) :
    ∀ name ∈ parts, IsName name := by
  have fold : ∀ (names result : Path), (∀ name ∈ names, slash ∉ name) → (∀ name ∈ result, IsName name) →
      ∀ parts, names.foldlM (fun result name =>
        if name = ascii "." ∨ name = [] then Except.ok result
        else if name = ascii ".." ∨ backslash ∈ name ∨ colon ∈ name ∨ 0 ∈ name then
          .error "unsafe archive path"
        else .ok (result ++ [name])) result = .ok parts → ∀ name ∈ parts, IsName name := by
    intro names
    induction names with
    | nil =>
      intro result _ good parts same
      cases same
      exact good
    | cons first rest ih =>
      intro result clean good parts same
      have others := fun name member => clean name (List.mem_cons_of_mem first member)
      rw [List.foldlM_cons] at same
      split at same
      · exact ih result others good parts same
      · next real =>
        split at same
        · cases same
        · next safe =>
          refine ih (result ++ [first]) others (fun name member => ?_) parts same
          rcases List.mem_append.mp member with old | new
          · exact good name old
          · rw [List.mem_singleton.mp new]
            have entry : FileSystem.isEntryName first = true :=
              Bool.and_eq_true_iff.mpr ⟨decide_eq_true fun dot => real (.inl dot),
                decide_eq_true fun dots => safe (.inl dots)⟩
            exact ⟨fun empty => real (.inr empty), clean first List.mem_cons_self, entry⟩
  unfold components at read
  split at read
  · cases read
  · exact fold _ [] (fun name member => Grammar.splitOn_avoids member) (by simp) parts read

example : (components (ascii "./site//index.html")).toOption = some [ascii "site", ascii "index.html"] := by decide

theorem Entry.parts_names {entry : Entry} {parts : Path} (read : entry.parts = .ok parts) :
    ∀ name ∈ parts, IsName name := by
  simp only [Entry.parts, bind_ok, rejectIf_ok, pure_ok] at read
  obtain ⟨_, _, _, _, _, split, _, _, rfl⟩ := read
  exact components_names split

theorem sum_erase {key : Path} {node : Node} {entries : List (Path × Node)} (size : Path × Node → Nat)
    (once : (entries.map Prod.fst).Nodup) (there : Assoc.get key entries = some node) :
    ((Assoc.erase key entries).map size).sum + size (key, node) = (entries.map size).sum := by
  obtain ⟨front, back, rfl⟩ := List.append_of_mem (Assoc.mem_of_get there)
  rw [List.map_append, List.map_cons, List.nodup_append, List.nodup_cons] at once
  obtain ⟨_, ⟨later, _⟩, apart⟩ := once
  have front_same : Assoc.erase key front = front :=
    List.filter_eq_self.mpr fun entry member => decide_eq_true fun same =>
      apart entry.1 (List.mem_map_of_mem member) key List.mem_cons_self same
  have back_same : Assoc.erase key back = back :=
    List.filter_eq_self.mpr fun entry member => decide_eq_true fun same =>
      later (List.mem_map.mpr ⟨entry, member, same⟩)
  have erased : Assoc.erase key (front ++ (key, node) :: back) = front ++ back := by
    unfold Assoc.erase at front_same back_same ⊢
    rw [List.filter_append, List.filter_cons_of_neg (by simp), front_same, back_same]
  rw [erased]
  simp only [List.map_append, List.sum_append, List.map_cons, List.sum_cons]
  omega

theorem bytesBelow_place {files : FileSystem} {location path : Path} (node : Node) (under : location <+: path)
    (parent : files.get path.dropLast = some .directory) (free : files.get path ≠ some .directory) :
    bytesBelow (files.place path node) location + ((files.get path).elim 0 Node.size)
      = bytesBelow files location + node.size := by
  have below : path ≠ [] := fun top => free (top ▸ files.get_root)
  have placed : (files.place path node).nodes = Assoc.put path node files.nodes := by
    rw [FileSystem.place, dif_pos ⟨parent, free⟩]
  rw [bytesBelow, placed, FileSystem.get_below below]
  simp only [bytesBelow, Assoc.put, List.map_cons, List.sum_cons, if_pos under]
  cases there : Assoc.get path files.nodes with
  | none =>
    have same : Assoc.erase path files.nodes = files.nodes :=
      List.filter_eq_self.mpr fun entry member => decide_eq_true fun same =>
        Assoc.absent_of_get there (List.mem_map.mpr ⟨entry, member, same⟩)
    rw [same]
    simp only [Option.elim_none]
    omega
  | some old =>
    have sum := sum_erase (fun entry => if location <+: entry.1 then entry.2.size else 0) files.once there
    simp only [if_pos under] at sum
    simp only [Option.elim_some]
    omega

section
variable {before after : FileSystem} {destination location names path : Path} {tree : Tree} {bytes : Nat} {node : Node}

theorem Mounted.congr {other : Tree} (m : Mounted before location tree bytes after)
    (same : ∀ path node, tree path node ↔ other path node) : Mounted before location other bytes after :=
  ⟨m.outside, fun path node => (m.inside path node).trans (same path node), m.size⟩

theorem Mounted.keeps (m : Mounted before location tree bytes after) (vacant : before.get location = none) :
    FileSystem.Keeps before after := by
  intro path node there
  by_cases under : location <+: path
  · obtain ⟨rest, rfl⟩ := under
    rw [FileSystem.get_vacant vacant] at there
    cases there
  · rw [m.outside path under, there]

variable (found : before.locate destination = some location) (vacant : before.get location = none)

include found vacant in
/-- The directories of the tree are entered under the destination. -/
theorem Mounted.reached (m : Mounted before location tree bytes after) (good : ∀ name ∈ names, IsName name)
    (directories : ∀ front, front <+: names → tree front .directory) :
    after.directoryAt (destination ++ names) = some (location ++ names) := by
  obtain ⟨front, name, rfl, entry, parent, reached, rfl⟩ := FileSystem.locate_some found
  rw [List.append_assoc, List.append_assoc]
  refine FileSystem.resolve_append (FileSystem.resolve_keeps (m.keeps vacant) reached) fun links => ?_
  refine FileSystem.resolve_directories (fun other member => ?_) fun first inside some_name => ?_
  · rcases List.mem_cons.mp member with rfl | later
    · exact entry
    · exact (good other later).2.2
  · obtain ⟨head, rest, rfl⟩ := List.exists_cons_of_ne_nil some_name
    have inside : head :: rest <+: name :: names := inside
    obtain ⟨rfl, below⟩ := List.cons_prefix_cons.mp inside
    have there := (m.inside rest .directory).mpr (directories rest below)
    rwa [List.append_assoc] at there

include found vacant in
theorem Mounted.located (m : Mounted before location tree bytes after) {name : Bytes}
    (good : ∀ other ∈ names ++ [name], IsName other)
    (directories : ∀ front, front <+: names → tree front .directory) :
    after.locate (destination ++ (names ++ [name])) = some (location ++ (names ++ [name])) := by
  have entry := (good name (List.mem_append_right _ List.mem_cons_self)).2.2
  have reached := m.reached found vacant (fun other member => good other (List.mem_append_left _ member)) directories
  rw [← List.append_assoc, FileSystem.locate_eq entry, reached]
  simp

/-- A node in a directory of the tree, where there is no directory. -/
theorem Mounted.place (m : Mounted before location tree bytes after) {name : Bytes}
    (parent : tree names .directory) (free : ¬ tree (names ++ [name]) .directory) {total : Nat}
    (sum : total + (after.get (location ++ (names ++ [name]))).elim 0 Node.size = bytes + node.size) :
    Mounted before location (fun path other => if path = names ++ [name] then other = node else tree path other) total
      (after.place (location ++ (names ++ [name])) node) := by
  have parent_there : after.get (location ++ (names ++ [name])).dropLast = some .directory := by
    rw [← List.append_assoc, List.dropLast_concat]
    exact (m.inside names .directory).mpr parent
  have no_directory : after.get (location ++ (names ++ [name])) ≠ some .directory := fun there =>
    free ((m.inside _ _).mp there)
  refine ⟨fun path apart => ?_, fun path other => ?_, ?_⟩
  · rw [FileSystem.get_place parent_there no_directory, if_neg fun same => apart ⟨_, same.symm⟩]
    exact m.outside path apart
  · rw [FileSystem.get_place parent_there no_directory]
    by_cases same : path = names ++ [name]
    · rw [if_pos (congrArg _ same), if_pos same, Option.some_inj]
      exact eq_comm
    · rw [if_neg fun again => same (List.append_cancel_left again), if_neg same]
      exact m.inside path other
  · have placed := bytesBelow_place node (List.prefix_append location _) parent_there no_directory
    rw [m.size] at placed
    omega

/-- Some allowed tree is mounted. -/
def Shown (before : FileSystem) (location : Path) (allowed : Tree → Nat → Prop) (host : Host) : Prop :=
  ∃ tree bytes, allowed tree bytes ∧ Mounted before location tree bytes host.files

variable {world : World} {allowed : Tree → Nat → Prop} {host : Host}

theorem wp_checked (holds : FileSystem → Prop) (held : holds host.files) :
    (world.checked).wp (fun s => holds s.files) (fun _ s => holds s.files) (fun _ s => holds s.files) host := by
  simp only [World.checked, World.nextCall, Prog.wp_bind, Prog.wp_gets, Prog.wp_modify, Prog.wp_pure]
  exact ⟨held, Prog.wp_ofExcept (fun _ _ => held) fun _ _ => held⟩

theorem wp_allowed (holds : FileSystem → Prop) (held : holds host.files) (error : String) :
    (world.allowed error).wp (fun s => holds s.files) (fun _ s => holds s.files) (fun _ s => holds s.files) host := by
  simp only [World.allowed, World.nextCall, Prog.wp_bind, Prog.wp_gets, Prog.wp_modify, Prog.wp_pure]
  refine ⟨held, ?_⟩
  split
  · exact held
  · exact held

/-- The tree with one more directory. -/
def withDirectory (tree : Tree) (path : Path) : Tree := fun other node =>
  tree other node ∨ (other = path ∧ node = .directory)

def withFile (tree : Tree) (path : Path) (content : Bytes) : Tree := fun other node =>
  tree other node ∨ (other = path ∧ node = .file content)

include found vacant in
theorem enterDirectory_spec {name : Bytes} (good : ∀ other ∈ names ++ [name], IsName other)
    (directories : ∀ front, front <+: names → tree front .directory)
    (now : allowed tree bytes) (next : allowed (withDirectory tree (names ++ [name])) bytes)
    (m : Mounted before location tree bytes host.files) :
    (enterDirectory world (destination ++ (names ++ [name]))).wp (Shown before location allowed)
      (fun _ s => Mounted before location (withDirectory tree (names ++ [name])) bytes s.files)
      (fun _ => Shown before location allowed) host := by
  have located := m.located found vacant good directories
  simp only [enterDirectory, World.createDirectory, Prog.wp_bind, Prog.wp_gets, located]
  have parent := directories names List.prefix_rfl
  cases there : host.files.get (location ++ (names ++ [name])) with
  | none =>
    have empty : ∀ node, ¬ tree (names ++ [name]) node := fun node shown => by
      rw [(m.inside _ _).mpr shown] at there
      cases there
    simp only [if_pos, Prog.wp_bind]
    refine Prog.wp_mono (wp_allowed (fun files => files = host.files) rfl _) ?_ ?_ ?_
    · exact fun s same => ⟨tree, bytes, now, same ▸ m⟩
    · intro _ s same
      have placed : Mounted before location (withDirectory tree (names ++ [name])) bytes
          (s.files.place (location ++ (names ++ [name])) .directory) := by
        rw [same]
        refine (m.place parent (empty _) ?_).congr fun path node => ?_
        · rw [there]
          rfl
        · unfold withDirectory
          by_cases here : path = names ++ [name]
          · simp [here, empty]
          · simp [here]
      exact ⟨⟨_, _, next, placed⟩, placed⟩
    · exact fun _ s same => ⟨tree, bytes, now, same ▸ m⟩
  | some node =>
    rw [if_neg (by simp)]
    split
    · simp only [Prog.wp_pure, Bool.false_eq_true, if_false, Prog.wp_bind, Prog.wp_gets, FileSystem.symlinkStatus,
        located, there]
      cases node with
      | directory =>
        refine m.congr fun path other => ⟨.inl, fun shown => shown.elim id ?_⟩
        rintro ⟨rfl, rfl⟩
        exact (m.inside _ _).mp there
      | file content => exact ⟨tree, bytes, now, m⟩
      | link absolute target => exact ⟨tree, bytes, now, m⟩
      | special => exact ⟨tree, bytes, now, m⟩
    · exact ⟨tree, bytes, now, m⟩

/-- The tree with the directories of a path. -/
def withDirectories (tree : Tree) (path : Path) : Tree := fun other node =>
  tree other node ∨ (other <+: path ∧ node = .directory)

theorem withDirectories_next (tree : Tree) (path : Path) (name : Bytes) :
    withDirectory (withDirectories tree path) (path ++ [name]) = withDirectories tree (path ++ [name]) := by
  funext other node
  unfold withDirectory withDirectories
  rw [List.prefix_concat_iff]
  exact propext (by tauto)

theorem makeParts_rest (holds : FileSystem → Prop) (path rest : Path) (held : holds host.files) :
    (makeParts world path 0 rest).wp (fun s => holds s.files)
      (fun reached s => reached = path ++ rest ∧ holds s.files) (fun _ s => holds s.files) host := by
  induction rest generalizing path host with
  | nil => exact ⟨(List.append_nil path).symm, held⟩
  | cons part rest ih =>
    simp only [makeParts, Prog.wp_bind, if_pos]
    refine Prog.wp_mono (wp_checked holds held) (fun _ held => held) (fun _ s held => ?_) (fun _ _ held => held)
    have next := ih (path ++ [part]) held
    rwa [List.append_assoc] at next

include found vacant in
theorem makeParts_spec (world : World) (rest : Path) (good : ∀ other ∈ names ++ rest, IsName other) (count : Nat)
    (always : ∀ made, made <+: names ++ rest.take count → allowed (withDirectories tree made) bytes)
    (m : Mounted before location (withDirectories tree names) bytes host.files) :
    (makeParts world (destination ++ names) count rest).wp (Shown before location allowed)
      (fun path s => path = destination ++ (names ++ rest)
        ∧ Mounted before location (withDirectories tree (names ++ rest.take count)) bytes s.files)
      (fun _ => Shown before location allowed) host := by
  induction rest generalizing names count host with
  | nil =>
    rw [List.take_nil, List.append_nil]
    exact ⟨rfl, m⟩
  | cons part rest ih =>
    have now : ∀ {s : Host}, Mounted before location (withDirectories tree names) bytes s.files →
        Shown before location allowed s := fun m => ⟨_, _, always names (List.prefix_append _ _), m⟩
    simp only [makeParts, Prog.wp_bind]
    refine Prog.wp_mono (wp_checked (Mounted before location (withDirectories tree names) bytes) m)
      (fun _ => now) (fun _ s m => ?_) (fun _ _ => now)
    rw [List.append_assoc]
    cases count with
    | zero =>
      rw [if_pos rfl, List.take_zero, List.append_nil]
      refine Prog.wp_mono (makeParts_rest (Mounted before location (withDirectories tree names) bytes)
        (destination ++ (names ++ [part])) rest m) (fun _ => now) (fun _ s done => ?_)
        (fun _ _ => now)
      rw [← List.singleton_append, ← List.append_assoc names, ← List.append_assoc]
      exact done
    | succ count =>
      rw [if_neg (by omega), Nat.add_sub_cancel, Prog.wp_bind]
      have split : names ++ part :: rest = names ++ [part] ++ rest := by simp
      have taken : names ++ (part :: rest).take (count + 1) = names ++ [part] ++ rest.take count := by simp
      rw [split] at good ⊢
      rw [taken] at always ⊢
      have before := always names ((List.prefix_append _ _).trans (List.prefix_append _ _))
      have after := always (names ++ [part]) (List.prefix_append _ _)
      rw [← withDirectories_next] at after
      refine Prog.wp_mono (enterDirectory_spec found vacant
        (fun other member => good other (List.mem_append_left _ member)) (fun front inside => .inr ⟨inside, rfl⟩)
        before after m) (fun _ shown => shown) (fun _ s m => ?_) (fun _ _ shown => shown)
      rw [withDirectories_next] at m
      exact ih good count always m

theorem withFile_replaced {file : Path} (empty : ∀ node, ¬ tree file node) (old content : Bytes) :
    (fun path other => if path = file then other = Node.file content else withFile tree file old path other)
      = withFile tree file content := by
  funext path other
  unfold withFile
  by_cases here : path = file
  · simp [here, empty]
  · simp [here]

theorem Mounted.append {name : Bytes} {content : Bytes} (parent : tree names .directory)
    (empty : ∀ node, ¬ tree (names ++ [name]) node)
    (m : Mounted before location (withFile tree (names ++ [name]) content) bytes after) (more : Bytes) :
    Mounted before location (withFile tree (names ++ [name]) (content ++ more)) (bytes + more.length)
      (World.appended after (location ++ (names ++ [name])) more) := by
  have there := (m.inside (names ++ [name]) (.file content)).mpr (.inr ⟨rfl, rfl⟩)
  unfold World.appended
  rw [there, ← withFile_replaced empty content]
  refine m.place (.inl parent) ?_ ?_
  · rintro (shown | ⟨_, same⟩)
    · exact empty _ shown
    · cases same
  · rw [there]
    simp only [Option.elim_some, Node.size, List.length_append]
    omega

/-- What is stored of a file on the way to its content. -/
def Stores (allowed : Tree → Nat → Prop) (tree : Tree) (file : Path) (declared bytes : Nat)
    (content more : Bytes) : Prop :=
  ∀ stored, stored <+: more → content.length + stored.length ≤ declared →
    allowed (withFile tree file (content ++ stored)) (bytes + stored.length)

theorem Stores.now {file : Path} {declared : Nat} {content more : Bytes}
    (stores : Stores allowed tree file declared bytes content more) (short : content.length ≤ declared)
    (m : Mounted before location (withFile tree file content) bytes host.files) :
    Shown before location allowed host := by
  have first := stores [] List.nil_prefix short
  rw [List.append_nil] at first
  exact ⟨_, _, first, m⟩

theorem Stores.next {file : Path} {declared : Nat} {content front more : Bytes}
    (stores : Stores allowed tree file declared bytes content (front ++ more)) :
    Stores allowed tree file declared (bytes + front.length) (content ++ front) more := by
  intro stored inside short
  rw [List.append_assoc, Nat.add_assoc, ← List.length_append]
  refine stores _ ((List.prefix_append_right_inj front).mpr inside) ?_
  rw [List.length_append] at short ⊢
  omega

theorem writeData_spec {name : Bytes} {declared : Nat} {data : List Received} {content : Bytes}
    (parent : tree names .directory) (empty : ∀ node, ¬ tree (names ++ [name]) node)
    (short : content.length ≤ declared)
    (stores : Stores allowed tree (names ++ [name]) declared bytes content (contentOf data))
    (m : Mounted before location (withFile tree (names ++ [name]) content) bytes host.files) :
    (writeData world (location ++ (names ++ [name])) declared content.length data).wp
      (Shown before location allowed)
      (fun written s => written = (content ++ contentOf data).length ∧ written ≤ declared
        ∧ Mounted before location (withFile tree (names ++ [name]) (content ++ contentOf data))
          (bytes + (contentOf data).length) s.files)
      (fun _ => Shown before location allowed) host := by
  induction data generalizing content bytes host with
  | nil =>
    simp only [writeData, Prog.wp_bind, contentOf, List.append_nil, List.length_nil, Nat.add_zero]
    exact Prog.wp_mono (wp_checked _ m) (fun _ => stores.now short) (fun _ s m => ⟨rfl, short, m⟩)
      (fun _ _ => stores.now short)
  | cons received rest ih =>
    simp only [writeData, Prog.wp_bind]
    refine Prog.wp_mono (wp_checked _ m) (fun _ => stores.now short) (fun _ s m => ?_) (fun _ _ => stores.now short)
    cases received with
    | inputFailure error => exact stores.now short m
    | invalid => exact stores.now short m
    | data received =>
      simp only [contentOf] at stores ⊢
      split
      · next last =>
        rw [if_pos last] at stores
        simp only [List.append_nil, List.length_nil, Nat.add_zero]
        exact ⟨rfl, short, m⟩
      · next some_byte =>
        rw [if_neg some_byte] at stores
        split
        · exact stores.now short m
        · next fits =>
          simp only [World.write, World.nextCall, Prog.wp_bind, Prog.wp_gets, Prog.wp_modify, Prog.wp_pure]
          refine ⟨stores.now short m, ?_⟩
          split
          · next kept _ =>
            have inside := List.take_prefix kept received
            have part := stores _ (inside.trans (List.prefix_append _ _)) (by have := inside.length_le; omega)
            exact ⟨⟨_, _, part, m.append parent empty _⟩, ⟨_, _, part, m.append parent empty _⟩⟩
          · have whole := stores received (List.prefix_append _ _) (by omega)
            refine ⟨⟨_, _, whole, m.append parent empty _⟩, ?_⟩
            rw [Prog.wp_done, ← List.length_append, ← List.append_assoc content, @List.length_append _ received,
              ← Nat.add_assoc]
            refine ih ?_ stores.next ?_
            · rw [List.length_append]
              omega
            · exact m.append parent empty received

theorem locate_fileAt {files : FileSystem} {path location : Path} (there : files.locate path = some location)
    (free : files.get location = none) (links : Nat) : files.fileAt links path = some location := by
  cases links <;> simp [FileSystem.fileAt, there, free]

include found vacant in
/-- A file is made where nothing is, and holds its data; it is not longer than its header says. -/
theorem extractFile_spec {options : TarExtractOptions} {entry : Entry} {name : Bytes} {total : Nat}
    (good : ∀ other ∈ names ++ [name], IsName other)
    (directories : ∀ front, front <+: names → tree front .directory)
    (now : allowed tree total)
    (stores : entry.size.toNat ≤ options.max_file_bytes → entry.size.toNat ≤ options.max_bytes - total →
      Stores allowed tree (names ++ [name]) entry.size.toNat total [] entry.content)
    (m : Mounted before location tree total host.files) :
    (extractFile world options (destination ++ (names ++ [name])) total entry).wp (Shown before location allowed)
      (fun after s => after = total + entry.content.length ∧ entry.content.length ≤ options.max_file_bytes
        ∧ entry.content.length ≤ options.max_bytes - total
        ∧ Mounted before location (withFile tree (names ++ [name]) entry.content) after s.files)
      (fun _ => Shown before location allowed) host := by
  have shown : ∀ {s : Host}, Mounted before location tree total s.files → Shown before location allowed s :=
    fun m => ⟨_, _, now, m⟩
  have located := m.located found vacant good directories
  have status : host.files.symlinkStatus (destination ++ (names ++ [name]))
      = host.files.get (location ++ (names ++ [name])) := by rw [FileSystem.symlinkStatus, located]
  simp only [extractFile, Prog.wp_bind]
  refine Prog.wp_ofExcept (fun _ within => ?_) (fun _ _ => shown m)
  simp only [rejectIf_ok, not_or, Nat.not_lt] at within
  obtain ⟨_, file_limit, total_limit⟩ := within
  rw [Prog.wp_bind, Prog.wp_gets, Prog.wp_bind, status]
  refine Prog.wp_ofExcept (fun _ fresh => ?_) (fun _ _ => shown m)
  have free : host.files.get (location ++ (names ++ [name])) = none := by simpa using fresh
  have empty : ∀ node, ¬ tree (names ++ [name]) node := fun node there => by
    rw [(m.inside _ _).mpr there] at free
    cases free
  have stores := stores file_limit total_limit
  simp only [World.openFile, Prog.wp_bind, Prog.wp_gets, locate_fileAt located free, free, reduceCtorEq, if_false]
  refine Prog.wp_mono (wp_allowed (fun files => files = host.files) rfl _) (fun _ same => shown (same ▸ m))
    (fun _ s same => ?_) (fun _ _ same => shown (same ▸ m))
  have opened : Mounted before location (withFile tree (names ++ [name]) []) total
      (s.files.place (location ++ (names ++ [name])) (.file [])) := by
    rw [same]
    refine (m.place (directories names List.prefix_rfl) (empty _) ?_).congr fun path node => ?_
    · rw [free]
      rfl
    · unfold withFile
      by_cases here : path = names ++ [name]
      · simp [here, empty]
      · simp [here]
  simp only [Prog.wp_bind, Prog.wp_modify, Prog.wp_pure]
  refine ⟨stores.now (Nat.zero_le _) opened, ?_⟩
  refine Prog.wp_mono (writeData_spec (directories names List.prefix_rfl) empty (Nat.zero_le _) stores opened)
    (fun _ shown => shown) (fun written s wrote => ?_) (fun _ _ shown => shown)
  obtain ⟨size, short, m⟩ := wrote
  subst size
  have short : entry.content.length ≤ entry.size.toNat := short
  have whole := stores entry.content List.prefix_rfl (by rwa [List.length_nil, Nat.zero_add])
  have shown : ∀ {s : Host}, Mounted before location (withFile tree (names ++ [name]) entry.content)
      (total + entry.content.length) s.files → Shown before location allowed s := fun m => ⟨_, _, whole, m⟩
  rw [Prog.wp_bind]
  refine Prog.wp_ofExcept (fun _ _ => ?_) (fun _ _ => shown m)
  rw [Prog.wp_bind]
  exact Prog.wp_mono (wp_allowed _ m _) (fun _ => shown)
    (fun _ s m => ⟨rfl, Nat.le_trans short file_limit, Nat.le_trans short total_limit, m⟩) (fun _ _ => shown)

theorem treeOf_nil (path : Path) (node : Node) : treeOf [] path node ↔ path = [] ∧ node = .directory := by
  simp [treeOf]

theorem treeOf_next (done : List Entry) (entry : Entry) :
    treeOf (done ++ [entry]) = fun path node => treeOf done path node ∨ entry.Shows entry.content path node := by
  funext path node
  simp only [treeOf, List.mem_append, List.mem_singleton]
  refine propext ⟨?_, ?_⟩
  · rintro (top | ⟨other, (before | rfl), shows⟩)
    · exact .inl (.inl top)
    · exact .inl (.inr ⟨other, before, shows⟩)
    · exact .inr shows
  · rintro ((top | ⟨other, before, shows⟩) | shows)
    · exact .inl top
    · exact .inr ⟨other, .inl before, shows⟩
    · exact .inr ⟨entry, .inr rfl, shows⟩

variable {options : TarExtractOptions} {done : List Entry} {entry : Entry}

/-- The tree between two entries. -/
abbrev Settled (options : TarExtractOptions) (done : List Entry) (bytes : Nat) : Prop :=
  Progress options done none (treeOf done) bytes

/-- More of the entry under way. -/
theorem Settled.partly (settled : Settled options done bytes) (room : done.length + 1 ≤ options.max_entries)
    {tree : Tree} {total : Nat} {content : Bytes} (front : content <+: entry.content)
    (kept : ∀ path node, treeOf done path node → tree path node)
    (only : ∀ path node, tree path node → treeOf done path node ∨ entry.Shows content path node)
    (file : content.length ≤ options.max_file_bytes) (sum : total ≤ options.max_bytes) :
    Progress options done (some entry) tree total where
  kept := kept
  only path node shown := (only path node shown).imp_right fun shows => ⟨entry, rfl, content, front, shows⟩
  names path node shown := by
    rcases only path node shown with old | ⟨_, parts, read, shows⟩
    · exact settled.names path node old
    · intro name member
      rcases shows with ⟨inside, _⟩ | ⟨rfl, _⟩
      · exact Entry.parts_names read name (inside.subset member)
      · exact Entry.parts_names read name member
  accepted := settled.accepted
  count := room
  file path bytes shown := by
    rcases only path _ shown with old | ⟨_, parts, _, ⟨_, _, same⟩ | ⟨_, _, same⟩⟩
    · exact settled.file path bytes old
    · cases same
    · cases same
      exact file
  total := sum

/-- The entry is done. -/
theorem Progress.finish {total : Nat} (progress : Progress options done (some entry) (treeOf (done ++ [entry])) total)
    (read : entry.parts.isOk = true) (plain : entry.plain = true ∨ options.skip_non_regular = true) :
    Settled options (done ++ [entry]) total where
  kept _ _ := id
  only _ _ := .inl
  names := progress.names
  accepted := by
    intro other member
    rcases List.mem_append.mp member with before | last
    · exact progress.accepted other before
    · rw [List.mem_singleton.mp last]
      exact ⟨read, plain⟩
  count := by
    have := progress.count
    simpa using this
  file := progress.file
  total := progress.total

theorem shows_directory {parts : Path} (plain : entry.plain = true) (read : entry.parts = .ok parts)
    (directory : entry.filetype = .directory) (content : Bytes) (path : Path) (node : Node) :
    entry.Shows content path node ↔ path <+: parts ∧ node = .directory := by
  simp [Entry.Shows, plain, read, directory]

theorem shows_file {names : Path} {name : Bytes} (plain : entry.plain = true)
    (read : entry.parts = .ok (names ++ [name]))
    (regular : entry.filetype = .regular) (content : Bytes) (path : Path) (node : Node) :
    entry.Shows content path node
      ↔ (path <+: names ∧ node = .directory) ∨ (path = names ++ [name] ∧ node = .file content) := by
  have proper : path <+: names ++ [name] ∧ path ≠ names ++ [name] ↔ path <+: names := by
    rw [List.prefix_concat_iff]
    constructor
    · rintro ⟨same | inside, other⟩
      · exact absurd same other
      · exact inside
    · refine fun inside => ⟨.inr inside, fun same => ?_⟩
      have := inside.length_le
      rw [same, List.length_append, List.length_singleton] at this
      omega
  simp only [Entry.Shows, plain, read, regular, true_and, Except.ok.injEq, exists_eq_left', reduceCtorEq, false_or]
  rw [← and_assoc, proper]

theorem withDirectories_nil (done : List Entry) : withDirectories (treeOf done) [] = treeOf done := by
  funext path node
  refine propext ⟨fun shown => shown.elim id ?_, .inl⟩
  rintro ⟨root, rfl⟩
  exact .inl ⟨List.prefix_nil.mp root, rfl⟩

theorem treeOf_directory {parts : Path} (plain : entry.plain = true) (read : entry.parts = .ok parts)
    (directory : entry.filetype = .directory) :
    withDirectories (treeOf done) parts = treeOf (done ++ [entry]) := by
  rw [treeOf_next]
  funext path node
  rw [shows_directory plain read directory, withDirectories]

theorem treeOf_file {names : Path} {name : Bytes} (plain : entry.plain = true)
    (read : entry.parts = .ok (names ++ [name])) (regular : entry.filetype = .regular) :
    withFile (withDirectories (treeOf done) names) (names ++ [name]) entry.content = treeOf (done ++ [entry]) := by
  rw [treeOf_next]
  funext path node
  rw [shows_file plain read regular, ← or_assoc]
  rfl

theorem treeOf_skipped (other : ¬ entry.plain = true) : treeOf (done ++ [entry]) = treeOf done := by
  rw [treeOf_next]
  funext path node
  exact propext ⟨fun shown => shown.elim id fun shows => absurd shows.1 other, .inl⟩

/-- Some of the directories of a directory entry. -/
theorem Settled.made_directory {total : Nat} {parts made : Path} (settled : Settled options done total)
    (room : done.length + 1 ≤ options.max_entries) (plain : entry.plain = true) (read : entry.parts = .ok parts)
    (directory : entry.filetype = .directory) (inside : made <+: parts) :
    Progress options done (some entry) (withDirectories (treeOf done) made) total := by
  refine settled.partly room List.nil_prefix (fun _ _ => .inl) (fun path node shown => shown.imp_right ?_)
    (Nat.zero_le _) settled.total
  exact fun shows => (shows_directory plain read directory [] path node).mpr ⟨shows.1.trans inside, shows.2⟩

/-- Some of the directories above a file entry. -/
theorem Settled.made_above {total : Nat} {names made : Path} {name : Bytes} (settled : Settled options done total)
    (room : done.length + 1 ≤ options.max_entries) (plain : entry.plain = true)
    (read : entry.parts = .ok (names ++ [name])) (regular : entry.filetype = .regular) (inside : made <+: names) :
    Progress options done (some entry) (withDirectories (treeOf done) made) total := by
  refine settled.partly room List.nil_prefix (fun _ _ => .inl) (fun path node shown => shown.imp_right ?_)
    (Nat.zero_le _) settled.total
  exact fun shows => (shows_file plain read regular [] path node).mpr (.inl ⟨shows.1.trans inside, shows.2⟩)

/-- The first bytes of a file entry. -/
theorem Settled.stored {total sum : Nat} {names : Path} {name content : Bytes} (settled : Settled options done total)
    (room : done.length + 1 ≤ options.max_entries) (plain : entry.plain = true)
    (read : entry.parts = .ok (names ++ [name])) (regular : entry.filetype = .regular)
    (front : content <+: entry.content) (file : content.length ≤ options.max_file_bytes) (limit : sum ≤ options.max_bytes) :
    Progress options done (some entry) (withFile (withDirectories (treeOf done) names) (names ++ [name]) content) sum := by
  refine settled.partly room front (fun _ _ shown => .inl (.inl shown)) (fun path node shown => ?_) file limit
  rw [shows_file plain read regular, ← or_assoc]
  exact shown

include found vacant in
/-- One entry: what it shows is added to the tree. -/
theorem extractEntry_spec {total : Nat} (settled : Settled options done total)
    (room : done.length + 1 ≤ options.max_entries)
    (m : Mounted before location (treeOf done) total host.files) :
    (extractEntry world options destination total entry).wp
      (Shown before location (Progress options done (some entry)))
      (fun after s => Settled options (done ++ [entry]) after
        ∧ Mounted before location (treeOf (done ++ [entry])) after s.files)
      (fun _ => Shown before location (Progress options done (some entry))) host := by
  have now : Progress options done (some entry) (treeOf done) total :=
    settled.partly room List.nil_prefix (fun _ _ => id) (fun _ _ => .inl) (Nat.zero_le _) settled.total
  have shown : ∀ {s : Host}, Mounted before location (treeOf done) total s.files →
      Shown before location (Progress options done (some entry)) s := fun m => ⟨_, _, now, m⟩
  simp only [extractEntry, Prog.wp_bind]
  refine Prog.wp_ofExcept (fun parts read => ?_) (fun _ _ => shown m)
  have good := Entry.parts_names read
  have ok : entry.parts.isOk = true := by rw [read]; rfl
  have start := (withDirectories_nil done).symm ▸ m
  by_cases plain : entry.plain = true
  · rw [if_pos plain, Prog.wp_bind]
    refine Prog.wp_ofExcept (fun _ supported => ?_) (fun _ _ => shown m)
    simp only [rejectIf_ok, not_or, not_and] at supported
    by_cases directory : entry.filetype = .directory
    · have always : ∀ made, made <+: parts →
          Progress options done (some entry) (withDirectories (treeOf done) made) total :=
        fun _ inside => settled.made_directory room plain read directory inside
      have tree : withDirectories (treeOf done) parts = treeOf (done ++ [entry]) := treeOf_directory plain read directory
      rw [if_pos directory, Prog.wp_bind]
      have made := makeParts_spec found vacant world parts good parts.length
        (by rwa [List.take_length]) start
      rw [List.append_nil, List.take_length, List.nil_append, tree] at made
      refine Prog.wp_mono made (fun _ shown => shown) (fun path s there => ?_) (fun _ _ shown => shown)
      have progress := always parts List.prefix_rfl
      rw [tree] at progress
      rw [if_pos directory, Prog.wp_bind]
      exact Prog.wp_ofExcept (fun _ _ => ⟨progress.finish ok (.inl plain), there.2⟩)
        (fun _ _ => ⟨_, _, progress, there.2⟩)
    · have regular : entry.filetype = .regular := by
        have kinds := (Bool.and_eq_true_iff.mp (Bool.and_eq_true_iff.mp plain).1).1
        simpa [directory] using kinds
      obtain ⟨names, name, same⟩ := (List.eq_nil_or_concat parts).resolve_left (supported.1 directory)
      rw [List.concat_eq_append] at same
      subst same
      have steps : ∀ made, made <+: names →
          Progress options done (some entry) (withDirectories (treeOf done) made) total :=
        fun _ inside => settled.made_above room plain read regular inside
      have last : (names ++ [name]).take ((names ++ [name]).length - 1) = names := by simp
      rw [if_neg directory, Prog.wp_bind]
      have made := makeParts_spec found vacant world (names ++ [name]) good ((names ++ [name]).length - 1)
        (by rwa [last]) start
      rw [List.append_nil, last] at made
      refine Prog.wp_mono made (fun _ shown => shown) (fun path s there => ?_) (fun _ _ shown => shown)
      obtain ⟨rfl, there⟩ := there
      rw [if_neg directory]
      have stores : entry.size.toNat ≤ options.max_file_bytes → entry.size.toNat ≤ options.max_bytes - total →
          Stores (Progress options done (some entry)) (withDirectories (treeOf done) names) (names ++ [name])
            entry.size.toNat total [] entry.content := by
        intro file_limit total_limit stored front short
        rw [List.length_nil, Nat.zero_add] at short
        have := settled.total
        exact settled.stored room plain read regular front (Nat.le_trans short file_limit) (by omega)
      refine Prog.wp_mono (extractFile_spec found vacant good (fun front inside => .inr ⟨inside, rfl⟩)
        (steps names List.prefix_rfl) stores there) (fun _ shown => shown) (fun after s result => ?_)
        (fun _ _ shown => shown)
      obtain ⟨rfl, file_limit, total_limit, m⟩ := result
      have progress := settled.stored room plain read regular List.prefix_rfl file_limit
        (by have := settled.total; omega : total + entry.content.length ≤ options.max_bytes)
      rw [treeOf_file plain read regular] at progress m
      exact ⟨progress.finish ok (.inl plain), m⟩
  · rw [if_neg plain]
    by_cases skip : options.skip_non_regular = true
    · have tree : treeOf (done ++ [entry]) = treeOf done := treeOf_skipped plain
      rw [if_pos skip, Prog.wp_bind]
      refine Prog.wp_ofExcept (fun _ _ => ?_) (fun _ _ => shown m)
      exact ⟨Progress.finish (tree.symm ▸ now) ok (.inr skip), tree.symm ▸ m⟩
    · rw [if_neg skip]
      exact shown m

/-- The destination was made by this call, and holds what these entries make of it. -/
def Underway (options : TarExtractOptions) (before : FileSystem) (destination : Path)
    (headers : List (Except String Entry)) (after : FileSystem) : Prop :=
  ∃ location tree bytes done current later, before.locate destination = some location ∧ before.get location = none
    ∧ headers = done.map .ok ++ later ∧ (∀ entry ∈ current, later.head? = some (.ok entry))
    ∧ Progress options done current tree bytes ∧ Mounted before location tree bytes after

variable {headers : List (Except String Entry)}

include found vacant in
theorem Settled.underway {later : List (Except String Entry)} {total : Nat} (settled : Settled options done total)
    (split : headers = done.map .ok ++ later) (m : Mounted before location (treeOf done) total after) :
    Underway options before destination headers after :=
  ⟨location, _, _, done, none, later, found, vacant, split, by simp, settled, m⟩

include found vacant in
theorem extractEntries_spec {later : List (Except String Entry)} {total : Nat} (settled : Settled options done total)
    (split : headers = done.map .ok ++ later) (m : Mounted before location (treeOf done) total host.files) :
    (extractEntries world options destination done.length total later).wp
      (fun s => Underway options before destination headers s.files)
      (fun _ s => ∃ entries bytes, headers = entries.map .ok ∧ Settled options entries bytes
        ∧ Mounted before location (treeOf entries) bytes s.files)
      (fun _ s => Underway options before destination headers s.files) host := by
  induction later generalizing done total host with
  | nil =>
    exact Prog.wp_mono (wp_checked _ m) (fun _ => settled.underway found vacant split)
      (fun _ s m => ⟨done, total, by simpa using split, settled, m⟩)
      (fun _ _ => settled.underway found vacant split)
  | cons header rest ih =>
    simp only [extractEntries, Prog.wp_bind]
    refine Prog.wp_mono (wp_checked _ m) (fun _ => settled.underway found vacant split) (fun _ s m => ?_)
      (fun _ _ => settled.underway found vacant split)
    have here := settled.underway found vacant split m
    rw [Prog.wp_bind]
    refine Prog.wp_ofExcept (fun entry ok => ?_) (fun _ _ => here)
    subst ok
    rw [Prog.wp_bind]
    refine Prog.wp_ofExcept (fun _ room => ?_) (fun _ _ => here)
    rw [rejectIf_ok, Nat.not_lt] at room
    rw [Prog.wp_bind]
    have underway : ∀ {s : Host}, Shown before location (Progress options done (some entry)) s →
        Underway options before destination headers s.files := by
      rintro s ⟨tree, bytes, progress, m⟩
      exact ⟨location, tree, bytes, done, some entry, _, found, vacant, split, by simp, progress, m⟩
    refine Prog.wp_mono (extractEntry_spec found vacant settled room m) (fun _ => underway) (fun total s next => ?_)
      (fun _ _ => underway)
    have longer : headers = (done ++ [entry]).map .ok ++ rest := by simp [split]
    have later := ih next.1 longer next.2
    rwa [List.length_append] at later

theorem bytesBelow_vacant {files : FileSystem} (vacant : files.get location = none) :
    bytesBelow files location = 0 := by
  have apart : ∀ entry ∈ files.nodes, ¬ location <+: entry.1 := by
    rintro ⟨path, node⟩ member ⟨rest, rfl⟩
    have there := Assoc.get_of_mem files.once member
    rw [← FileSystem.get_below (files.rooted _ _ there).1, FileSystem.get_vacant vacant] at there
    cases there
  unfold bytesBelow
  rw [List.map_congr_left (g := fun _ => 0) fun entry member => if_neg (apart entry member)]
  simp

theorem mounted_empty (found : before.locate destination = some location) (vacant : before.get location = none) :
    Mounted before location (treeOf []) 0 (before.place location .directory) := by
  obtain ⟨front, name, rfl, _, parent, reached, rfl⟩ := FileSystem.locate_some found
  have parent_there : before.get (parent ++ [name]).dropLast = some .directory := by
    rw [List.dropLast_concat]
    exact FileSystem.resolve_get reached before.get_root
  have free : before.get (parent ++ [name]) ≠ some .directory := by simp [vacant]
  refine ⟨fun path apart => ?_, fun path node => ?_, ?_⟩
  · rw [FileSystem.get_place parent_there free, if_neg fun same => apart ⟨[], by rw [same, List.append_nil]⟩]
  · rw [FileSystem.get_place parent_there free, treeOf_nil]
    by_cases top : path = []
    · rw [if_pos (by rw [top, List.append_nil]), Option.some_inj]
      exact ⟨fun same => ⟨top, same.symm⟩, fun both => both.2.symm⟩
    · rw [if_neg fun same => top (List.append_right_eq_self.mp same), FileSystem.get_vacant vacant]
      simp [top]
  · have sum := bytesBelow_place .directory List.prefix_rfl parent_there free
    rw [vacant, bytesBelow_vacant vacant] at sum
    simpa [Node.size] using sum

/-- A directory is made where nothing was, or nothing changes. -/
theorem createDirectory_spec (world : World) (path : Path) (host : Host) :
    (world.createDirectory path).wp
      (fun s => s.files = host.files ∨ ∃ location, host.files.locate path = some location
        ∧ host.files.get location = none ∧ s.files = host.files.place location .directory)
      (fun created s => if created then ∃ location, host.files.locate path = some location
        ∧ host.files.get location = none ∧ s.files = host.files.place location .directory else s.files = host.files)
      (fun _ s => s.files = host.files) host := by
  simp only [World.createDirectory, Prog.wp_bind, Prog.wp_gets]
  split
  · next location there =>
    split
    · next free =>
      rw [Prog.wp_bind]
      refine Prog.wp_mono (wp_allowed (fun files => files = host.files) rfl _) (fun _ => .inl) (fun _ s same => ?_)
        (fun _ _ same => same)
      have made : s.files.place location .directory = host.files.place location .directory := by rw [same]
      exact ⟨.inr ⟨location, there, free, made⟩, location, there, free, made⟩
    · split
      · exact rfl
      · exact rfl
  · split
    · exact rfl
    · exact rfl

theorem settled_nil (options : TarExtractOptions) : Settled options [] 0 where
  kept _ _ := id
  only _ _ := .inl
  names path node shown := by
    rw [((treeOf_nil path node).mp shown).1]
    exact fun _ none => nomatch none
  accepted _ none := nomatch none
  count := Nat.zero_le _
  file path content shown := nomatch ((treeOf_nil path _).mp shown).2
  total := Nat.zero_le _

include found vacant in
theorem extractAll_spec {tar : Tar} (m : Mounted before location (treeOf []) 0 host.files) :
    (extractAll world options destination tar).wp
      (fun s => Underway options before destination tar.headers s.files)
      (fun _ s => ∃ entries bytes, tar.headers = entries.map .ok ∧ Settled options entries bytes
        ∧ Mounted before location (treeOf entries) bytes s.files)
      (fun _ s => Underway options before destination tar.headers s.files) host := by
  have start : tar.headers = ([] : List Entry).map .ok ++ tar.headers := rfl
  simp only [extractAll, Prog.wp_bind]
  refine Prog.wp_ofExcept (fun _ _ => ?_) (fun _ _ => (settled_nil options).underway found vacant start m)
  rw [Prog.wp_bind]
  refine Prog.wp_mono (extractEntries_spec found vacant (settled_nil options) start m) (fun _ under => under)
    (fun _ s done => ?_) (fun _ _ under => under)
  refine Prog.wp_ofExcept (fun _ _ => done) (fun _ _ => ?_)
  obtain ⟨entries, bytes, all, settled, m⟩ := done
  exact settled.underway found vacant (all.trans (List.append_nil _).symm) m

/-- The tree of these files with some of its nodes removed. -/
def Partly (files : FileSystem) (location : Path) (after : FileSystem) : Prop :=
  ∀ path, after.get path = files.get path ∨ (location <+: path ∧ after.get path = none)

/-- The destination, as the entries made it, is being taken down again. -/
def Remains (options : TarExtractOptions) (before : FileSystem) (destination : Path)
    (headers : List (Except String Entry)) (after : FileSystem) : Prop :=
  ∃ files location, Underway options before destination headers files ∧ before.locate destination = some location
    ∧ Partly files location after

/-- The last call was a removal, and it was refused. -/
def Refused (world : World) (host : Host) : Prop := ∃ number, host.calls = number + 1 ∧ world.stays number = true

theorem get_of_node {files : FileSystem} {entry : Path × Node} (member : entry ∈ files.nodes) :
    files.get entry.1 = some entry.2 := by
  have there := Assoc.get_of_mem files.once member
  rw [FileSystem.get_below (files.rooted _ _ there).1, there]

theorem unlinked_leaf {files : FileSystem} (leaf : ∀ below, path <+: below → below ≠ path → files.get below = none) :
    World.unlinked files path = some (files.removeTree path) := by
  refine if_neg fun filled => ?_
  obtain ⟨entry, member, inside⟩ := List.any_eq_true.mp filled
  simp only [Bool.and_eq_true, List.isPrefixOf_iff_prefix, bne_iff_ne] at inside
  have gone := leaf entry.1 inside.1 inside.2
  rw [get_of_node member] at gone
  cases gone

/-- The nodes left are removed from within, so that each is without others below it by then. -/
theorem removeEach_spec (files : FileSystem) {rest : List Path} (below : location ≠ [])
    (inside : ∀ path ∈ rest, location <+: path) (once : rest.Nodup)
    (inward : rest.Pairwise fun first second => first <+: second → first = second)
    (left : ∀ path, host.files.get path = if location <+: path ∧ path ∉ rest then none else files.get path) :
    (world.removeEach rest).wp (fun s => Partly files location s.files)
      (fun _ s => (∀ path, s.files.get path = if location <+: path then none else files.get path)
        ∨ (Partly files location s.files ∧ Refused world s))
      (fun _ _ => False) host := by
  have partly : ∀ {s : Host} {rest : List Path},
      (∀ path, s.files.get path = if location <+: path ∧ path ∉ rest then none else files.get path) →
      Partly files location s.files := by
    intro s rest left path
    rw [left path]
    split
    · next gone => exact .inr ⟨gone.1, rfl⟩
    · exact .inl rfl
  induction rest generalizing host with
  | nil => exact .inl fun path => by simpa using left path
  | cons path rest ih =>
    obtain ⟨fresh, rest_once⟩ := List.nodup_cons.mp once
    obtain ⟨first, rest_inward⟩ := List.pairwise_cons.mp inward
    have under := inside path List.mem_cons_self
    have leaf : ∀ deeper, path <+: deeper → deeper ≠ path → host.files.get deeper = none := by
      intro deeper within other
      rw [left deeper, if_pos]
      refine ⟨under.trans within, fun member => ?_⟩
      rcases List.mem_cons.mp member with same | later
      · exact other same
      · exact other (first deeper later within).symm
    simp only [World.removeEach, World.nextCall, Prog.wp_bind, Prog.wp_gets, Prog.wp_modify, Prog.wp_pure]
    refine ⟨partly left, ?_⟩
    split
    · next refused => exact .inr ⟨partly left, _, rfl, refused⟩
    · simp only [Prog.wp_bind, Prog.wp_gets, unlinked_leaf leaf, Prog.wp_modify]
      have removed : ∀ other, (host.files.removeTree path).get other
          = if location <+: other ∧ other ∉ rest then none else files.get other := by
        intro other
        rw [FileSystem.get_removeTree fun top => below (List.prefix_nil.mp (top ▸ under))]
        by_cases within : path <+: other
        · have gone : other ∉ rest := fun later => fresh (first other later within ▸ later)
          rw [if_pos within, if_pos ⟨under.trans within, gone⟩]
        · rw [if_neg within, left other]
          have different : other ≠ path := fun same => within (same ▸ List.prefix_rfl)
          simp only [List.mem_cons, different, false_or]
      have onward : Partly files location (host.files.removeTree path) :=
        @partly ⟨host.files.removeTree path, host.calls + 1⟩ rest removed
      exact ⟨onward, ih (fun other member => inside other (List.mem_cons_of_mem _ member)) rest_once
        rest_inward removed⟩

/-- A removal of the destination leaves what was there before, unless a node of it stays. -/
theorem Underway.removed (under : Underway options before destination headers host.files) :
    (world.removeAll destination).wp (fun s => Remains options before destination headers s.files)
      (fun _ s => (∀ path, s.files.get path = before.get path)
        ∨ (Remains options before destination headers s.files ∧ Refused world s))
      (fun _ _ => False) host := by
  have still := under
  obtain ⟨location, tree, bytes, done, current, later, found, vacant, _, _, _, m⟩ := under
  have below : location ≠ [] := fun top => by
    rw [top, FileSystem.get_root] at vacant
    cases vacant
  have located : host.files.locate destination = some location := by
    obtain ⟨front, name, rfl, entry, parent, reached, rfl⟩ := FileSystem.locate_some found
    rw [FileSystem.locate_eq entry, FileSystem.directoryAt, FileSystem.resolve_keeps (m.keeps vacant) reached]
    rfl
  simp only [World.removeAll, Prog.wp_bind, Prog.wp_gets, located]
  have order := world.order_perm ((host.files.nodes.map Prod.fst).filter fun inside => location.isPrefixOf inside)
  refine Prog.wp_mono (removeEach_spec host.files below ?_ ?_ (world.order_inward _) ?_)
    (fun s partly => ⟨host.files, location, still, found, partly⟩) ?_ (fun _ _ => id)
  · intro path member
    exact List.isPrefixOf_iff_prefix.mp (List.mem_filter.mp (order.mem_iff.mp member)).2
  · exact order.nodup_iff.mpr (host.files.once.filter _)
  · intro path
    split
    · next gone =>
      by_contra there
      obtain ⟨node, there⟩ := Option.ne_none_iff_exists'.mp there
      have filled : path ≠ [] := fun top => below (List.prefix_nil.mp (top ▸ gone.1))
      rw [FileSystem.get_below filled] at there
      refine gone.2 (order.mem_iff.mpr (List.mem_filter.mpr ⟨?_, List.isPrefixOf_iff_prefix.mpr gone.1⟩))
      exact List.mem_map_of_mem (Assoc.mem_of_get there)
    · rfl
  · rintro _ s (gone | ⟨partly, refused⟩)
    · refine .inl fun path => ?_
      rw [gone path]
      split
      · next inside =>
        obtain ⟨rest, rfl⟩ := inside
        exact (FileSystem.get_vacant vacant rest).symm
      · next apart => exact m.outside path apart
    · exact .inr ⟨⟨host.files, location, still, found, partly⟩, refused⟩

end

/-- At every moment, and whenever the process dies, nothing has changed or the destination is new and
holds what the entries so far make of it: directories and regular files under plain names, within the
limits, each file a part of its data and each finished one all of it; or it is taken down again. A call
that returns has unpacked every entry; one that throws has changed nothing, unless a removal was refused. -/
theorem extraction_contained (world : World) (options : TarExtractOptions) (source destination : Path) (tar : Tar)
    (host : Host) :
    (extractRegularTreeTar world options destination source tar).wp
      (fun s => (∀ path, s.files.get path = host.files.get path)
        ∨ Underway options host.files destination tar.headers s.files
        ∨ Remains options host.files destination tar.headers s.files)
      (fun _ s => ∃ location entries bytes, host.files.locate destination = some location
        ∧ host.files.get location = none ∧ tar.headers = entries.map .ok
        ∧ Progress options entries none (treeOf entries) bytes
        ∧ Mounted host.files location (treeOf entries) bytes s.files)
      (fun _ s => (∀ path, s.files.get path = host.files.get path)
        ∨ (Remains options host.files destination tar.headers s.files ∧ Refused world s)) host := by
  simp only [extractRegularTreeTar, Prog.wp_bind]
  refine Prog.wp_ofExcept (fun _ limits => ?_) (fun _ _ => .inl fun _ => rfl)
  simp only [rejectIf_ok, not_or] at limits
  rw [Prog.wp_bind]
  refine Prog.wp_reads (fun _ _ => ?_) (fun _ _ => .inl fun _ => rfl)
  rw [Prog.wp_bind]
  refine Prog.wp_ofExcept (fun _ _ => ?_) (fun _ _ => .inl fun _ => rfl)
  rw [Prog.wp_bind]
  refine Prog.wp_mono (createDirectory_spec world destination host) ?_ (fun created s made => ?_)
    (fun _ _ same => .inl fun _ => by rw [same])
  · rintro s (same | ⟨location, found, vacant, same⟩)
    · exact .inl fun _ => by rw [same]
    · have m := same ▸ mounted_empty found vacant
      exact .inr (.inl ((settled_nil options).underway found vacant rfl m))
  rw [Prog.wp_bind]
  cases created with
  | false => exact .inl fun path => by rw [(if_neg Bool.false_ne_true).mp made]
  | true =>
    obtain ⟨location, found, vacant, same⟩ := made
    have m := same ▸ mounted_empty found vacant
    refine Prog.wp_ofExcept (fun _ _ => ?_) (fun _ bad => by cases bad)
    rw [Prog.wp_bind, Prog.wp_attempt]
    refine Prog.wp_mono (extractAll_spec found vacant m) (fun _ under => .inr (.inl under)) (fun _ s done => ?_)
      (fun error s under => ?_)
    · obtain ⟨entries, bytes, all, settled, m⟩ := done
      exact ⟨location, entries, bytes, found, vacant, all, settled, m⟩
    · simp only [Prog.wp_bind]
      exact Prog.wp_mono under.removed (fun _ remains => .inr (.inr remains)) (fun _ _ left => left)
        (fun _ _ never => never.elim)

/-- Deeper nodes first. -/
def deepestFirst (paths : List Path) : List Path := paths.insertionSort fun first second => second.length ≤ first.length

/-- Every removal is refused. -/
def stuckWorld : World where
  locale := .ok ()
  check _ := .ok ()
  refusal _ := none
  stays _ := true
  order := deepestFirst
  order_perm := List.perm_insertionSort _
  order_inward paths := by
    have : Std.Total fun first second : Path => second.length ≤ first.length := ⟨fun _ _ => Nat.le_total _ _⟩
    have : IsTrans Path fun first second => second.length ≤ first.length :=
      ⟨fun _ _ _ earlier later => Nat.le_trans later earlier⟩
    exact (List.pairwise_insertionSort _ paths).imp fun shorter inside => inside.eq_of_length_le shorter

def emptyArchive : FileSystem where
  nodes := [([ascii "a"], .file [])]
  once := List.nodup_singleton _
  rooted := by
    intro path node there
    obtain ⟨rfl, rfl⟩ : path = [ascii "a"] ∧ node = Node.file [] := by simpa using Assoc.mem_of_get there
    exact ⟨List.cons_ne_nil _ _, .inl rfl⟩

/-- Where the removal is refused, the destination of a call that throws is still there. -/
theorem not_contained_stuck :
    ¬ ∀ (world : World) (options : TarExtractOptions) (source destination : Path) (tar : Tar) (host : Host),
      (extractRegularTreeTar world options destination source tar).wp (fun _ => True) (fun _ _ => True)
        (fun _ s => ∀ path, s.files.get path = host.files.get path) host := by
  intro all
  let start : Host := ⟨emptyArchive, 0⟩
  let call := extractRegularTreeTar stuckWorld ⟨1, 1, 1, 1, 1, false⟩ [ascii "d"] [ascii "a"]
    ⟨.ok (), [.error "invalid"], .ok ()⟩
  have threw := Prog.wp_exec (all stuckWorld ⟨1, 1, 1, 1, 1, false⟩ [ascii "a"] [ascii "d"]
    ⟨.ok (), [.error "invalid"], .ok ()⟩ start)
  have failed : (call.exec start).1 = .error "invalid" := by decide +kernel
  have left : (call.exec start).2.files.get [ascii "d"] = some .directory := by decide +kernel
  cases ran : call.exec start with
  | mk result after =>
    rw [ran] at failed left
    obtain rfl : result = _ := failed
    have same : after.files.get [ascii "d"] = emptyArchive.get [ascii "d"] := by
      rw [show extractRegularTreeTar stuckWorld _ _ _ _ = call from rfl, ran] at threw
      exact threw [ascii "d"]
    rw [left] at same
    exact absurd same (by decide +kernel)

end CkGit.Archive
