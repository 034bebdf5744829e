import CkGit.Dependencies.Graph
import CkGit.Dependencies.Readers

/-!
Which locks parseCiDependencyLock accepts: those whose fields meet the rules and
whose needs are closed, free of cycles and reached from the direct packages.
-/
namespace CkGit.Dependencies
open CkGit.Base CkGit.Ci
open CkGit.Workflow (YamlNode)
open Relation (TransGen ReflTransGen)

structure InputRules (node : YamlNode) (input : CiDependencyInput) : Prop where
  mapping : requireMapping node "an input to be a mapping" = .ok ()
  keys : rejectUnknownKeys node ["path", "sha256"] = .ok ()
  path : scalar node "path" = .ok input.path
  sha256 : scalar node "sha256" = .ok input.sha256
  safe : input.path.all (fun c => 0x20 ≤ c && c ≤ 0x7e) ∧ isSafeRelativePath input.path
  ends : input.path.getLast? ≠ some '/'.toUInt8
  hex : isValidSha256Hex input.sha256 = true

structure NeedRules (item : YamlNode) (name : Bytes) : Prop where
  scalar : requireScalar item "a dependency name to be a scalar" = .ok name
  safe : safeToken name 128 = true

structure PackageRules (node : YamlNode) (package : CiDependencyPackage) : Prop where
  mapping : requireMapping node "a package to be a mapping" = .ok ()
  keys : rejectUnknownKeys node
    ["name", "version", "registry", "sha256", "recipe_sha256", "direct", "needs"] = .ok ()
  name : scalar node "name" = .ok package.name
  version : scalar node "version" = .ok package.version
  registry : scalar node "registry" = .ok package.registry
  sha256 : scalar node "sha256" = .ok package.sha256
  recipe_sha256 : scalar node "recipe_sha256" = .ok package.recipe_sha256
  identity : safeToken package.name 128 ∧ safeToken package.version 128 ∧ isValidCiLabel package.registry
  hex : isValidSha256Hex package.sha256 = true
  recipe_hex : isValidSha256Hex package.recipe_sha256 = true
  direct : scalar node "direct" = .ok (if package.direct then ascii "true" else ascii "false")
  needs : ∃ items line, sequence node "needs" = .ok (items, line) ∧ items.length ≤ 256
    ∧ List.Forall₂ NeedRules items package.needs
  once : package.needs.Nodup

/-- The fields of a tree, with the inputs and the packages they describe. Two packages may have
one name. -/
structure FieldRules (root : YamlNode) (inputs : List CiDependencyInput) (packages : List CiDependencyPackage) : Prop where
  keys : rejectUnknownKeys root ["version", "platform", "architecture", "abi", "inputs", "packages"] = .ok ()
  version : scalar root "version" = .ok (ascii "1")
  target : ∃ platform architecture abi, scalar root "platform" = .ok platform
    ∧ scalar root "architecture" = .ok architecture ∧ scalar root "abi" = .ok abi
    ∧ isTarget platform architecture abi = true
  listed_inputs : ∃ nodes line, sequence root "inputs" = .ok (nodes, line) ∧ nodes ≠ [] ∧ nodes.length ≤ 128
    ∧ List.Forall₂ InputRules nodes inputs
  once : (inputs.map (·.path)).Nodup
  listed_packages : ∃ nodes line, sequence root "packages" = .ok (nodes, line) ∧ nodes ≠ [] ∧ nodes.length ≤ 1024
    ∧ List.Forall₂ PackageRules nodes packages

/-- The package of one name needs the other name. -/
def Needs (packages : List CiDependencyPackage) (name other : Bytes) : Prop :=
  ∃ package ∈ packages, package.name = name ∧ other ∈ package.needs

structure Orderly (packages : List CiDependencyPackage) : Prop where
  unique : (packages.map (·.name)).Nodup
  closed : ∀ package ∈ packages, ∀ name ∈ package.needs, ∃ other ∈ packages, other.name = name
  acyclic : ∀ name, ¬ TransGen (Needs packages) name name
  reached : ∀ package ∈ packages, ∃ root ∈ packages, root.direct = true
    ∧ ReflTransGen (Needs packages) root.name package.name

section
variable {readers : Readers} {content : Bytes} {root node : YamlNode} {inputs : List CiDependencyInput}
  {packages before : List CiDependencyPackage} {package : CiDependencyPackage} {index other : Nat} {name : Bytes}

theorem parseInput_rules {earlier : List CiDependencyInput} {input : CiDependencyInput} (rules : InputRules node input)
    (fresh : input.path ∉ earlier.map (·.path)) : parseInput earlier node = .ok (earlier ++ [input]) := by
  unfold parseInput
  simp only [bind_ok, pure_ok, malformedIf, rejectIf_ok, digest]
  refine ⟨(), rules.mapping, (), rules.keys, _, rules.path, _, rules.sha256, (), ?_, (), not_not.mpr rules.hex, rfl⟩
  rw [not_or, not_or, not_not]
  exact ⟨rules.safe, rules.ends, fresh⟩

theorem parseInputs_rules {earlier : List CiDependencyInput} {nodes : List YamlNode}
    (rules : List.Forall₂ InputRules nodes inputs) (once : ((earlier ++ inputs).map (·.path)).Nodup) :
    nodes.foldlM parseInput earlier = .ok (earlier ++ inputs) := by
  induction rules generalizing earlier with
  | nil => rw [List.append_nil]; rfl
  | @cons node input nodes inputs first _ ih =>
    rw [List.append_cons] at once ⊢
    have fresh : input.path ∉ earlier.map (·.path) := by
      rw [List.map_append, List.map_append] at once
      have apart := (List.nodup_append.mp (List.nodup_append.mp once).1).2.2
      exact fun member => apart _ member _ List.mem_cons_self rfl
    rw [List.foldlM_cons, parseInput_rules first fresh]
    exact ih once

theorem parseNeeds_rules {earlier names : List Bytes} {items : List YamlNode}
    (rules : List.Forall₂ NeedRules items names) (once : (earlier ++ names).Nodup) :
    items.foldlM parseNeed earlier = .ok (earlier ++ names) := by
  induction rules generalizing earlier with
  | nil => rw [List.append_nil]; rfl
  | @cons item name items names first _ ih =>
    rw [List.append_cons] at once ⊢
    have fresh : name ∉ earlier := by
      have apart := (List.nodup_append.mp (List.nodup_append.mp once).1).2.2
      exact fun member => apart _ member _ List.mem_cons_self rfl
    have one : parseNeed earlier item = .ok (earlier ++ [name]) := by
      unfold parseNeed
      simp only [bind_ok, pure_ok, malformedIf, rejectIf_ok]
      exact ⟨name, first.scalar, (), not_or.mpr ⟨not_not.mpr first.safe, fresh⟩, rfl⟩
    rw [List.foldlM_cons, one]
    exact ih once

/-- A package that meets the rules is refused only for its name. -/
theorem parsePackage_rules {after : List CiDependencyPackage} (rules : PackageRules node package) :
    parsePackage before node = .ok after ↔ package.name ∉ before.map (·.name) ∧ after = before ++ [package] := by
  obtain ⟨items, line, sequenced, count, needs⟩ := rules.needs
  have read_needs : items.foldlM parseNeed [] = .ok package.needs := parseNeeds_rules needs rules.once
  have flag : (if package.direct then ascii "true" else ascii "false") = ascii "true"
      ∨ (if package.direct then ascii "true" else ascii "false") = ascii "false" := by
    cases package.direct
    · exact .inr rfl
    · exact .inl rfl
  have direct : ((if package.direct then ascii "true" else ascii "false") == ascii "true") = package.direct := by
    cases package.direct
    · decide
    · decide
  unfold parsePackage
  simp only [bind_ok, pure_ok, malformedIf, rejectIf_ok, digest, rules.mapping, rules.keys, rules.name, rules.version,
    rules.registry, rules.sha256, rules.recipe_sha256, rules.direct, sequenced]
  constructor
  · rintro ⟨_, _, _, _, _, same, _, same₁, _, same₂, _, same₃, _, same₄, _, identity, _, _, _, _, _, same₅, _, _, _, same₆, _, _, _,
      listed, rfl⟩
    cases same
    cases same₁
    cases same₂
    cases same₃
    cases same₄
    cases same₅
    cases same₆
    cases read_needs.symm.trans listed
    refine ⟨(not_or.mp identity).2, ?_⟩
    rw [direct]
  · rintro ⟨fresh, rfl⟩
    refine ⟨(), trivial, (), trivial, _, rfl, _, rfl, _, rfl, _, rfl, _, rfl, (), not_or.mpr ⟨not_not.mpr rules.identity, fresh⟩,
      (), not_not.mpr rules.hex, (), not_not.mpr rules.recipe_hex, _, rfl, (), ?_, _, rfl, (), Nat.not_lt.mpr count, _,
      read_needs, ?_⟩
    · exact fun both => flag.elim both.1 both.2
    · rw [direct]

theorem parsePackages_rules {nodes : List YamlNode} {after : List CiDependencyPackage}
    (rules : List.Forall₂ PackageRules nodes packages) (unique : (before.map (·.name)).Nodup) :
    nodes.foldlM parsePackage before = .ok after
      ↔ ((before ++ packages).map (·.name)).Nodup ∧ after = before ++ packages := by
  induction rules generalizing before with
  | nil =>
    rw [List.append_nil, List.foldlM_nil, pure_ok]
    exact ⟨fun same => ⟨unique, same.symm⟩, fun both => both.2.symm⟩
  | @cons node package nodes packages first _ ih =>
    rw [List.foldlM_cons, bind_ok, List.append_cons]
    have longer : ((before ++ [package]).map (·.name)).Nodup ↔ package.name ∉ before.map (·.name) := by
      rw [List.map_append, List.map_singleton, List.nodup_append]
      constructor
      · exact fun apart member => apart.2.2 _ member _ List.mem_cons_self rfl
      · exact fun fresh => ⟨unique, List.nodup_singleton _, fun one member two single same =>
          fresh (List.mem_singleton.mp single ▸ same ▸ member)⟩
    constructor
    · rintro ⟨next, one, rest⟩
      obtain ⟨fresh, rfl⟩ := (parsePackage_rules first).mp one
      exact (ih (longer.mpr fresh)).mp rest
    · rintro ⟨once, rfl⟩
      have front : ((before ++ [package]).map (·.name)).Nodup := by
        rw [List.map_append] at once
        exact (List.nodup_append.mp once).1
      exact ⟨_, (parsePackage_rules first).mpr ⟨longer.mp front, rfl⟩, (ih front).mpr ⟨once, rfl⟩⟩

def nameAt (packages : List CiDependencyPackage) (index : Nat) : Bytes :=
  (packages[index]?.map (·.name)).getD []

theorem position_iff (unique : (packages.map (·.name)).Nodup) :
    position packages name = some index ↔ ∃ package, packages[index]? = some package ∧ package.name = name := by
  rw [position, List.findIdx?_eq_some_iff_getElem]
  constructor
  · rintro ⟨within, same, _⟩
    exact ⟨packages[index], List.getElem?_eq_getElem within, of_decide_eq_true same⟩
  · rintro ⟨package, own, rfl⟩
    obtain ⟨within, rfl⟩ := List.getElem?_eq_some_iff.mp own
    refine ⟨within, decide_eq_true rfl, fun earlier before same => ?_⟩
    have front : earlier < (packages.map (·.name)).length := by rw [List.length_map]; omega
    have back : index < (packages.map (·.name)).length := by rw [List.length_map]; omega
    have twice : (packages.map (·.name))[earlier] = (packages.map (·.name))[index] := by
      rw [List.getElem_map, List.getElem_map]
      exact of_decide_eq_true same
    exact absurd ((List.Nodup.getElem_inj_iff unique).mp twice) (by omega)

theorem position_member (unique : (packages.map (·.name)).Nodup) (member : package ∈ packages) :
    ∃ index, packages[index]? = some package ∧ position packages package.name = some index := by
  obtain ⟨index, own⟩ := List.mem_iff_getElem?.mp member
  exact ⟨index, own, (position_iff unique).mpr ⟨package, own, rfl⟩⟩

theorem needsOf_some (own : packages[index]? = some package) : needsOf packages index = package.needs := by
  rw [needsOf, own]
  rfl

theorem nameAt_some (own : packages[index]? = some package) : nameAt packages index = package.name := by
  rw [nameAt, own]
  rfl

theorem Edge.needs (unique : (packages.map (·.name)).Nodup) (edge : Edge packages index other) :
    Needs packages (nameAt packages index) (nameAt packages other) := by
  obtain ⟨name, member, found⟩ := edge
  obtain ⟨target, at_other, rfl⟩ := (position_iff unique).mp found
  cases own : packages[index]? with
  | none =>
    rw [needsOf, own] at member
    cases member
  | some package =>
    rw [needsOf_some own] at member
    exact ⟨package, List.mem_of_getElem? own, (nameAt_some own).symm, by rwa [nameAt_some at_other]⟩

theorem Needs.edge (unique : (packages.map (·.name)).Nodup)
    (closed : ∀ package ∈ packages, ∀ name ∈ package.needs, ∃ other ∈ packages, other.name = name) {target : Bytes}
    (needs : Needs packages name target) (found : position packages name = some index) :
    ∃ other, position packages target = some other ∧ Edge packages index other := by
  obtain ⟨package, member, rfl, needed⟩ := needs
  obtain ⟨index', own, found'⟩ := position_member unique member
  cases found.symm.trans found'
  obtain ⟨wanted, listed, rfl⟩ := closed package member target needed
  obtain ⟨other, _, there⟩ := position_member unique listed
  exact ⟨other, there, wanted.name, (needsOf_some own).symm ▸ needed, there⟩

theorem orderly_iff (unique : (packages.map (·.name)).Nodup) :
    Orderly packages ↔ Closed packages ∧ ∀ i < packages.length, FromDirect packages i := by
  constructor
  · intro orderly
    have lift : ∀ {name target} {i : Nat}, ReflTransGen (Needs packages) name target → position packages name = some i →
        ∃ j, position packages target = some j ∧ ReflTransGen (Edge packages) i j := by
      intro name target i path found
      induction path with
      | refl => exact ⟨i, found, .refl⟩
      | tail _ step ih =>
        obtain ⟨j, there, walked⟩ := ih
        obtain ⟨k, next, edge⟩ := step.edge unique orderly.closed there
        exact ⟨k, next, walked.tail edge⟩
    refine ⟨⟨fun i name member => ?_, fun i cycle => ?_⟩, fun i within => ?_⟩
    · cases own : packages[i]? with
      | none =>
        rw [needsOf, own] at member
        cases member
      | some package =>
        rw [needsOf_some own] at member
        obtain ⟨other, listed, rfl⟩ := orderly.closed package (List.mem_of_getElem? own) name member
        obtain ⟨j, _, found⟩ := position_member unique listed
        exact ⟨j, found⟩
    · exact orderly.acyclic _ (cycle.lift (nameAt packages) fun _ _ edge => edge.needs unique)
    · obtain ⟨root, listed, direct, path⟩ := orderly.reached packages[i] (List.getElem_mem within)
      obtain ⟨r, own, found⟩ := position_member unique listed
      obtain ⟨j, there, walked⟩ := lift path found
      have here : position packages packages[i].name = some i :=
        (position_iff unique).mpr ⟨_, List.getElem?_eq_getElem within, rfl⟩
      cases there.symm.trans here
      exact ⟨r, root, own, direct, walked⟩
  · rintro ⟨closed, reached⟩
    have shut : ∀ package ∈ packages, ∀ name ∈ package.needs, ∃ other ∈ packages, other.name = name := by
      intro package member name needed
      obtain ⟨i, own, _⟩ := position_member unique member
      obtain ⟨j, found⟩ := closed.resolved i name ((needsOf_some own).symm ▸ needed)
      obtain ⟨other, there, same⟩ := (position_iff unique).mp found
      exact ⟨other, List.mem_of_getElem? there, same⟩
    have lift : ∀ {name target} {i : Nat}, TransGen (Needs packages) name target → position packages name = some i →
        ∃ j, position packages target = some j ∧ TransGen (Edge packages) i j := by
      intro name target i path found
      induction path with
      | single step =>
        obtain ⟨j, there, edge⟩ := step.edge unique shut found
        exact ⟨j, there, .single edge⟩
      | tail _ step ih =>
        obtain ⟨j, there, walked⟩ := ih
        obtain ⟨k, next, edge⟩ := step.edge unique shut there
        exact ⟨k, next, walked.tail edge⟩
    refine ⟨unique, shut, fun name cycle => ?_, fun package member => ?_⟩
    · obtain ⟨next, ⟨package, member, rfl, _⟩, _⟩ := TransGen.head'_iff.mp cycle
      obtain ⟨i, _, found⟩ := position_member unique member
      obtain ⟨j, there, walked⟩ := lift cycle found
      cases found.symm.trans there
      exact closed.acyclic i walked
    · obtain ⟨i, own, _⟩ := position_member unique member
      obtain ⟨r, root, at_root, direct, path⟩ := reached i (List.getElem?_eq_some_iff.mp own).1
      refine ⟨root, List.mem_of_getElem? at_root, direct, ?_⟩
      have names : ReflTransGen (Needs packages) (nameAt packages r) (nameAt packages i) :=
        path.lift (nameAt packages) fun _ _ edge => edge.needs unique
      rwa [nameAt_some at_root, nameAt_some own] at names

/-- A lock whose fields meet the rules is accepted exactly when its packages are orderly, and on
every graph the search ends by itself: it runs out of no number of levels beyond that of the packages. -/
theorem parseCiDependencyLock_iff (parsed : parseYamlSubset readers content = .ok root)
    (rules : FieldRules root inputs packages) :
    ((∃ lock, parseCiDependencyLock readers content = .ok lock) ↔ Orderly packages)
      ∧ ∀ levels index states, states.length = packages.length → index < packages.length → packages.length < levels →
        visit packages levels index states ≠ .error .outOfLevels
          ∧ visit packages levels index states = visit packages (packages.length + 1) index states := by
  refine ⟨?_, fun levels index states sized within enough =>
    ⟨visit_ends sized within (by omega), visit_levels sized within (by omega) (by omega)⟩⟩
  obtain ⟨platform, architecture, abi, platform_own, architecture_own, abi_own, target⟩ := rules.target
  obtain ⟨nodes, line, sequenced, filled, count, described⟩ := rules.listed_inputs
  obtain ⟨nodes', line', sequenced', filled', count', described'⟩ := rules.listed_packages
  have read_inputs : nodes.foldlM parseInput [] = .ok inputs := parseInputs_rules described rules.once
  have unique_nil : (([] : List CiDependencyPackage).map (·.name)).Nodup := List.nodup_nil
  unfold parseCiDependencyLock
  simp only [bind_ok, pure_ok, malformedIf, rejectIf_ok]
  constructor
  · rintro ⟨lock, tree, parsed', _, _, _, _, _, _, _, _, _, _, _, _, _, _, _, _, _, _, _, _, ⟨found, at_line⟩, listed, _, _, read,
      accepted, _, search, rfl⟩
    cases parsed.symm.trans parsed'
    cases sequenced'.symm.trans listed
    obtain ⟨unique, rfl⟩ := (parsePackages_rules described' unique_nil).mp accepted
    exact (orderly_iff unique).mpr (rejectUnreachable_ok.mp search)
  · intro orderly
    have accepted := (parsePackages_rules described' unique_nil).mpr ⟨orderly.unique, rfl⟩
    exact ⟨_, root, parsed, (), rules.keys, _, rules.version, (), not_not.mpr rfl, platform, platform_own, architecture,
      architecture_own, abi, abi_own, (), not_not.mpr target, _, sequenced, (), not_or.mpr ⟨filled, Nat.not_lt.mpr count⟩,
      inputs, read_inputs, _, sequenced', (), not_or.mpr ⟨filled', Nat.not_lt.mpr count'⟩, packages, accepted, (),
      rejectUnreachable_ok.mpr ((orderly_iff orderly.unique).mp orderly), rfl⟩

end

def hash : Bytes := List.replicate 64 'a'.toUInt8

def lockText : Bytes := framed
  [ascii "version: 1", ascii "platform: linux", ascii "architecture: x64", ascii "abi: gnu", ascii "inputs:",
    ascii "  - path: vcpkg.json", ascii "    sha256: " ++ hash, ascii "packages:", ascii "  - name: lib",
    ascii "    version: 2.0", ascii "    registry: nuget", ascii "    sha256: " ++ hash,
    ascii "    recipe_sha256: " ++ hash, ascii "    direct: true", ascii "    needs: []"]

def lockTree : YamlNode :=
  let scalar (key value : String) (line : Nat) : Bytes × YamlNode := (ascii key, .scalar (ascii value) line)
  .mapping [scalar "version" "1" 1, scalar "platform" "linux" 2, scalar "architecture" "x64" 3, scalar "abi" "gnu" 4,
    (ascii "inputs", .sequence [.mapping [scalar "path" "vcpkg.json" 6, (ascii "sha256", .scalar hash 7)] 6] 6),
    (ascii "packages", .sequence [.mapping [scalar "name" "lib" 9, scalar "version" "2.0" 10,
      scalar "registry" "nuget" 11, (ascii "sha256", .scalar hash 12), (ascii "recipe_sha256", .scalar hash 13),
      scalar "direct" "true" 14,
      (ascii "needs", .sequence [] 15)] 9] 9)] 1

def libPackage : CiDependencyPackage where
  name := ascii "lib"
  version := ascii "2.0"
  registry := ascii "nuget"
  sha256 := hash
  recipe_sha256 := hash
  direct := true
  needs := []

private theorem lock_rules : FieldRules lockTree [{ path := ascii "vcpkg.json", sha256 := hash }] [libPackage] where
  keys := rfl
  version := rfl
  target := ⟨ascii "linux", ascii "x64", ascii "gnu", rfl, rfl, rfl, by decide⟩
  listed_inputs := ⟨_, _, rfl, nofun, by decide, .cons ⟨rfl, rfl, rfl, rfl, by decide, by decide, by decide⟩ .nil⟩
  once := by decide
  listed_packages := ⟨_, _, rfl, nofun, by decide,
    .cons ⟨rfl, rfl, rfl, rfl, rfl, rfl, rfl, by decide, by decide, by decide, rfl, ⟨[], _, rfl, by decide, .nil⟩, by decide⟩ .nil⟩

theorem lock_read : projectReaders.parseDocument lockText = .ok lockTree := by decide +kernel

private theorem lock_parsed : parseYamlSubset projectReaders lockText = .ok lockTree := by
  have fits : ¬ lockText.length > kMaximumLockBytes := by decide +kernel
  exact bind_ok.mpr ⟨(), rejectIf_ok.mpr fits, lock_read⟩

private theorem lib_orderly : Orderly [libPackage] where
  unique := List.nodup_singleton _
  closed package member name needed := by
    rw [List.mem_singleton.mp member] at needed
    cases needed
  acyclic name cycle := by
    obtain ⟨_, ⟨package, member, _, needed⟩, _⟩ := TransGen.head'_iff.mp cycle
    rw [List.mem_singleton.mp member] at needed
    cases needed
  reached package member := by
    rw [List.mem_singleton.mp member]
    exact ⟨libPackage, List.mem_singleton_self _, rfl, .refl⟩

/-- The lock is accepted as the project reads it. -/
theorem parseCiDependencyLock_iff_lock :
    (∃ lock, parseCiDependencyLock projectReaders lockText = .ok lock)
      ∧ ∀ levels index states, states.length = [libPackage].length → index < [libPackage].length →
        [libPackage].length < levels →
        visit [libPackage] levels index states ≠ .error .outOfLevels
          ∧ visit [libPackage] levels index states = visit [libPackage] ([libPackage].length + 1) index states := by
  obtain ⟨accepted, ends⟩ := parseCiDependencyLock_iff lock_parsed lock_rules
  exact ⟨accepted.mpr lib_orderly, ends⟩

end CkGit.Dependencies
