import CkGit.Web.Links

/-!
No route names a component that leads out of its directory, except the names `.` and `..`
of a CI artifact or a release asset, which are looked up in its record.
-/
namespace CkGit.Web
open CkGit.Base CkGit.Ci CkGit.Events

def SafeName (component : Bytes) : Prop := component ≠ [] ∧ component ≠ ascii "." ∧ component ≠ ascii ".."

/-- Every component is safe, if there is any. -/
def SafeText (value : Bytes) : Prop := value = [] ∨ ∀ component ∈ value.splitOn slash, SafeName component

/-- A kind whose path is the name of a stored file. -/
def RouteKind.named (kind : RouteKind) : Prop := kind = .ciArtifact ∨ kind = .releaseAsset

structure Safe (route : Route) : Prop where
  ref : SafeText route.ref
  path : SafeText route.path ∨ route.kind.named ∧ (route.path = ascii "." ∨ route.path = ascii "..")

def AllSafe (result : Option Route) : Prop := ∀ route, result = some route → Safe route

section
variable {project ref target : Bytes} {k : RouteKind}

theorem validComponents_safe {value : Bytes} {allow_empty : Bool} (h : validComponents value allow_empty = true) :
    SafeText value := by
  unfold validComponents at h
  split at h
  · rename_i empty
    exact .inl (List.isEmpty_iff.mp empty)
  · refine .inr fun component member => ?_
    have valid := List.all_eq_true.mp (Bool.and_eq_true_iff.mp h).1 component member
    simp only [validComponent, Bool.not_eq_true', Bool.or_eq_false_iff, beq_eq_false_iff_ne] at valid
    exact ⟨fun empty => by simp [empty] at valid, valid.1.1.2, valid.1.2⟩

theorem objectId_safe (h : isObjectId ref = true) : SafeText ref := by
  have absent : slash ∉ ref := fun member => (objectId_bytes h slash member).2.2.1 rfl
  refine .inr fun component member => ?_
  rw [List.splitOn_eq_singleton absent] at member
  obtain rfl := List.mem_singleton.mp member
  refine ⟨?_, ?_, ?_⟩ <;>
  · rintro rfl
    exact absurd h (by decide)

/-- A name is one component; only the two dots are not safe. -/
theorem name_safe {name : Bytes} (filled : (!name.isEmpty) = true) (characters : name.all isNameCharacter = true) :
    SafeText name ∨ name = ascii "." ∨ name = ascii ".." := by
  have absent : slash ∉ name := fun member => absurd (List.all_eq_true.mp characters slash member) (by decide)
  by_cases one : name = ascii "."
  · exact .inr (.inl one)
  by_cases two : name = ascii ".."
  · exact .inr (.inr two)
  refine .inl (.inr fun component member => ?_)
  rw [List.splitOn_eq_singleton absent] at member
  obtain rfl := List.mem_singleton.mp member
  exact ⟨fun empty => by simp [empty] at filled, one, two⟩

/-- A name before the components. -/
theorem SafeText.prefixed {first rest : Bytes} (name : SafeName first) (one : slash ∉ first) (filled : rest ≠ [])
    (h : SafeText rest) : SafeText (first ++ slash :: rest) := by
  refine .inr fun component member => ?_
  rw [List.splitOn_append_cons_self_of_not_mem one] at member
  rcases List.mem_cons.mp member with rfl | inside
  · exact name
  · exact h.resolve_left filled component inside

theorem validRef_safe (h : validRef ref = true) : SafeText ref := by
  unfold validRef at h
  rcases Bool.or_eq_true_iff.mp h with id | named
  · exact objectId_safe id
  · simp only [Bool.and_eq_true] at named
    have short := validComponents_safe named.1.2
    have filled : shortRef ref ≠ [] := by
      intro empty
      rw [empty] at named
      exact absurd named.1.1.1 (by decide)
    unfold shortRef at short filled
    split at short
    · rename_i value found
      rw [found] at filled
      rw [expectField_some found]
      exact @SafeText.prefixed (ascii "heads") _ (by unfold SafeName; decide) (by decide) filled short
    · rename_i value absent found
      rw [absent, found] at filled
      rw [expectField_some found]
      exact @SafeText.prefixed (ascii "tags") _ (by unfold SafeName; decide) (by decide) filled short
    · exact short

theorem safe_none : AllSafe none := nofun

theorem safe_some {route : Route} (h : Safe route) : AllSafe (some route) := by
  intro result same
  rw [← Option.some.inj same]
  exact h

theorem safe_bind {α : Type} {first : Option α} {next : α → Option Route} (h : ∀ a, AllSafe (next a)) :
    AllSafe (first.bind next) := by
  cases first with
  | none => exact safe_none
  | some a => exact h a

theorem safe_withRef {route : Route} (path : SafeText route.path) : AllSafe (withRef route target) := by
  refine safe_bind fun ref => ?_
  split
  · rename_i valid
    exact safe_some ⟨validRef_safe valid, .inl path⟩
  · exact safe_none

theorem safe_ci : AllSafe (ciRoute project target) := by
  have empty : SafeText [] := .inl rfl
  unfold ciRoute
  dsimp only
  split
  · unfold ciTail
    split
    · exact safe_some ⟨empty, .inl empty⟩
    split
    · exact safe_some ⟨empty, .inl empty⟩
    split
    · split
      · rename_i valid
        unfold isValidCiArtifactName at valid
        simp only [Bool.and_eq_true] at valid
        exact safe_some ⟨empty, (name_safe valid.1.1 valid.2).imp_right fun dots => ⟨.inl rfl, dots⟩⟩
      · exact safe_none
    · split
      · rw [Option.map_eq_bind]
        exact safe_bind fun step => safe_some ⟨empty, .inl empty⟩
      split
      · rw [Option.map_eq_bind]
        exact safe_bind fun step => safe_some ⟨empty, .inl empty⟩
      · exact safe_none
  · exact safe_none

theorem safe_release : AllSafe (releaseRoute project target) := by
  unfold releaseRoute
  split
  · split
    · rename_i accepted
      simp only [Bool.and_eq_true] at accepted
      exact safe_some ⟨.inl rfl, (name_safe accepted.1.1.2 accepted.2).imp_right fun dots => ⟨.inr rfl, dots⟩⟩
    · exact safe_none
  · exact safe_none

theorem safe_file : AllSafe (fileRoute project k target) := by
  unfold fileRoute
  split
  · split
    · exact safe_none
    · refine safe_bind fun ref => safe_bind fun path => ?_
      split
      · exact safe_none
      · rename_i accepted
        simp only [Bool.or_eq_true, Bool.not_eq_true', not_or, Bool.not_eq_false] at accepted
        exact safe_some ⟨validRef_safe accepted.1.1, .inl (validComponents_safe accepted.1.2)⟩
  · exact safe_none

theorem safe_boundary {suffix : Bytes} : AllSafe (boundaryRoute project k ref suffix) := by
  intro result same
  obtain ⟨route, found, rest⟩ := Option.bind_eq_some_iff.mp same
  have base : Safe route := safe_withRef (.inl rfl) route found
  split at rest
  · rw [← Option.some.inj rest]
    exact base
  split at rest
  · obtain ⟨month, -, rfl⟩ := Option.map_eq_some_iff.mp rest
    exact ⟨base.ref, base.path⟩
  · obtain ⟨cursor, -, kept⟩ := Option.bind_eq_some_iff.mp rest
    unfold withCursor at kept
    split at kept
    · rw [← Option.some.inj kept]
      exact ⟨base.ref, base.path⟩
    · cases kept

theorem safe_commits : AllSafe (commitsRoute project k target) := by
  unfold commitsRoute
  split
  · rename_i front cursor found
    intro result same
    obtain ⟨route, withs, rest⟩ := Option.bind_eq_some_iff.mp same
    unfold withCursor at withs
    split at withs
    · rw [← Option.some.inj withs] at rest
      exact safe_withRef (.inl rfl) result rest
    · cases withs
  · exact safe_withRef (.inl rfl)

theorem safe_calendar : AllSafe (calendarRoute project target) := by
  unfold calendarRoute
  dsimp only
  split
  · intro result same
    obtain ⟨route, withs, rest⟩ := Option.bind_eq_some_iff.mp same
    obtain ⟨month, -, rfl⟩ := Option.map_eq_some_iff.mp withs
    exact safe_withRef (.inl rfl) result rest
  · exact safe_withRef (.inl rfl)

theorem safe_day : AllSafe (dayRoute project target) := by
  unfold dayRoute
  split
  · exact safe_none
  · split
    · refine safe_bind fun year => safe_bind fun month => safe_bind fun day => ?_
      split
      · exact safe_withRef (.inl rfl)
      · exact safe_none
    · exact safe_none

theorem safe_operation {operation : Bytes} : AllSafe (operationRoute project operation target) := by
  unfold operationRoute
  split
  · split
    · rename_i id
      exact safe_some ⟨objectId_safe id, .inl (.inl rfl)⟩
    · exact safe_none
  split
  · exact safe_ci
  split
  · exact safe_release
  split
  · exact safe_file
  split
  · exact safe_boundary
  · unfold plainRoute
    split
    · exact safe_withRef (.inl rfl)
    split
    · exact safe_commits
    split
    · exact safe_commits
    split
    · exact safe_calendar
    split
    · exact safe_day
    · exact safe_none

theorem safe_route : Safe (parseHttpRoute target) := by
  have bare : ∀ route : Route, route.ref = [] → route.path = [] → Safe route := fun route ref path =>
    ⟨.inl ref, .inl (.inl path)⟩
  have all : AllSafe (targetRoute target) := by
    unfold targetRoute
    split
    · exact safe_none
    split
    · exact safe_some (bare _ rfl rfl)
    split
    · exact safe_some (bare _ rfl rfl)
    · refine safe_bind fun rest => ?_
      unfold projectRoute
      dsimp only
      split
      · exact safe_none
      split
      · exact safe_some (bare _ rfl rfl)
      split
      · exact safe_some (bare _ rfl rfl)
      split
      · exact safe_some (bare _ rfl rfl)
      split
      · exact safe_operation
      · exact safe_none
  unfold parseHttpRoute
  cases found : targetRoute target with
  | none => exact bare _ rfl rfl
  | some route => exact all route found

end

/-- What the links, the segments and the routes keep to. -/
theorem links_lead (project : Bytes) (link : Link) (text encoded target : Bytes) :
    (isValidProjectName project = true → link.Valid → (link.target project).length ≤ kMaximumRouteBytes →
        parseHttpRoute (link.target project) = link.route project)
      ∧ (RouteText text → (encodePathSegment text).length ≤ kMaximumRouteBytes →
        decodePathSegment (encodePathSegment text) = some text)
      ∧ (∀ decoded, decodePathSegment encoded = some decoded → encodePathSegment decoded = encoded)
      ∧ Safe (parseHttpRoute target) :=
  ⟨link_leads, decodePathSegment_encode, fun _ => encode_decodePathSegment, safe_route⟩

def demo : Bytes := ascii "demo"

/-- The calendar of a branch that ends like a month, opened at another month. -/
def endedLink : Link := .calendar (ascii "release/2026/01") (some (2025, 2))

theorem links_lead_ended : parseHttpRoute (endedLink.target demo) = endedLink.route demo := by
  have named : isValidProjectName demo = true := by decide +kernel
  have valid : endedLink.Valid := by
    refine ⟨⟨by decide +kernel, by decide +kernel, by decide +kernel, by decide +kernel⟩, ?_⟩
    rintro year month same
    cases same
    decide
  have fits : (endedLink.target demo).length ≤ kMaximumRouteBytes := by decide +kernel
  exact (links_lead demo endedLink [] [] []).1 named valid fits

/-- A link to a file whose name holds a backslash. -/
def backslashLink : Link := .blob (ascii "heads/main") (ascii "a\\b")

theorem not_links_lead_backslash : ¬ ∀ project ref path, isValidProjectName project = true → validRef ref = true →
    validComponents path false = true → ((Link.blob ref path).target project).length ≤ kMaximumRouteBytes →
    parseHttpRoute ((Link.blob ref path).target project) = (Link.blob ref path).route project := by
  intro all
  have named : isValidProjectName demo = true := by decide +kernel
  have ref : validRef (ascii "heads/main") = true := by decide +kernel
  have path : validComponents (ascii "a\\b") false = true := by decide +kernel
  have fits : (backslashLink.target demo).length ≤ kMaximumRouteBytes := by decide +kernel
  have leads := all demo (ascii "heads/main") (ascii "a\\b") named ref path fits
  have missing : (parseHttpRoute (backslashLink.target demo)).kind = .notFound := by decide +kernel
  have found : (backslashLink.route demo).kind = .blob := rfl
  have same : parseHttpRoute (backslashLink.target demo) = backslashLink.route demo := leads
  rw [same, found] at missing
  cases missing

end CkGit.Web
