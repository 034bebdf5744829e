import CkGit.Events.Reading
import CkGit.Web.Segments

/-!
The links of the pages lead where they say: a ref that the router would read
differently is ended by a colon, and every other one is read back whole.
-/
namespace CkGit.Web
open CkGit.Base CkGit.Ci CkGit.Events

structure Ref (ref : Bytes) : Prop where
  valid : validRef ref = true
  text : RouteText ref

structure Path (path : Bytes) (allow_empty : Bool) : Prop where
  valid : validComponents path allow_empty = true
  text : RouteText path

/-- A link that the pages may build, with a ref and a path that a route may hold. -/
def Link.Valid (link : Link) : Prop :=
  match link with
  | overview ref => Ref ref
  | commit id => isObjectId id = true
  | tree ref path => Ref ref ∧ Path path true
  | blob ref path | source ref path => Ref ref ∧ Path path false
  | raw id path => isObjectId id = true ∧ Path path false
  | calendar ref month => Ref ref ∧ ∀ year number, month = some (year, number) →
      (1 ≤ year ∧ year ≤ 9999) ∧ 1 ≤ number ∧ number ≤ 12
  | commits ref cursor | graph ref cursor => Ref ref ∧ ∀ id, cursor = some id → isObjectId id = true
  | day ref year month number => Ref ref ∧ (1 ≤ year ∧ year ≤ 9999) ∧ (1 ≤ month ∧ month ≤ 12)
      ∧ validDate year month number = true

section
variable {project kind ref path suffix rest id : Bytes}

theorem project_bytes (named : isValidProjectName project = true) :
    ∀ byte ∈ project, isRouteByte byte = true ∧ byte ≠ slash := by
  have each : ∀ n : Fin 256, isNameCharacter (UInt8.ofFin n) = true →
      isRouteByte (UInt8.ofFin n) = true ∧ UInt8.ofFin n ≠ slash := by
    decide +kernel
  exact fun byte member => each byte.toFin
    (List.all_eq_true.mp (isValidProjectName_characters named) byte member)

theorem objectId_bytes (h : isObjectId id = true) :
    ∀ byte ∈ id, unreserved byte = true ∧ isRouteByte byte = true ∧ byte ≠ slash ∧ byte ≤ 0x7f
      ∧ printable byte = true := by
  have each : ∀ n : Fin 256, (isDigit (UInt8.ofFin n)
        || ('a'.toUInt8 ≤ UInt8.ofFin n && UInt8.ofFin n ≤ 'f'.toUInt8)) = true →
      unreserved (UInt8.ofFin n) = true ∧ isRouteByte (UInt8.ofFin n) = true ∧ UInt8.ofFin n ≠ slash
        ∧ UInt8.ofFin n ≤ 0x7f ∧ printable (UInt8.ofFin n) = true := by
    decide +kernel
  intro byte member
  have hex := (Bool.and_eq_true_iff.mp h).2
  exact each byte.toFin (List.all_eq_true.mp hex byte member)

theorem encode_objectId (h : isObjectId id = true) : encodePathSegment id = id := by
  have bytes := objectId_bytes h
  clear h
  induction id with
  | nil => rfl
  | cons byte rest ih =>
    rw [encodePathSegment_cons, encodeByte, if_pos (bytes byte List.mem_cons_self).1,
      ih fun other member => bytes other (List.mem_cons_of_mem _ member)]
    rfl

theorem hasControl_ascii {text : Bytes} (low : ∀ byte ∈ text, byte ≤ 0x7f) : hasControl text = false := by
  fun_induction hasControl text with
  | case1 first second rest ih =>
    have other : (first == 0xc2) = false := by
      refine beq_eq_false_iff_ne.mpr ?_
      rintro rfl
      exact absurd (low 0xc2 List.mem_cons_self) (by decide)
    rw [other, ih fun byte member => low byte (List.mem_cons_of_mem _ member)]
    rfl
  | case2 => rfl

theorem ref_objectId (h : isObjectId id = true) : Ref id := by
  have bytes := objectId_bytes h
  refine ⟨by simp [validRef, h], ?_, ?_, fun byte member => (bytes byte member).2.2.2.2⟩
  · exact isValidUtf8_ascii fun byte member => (bytes byte member).2.2.2.1
  · exact hasControl_ascii fun byte member => (bytes byte member).2.2.2.1

theorem Ref.ne_nil (h : Ref ref) : ref ≠ [] := by
  rintro rfl
  exact absurd h.valid (by decide)

theorem parseFixed_padded {width n minimum maximum : Nat} (positive : 0 < width) (small : n < 10 ^ width)
    (low : minimum ≤ n) (high : n ≤ maximum) : parseFixed (padded width n) width minimum maximum = some n := by
  have digits : (padded width n).all isDigit = true := List.all_eq_true.mpr (padded_digits width n)
  rw [parseFixed, if_pos, padded_value]
  exact ⟨padded_length positive small, digits, by rw [padded_value]; exact low, by rw [padded_value]; exact high⟩

theorem padded_bytes (width n : Nat) : ∀ byte ∈ padded width n, isRouteByte byte = true ∧ byte ≠ slash ∧ byte ≠ colon := by
  have each : ∀ n : Fin 256, isDigit (UInt8.ofFin n) = true →
      isRouteByte (UInt8.ofFin n) = true ∧ UInt8.ofFin n ≠ slash ∧ UInt8.ofFin n ≠ colon := by
    decide +kernel
  exact fun byte member => each byte.toFin (padded_digits width n byte member)

theorem monthOf_suffix {year month : Nat} (years : 1 ≤ year ∧ year ≤ 9999) (months : 1 ≤ month ∧ month ≤ 12) :
    (monthSuffix (year, month)).length = 8 ∧ (monthSuffix (year, month))[0]? = some slash
      ∧ (monthSuffix (year, month))[5]? = some slash ∧ monthOf (monthSuffix (year, month)) = some (year, month) := by
  have four : (padded 4 year).length = 4 := padded_length (by decide) (by omega)
  have two : (padded 2 month).length = 2 := padded_length (by decide) (by omega)
  have first := @parseFixed_padded 4 year 1 9999 (by decide) (by omega) years.1 years.2
  have second := @parseFixed_padded 2 month 1 12 (by decide) (by omega) months.1 months.2
  unfold monthOf monthSuffix
  generalize padded 4 year = y at *
  generalize padded 2 month = m at *
  match y, four, m, two with
  | [a, b, c, d], _, [e, f], _ => simp [first, second]

theorem dateString_parts {year month day : Nat} (years : 1 ≤ year ∧ year ≤ 9999) (months : 1 ≤ month ∧ month ≤ 12)
    (days : 1 ≤ day ∧ day ≤ 31) :
    (dateString year month day).length = 10 ∧ (dateString year month day)[4]? = some hyphen
      ∧ (dateString year month day)[7]? = some hyphen
      ∧ parseFixed ((dateString year month day).take 4) 4 1 9999 = some year
      ∧ parseFixed (((dateString year month day).drop 5).take 2) 2 1 12 = some month
      ∧ parseFixed ((dateString year month day).drop 8) 2 1 31 = some day := by
  have four : (padded 4 year).length = 4 := padded_length (by decide) (by omega)
  have two : (padded 2 month).length = 2 := padded_length (by decide) (by omega)
  have last : (padded 2 day).length = 2 := padded_length (by decide) (by omega)
  have first := @parseFixed_padded 4 year 1 9999 (by decide) (by omega) years.1 years.2
  have second := @parseFixed_padded 2 month 1 12 (by decide) (by omega) months.1 months.2
  have third := @parseFixed_padded 2 day 1 31 (by decide) (by omega) days.1 days.2
  unfold dateString
  generalize padded 4 year = y at *
  generalize padded 2 month = m at *
  generalize padded 2 day = n at *
  match y, four, m, two, n, last with
  | [a, b, c, d], _, [e, f], _, [g, h], _ => simp [first, second, third]

theorem daysOf_le (year : Nat) {month : Nat} (months : 1 ≤ month ∧ month ≤ 12) : daysOf year month ≤ 31 := by
  have february : daysOf year 2 ≤ 29 := by
    unfold daysOf
    dsimp only
    split <;> simp
  have cases : month = 2 ∨ month = 1 ∨ month = 3 ∨ month = 4 ∨ month = 5 ∨ month = 6 ∨ month = 7 ∨ month = 8
      ∨ month = 9 ∨ month = 10 ∨ month = 11 ∨ month = 12 := by omega
  rcases cases with rfl | rfl | rfl | rfl | rfl | rfl | rfl | rfl | rfl | rfl | rfl | rfl
  · omega
  all_goals simp [daysOf]

/-- The target of an operation of a project. -/
def operationUrl (project operation rest : Bytes) : Bytes :=
  ascii "/project/" ++ project ++ slash :: operation ++ slash :: rest

/-- An operation that the router takes as it is. -/
structure Operation (operation : Bytes) : Prop where
  one : slash ∉ operation
  bytes : operation.all isRouteByte = true

theorem targetRoute_operation {operation : Bytes} (named : isValidProjectName project = true)
    (op : Operation operation) (bytes : ∀ byte ∈ rest, isRouteByte byte = true)
    (fits : (operationUrl project operation rest).length ≤ kMaximumRouteBytes) :
    targetRoute (operationUrl project operation rest) = operationRoute project operation rest := by
  have names := project_bytes named
  have whole : operationUrl project operation rest
      = ascii "/project/" ++ (project ++ slash :: (operation ++ slash :: rest)) := by
    simp [operationUrl]
  have starts : expectField (ascii "/project/") (operationUrl project operation rest)
      = some (project ++ slash :: (operation ++ slash :: rest)) := by
    rw [whole, expectField, if_pos (List.isPrefixOf_iff_prefix.mpr (List.prefix_append _ _)), List.drop_left]
  have differs : ∀ other, expectField (ascii "/project/") other = none → operationUrl project operation rest ≠ other := by
    rintro other absent rfl
    rw [starts] at absent
    cases absent
  have clean : (operationUrl project operation rest).any (!isRouteByte ·) = false := by
    rw [List.any_eq_false]
    intro byte member
    have good : isRouteByte byte = true := by
      rw [whole] at member
      simp only [List.mem_append, List.mem_cons] at member
      rcases member with first | inside | rfl | second | rfl | last
      · exact List.all_eq_true.mp (by decide : (ascii "/project/").all isRouteByte = true) byte first
      · exact (names byte inside).1
      · decide
      · exact List.all_eq_true.mp op.bytes byte second
      · decide
      · exact bytes byte last
    simp [good]
  have filled : (operationUrl project operation rest).isEmpty = false := by
    rw [whole]
    rfl
  have short : decide ((operationUrl project operation rest).length > kMaximumRouteBytes) = false :=
    decide_eq_false (Nat.not_lt.mpr fits)
  unfold targetRoute
  rw [filled, short, clean]
  simp only [Bool.or_self, Bool.false_eq_true, if_false, starts, Option.bind_some]
  rw [if_neg (not_or.mpr ⟨differs _ (by decide), differs _ (by decide)⟩), if_neg (differs _ (by decide))]
  unfold projectRoute
  rw [splitFirst_append fun member => (names slash member).2 rfl]
  have inner : ∀ other : Bytes, slash ∉ other → operation ++ slash :: rest ≠ other := by
    rintro other absent rfl
    exact absent (List.mem_append_right _ List.mem_cons_self)
  simp only [named, Bool.not_true, Bool.false_eq_true, if_false]
  rw [if_neg (inner _ (by decide)), if_neg (inner _ (by decide)), splitFirst_append op.one]

theorem withRef_encode {route : Route} (h : Ref ref) (fits : (encodePathSegment ref).length ≤ kMaximumRouteBytes) :
    withRef route (encodePathSegment ref) = some { route with ref } := by
  unfold withRef
  rw [decodePathSegment_encode h.text fits]
  simp [h.valid]

/-- The ref of a route was in its target. -/
theorem withRef_some {route result : Route} {target : Bytes} (h : withRef route target = some result) :
    encodePathSegment result.ref = target := by
  obtain ⟨found, decoded, accepted⟩ := Option.bind_eq_some_iff.mp h
  split at accepted
  · rw [← Option.some.inj accepted]
    exact encode_decodePathSegment decoded
  · cases accepted

theorem fileRoute_encode {k : RouteKind} (r : Ref ref) (p : Path path (k = .tree))
    (raw : k = .raw → isObjectId ref = true)
    (ref_fits : (encodePathSegment ref).length ≤ kMaximumRouteBytes)
    (path_fits : (encodePathSegment path).length ≤ kMaximumRouteBytes) :
    fileRoute project k (encodePathSegment ref ++ colon :: encodePathSegment path)
      = some { kind := k, project, ref, path } := by
  unfold fileRoute
  rw [splitFirst_append (colon_not_mem_encode ref)]
  have single : (encodePathSegment path).contains colon = false := by
    simpa using colon_not_mem_encode path
  have by_id : (decide (k = .raw) && !isObjectId ref) = false := by
    by_cases same : k = .raw
    · simp [raw same]
    · simp [same]
  simp only [single, Bool.false_eq_true, if_false, decodePathSegment_encode r.text ref_fits,
    decodePathSegment_encode p.text path_fits, Option.bind_eq_bind, Option.bind_some, r.valid, p.valid,
    by_id, Bool.not_true, Bool.or_self]

theorem commitsRoute_cursor {k : RouteKind} (r : Ref ref) (i : isObjectId id = true)
    (fits : (encodePathSegment ref).length ≤ kMaximumRouteBytes) :
    commitsRoute project k (encodePathSegment ref ++ before ++ id)
      = some { kind := k, project, ref, cursor := id } := by
  have none_of : id.count slash = 0 :=
    List.count_eq_zero.mpr fun member => (objectId_bytes i slash member).2.2.1 rfl
  have last : splitLast before (encodePathSegment ref ++ before ++ id) = some (encodePathSegment ref, id) := by
    refine @splitLast_append (ascii "before/") (encodePathSegment ref) id slash (@splitLast_none slash _ _ ?_)
    rw [List.count_append, none_of]
    decide
  unfold commitsRoute
  rw [last]
  simp only [withCursor, i, if_true, Option.bind_eq_bind, Option.bind_some]
  exact withRef_encode r fits

/-- A ref that the router reads back from its own spelling. -/
theorem commitsRoute_plain {k : RouteKind} (r : Ref ref)
    (fits : (encodePathSegment ref).length ≤ kMaximumRouteBytes)
    (read : ((commitsRoute project k (encodePathSegment ref)).getD {}).ref = ref) :
    commitsRoute project k (encodePathSegment ref) = some { kind := k, project, ref } := by
  unfold commitsRoute at read ⊢
  split
  · rename_i front cursor found
    rw [found] at read
    cases result : (withCursor { kind := k, project } cursor).bind fun route => withRef route front with
    | none =>
      simp only [Option.bind_eq_bind, result] at read
      exact absurd read.symm r.ne_nil
    | some route =>
      simp only [Option.bind_eq_bind, result, Option.getD_some] at read
      obtain ⟨_, _, withs⟩ := Option.bind_eq_some_iff.mp result
      have same := withRef_some withs
      rw [read] at same
      have whole := splitLast_some found
      rw [same] at whole
      have lengths := congrArg List.length whole
      have eight : before.length = 8 := by decide
      simp only [List.length_append] at lengths
      omega
  · exact withRef_encode r fits

theorem calendarRoute_month {year month : Nat} (r : Ref ref) (years : 1 ≤ year ∧ year ≤ 9999)
    (months : 1 ≤ month ∧ month ≤ 12) (fits : (encodePathSegment ref).length ≤ kMaximumRouteBytes) :
    calendarRoute project (encodePathSegment ref ++ monthSuffix (year, month))
      = some { kind := .calendar, project, ref, year, month } := by
  obtain ⟨eight, first, second, parsed⟩ := monthOf_suffix years months
  have count : (encodePathSegment ref ++ monthSuffix (year, month)).length - 8 = (encodePathSegment ref).length := by
    rw [List.length_append, eight]
    omega
  unfold calendarRoute
  rw [count, List.drop_left, List.take_left]
  rw [if_pos ⟨by rw [List.length_append, eight]; omega, second, first⟩]
  simp only [withMonth, parsed, Option.map_some, Option.bind_eq_bind, Option.bind_some]
  exact withRef_encode r fits

theorem calendarRoute_plain (r : Ref ref) (fits : (encodePathSegment ref).length ≤ kMaximumRouteBytes)
    (read : ((calendarRoute project (encodePathSegment ref)).getD {}).ref = ref) :
    calendarRoute project (encodePathSegment ref) = some { kind := .calendar, project, ref } := by
  unfold calendarRoute at read ⊢
  dsimp only at read ⊢
  split
  · rename_i ends
    rw [if_pos ends] at read
    cases result : (withMonth { kind := .calendar, project }
        ((encodePathSegment ref).drop ((encodePathSegment ref).length - 8))).bind fun route =>
          withRef route ((encodePathSegment ref).take ((encodePathSegment ref).length - 8)) with
    | none =>
      simp only [Option.bind_eq_bind, result] at read
      exact absurd read.symm r.ne_nil
    | some route =>
      simp only [Option.bind_eq_bind, result, Option.getD_some] at read
      obtain ⟨_, _, withs⟩ := Option.bind_eq_some_iff.mp result
      have same := withRef_some withs
      rw [read] at same
      have lengths := congrArg List.length same
      rw [List.length_take] at lengths
      omega
  · exact withRef_encode r fits

theorem dayRoute_date {year month day : Nat} (r : Ref ref) (years : 1 ≤ year ∧ year ≤ 9999)
    (months : 1 ≤ month ∧ month ≤ 12) (dated : validDate year month day = true)
    (fits : (encodePathSegment ref).length ≤ kMaximumRouteBytes) :
    dayRoute project (encodePathSegment ref ++ slash :: dateString year month day)
      = some { kind := .day, project, ref, year, month, day } := by
  have days : 1 ≤ day ∧ day ≤ 31 := by
    simp only [validDate, Bool.and_eq_true, decide_eq_true_eq] at dated
    exact ⟨dated.1, Nat.le_trans dated.2 (daysOf_le year months)⟩
  obtain ⟨ten, first, second, y, m, d⟩ := dateString_parts years months days
  have none_of : (dateString year month day).count slash = 0 := by
    refine List.count_eq_zero.mpr fun member => ?_
    simp only [dateString, List.mem_append, List.mem_cons] at member
    rcases member with (inside | same | inside) | same | inside
    · exact (padded_bytes _ _ slash inside).2.1 rfl
    · exact absurd same (by decide)
    · exact (padded_bytes _ _ slash inside).2.1 rfl
    · exact absurd same (by decide)
    · exact (padded_bytes _ _ slash inside).2.1 rfl
  have last : splitLast [slash] (encodePathSegment ref ++ slash :: dateString year month day)
      = some (encodePathSegment ref, dateString year month day) := by
    have found := @splitLast_append [] (encodePathSegment ref) (dateString year month day) slash
      (@splitLast_none slash _ _ (by rw [List.nil_append, none_of]; decide))
    simpa using found
  unfold dayRoute
  rw [last]
  simp only [ten, first, second, and_self, if_true, y, m, d, Option.bind_eq_bind, Option.bind_some, dated]
  exact withRef_encode r fits

/-- The operations with pages of their own. -/
def Paged (operation : Bytes) : Prop :=
  operation ≠ ascii "commit" ∧ operation ≠ ascii "ci" ∧ operation ≠ ascii "releases"

instance (operation : Bytes) : Decidable (Paged operation) := inferInstanceAs (Decidable (_ ∧ _))

theorem operation_of {operation : Bytes}
    (h : (decide (slash ∉ operation) && operation.all isRouteByte) = true) : Operation operation := by
  rw [Bool.and_eq_true, decide_eq_true_iff] at h
  exact ⟨h.1, h.2⟩

section
variable {operation target : Bytes} {k : RouteKind}

theorem operationRoute_file (paged : Paged operation) (file : fileKind operation = some k) :
    operationRoute project operation target = fileRoute project k target := by
  unfold operationRoute
  rw [if_neg paged.1, if_neg paged.2.1, if_neg paged.2.2, file]

theorem operationRoute_plain (paged : Paged operation) (file : fileKind operation = none)
    (absent : colon ∉ target) : operationRoute project operation target = plainRoute project operation target := by
  unfold operationRoute
  rw [if_neg paged.1, if_neg paged.2.1, if_neg paged.2.2, file, splitFirst_none absent]

theorem operationRoute_boundary (paged : Paged operation) (file : fileKind operation = none)
    (history : historyKind operation = some k) : operationRoute project operation (encodePathSegment ref ++ colon :: suffix)
      = boundaryRoute project k (encodePathSegment ref) suffix := by
  unfold operationRoute
  rw [if_neg paged.1, if_neg paged.2.1, if_neg paged.2.2, file, splitFirst_append (colon_not_mem_encode ref), history]

theorem rest_fits (fits : (operationUrl project operation target).length ≤ kMaximumRouteBytes) :
    target.length ≤ kMaximumRouteBytes := by
  simp only [operationUrl, List.length_append, List.length_cons] at fits
  omega

theorem parse_operation (named : isValidProjectName project = true) (op : Operation operation)
    (bytes : ∀ byte ∈ target, isRouteByte byte = true)
    (fits : (operationUrl project operation target).length ≤ kMaximumRouteBytes) :
    parseHttpRoute (operationUrl project operation target) = (operationRoute project operation target).getD {} := by
  rw [parseHttpRoute, targetRoute_operation named op bytes fits]

theorem encode_append_bytes (clean : ∀ byte ∈ suffix, isRouteByte byte = true) :
    ∀ byte ∈ encodePathSegment ref ++ suffix, isRouteByte byte = true := by
  intro byte member
  rcases List.mem_append.mp member with inside | after
  · exact (encode_bytes byte inside).1
  · exact clean byte after

theorem cons_bytes {first : UInt8} (one : isRouteByte first = true) (clean : ∀ byte ∈ suffix, isRouteByte byte = true) :
    ∀ byte ∈ first :: suffix, isRouteByte byte = true := by
  intro byte member
  rcases List.mem_cons.mp member with rfl | inside
  · exact one
  · exact clean byte inside

theorem operationUrl_append : operationUrl project operation target ++ suffix
    = operationUrl project operation (target ++ suffix) := by
  simp [operationUrl]

/-- A ref is ended by a colon or read back whole. -/
theorem sourceUrl_history (file : fileKind operation = none) (history : historyKind operation = some k) :
    ((parseHttpRoute (operationUrl project operation (encodePathSegment ref))).ref = ref
        ∧ sourceUrl project operation ref [] ++ suffix
          = operationUrl project operation (encodePathSegment ref ++ suffix))
      ∨ sourceUrl project operation ref [] ++ suffix
          = operationUrl project operation (encodePathSegment ref ++ colon :: suffix) := by
  unfold sourceUrl
  simp only [file, history, Option.isSome_none, Option.isSome_some, Bool.false_eq_true, if_false, Bool.true_and]
  by_cases read : (parseHttpRoute (baseUrl project operation ref)).ref = ref
  · refine .inl ⟨read, ?_⟩
    simp only [read, bne_self_eq_false, Bool.false_eq_true, if_false]
    exact operationUrl_append
  · refine .inr ?_
    rw [if_pos (bne_iff_ne.mpr read)]
    show operationUrl project operation (encodePathSegment ref) ++ [colon] ++ suffix = _
    rw [operationUrl_append, operationUrl_append, List.append_assoc]
    rfl

/-- A link with a history leads where its plain and its ended spelling lead. -/
theorem history_leads {route : Route} (named : isValidProjectName project = true) (op : Operation operation)
    (paged : Paged operation) (file : fileKind operation = none) (history : historyKind operation = some k)
    (clean : ∀ byte ∈ suffix, isRouteByte byte = true) (no_colon : colon ∉ suffix)
    (plain : (encodePathSegment ref).length ≤ kMaximumRouteBytes →
      ((plainRoute project operation (encodePathSegment ref)).getD {}).ref = ref →
      plainRoute project operation (encodePathSegment ref ++ suffix) = some route)
    (ended : (encodePathSegment ref).length ≤ kMaximumRouteBytes →
      boundaryRoute project k (encodePathSegment ref) suffix = some route)
    (fits : (sourceUrl project operation ref [] ++ suffix).length ≤ kMaximumRouteBytes) :
    parseHttpRoute (sourceUrl project operation ref [] ++ suffix) = route := by
  rcases @sourceUrl_history project ref suffix operation k file history with ⟨read, same⟩ | same
  · rw [same] at fits ⊢
    have short : (operationUrl project operation (encodePathSegment ref)).length ≤ kMaximumRouteBytes := by
      rw [← operationUrl_append, List.length_append] at fits
      omega
    have absent : colon ∉ encodePathSegment ref ++ suffix := fun member =>
      (List.mem_append.mp member).elim (colon_not_mem_encode ref) no_colon
    rw [parse_operation named op (fun byte member => (encode_bytes byte member).1) short,
      operationRoute_plain paged file (colon_not_mem_encode ref)] at read
    rw [parse_operation named op (encode_append_bytes clean) fits, operationRoute_plain paged file absent,
      plain (rest_fits short) read]
    rfl
  · rw [same] at fits ⊢
    have long := rest_fits fits
    rw [List.length_append] at long
    rw [parse_operation named op (encode_append_bytes (cons_bytes (by decide) clean)) fits,
      operationRoute_boundary paged file history, ended (by omega)]
    rfl

/-- A link to a file. -/
theorem file_leads (named : isValidProjectName project = true) (op : Operation operation) (paged : Paged operation)
    (file : fileKind operation = some k) (r : Ref ref) (p : Path path (k = .tree))
    (raw : k = .raw → isObjectId ref = true)
    (fits : (sourceUrl project operation ref path).length ≤ kMaximumRouteBytes) :
    parseHttpRoute (sourceUrl project operation ref path) = { kind := k, project, ref, path } := by
  have same : sourceUrl project operation ref path
      = operationUrl project operation (encodePathSegment ref ++ colon :: encodePathSegment path) := by
    unfold sourceUrl
    rw [file]
    exact operationUrl_append
  rw [same] at fits ⊢
  have long := rest_fits fits
  rw [List.length_append, List.length_cons] at long
  rw [parse_operation named op (encode_append_bytes (cons_bytes (by decide)
    fun byte member => (encode_bytes byte member).1)) fits, operationRoute_file paged file,
    fileRoute_encode r p raw (by omega) (by omega)]
  rfl

end

theorem monthSuffix_bytes (month : Nat × Nat) :
    (∀ byte ∈ monthSuffix month, isRouteByte byte = true) ∧ colon ∉ monthSuffix month := by
  have each : ∀ byte ∈ monthSuffix month, isRouteByte byte = true ∧ byte ≠ colon := by
    intro byte member
    simp only [monthSuffix, List.cons_append, List.mem_cons, List.mem_append] at member
    rcases member with rfl | inside | rfl | inside
    · decide
    · exact ⟨(padded_bytes _ _ byte inside).1, (padded_bytes _ _ byte inside).2.2⟩
    · decide
    · exact ⟨(padded_bytes _ _ byte inside).1, (padded_bytes _ _ byte inside).2.2⟩
  exact ⟨fun byte member => (each byte member).1, fun member => (each colon member).2 rfl⟩

theorem before_bytes (i : isObjectId id = true) :
    (∀ byte ∈ before ++ id, isRouteByte byte = true) ∧ colon ∉ before ++ id := by
  have each : ∀ byte ∈ before ++ id, isRouteByte byte = true ∧ byte ≠ colon := by
    intro byte member
    rcases List.mem_append.mp member with first | inside
    · have all : before.all (fun byte => isRouteByte byte && byte != colon) = true := by decide
      simpa using List.all_eq_true.mp all byte first
    · refine ⟨(objectId_bytes i byte inside).2.1, ?_⟩
      rintro rfl
      exact absurd (objectId_bytes i colon inside).1 (by decide)
  exact ⟨fun byte member => (each byte member).1, fun member => (each colon member).2 rfl⟩

theorem dateString_bytes (year month day : Nat) :
    (∀ byte ∈ slash :: dateString year month day, isRouteByte byte = true)
      ∧ colon ∉ slash :: dateString year month day := by
  have each : ∀ byte ∈ slash :: dateString year month day, isRouteByte byte = true ∧ byte ≠ colon := by
    intro byte member
    simp only [dateString, List.mem_cons, List.mem_append] at member
    rcases member with rfl | (inside | rfl | inside) | rfl | inside
    · decide
    · exact ⟨(padded_bytes _ _ byte inside).1, (padded_bytes _ _ byte inside).2.2⟩
    · decide
    · exact ⟨(padded_bytes _ _ byte inside).1, (padded_bytes _ _ byte inside).2.2⟩
    · decide
    · exact ⟨(padded_bytes _ _ byte inside).1, (padded_bytes _ _ byte inside).2.2⟩
  exact ⟨fun byte member => (each byte member).1, fun member => (each colon member).2 rfl⟩

theorem calendar_leads {month : Option (Nat × Nat)} (named : isValidProjectName project = true)
    (valid : (Link.calendar ref month).Valid)
    (fits : ((Link.calendar ref month).target project).length ≤ kMaximumRouteBytes) :
    parseHttpRoute ((Link.calendar ref month).target project) = (Link.calendar ref month).route project := by
  obtain ⟨r, months⟩ := valid
  cases month with
  | none =>
    refine @history_leads project ref _ _ .calendar _ named (operation_of (by decide)) (by decide) (by decide) (by decide)
      nofun nofun (fun short read => ?_) (fun short => ?_) fits
    · rw [Option.elim_none, List.append_nil]
      exact calendarRoute_plain r short read
    · simp only [boundaryRoute, withRef_encode r short]
      rfl
  | some month =>
    obtain ⟨year, number⟩ := month
    obtain ⟨years, numbers⟩ := months year number rfl
    have parsed := (monthOf_suffix years numbers).2.2.2
    have filled : (monthSuffix (year, number)).isEmpty = false := rfl
    refine @history_leads project ref _ _ .calendar _ named (operation_of (by decide)) (by decide) (by decide) (by decide)
      (monthSuffix_bytes _).1 (monthSuffix_bytes _).2 (fun short _ => ?_) (fun short => ?_) fits
    · exact calendarRoute_month r years numbers short
    · simp only [boundaryRoute, withRef_encode r short, Option.elim_some, filled, withMonth, parsed]
      rfl

/-- The two pages of commits. -/
theorem commits_leads {operation : Bytes} {k : RouteKind} {cursor : Option Bytes}
    (named : isValidProjectName project = true) (op : Operation operation) (paged : Paged operation)
    (file : fileKind operation = none) (history : historyKind operation = some k) (other : k ≠ .calendar)
    (plain : ∀ target, plainRoute project operation target = commitsRoute project k target) (r : Ref ref)
    (cursors : ∀ id, cursor = some id → isObjectId id = true)
    (fits : (sourceUrl project operation ref [] ++ cursor.elim [] (before ++ ·)).length ≤ kMaximumRouteBytes) :
    parseHttpRoute (sourceUrl project operation ref [] ++ cursor.elim [] (before ++ ·))
      = { kind := k, project, ref, cursor := cursor.getD [] } := by
  cases cursor with
  | none =>
    refine history_leads named op paged file history nofun nofun (fun short read => ?_) (fun short => ?_) fits
    · rw [plain] at read ⊢
      rw [Option.elim_none, List.append_nil]
      exact commitsRoute_plain r short read
    · simp only [boundaryRoute, withRef_encode r short]
      rfl
  | some id =>
    have i := cursors id rfl
    have starts : expectField before (before ++ id) = some id := by
      rw [expectField, if_pos (List.isPrefixOf_iff_prefix.mpr (List.prefix_append _ _)), List.drop_left]
    have filled : (before ++ id).isEmpty = false := rfl
    refine history_leads named op paged file history (before_bytes i).1 (before_bytes i).2 (fun short _ => ?_)
      (fun short => ?_) fits
    · rw [plain, Option.elim_some, ← List.append_assoc]
      exact commitsRoute_cursor r i short
    · simp only [boundaryRoute, withRef_encode r short, Option.elim_some, filled, Option.bind_eq_bind, Option.bind_some,
        Bool.false_eq_true, if_false, if_neg other, starts, withCursor, i, if_true, Option.getD_some]

/-- Every link of the pages leads where it says. -/
theorem link_leads {link : Link} (named : isValidProjectName project = true) (valid : link.Valid)
    (fits : (link.target project).length ≤ kMaximumRouteBytes) :
    parseHttpRoute (link.target project) = link.route project := by
  cases link with
  | overview ref =>
    have short := @rest_fits project (ascii "overview") (encodePathSegment ref) fits
    refine (parse_operation named (operation_of (by decide)) (fun byte member => (encode_bytes byte member).1) fits).trans ?_
    rw [operationRoute_plain (by decide) (by decide) (colon_not_mem_encode ref)]
    show ((withRef { kind := .overview, project } (encodePathSegment ref)).getD {}) = _
    rw [withRef_encode valid short]
    rfl
  | commit id =>
    refine (parse_operation named (operation_of (by decide)) (fun byte member => (encode_bytes byte member).1) fits).trans ?_
    rw [encode_objectId valid]
    unfold operationRoute
    rw [if_pos rfl, if_pos (show isObjectId id = true from valid)]
    rfl
  | tree ref path =>
    exact @file_leads project ref path (ascii "tree") .tree named (operation_of (by decide)) (by decide) (by decide)
      valid.1 valid.2 nofun fits
  | blob ref path =>
    exact @file_leads project ref path (ascii "blob") .blob named (operation_of (by decide)) (by decide) (by decide)
      valid.1 valid.2 nofun fits
  | source ref path =>
    exact @file_leads project ref path (ascii "source") .source named (operation_of (by decide)) (by decide) (by decide)
      valid.1 valid.2 nofun fits
  | raw id path =>
    exact @file_leads project id path (ascii "raw") .raw named (operation_of (by decide)) (by decide) (by decide)
      (ref_objectId valid.1) valid.2 (fun _ => valid.1) fits
  | calendar ref month => exact calendar_leads named valid fits
  | commits ref cursor =>
    exact @commits_leads project ref (ascii "commits") .commits cursor named (operation_of (by decide)) (by decide)
      (by decide) (by decide) nofun (fun _ => rfl) valid.1 valid.2 fits
  | graph ref cursor =>
    exact @commits_leads project ref (ascii "graph") .graph cursor named (operation_of (by decide)) (by decide)
      (by decide) (by decide) nofun (fun _ => rfl) valid.1 valid.2 fits
  | day ref year month number =>
    obtain ⟨r, years, months, dated⟩ := valid
    have same : (Link.day ref year month number).target project
        = operationUrl project (ascii "day") (encodePathSegment ref ++ slash :: dateString year month number) :=
      operationUrl_append
    rw [same] at fits ⊢
    have long := rest_fits fits
    rw [List.length_append] at long
    have clean := dateString_bytes year month number
    rw [parse_operation named (operation_of (by decide)) (encode_append_bytes clean.1) fits,
      operationRoute_plain (by decide) (by decide) fun member =>
        (List.mem_append.mp member).elim (colon_not_mem_encode ref) clean.2]
    show ((dayRoute project _).getD {}) = _
    rw [dayRoute_date r years months dated (by omega)]
    rfl

end
end CkGit.Web
