import CkGit.Checkouts.Model

/-!
A registered path stays: over every run of registrations and removals, with the
check and the write of a registration apart, a stored path denotes the same
folder until it is forgotten.
-/
namespace CkGit.Checkouts
open CkGit.Base CkGit.Ci
open CkGit.Control (isSafeReportedPath decodeCheckoutPath isValidCheckoutPathToken)

section
variable {store after : Store} {call : Call} {key other : Key} {token path requested reported : Bytes} {epoch : UInt64}

theorem decode_safe (decoded : decodeCheckoutPath token = some path) : isSafeReportedPath path = true := by
  unfold decodeCheckoutPath at decoded
  split at decoded
  · cases decoded
  · exact (Option.filter_eq_some_iff.mp decoded).2

theorem recordText_framed (client_id project path_hex : Bytes) (epoch : UInt64) :
    recordText client_id project path_hex epoch = framed [ascii "schema_version=1", ascii "client_id=" ++ client_id,
      ascii "project=" ++ project, ascii "path_hex=" ++ path_hex, ascii "last_seen_epoch=" ++ decimal epoch.toNat] := by
  have table : ascii "schema_version=1\nclient_id=" = ascii "schema_version=1" ++ newline :: ascii "client_id="
      ∧ ascii "\nproject=" = newline :: ascii "project=" ∧ ascii "\npath_hex=" = newline :: ascii "path_hex="
      ∧ ascii "\nlast_seen_epoch=" = newline :: ascii "last_seen_epoch=" ∧ ascii "\n" = [newline] := by decide
  obtain ⟨h₁, h₂, h₃, h₄, h₅⟩ := table
  unfold recordText
  simp only [h₁, h₂, h₃, h₄, h₅, framed_cons, framed_nil, List.append_assoc, List.cons_append]

/-- A token is the hex of the path it decodes to. -/
theorem decode_spelled (decoded : decodeCheckoutPath token = some path) : token = hexEncode path := by
  unfold decodeCheckoutPath at decoded
  split at decoded
  · cases decoded
  · exact hexPairs_spelled (Option.filter_eq_some_iff.mp decoded).1

theorem record_lines (named : isValidProjectName key.1 = true) (client : isValidClientId key.2 = true)
    (decoded : decodeCheckoutPath token = some path) :
    (recordText key.2 key.1 token epoch).splitOn newline = [ascii "schema_version=1", ascii "client_id=" ++ key.2,
      ascii "project=" ++ key.1, ascii "path_hex=" ++ token, ascii "last_seen_epoch=" ++ decimal epoch.toNat, []] := by
  have clean : ∀ {front back : Bytes}, newline ∉ front → newline ∉ back → newline ∉ front ++ back := by
    intro front back first second
    rw [List.mem_append, not_or]
    exact ⟨first, second⟩
  rw [recordText_framed, splitOn_framed]
  · rfl
  · simp only [List.forall_mem_cons, List.not_mem_nil, false_implies, implies_true, and_true]
    refine ⟨by decide, clean (by decide) (isValidClientId_avoids client),
      clean (by decide) (isValidProjectName_avoids named), clean (by decide) ?_, clean (by decide) (decimal_avoids (by decide))⟩
    rw [decode_spelled decoded]
    exact (hexEncode_avoids path).1

/-- A record is read back as it was written. -/
theorem parseRecord_recordText (named : isValidProjectName key.1 = true) (client : isValidClientId key.2 = true)
    (decoded : decodeCheckoutPath token = some path) :
    parseRecord (recordText key.2 key.1 token epoch) key.1 key.2
      = .ok { client_id := key.2, reported_path := path, last_seen_epoch_seconds := epoch } := by
  have bound : epoch.toNat ≤ 2 ^ 64 - 1 := Nat.le_sub_one_of_lt epoch.toNat_lt
  unfold parseRecord
  rw [record_lines named client decoded]
  simp only [expectField_append, decoded, parseDecimal_decimal bound]
  simp only [bind_ok, rejectIf_ok, pure_ok, not_or, not_not]
  exact ⟨(), trivial, (), ⟨client, trivial, trivial⟩, by simp⟩

/-- A record that a registration wrote. -/
def Written (key : Key) (text : Bytes) : Prop :=
  isValidProjectName key.1 = true ∧ isValidClientId key.2 = true
    ∧ ∃ token path epoch, decodeCheckoutPath token = some path ∧ text = recordText key.2 key.1 token epoch

structure Valid (store : Store) : Prop where
  once : (store.map (·.1)).Nodup
  written : ∀ entry ∈ store, Written entry.1 entry.2

/-- The stored path of a report. -/
def pathAt (store : Store) (key : Key) : Option Bytes :=
  (Assoc.get key store).bind fun text => (parseRecord text key.1 key.2).toOption.map (·.reported_path)

theorem pathAt_publish (named : isValidProjectName key.1 = true) (client : isValidClientId key.2 = true)
    (decoded : decodeCheckoutPath token = some path) : pathAt (publish key token epoch store) key = some path := by
  unfold pathAt publish
  rw [Assoc.get_put, if_pos rfl, Option.bind_some, parseRecord_recordText named client decoded]
  rfl

theorem pathAt_publish_ne (different : key ≠ other) : pathAt (publish key token epoch store) other = pathAt store other := by
  unfold pathAt publish
  rw [Assoc.get_put, if_neg (Ne.symm different)]

theorem pathAt_erase_ne (different : key ≠ other) : pathAt (Assoc.erase key store) other = pathAt store other := by
  unfold pathAt
  rw [Assoc.get_erase, if_neg (Ne.symm different)]

theorem Valid.published (valid : Valid store) (named : isValidProjectName key.1 = true)
    (client : isValidClientId key.2 = true) (decoded : decodeCheckoutPath token = some path) :
    Valid (publish key token epoch store) where
  once := Assoc.nodup_set valid.once key (some _)
  written entry member := by
    rcases List.mem_cons.mp member with rfl | kept
    · exact ⟨named, client, token, path, epoch, decoded, rfl⟩
    · exact valid.written entry (List.mem_of_mem_filter kept)

theorem Valid.erased (valid : Valid store) : Valid (Assoc.erase key store) where
  once := Assoc.nodup_set valid.once key none
  written entry member := valid.written entry (List.mem_of_mem_filter member)

theorem keepReported_ok {held : Bytes} {existing : CheckoutMetadata}
    (decoded : decodeCheckoutPath call.encoded_path = some requested)
    (kept : keepReported call held existing = .ok token) :
    (existing.client_id ≠ call.client_id ∧ token = held) ∨ (existing.client_id = call.client_id
      ∧ sameReportedCheckout existing.reported_path requested = true
      ∧ token = if slash ∉ requested ∧ slash ∈ existing.reported_path then hexEncode existing.reported_path else held) := by
  unfold keepReported at kept
  rw [decoded] at kept
  simp only at kept
  split at kept
  · rename_i different
    exact .inl ⟨different, (pure_ok.mp kept).symm⟩
  · rename_i same
    rw [bind_ok] at kept
    obtain ⟨_, accepted, kept⟩ := kept
    refine .inr ⟨not_not.mp same, not_not.mp (rejectIf_ok.mp accepted), ?_⟩
    split at kept
    · rename_i name
      rw [if_pos name]
      unfold encodeCheckoutPath Listings.encodeCheckoutPath at kept
      cases safe : rejectIf (¬ isSafeReportedPath existing.reported_path)
          "reported checkout path must be printable, valid UTF-8, and at most 256 bytes" with
      | error _ =>
        rw [safe] at kept
        cases kept
      | ok _ =>
        rw [safe] at kept
        exact (Except.ok.inj kept).symm
    · rename_i name
      rw [if_neg name]
      exact (pure_ok.mp kept).symm

/-- The stored reports of the client are one path: it is the same checkout, and it is kept against
a name. -/
theorem keepAll_ok {records : List CheckoutMetadata} {held : Bytes}
    (decoded : decodeCheckoutPath call.encoded_path = some requested)
    (one : ∀ record ∈ records, record.client_id = call.client_id → record.reported_path = reported)
    (kept : records.foldlM (keepReported call) held = .ok token) :
    (token = held ∨ (slash ∉ requested ∧ slash ∈ reported ∧ token = hexEncode reported))
      ∧ ((∃ record ∈ records, record.client_id = call.client_id) → sameReportedCheckout reported requested = true
        ∧ (slash ∉ requested → slash ∈ reported → token = hexEncode reported)) := by
  induction records generalizing held with
  | nil =>
    cases kept
    exact ⟨.inl rfl, fun found => absurd found.choose_spec.1 List.not_mem_nil⟩
  | cons record rest ih =>
    rw [List.foldlM_cons, bind_ok] at kept
    obtain ⟨next, first, later⟩ := kept
    obtain ⟨shape, tail⟩ := ih (fun other member => one other (List.mem_cons_of_mem _ member)) later
    rcases keepReported_ok decoded first with ⟨different, rfl⟩ | ⟨own, same, chosen⟩
    · refine ⟨shape, ?_⟩
      rintro ⟨found, member, matched⟩
      rcases List.mem_cons.mp member with rfl | member
      · exact absurd matched different
      · exact tail ⟨found, member, matched⟩
    · have path := one record List.mem_cons_self own
      rw [path] at same chosen
      by_cases name : slash ∉ requested ∧ slash ∈ reported
      · rw [if_pos name] at chosen
        have result : token = hexEncode reported := by
          rcases shape with rfl | ⟨_, _, result⟩
          · exact chosen
          · exact result
        exact ⟨.inr ⟨name.1, name.2, result⟩, fun _ => ⟨same, fun _ _ => result⟩⟩
      · rw [if_neg name] at chosen
        subst chosen
        exact ⟨shape, fun _ => ⟨same, fun no_slash has_slash => absurd ⟨no_slash, has_slash⟩ name⟩⟩

theorem Valid.record (valid : Valid store) {text : Bytes} (held : Assoc.get key store = some text) :
    ∃ path epoch, parseRecord text key.1 key.2
        = .ok { client_id := key.2, reported_path := path, last_seen_epoch_seconds := epoch }
      ∧ isSafeReportedPath path = true ∧ pathAt store key = some path := by
  obtain ⟨named, client, token, path, epoch, decoded, same⟩ := valid.written (key, text) (Assoc.mem_of_get held)
  have read : parseRecord text key.1 key.2
      = .ok { client_id := key.2, reported_path := path, last_seen_epoch_seconds := epoch } := by
    rw [show text = recordText key.2 key.1 token epoch from same]
    exact parseRecord_recordText named client decoded
  refine ⟨path, epoch, read, decode_safe decoded, ?_⟩
  rw [pathAt, held, Option.bind_some, read]
  rfl

/-- The reports that are loaded are those of the store. -/
theorem Valid.loaded (valid : Valid store) {project : Bytes} {records : List CheckoutMetadata}
    (read : loadCheckoutMetadata store project = .ok records) :
    (∀ record ∈ records, pathAt store (project, record.client_id) = some record.reported_path)
      ∧ ∀ client, (pathAt store (project, client)).isSome → ∃ record ∈ records, record.client_id = client := by
  unfold loadCheckoutMetadata at read
  simp only [bind_ok, pure_ok] at read
  obtain ⟨_, _, found, mapped, rfl⟩ := read
  have each : ∀ entry ∈ store, entry.1.1 = project → ∀ record, parseRecord entry.2 project entry.1.2 = .ok record →
      record.client_id = entry.1.2 ∧ pathAt store entry.1 = some record.reported_path := by
    rintro ⟨⟨owner, client⟩, text⟩ member rfl record parsed
    obtain ⟨path, epoch, read, _, at_key⟩ := valid.record (Assoc.get_of_mem valid.once member)
    cases read.symm.trans parsed
    exact ⟨rfl, at_key⟩
  constructor
  · intro record member
    obtain ⟨entry, listed, parsed⟩ := mapM_origin mapped (List.mem_mergeSort.mp member)
    obtain ⟨inside, own⟩ := List.mem_filter.mp listed
    simp only [bind_ok] at parsed
    obtain ⟨_, _, _, _, parsed⟩ := parsed
    have owner : entry.1.1 = project := of_decide_eq_true own
    obtain ⟨client, at_key⟩ := each entry inside owner record parsed
    rw [client, ← owner]
    exact at_key
  · intro client there
    obtain ⟨path, at_key⟩ := Option.isSome_iff_exists.mp there
    obtain ⟨text, held, _⟩ := Option.bind_eq_some_iff.mp at_key
    have member := Assoc.mem_of_get held
    obtain ⟨record, listed, parsed⟩ := mapM_mem mapped (List.mem_filter.mpr ⟨member, decide_eq_true rfl⟩)
    simp only [bind_ok] at parsed
    obtain ⟨_, _, _, _, parsed⟩ := parsed
    exact ⟨record, List.mem_mergeSort.mpr listed, (each _ member rfl record parsed).1⟩

/-- What a check that passes says: the call is valid, and what it stores is the requested path, or
the stored one against a name. -/
theorem storedPath_ok (valid : Valid store) (keeps : call.replace = false) (checked : storedPath store call = .ok token) :
    isValidProjectName call.project_name = true ∧ isValidClientId call.client_id = true
      ∧ ∃ requested, decodeCheckoutPath call.encoded_path = some requested
        ∧ (∃ path, decodeCheckoutPath token = some path
          ∧ ∀ reported, pathAt store call.key = some reported → sameReportedCheckout reported requested = true
            ∧ path = if slash ∉ requested ∧ slash ∈ reported then reported else requested) := by
  unfold storedPath at checked
  rw [bind_ok] at checked
  obtain ⟨_, form, checked⟩ := checked
  rw [rejectIf_ok, not_or, not_or, not_not, not_not, not_not] at form
  obtain ⟨named, client, decodable⟩ := form
  obtain ⟨requested, decoded⟩ := Option.isSome_iff_exists.mp decodable
  refine ⟨named, client, requested, decoded, ?_⟩
  rw [keeps] at checked
  simp only [Bool.false_eq_true, if_false] at checked
  obtain ⟨records, read, kept⟩ := bind_ok.mp checked
  obtain ⟨sound, complete⟩ := valid.loaded read
  cases there : pathAt store call.key with
  | none =>
    have alone : ∀ record ∈ records, record.client_id = call.client_id → record.reported_path = requested := by
      intro record member own
      have at_key := sound record member
      rw [own, show (call.project_name, call.client_id) = call.key from rfl, there] at at_key
      cases at_key
    obtain ⟨shape, _⟩ := keepAll_ok decoded alone kept
    rcases shape with rfl | ⟨no_slash, has_slash, _⟩
    · exact ⟨requested, decoded, nofun⟩
    · exact absurd has_slash no_slash
  | some reported =>
    have one : ∀ record ∈ records, record.client_id = call.client_id → record.reported_path = reported := by
      intro record member own
      have at_key := sound record member
      rw [own, show (call.project_name, call.client_id) = call.key from rfl, there] at at_key
      exact (Option.some.inj at_key).symm
    obtain ⟨shape, agrees⟩ := keepAll_ok decoded one kept
    obtain ⟨same, holds⟩ := agrees (complete call.client_id (by
      rw [show (call.project_name, call.client_id) = call.key from rfl, there]
      rfl))
    obtain ⟨text, held, _⟩ := Option.bind_eq_some_iff.mp there
    obtain ⟨path, _, _, safe, at_key⟩ := valid.record held
    cases at_key.symm.trans there
    by_cases name : slash ∉ requested ∧ slash ∈ reported
    · rw [holds name.1 name.2]
      refine ⟨reported, (Listings.decode_encoded safe).1, ?_⟩
      intro other found
      cases found
      exact ⟨same, (if_pos name).symm⟩
    · rcases shape with rfl | ⟨no_slash, has_slash, _⟩
      · refine ⟨requested, decoded, ?_⟩
        intro other found
        cases found
        exact ⟨same, (if_neg name).symm⟩
      · exact absurd ⟨no_slash, has_slash⟩ name

/-- Both paths have a slash, one of them only at its end, and they end in the same name. -/
def Slips (reported requested : Bytes) : Prop :=
  slash ∈ reported ∧ slash ∈ requested ∧ isName (normalized reported) ≠ isName (normalized requested)
    ∧ finalComponent (normalized reported) = finalComponent (normalized requested)

/-- A path with a slash is kept by exactly the checks that do not slip. -/
theorem kept_iff (same : sameReportedCheckout reported requested = true) (full : slash ∈ reported)
    (chosen : path = if slash ∉ requested ∧ slash ∈ reported then reported else requested) :
    (slash ∈ path ∧ normalized path = normalized reported) ↔ ¬ Slips reported requested := by
  by_cases name : slash ∈ requested
  · rw [if_neg (fun both => both.1 name)] at chosen
    subst chosen
    constructor
    · rintro ⟨_, equal⟩ ⟨_, _, different, _⟩
      exact different (congrArg isName equal.symm)
    · intro apart
      refine ⟨name, ?_⟩
      unfold sameReportedCheckout at same
      rw [Bool.or_eq_true, beq_iff_eq] at same
      refine (same.resolve_right fun other => ?_).symm
      simp only [Bool.and_eq_true, bne_iff_ne, ne_eq, beq_iff_eq] at other
      exact apart ⟨full, name, other.1.1.1, other.2⟩
  · rw [if_pos ⟨name, full⟩] at chosen
    subst chosen
    exact ⟨fun _ slips => name slips.2.1, fun _ => ⟨full, rfl⟩⟩

theorem storedPath_valid (valid : Valid store) (checked : storedPath store call = .ok token) :
    isValidProjectName call.project_name = true ∧ isValidClientId call.client_id = true
      ∧ ∃ path, decodeCheckoutPath token = some path := by
  cases keeps : call.replace with
  | false =>
    obtain ⟨named, client, _, _, path, decoded, _⟩ := storedPath_ok valid keeps checked
    exact ⟨named, client, path, decoded⟩
  | true =>
    unfold storedPath at checked
    rw [bind_ok, keeps] at checked
    obtain ⟨_, form, checked⟩ := checked
    rw [rejectIf_ok, not_or, not_or, not_not, not_not, not_not] at form
    cases checked
    exact ⟨form.1, form.2.1, Option.isSome_iff_exists.mp form.2.2⟩

/-- A registration is its check and, when that passes, one write. -/
theorem registerCheckout_exec : (registerCheckout call epoch).exec store
    = match storedPath store call with
      | .ok path => (.ok (), publish call.key path epoch store)
      | .error error => (.error error, store) := by
  show (Prog.bind (.reads fun store => storedPath store call) _).exec store = _
  unfold Prog.reads
  cases checked : storedPath store call <;> simp [Prog.bind, Prog.exec, Prog.ofExcept, checked, Prog.modify]

/-- The records, and the calls that passed their check and did not write yet. -/
structure System where
  store : Store
  checked : List (Key × Bytes)

inductive Event where
  | checked (call : Call)
  | refused (call : Call)
  | written (key : Key) (epoch : UInt64)
  | dropped (key : Key)
  | forgotten (key : Key)

inductive Step : System → Event → System → Prop where
  | checked {s : System} {call : Call} {token : Bytes} (passes : storedPath s.store call = .ok token) :
      Step s (.checked call) { s with checked := (call.key, token) :: s.checked }
  | refused {s : System} {call : Call} {error : CheckoutError} (fails : storedPath s.store call = .error error) :
      Step s (.refused call) s
  | written {store : Store} {front back : List (Key × Bytes)} {key : Key} {token : Bytes} {epoch : UInt64} :
      Step ⟨store, front ++ (key, token) :: back⟩ (.written key epoch) ⟨publish key token epoch store, front ++ back⟩
  | dropped {store : Store} {front back : List (Key × Bytes)} {key : Key} {token : Bytes} :
      Step ⟨store, front ++ (key, token) :: back⟩ (.dropped key) ⟨store, front ++ back⟩
  | forgotten {s : System} {key : Key} : Step s (.forgotten key) { s with store := Assoc.erase key s.store }

/-- Forgetting a checkout of a valid project and client takes its record away, in one write. -/
theorem forgetCheckout_exec {project_name client_id : Bytes} (named : isValidProjectName project_name = true)
    (client : isValidClientId client_id = true) :
    (forgetCheckout project_name client_id).exec store
      = (.ok (Assoc.get (project_name, client_id) store).isSome, Assoc.erase (project_name, client_id) store) := by
  show (Prog.bind (.ofExcept _) _).exec store = _
  rw [rejectIf, if_neg (by simp [named, client])]
  show (Prog.bind (.whenever _ _) _).exec store = _
  cases held : Assoc.get (project_name, client_id) store with
  | none =>
    rw [Assoc.erase_absent (Assoc.absent_of_get held)]
    simp [Prog.whenever, held, Prog.bind, Prog.exec, pure]
  | some record => simp [Prog.whenever, held, Prog.bind, Prog.exec, pure, Prog.modify]

theorem forgetCheckout_step {s : System} {project_name client_id : Bytes} {held : Bool} {after : Store}
    (ran : (forgetCheckout project_name client_id).exec s.store = (.ok held, after)) :
    Step s (.forgotten (project_name, client_id)) { s with store := after } := by
  by_cases valid : isValidProjectName project_name = true ∧ isValidClientId client_id = true
  · rw [forgetCheckout_exec valid.1 valid.2] at ran
    cases ran
    exact .forgotten
  · have refused : (forgetCheckout project_name client_id).exec s.store
        = (.error (.invalidArgument "invalid checkout identity"), s.store) := by
      show (Prog.bind (.ofExcept _) _).exec s.store = _
      rw [rejectIf, if_pos (not_and_or.mp valid)]
      rfl
    rw [refused] at ran
    cases ran

inductive Run (condition : System → Event → Prop) : System → List Event → System → Prop where
  | refl {s : System} : Run condition s [] s
  | step {s t u : System} {events : List Event} {event : Event} (earlier : Run condition s events t)
      (step : Step t event u) (met : condition t event) : Run condition s (events ++ [event]) u

/-- The calls for the key come one after the other and keep what they find. -/
structure Sequential (key : Key) (s : System) (event : Event) : Prop where
  keeps : ∀ call, event = .checked call → call.key = key → call.replace = false
  alone : ∀ call, event = .checked call → call.key = key → ∀ entry ∈ s.checked, entry.1 ≠ key

/-- And none reports a bare name with slashes at its end in place of a path, or a path in place of
such a name. -/
structure Meets (key : Key) (s : System) (event : Event) : Prop extends Sequential key s event where
  apart : ∀ call reported requested, event = .checked call → call.key = key → pathAt s.store key = some reported →
    decodeCheckoutPath call.encoded_path = some requested → ¬ Slips reported requested

structure Good (key : Key) (s : System) : Prop where
  valid : Valid s.store
  pending : ∀ entry ∈ s.checked, isValidProjectName entry.1.1 = true ∧ isValidClientId entry.1.2 = true
    ∧ ∃ path, decodeCheckoutPath entry.2 = some path
  one : s.checked.Pairwise fun a b => a.1 = key → b.1 ≠ key
  agrees : ∀ entry ∈ s.checked, entry.1 = key → ∀ path reported, decodeCheckoutPath entry.2 = some path →
    pathAt s.store key = some reported → slash ∈ reported → slash ∈ path ∧ normalized path = normalized reported

theorem without (entry : Key × Bytes) (front back : List (Key × Bytes)) :
    (front ++ back).Sublist (front ++ entry :: back) :=
  (List.sublist_cons_self entry back).append_left front

theorem start_good (key : Key) : Good key ⟨[], []⟩ :=
  ⟨⟨List.nodup_nil, nofun⟩, nofun, .nil, nofun⟩

theorem step_good {s t : System} {event : Event} (good : Good key s) (step : Step s event t) (met : Meets key s event) :
    Good key t := by
  cases step with
  | @checked _ call token passes =>
    obtain ⟨named, client, decodes⟩ := storedPath_valid good.valid passes
    refine ⟨good.valid, fun entry member => ?_, .cons ?_ good.one, fun entry member own path reported decoded there full => ?_⟩
    · rcases List.mem_cons.mp member with rfl | before
      · exact ⟨named, client, decodes⟩
      · exact good.pending entry before
    · exact fun entry member own => met.alone call rfl own entry member
    · rcases List.mem_cons.mp member with rfl | before
      · have keeps := met.keeps call rfl own
        obtain ⟨_, _, requested, asked, found, decoded', chosen⟩ := storedPath_ok good.valid keeps passes
        cases decoded.symm.trans decoded'
        rw [← own] at there
        obtain ⟨same, result⟩ := chosen reported there
        exact (kept_iff same full result).mpr (met.apart call reported requested rfl own (own ▸ there) asked)
      · exact good.agrees entry before own path reported decoded there full
  | refused _ => exact good
  | @written store front back written_key token epoch =>
    obtain ⟨named, client, path, decoded⟩ := good.pending (written_key, token) (by simp)
    have fewer := without (written_key, token) front back
    have pairs := good.one
    rw [List.pairwise_append, List.pairwise_cons] at pairs
    refine ⟨good.valid.published named client decoded, fun entry member => good.pending entry (fewer.subset member),
      good.one.sublist fewer, fun entry member own other reported decoded' there full => ?_⟩
    · have different : written_key ≠ key := by
        rintro rfl
        rcases List.mem_append.mp member with before | after
        · exact pairs.2.2 entry before _ List.mem_cons_self own rfl
        · exact pairs.2.1.1 entry after rfl own
      rw [pathAt_publish_ne different] at there
      exact good.agrees entry (fewer.subset member) own other reported decoded' there full
  | @dropped store front back dropped_key token =>
    have fewer := without (dropped_key, token) front back
    exact ⟨good.valid, fun entry member => good.pending entry (fewer.subset member), good.one.sublist fewer,
      fun entry member => good.agrees entry (fewer.subset member)⟩
  | @forgotten _ erased =>
    refine ⟨good.valid.erased, good.pending, good.one, fun entry member own path reported decoded there full => ?_⟩
    have different : erased ≠ key := by
      rintro rfl
      unfold pathAt at there
      rw [Assoc.get_erase, if_pos rfl] at there
      cases there
    rw [pathAt_erase_ne different] at there
    exact good.agrees entry member own path reported decoded there full

theorem run_good {s t : System} {events : List Event} (good : Good key s) (run : Run (Meets key) s events t) :
    Good key t := by
  induction run with
  | refl => exact good
  | step _ step met ih => exact step_good ih step met

/-- The stored path of the key denotes the folder. -/
def Denotes (key : Key) (reported : Bytes) (s : System) : Prop :=
  ∃ path, pathAt s.store key = some path ∧ slash ∈ path ∧ normalized path = normalized reported

theorem step_denotes {s t : System} {event : Event} (good : Good key s) (step : Step s event t)
    (kept : event ≠ .forgotten key) (denotes : Denotes key reported s) : Denotes key reported t := by
  obtain ⟨path, there, full, same⟩ := denotes
  cases step with
  | checked _ => exact ⟨path, there, full, same⟩
  | refused _ => exact ⟨path, there, full, same⟩
  | @written store front back written_key token epoch =>
    by_cases own : written_key = key
    · subst own
      obtain ⟨named, client, next, decoded⟩ := good.pending (written_key, token) (by simp)
      obtain ⟨full', same'⟩ := good.agrees (written_key, token) (by simp) rfl next path decoded there full
      exact ⟨next, pathAt_publish named client decoded, full', same'.trans same⟩
    · exact ⟨path, (pathAt_publish_ne own).trans there, full, same⟩
  | dropped => exact ⟨path, there, full, same⟩
  | @forgotten _ erased =>
    have different : erased ≠ key := fun equal => kept (equal ▸ rfl)
    exact ⟨path, (pathAt_erase_ne different).trans there, full, same⟩

theorem run_denotes {s t : System} {events : List Event} (good : Good key s) (run : Run (Meets key) s events t)
    (kept : .forgotten key ∉ events) (denotes : Denotes key reported s) : Denotes key reported t := by
  induction run with
  | refl => exact denotes
  | step earlier step met ih =>
    rw [List.mem_append, List.mem_singleton, not_or] at kept
    exact step_denotes (run_good good earlier) step (Ne.symm kept.2) (ih kept.1)

/-- Once a path with a slash is stored for the key, every later stored path denotes the same
folder until it is forgotten. -/
def Stable (key : Key) (condition : System → Event → Prop) : Prop :=
  ∀ s t earlier events reported, Run condition ⟨[], []⟩ earlier s → Run condition s events t →
    pathAt s.store key = some reported → slash ∈ reported → .forgotten key ∉ events → Denotes key reported t

/-- A conflict leaves the records as they were. -/
def ConflictKeeps : Prop :=
  ∀ call epoch store project_name after, (registerCheckout call epoch).exec store = (.error (.conflict project_name), after) →
    after = store

/-- A registration is stable in every run in which no bare name with slashes at its end meets a
path, and a conflict changes nothing. -/
theorem registration_stable (key : Key) : Stable key (Meets key) ∧ ConflictKeeps := by
  refine ⟨fun s t earlier events reported before run stored full kept => ?_, fun call epoch store project after ran => ?_⟩
  · exact run_denotes (run_good (start_good key) before) run kept ⟨reported, stored, full, rfl⟩
  · rw [registerCheckout_exec] at ran
    cases checked : storedPath store call with
    | ok path =>
      rw [checked] at ran
      cases ran
    | error error =>
      rw [checked] at ran
      exact (congrArg Prod.snd ran).symm

end

/-- A registration that is not interrupted. -/
theorem Run.registered {condition : System → Event → Prop} {s : System} {events : List Event} {store : Store} {call : Call}
    {token : Bytes} {epoch : UInt64} (earlier : Run condition s events ⟨store, []⟩)
    (passes : storedPath store call = .ok token) (checked : condition ⟨store, []⟩ (.checked call))
    (written : condition ⟨store, [(call.key, token)]⟩ (.written call.key epoch)) :
    Run condition s (events ++ [.checked call] ++ [.written call.key epoch]) ⟨publish call.key token epoch store, []⟩ :=
  .step (.step earlier (.checked passes) checked) (@Step.written store [] [] call.key token epoch) written

def registered (path : String) : Call :=
  { project_name := ascii "p", client_id := ascii "host", encoded_path := hexEncode (ascii path), replace := false }

def host : Key := (ascii "p", ascii "host")

/-- A path is registered in a store that has nothing. -/
def firstStore : Store := publish (registered "/a/repo").key (hexEncode (ascii "/a/repo")) 7 []

private theorem slip_table :
    (storedPath [] (registered "/a/repo")).toOption = some (hexEncode (ascii "/a/repo"))
      ∧ (storedPath firstStore (registered "repo")).toOption = some (hexEncode (ascii "/a/repo"))
      ∧ (storedPath firstStore (registered "repo/")).toOption = some (hexEncode (ascii "repo/"))
      ∧ pathAt firstStore host = some (ascii "/a/repo")
      ∧ pathAt (publish (registered "repo/").key (hexEncode (ascii "repo/")) 8 firstStore) host = some (ascii "repo/")
      ∧ decodeCheckoutPath (hexEncode (ascii "repo")) = some (ascii "repo")
      ∧ slash ∈ ascii "/a/repo" ∧ slash ∉ ascii "repo"
      ∧ normalized (ascii "repo/") ≠ normalized (ascii "/a/repo") := by
  decide +kernel

private theorem meets_start {call : Call} (keeps : call.replace = false) : Meets host ⟨[], []⟩ (.checked call) where
  keeps other same _ := by
    cases same
    exact keeps
  alone _ _ _ := nofun
  apart _ _ _ _ _ there := by cases there

private theorem meets_name {store : Store} {path : Bytes} (name : slash ∉ path) {call : Call} (keeps : call.replace = false)
    (decoded : decodeCheckoutPath call.encoded_path = some path) : Meets host ⟨store, []⟩ (.checked call) where
  keeps other same _ := by
    cases same
    exact keeps
  alone _ _ _ := nofun
  apart other reported requested same _ _ asked slips := by
    cases same
    cases decoded.symm.trans asked
    exact name slips.2.1

private theorem meets_written {s : System} {key : Key} {epoch : UInt64} : Meets host s (.written key epoch) :=
  ⟨⟨nofun, nofun⟩, nofun⟩

/-- A path, then only its name: the path stays. -/
theorem registration_stable_name :
    Denotes host (ascii "/a/repo") ⟨publish (registered "repo").key (hexEncode (ascii "/a/repo")) 8 firstStore, []⟩ := by
  have first : Run (Meets host) ⟨[], []⟩ _ ⟨firstStore, []⟩ :=
    Run.refl.registered (ok_of_toOption slip_table.1) (meets_start rfl) meets_written
  have second : Run (Meets host) ⟨firstStore, []⟩
      ([] ++ [.checked (registered "repo")] ++ [.written (registered "repo").key 8]) _ :=
    Run.refl.registered (ok_of_toOption slip_table.2.1) (meets_name slip_table.2.2.2.2.2.2.2.1 rfl slip_table.2.2.2.2.2.1)
      meets_written
  refine (registration_stable host).1 _ _ _ _ _ first second slip_table.2.2.2.1 slip_table.2.2.2.2.2.2.1 ?_
  simp

/-- A name with a slash at its end takes the place of the path. -/
theorem not_registration_stable : ¬ ∀ key, Stable key (Sequential key) ∧ ConflictKeeps := by
  intro law
  have alone : ∀ {store : Store} {call : Call}, call.replace = false → Sequential host ⟨store, []⟩ (.checked call) := by
    intro store call keeps
    refine ⟨fun other same _ => ?_, fun _ _ _ => nofun⟩
    cases same
    exact keeps
  have wrote : ∀ {s : System} {key : Key} {epoch : UInt64}, Sequential host s (.written key epoch) := ⟨nofun, nofun⟩
  have first : Run (Sequential host) ⟨[], []⟩ _ ⟨firstStore, []⟩ :=
    Run.refl.registered (ok_of_toOption slip_table.1) (alone rfl) wrote
  have second : Run (Sequential host) ⟨firstStore, []⟩
      ([] ++ [.checked (registered "repo/")] ++ [.written (registered "repo/").key 8]) _ :=
    Run.refl.registered (ok_of_toOption slip_table.2.2.1) (alone rfl) wrote
  have kept := (law host).1 _ _ _ _ _ first second slip_table.2.2.2.1 slip_table.2.2.2.2.2.2.1 (by simp)
  obtain ⟨path, there, _, same⟩ := kept
  cases slip_table.2.2.2.2.1.symm.trans there
  exact slip_table.2.2.2.2.2.2.2.2 same

end CkGit.Checkouts
