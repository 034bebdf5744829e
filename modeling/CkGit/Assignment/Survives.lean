import CkGit.Assignment.Prepared
import CkGit.Ci.JobSize

/-!
A prepared job survives both hops: what a runner reads from the claim response,
and a guest from the assignment made of it, is the job that was described. An
accepted assignment is spelled in one way.
-/
namespace CkGit.Assignment
open CkGit.Base CkGit.Ci CkGit.Workflow
open CkGit.Listings (isValidReleaseTag)
open CkGit.Runner (isLeaseToken isLeaseToken_iff)
open CkGit.Store (CiLease)
open CkGit.Vm (kCiVmControlPayloadMax)

section
variable {prepared : CiPreparedJob} {token : Bytes} {policy : CiRemotePolicy} {protocol : Nat}

theorem Prepared.tag (valid : Prepared prepared) :
    prepared.sentTag.isEmpty = !prepared.is_release
      ∧ (prepared.is_release = true → isValidReleaseTag prepared.sentTag = true)
      ∧ newline ∉ prepared.sentTag ∧ prepared.sentTag.length ≤ 128 := by
  unfold CiPreparedJob.sentTag
  cases released : prepared.is_release with
  | false => simp
  | true =>
    have tag := valid.release released
    have parts := tag
    simp only [isValidReleaseTag, Bool.and_eq_true, decide_eq_true_eq] at parts
    obtain ⟨⟨⟨⟨filled, short⟩, _⟩, _⟩, characters⟩ := parts
    exact ⟨by simpa using filled, fun _ => tag, not_mem_of_all characters (by decide), short⟩

theorem sisterLine_clean {sister : CiResolvedSister} (name : isValidProjectName sister.name = true)
    (commit : isValidObjectId sister.commit = true) : newline ∉ sisterLine sister := by
  apply key_clean (by decide)
  simp only [List.mem_append, List.mem_cons, not_or]
  exact ⟨isValidProjectName_avoids name, by decide, isValidObjectId_avoids commit⟩

theorem flag_clean (value : Bool) : newline ∉ flag value := by
  cases value <;> decide

theorem claimLines_clean (valid : Prepared prepared) (held : isLeaseToken token = true) :
    ∀ line ∈ claimLines prepared token policy protocol, newline ∉ line := by
  have digits : ∀ n, newline ∉ decimal n := fun n => decimal_avoids (by decide)
  have request := valid.request
  obtain ⟨parent, name⟩ := membership_avoids request.membership
  intro line member
  simp only [claimLines, claimHeader, claimTail, List.mem_append, List.mem_cons, List.not_mem_nil, or_false,
    List.mem_map] at member
  rcases member with (rfl | rfl | rfl | rfl | rfl | rfl | rfl | rfl | rfl | rfl | rfl | rfl | rfl | rfl | rfl)
    | ⟨sister, inside, rfl⟩ | rfl | tail
  · split <;> decide
  · exact key_clean (by decide) (isValidCiId_avoids request.id_valid (by decide))
  · exact key_clean (by decide) (isValidProjectName_avoids request.project_valid)
  · exact key_clean (by decide) (hexEncode_avoids _).1
  · exact key_clean (by decide) (isValidObjectId_avoids request.commit_valid)
  · exact key_clean (by decide) (digits _)
  · exact key_clean (by decide) (isLowercaseHex_avoids (isLeaseToken_iff.mp held).2)
  · exact key_clean (by decide) (digits _)
  · exact key_clean (by decide) valid.tag.2.2.1
  · exact key_clean (by decide) (flag_clean _)
  · exact key_clean (by decide) (digits _)
  · exact key_clean (by decide) (digits _)
  · exact key_clean (by decide) (digits _)
  · exact key_clean (by decide) (flag_clean _)
  · exact key_clean (by decide) (digits _)
  · exact sisterLine_clean (valid.named sister inside).1 (valid.sisters sister inside).1
  · exact key_clean (by decide) (hexEncode_avoids _).1
  · split at tail
    · simp only [List.mem_cons, List.not_mem_nil, or_false] at tail
      rcases tail with rfl | rfl
      · exact key_clean (by decide) parent
      · exact key_clean (by decide) name
    · cases tail

theorem claimLines_length : (claimLines prepared token policy protocol).length
    = (if protocol = 2 then 18 else 16) + prepared.sisters.length := by
  simp only [claimLines, claimHeader, claimTail, List.length_append, List.length_cons, List.length_nil,
    List.length_map]
  split <;> simp only [List.length_cons, List.length_nil] <;> omega

theorem key_short {key : String} {value : Bytes} (fixed : (ascii key).length ≤ 20) (short : value.length ≤ 1024) :
    (ascii key ++ value).length ≤ 1044 := by
  rw [List.length_append]
  omega

theorem claimHeader_short (valid : Prepared prepared) (held : isLeaseToken token = true) :
    ∀ line ∈ claimHeader prepared token policy protocol, line.length ≤ 1044 := by
  have request := valid.request
  have unsigned : ∀ n : UInt32, (decimal n.toNat).length ≤ 1024 := fun n => (unsigned_width n).trans (by decide)
  have wide : ∀ n : UInt64, (decimal n.toNat).length ≤ 1024 := fun n => (epoch_width n).trans (by decide)
  have flags : ∀ value, (flag value).length ≤ 1024 := by decide
  have ref : (hexEncode prepared.job.ref).length ≤ 1024 := by
    rw [hexEncode_length]
    have := request.ref_short
    omega
  have lease : token.length ≤ 1024 := by
    rw [(isLeaseToken_iff.mp held).1]
    decide
  have count : (decimal prepared.sisters.length).length ≤ 1024 := by
    have few : (decimal prepared.sisters.length).length ≤ (decimal kMaximumCiSisters).length :=
      decimal_length_mono valid.sisters_few
    exact few.trans (by decide)
  intro line member
  simp only [claimHeader, List.mem_cons, List.not_mem_nil, or_false] at member
  rcases member with rfl | rfl | rfl | rfl | rfl | rfl | rfl | rfl | rfl | rfl | rfl | rfl | rfl | rfl | rfl
  · split <;> decide
  · exact key_short (by decide) ((isValidCiId_length request.id_valid).trans (by decide))
  · exact key_short (by decide) ((isValidProjectName_length request.project_valid).trans (by decide))
  · exact key_short (by decide) ref
  · exact key_short (by decide) ((isValidObjectId_length request.commit_valid).trans (by decide))
  · exact key_short (by decide) (unsigned _)
  · exact key_short (by decide) lease
  · exact key_short (by decide) (unsigned _)
  · exact key_short (by decide) (valid.tag.2.2.2.trans (by decide))
  · exact key_short (by decide) (flags _)
  · exact key_short (by decide) (unsigned _)
  · exact key_short (by decide) (wide _)
  · exact key_short (by decide) (wide _)
  · exact key_short (by decide) (flags _)
  · exact key_short (by decide) count

theorem sisterLine_short {sister : CiResolvedSister} (name : isValidProjectName sister.name = true)
    (commit : isValidObjectId sister.commit = true) : (sisterLine sister).length ≤ 1044 := by
  have first := isValidProjectName_length name
  have second := isValidObjectId_length commit
  apply key_short (by decide)
  rw [List.length_append, List.length_cons]
  omega

/-- Every line but the workflow's is short, and there are at most 33 of them. -/
theorem claim_fits (valid : Prepared prepared) (held : isLeaseToken token = true) :
    (framed (claimLines prepared token policy protocol)).length ≤ kMaximumCiClaimResponseBytes := by
  obtain ⟨parsed, read, -⟩ := valid.workflow
  have text := (parseCiWorkflow_ok read).1
  obtain ⟨parent, name⟩ := validJobMembership_length valid.request.membership
  have head := framed_short (@claimHeader_short prepared token policy protocol valid held)
  have sisters : (framed (prepared.sisters.map sisterLine)).length ≤ prepared.sisters.length * 1045 := by
    have each : ∀ line ∈ prepared.sisters.map sisterLine, line.length ≤ 1044 := by
      intro line member
      obtain ⟨sister, inside, rfl⟩ := List.mem_map.mp member
      exact sisterLine_short (valid.named sister inside).1 (valid.sisters sister inside).1
    simpa using framed_short each
  have tail : (framed (claimTail prepared protocol)).length ≤ 2 * 64 * 1024 + 200 := by
    have sizes : (ascii "workflow_hex=").length = 13 ∧ (ascii "parent_run_id=").length = 14
        ∧ (ascii "workflow_job=").length = 13 := by decide
    have bound : prepared.workflow_text.length ≤ 64 * 1024 := text
    have widest : kMaximumCiArtifactNameBytes = 64 := rfl
    unfold claimTail
    split
    · simp only [framed_cons, framed_nil, List.length_append, List.length_cons, List.length_nil, hexEncode_length,
        sizes]
      omega
    · simp only [framed_cons, framed_nil, List.length_append, List.length_cons, List.length_nil, hexEncode_length,
        sizes]
      omega
  have lines : (claimHeader prepared token policy protocol).length = 15 := rfl
  have few : prepared.sisters.length ≤ 16 := valid.sisters_few
  rw [lines] at head
  rw [claimLines, framed_append, framed_append, List.length_append, List.length_append]
  have room : kMaximumCiClaimResponseBytes = 262144 := rfl
  omega

theorem assign_prepared (valid : Prepared prepared) {parsed : CiWorkflow}
    (assigned : Assigned parsed prepared.job prepared.workflow)
    (carries : protocol = 2 ∨ protocol = 1 ∧ prepared.job.parent_run_id = []) :
    assignWorkflow (decide (protocol = 2)) { (received prepared).job with runs_on := [] } parsed
      = .ok ((received prepared).job, prepared.workflow) := by
  have member := valid.request.membership
  simp only [validJobMembership, Bool.or_eq_true, Bool.and_eq_true, List.isEmpty_iff, bne_iff_ne] at member
  unfold assignWorkflow
  generalize shape : prepared.workflow = workflow at assigned
  cases assigned with
  | whole version alone =>
    have named : prepared.job.workflow_job = [] := by
      rcases member with ⟨-, none⟩ | ⟨⟨child, -⟩, -⟩
      · exact none
      · rw [alone] at child
        cases child
    rw [if_neg (by rw [version]; decide)]
    simp [received, alone, named, rejectIf, shape, version, bind, Except.bind, pure, Except.pure]
  | child version parent selected =>
    obtain ⟨⟨child, other⟩, named⟩ := member.resolve_left fun none => parent none.1
    have second : protocol = 2 := carries.resolve_right fun first => parent first.2
    have job : prepared.job.workflow_job ≠ [] := by
      intro none
      rw [none] at named
      cases named
    have kept := (select_ok selected).1
    rw [if_pos version]
    simp only [bind_ok, pure_ok, rejectIf_ok]
    refine ⟨(), ?_, workflow, selected, ?_⟩
    · simp [received, second, child, other, job]
    · simp [received, shape, kept]

theorem number_word (what : String) (n : UInt64) : number what (decimal n.toNat) = .ok n.toNat :=
  number_decimal (Nat.le_sub_one_of_lt n.toNat_lt)

theorem number_unsigned (what : String) (n : UInt32) : number what (decimal n.toNat) = .ok n.toNat :=
  number_decimal (Nat.le_of_lt (Nat.lt_trans n.toNat_lt (by decide)))

theorem number_count (what : String) {n : Nat} (few : n ≤ kMaximumCiSisters) : number what (decimal n) = .ok n :=
  number_decimal (few.trans (by decide))

theorem flag_read (value : Bool) : (flag value == ascii "1") = value := by
  cases value <;> decide

/-- The sisters follow the header, and the rest follows the sisters. -/
theorem claimLines_at (index : Nat) :
    ((claimLines prepared token policy protocol).drop 15).take prepared.sisters.length
        = prepared.sisters.map sisterLine
      ∧ (claimLines prepared token policy protocol).getD (15 + prepared.sisters.length + index) []
        = (claimTail prepared protocol).getD index [] := by
  have front : (claimHeader prepared token policy protocol).length = 15 := rfl
  constructor
  · rw [claimLines, List.drop_left' front, List.take_left' (by simp)]
  · have after : 15 + prepared.sisters.length + index - 15 = (prepared.sisters.map sisterLine).length + index := by
      rw [List.length_map]
      omega
    rw [claimLines, List.getD_eq_getElem?_getD, List.getElem?_append_right (by omega), front, after,
      List.getElem?_append_right (Nat.le_add_right _ _), Nat.add_sub_cancel_left, ← List.getD_eq_getElem?_getD]

theorem parse_sisters (valid : Prepared prepared) :
    (prepared.sisters.map sisterLine).mapM parseSister
      = .ok (prepared.sisters.map fun sister => { sister with checkout := {} }) := by
  apply mapM_of_forall₂
  rw [List.forall₂_map_left_iff, List.forall₂_map_right_iff, List.forall₂_same]
  exact fun sister member => parseSister_line (valid.named sister member).1 (valid.sisters sister member).1

theorem Prepared.checkouts (valid : Prepared prepared) :
    (prepared.sisters.map fun sister => { sister with checkout := {} }).map (withCheckout prepared.workflow.sisters)
      = prepared.sisters := by
  rw [List.map_map]
  exact (List.map_congr_left fun sister member => (valid.named sister member).2).trans (List.map_id _)

theorem claim_answered : framed (claimLines prepared token policy protocol) ≠ ascii "none\n" := by
  intro same
  have first := congrArg List.head? same
  have letter : (framed (claimLines prepared token policy protocol)).head? = some 'j'.toUInt8 := by
    rw [claimLines, claimHeader]
    split <;> rfl
  rw [letter] at first
  exact absurd first (by decide)

theorem claim_version :
    ((claimLines prepared token policy protocol).head? == some (ascii "job2")) = decide (protocol = 2) := by
  show (some (if protocol = 2 then ascii "job2" else ascii "job") == some (ascii "job2")) = _
  by_cases version : protocol = 2
  · simp [version]
  · rw [if_neg version, decide_eq_false version]
    decide

theorem claim_workflow : finishField "workflow_hex="
    ((claimLines prepared token policy protocol).getD (15 + prepared.sisters.length) [])
      = .ok (hexEncode prepared.workflow_text) := by
  have at_line := (@claimLines_at prepared token policy protocol 0).2
  rw [Nat.add_zero] at at_line
  rw [at_line]
  exact finishField_append _ _

/-- Only protocol 2 carries the child assignment, and without it there is none. -/
theorem claim_membership (valid : Prepared prepared)
    (carries : protocol = 2 ∨ protocol = 1 ∧ prepared.job.parent_run_id = []) :
    (if (claimLines prepared token policy protocol).head? == some (ascii "job2") then
        finishField "parent_run_id="
          ((claimLines prepared token policy protocol).getD (16 + prepared.sisters.length) [])
      else .ok []) = .ok prepared.job.parent_run_id
    ∧ (if (claimLines prepared token policy protocol).head? == some (ascii "job2") then
        finishField "workflow_job="
          ((claimLines prepared token policy protocol).getD (17 + prepared.sisters.length) [])
      else .ok []) = .ok prepared.job.workflow_job := by
  have tail := fun index => (@claimLines_at prepared token policy protocol index).2
  rw [claim_version]
  rcases carries with rfl | ⟨rfl, alone⟩
  · have next : 16 + prepared.sisters.length = 15 + prepared.sisters.length + 1 := by omega
    have last : 17 + prepared.sisters.length = 15 + prepared.sisters.length + 2 := by omega
    rw [if_pos (by decide), if_pos (by decide), next, last, tail, tail]
    exact ⟨finishField_append _ _, finishField_append _ _⟩
  · have member := valid.request.membership
    rw [alone] at member
    simp only [validJobMembership, Bool.or_eq_true, Bool.and_eq_true, List.isEmpty_iff] at member
    have none := (member.resolve_right fun child => by cases child.1.1).2
    rw [if_neg (by decide), if_neg (by decide), alone, none]
    exact ⟨rfl, rfl⟩

theorem Prepared.accepted (valid : Prepared prepared) (held : isLeaseToken token = true) :
    ¬ (¬ isValidCiId prepared.job.job_id ∨ ¬ isValidProjectName prepared.job.project_name
      ∨ ¬ isValidObjectId prepared.job.commit_id ∨ ¬ isLeaseToken token
      ∨ ((!prepared.sentTag.isEmpty) = true ∧ ¬ isValidReleaseTag prepared.sentTag)) := by
  have request := valid.request
  obtain ⟨empty, tag, -⟩ := valid.tag
  rw [empty, Bool.not_not]
  rintro (bad | bad | bad | bad | ⟨released, bad⟩)
  · exact bad request.id_valid
  · exact bad request.project_valid
  · exact bad request.commit_valid
  · exact bad held
  · exact bad (tag released)

/-- A claim response is read as the job that was prepared. -/
theorem parse_claim (valid : Prepared prepared) (held : isLeaseToken token = true)
    (carries : protocol = 2 ∨ protocol = 1 ∧ prepared.job.parent_run_id = []) :
    parseCiClaimResponse (framed (claimLines prepared token policy protocol))
      = .ok (some ⟨received prepared, token, policy⟩) := by
  obtain ⟨parsed, text, assigned⟩ := valid.workflow
  obtain ⟨short, -⟩ := parseCiWorkflow_ok text
  have lines := splitLines_framed (by simp [claimLines, claimHeader])
    (@claimLines_clean prepared token policy protocol valid held)
  have count := @claimLines_length prepared token policy protocol
  have sisters : (((claimLines prepared token policy protocol).drop 15).take prepared.sisters.length).mapM parseSister
      = .ok (prepared.sisters.map fun sister => { sister with checkout := {} }) := by
    rw [(@claimLines_at prepared token policy protocol 0).1]
    exact parse_sisters valid
  obtain ⟨parent, named⟩ := @claim_membership prepared token policy protocol valid carries
  have ref : decodeHex "ref" (hexEncode prepared.job.ref) 512 = .ok prepared.job.ref := by
    rw [decodeHex, hexDecode_hexEncode valid.request.ref_short]
  have workflow : decodeHex "workflow" (hexEncode prepared.workflow_text) kMaximumCiWorkflowBytes
      = .ok prepared.workflow_text := by
    rw [decodeHex, hexDecode_hexEncode short]
  have workflow_read : (parseCiWorkflow prepared.workflow_text).mapError said = .ok parsed := by
    rw [text]
    rfl
  have job := assign_prepared valid assigned carries
  rw [← @claim_version prepared token policy protocol] at job
  rw [parseCiClaimResponse, if_neg claim_answered]
  simp only [bind_ok]
  refine ⟨(), rejectIf_ok.mpr (Nat.not_lt.mpr (claim_fits valid held)), _, lines, (), ?_,
    _, finishField_append _ _, _, finishField_append _ _, _, finishField_append _ _, _, ref,
    _, finishField_append _ _, _, finishField_append _ _, _, number_unsigned _ _,
    _, finishField_append _ _, _, finishField_append _ _, _, number_unsigned _ _,
    _, finishField_append _ _, _, finishField_append _ _,
    _, finishField_append _ _, _, number_unsigned _ _, _, finishField_append _ _, _, number_word _ _,
    _, finishField_append _ _, _, number_word _ _, _, finishField_append _ _,
    _, finishField_append _ _, _, number_count _ valid.sisters_few, (), ?_, _, sisters,
    _, claim_workflow, _, workflow, (), rejectIf_ok.mpr (valid.accepted held), parsed, workflow_read,
    _, parent, _, named, ((received prepared).job, prepared.workflow), ?_, ?_⟩
  · simp only [rejectIf_ok, claim_version, count, decide_eq_true_eq]
    rintro (few | ⟨first, other⟩)
    · exact absurd few (Nat.not_lt.mpr (Nat.le_add_right _ _))
    · exact other (if_neg first)
  · simp only [rejectIf_ok, claim_version, count, decide_eq_true_eq]
    rintro (many | other)
    · exact absurd many (Nat.not_lt.mpr valid.sisters_few)
    · exact other rfl
  · rw [UInt32.ofNat_toNat]
    exact job
  · rw [valid.checkouts, flag_read, flag_read, valid.tag.1, Bool.not_not]
    simp only [UInt32.ofNat_toNat, UInt64.ofNat_toNat]
    rfl

theorem formatCiClaimResponse_ok {lease : CiLease}
    (carries : protocol = 2 ∨ protocol = 1 ∧ prepared.job.parent_run_id = []) :
    formatCiClaimResponse prepared lease policy protocol
      = .ok (framed (claimLines prepared lease.token policy protocol)) := by
  simp only [formatCiClaimResponse, bind_ok, pure_ok, rejectIf_ok]
  refine ⟨(), ?_, (), ?_, trivial⟩
  · rcases carries with rfl | ⟨rfl, -⟩ <;> decide
  · rintro ⟨first, child⟩
    rcases carries with rfl | ⟨-, alone⟩
    · cases first
    · rw [alone] at child
      exact child rfl

theorem unusableToken_held : isLeaseToken unusableToken = true := by decide

end

/-- The payload of an assignment, and what the guest reads from it. -/
theorem assignment_read {prepared : CiPreparedJob} (valid : Prepared prepared) (policy : CiRemotePolicy) :
    ∃ payload, formatCiVmAssignment (received prepared) policy = .ok payload
      ∧ payload.length ≤ kCiVmControlPayloadMax
      ∧ parseCiClaimResponse payload = .ok (some ⟨received prepared, unusableToken, policy.safe⟩)
      ∧ parseCiVmAssignment payload = .ok ⟨received prepared, policy.safe⟩ := by
  have fits := @claim_fits (received prepared) unusableToken policy.safe 2 valid.onward unusableToken_held
  have read := @parse_claim (received prepared) unusableToken policy.safe 2 valid.onward unusableToken_held (.inl rfl)
  rw [received_received] at read
  have written : ∀ policy : CiRemotePolicy, formatCiVmAssignment (received prepared) policy
      = .ok (framed (claimLines (received prepared) unusableToken policy.safe 2)) := by
    intro policy
    simp only [formatCiVmAssignment, bind_ok, pure_ok, rejectIf_ok]
    refine ⟨_, formatCiClaimResponse_ok (.inl rfl), (), ?_, rfl⟩
    exact Nat.not_lt.mpr (@claim_fits (received prepared) unusableToken policy.safe 2 valid.onward unusableToken_held)
  refine ⟨_, written policy, fits, read, ?_⟩
  simp only [parseCiVmAssignment, bind_ok, rejectIf_ok]
  refine ⟨(), Nat.not_lt.mpr fits, _, read, ?_⟩
  simp only [bind_ok, pure_ok, rejectIf_ok]
  refine ⟨(), ?_, _, written policy.safe, (), ?_, trivial⟩
  · rintro (token | network | lease)
    · exact token rfl
    · cases network
    · exact lease rfl
  · exact not_not.mpr rfl

/-- What an accepted payload holds is written as that payload. -/
theorem parseCiVmAssignment_written {payload : Bytes} {assignment : CiVmAssignment}
    (accepted : parseCiVmAssignment payload = .ok assignment) :
    formatCiVmAssignment assignment.prepared assignment.policy = .ok payload := by
  simp only [parseCiVmAssignment, bind_ok] at accepted
  obtain ⟨_, _, parsed, _, accepted⟩ := accepted
  cases parsed with
  | none => cases accepted
  | some remote =>
    simp only [bind_ok, pure_ok, rejectIf_ok] at accepted
    obtain ⟨_, _, written, formatted, _, same, rfl⟩ := accepted
    rw [formatted, not_not.mp same]

/-- A job description survives the claim response and the assignment made of it, and an assignment
has one spelling. -/
theorem job_description_survives {prepared : CiPreparedJob} {lease : CiLease} {policy : CiRemotePolicy}
    {protocol_version : Nat} (valid : Prepared prepared) (held : isLeaseToken lease.token = true)
    (carries : protocol_version = 2 ∨ protocol_version = 1 ∧ prepared.job.parent_run_id = []) :
    (∃ response, formatCiClaimResponse prepared lease policy protocol_version = .ok response
        ∧ parseCiClaimResponse response = .ok (some ⟨received prepared, lease.token, policy⟩))
      ∧ (∃ payload, formatCiVmAssignment (received prepared) policy = .ok payload
        ∧ payload.length ≤ kCiVmControlPayloadMax
        ∧ parseCiClaimResponse payload = .ok (some ⟨received prepared, unusableToken, policy.safe⟩)
        ∧ parseCiVmAssignment payload = .ok ⟨received prepared, policy.safe⟩)
      ∧ ∀ payload other assignment, parseCiVmAssignment payload = .ok assignment →
        parseCiVmAssignment other = .ok assignment → payload = other := by
  refine ⟨⟨_, formatCiClaimResponse_ok carries, parse_claim valid held carries⟩,
    assignment_read valid policy, ?_⟩
  intro payload other assignment first second
  have written := parseCiVmAssignment_written first
  rw [parseCiVmAssignment_written second] at written
  exact (Except.ok.inj written).symm

def childText : Bytes :=
  framed [ascii "version: 2", ascii "sisters:", ascii "  - name: lib", ascii "    depth: 5", ascii "jobs:",
    ascii "  - name: build", ascii "    runs_on: linux", ascii "    steps:", ascii "      - run: make"]

def childWorkflow : CiWorkflow :=
  { version := 2, tags := [ascii "*"], triggers_default_branch := true
    sisters := [{ name := ascii "lib", checkout := { depth := 5 } }]
    jobs := [{ name := ascii "build", steps := [{ script := ascii "make" }], runs_on := [ascii "linux"] }] }

/-- The job of a version 2 workflow, with the sister that its text declares. -/
def childJob : CiPreparedJob :=
  { job := {
      job_id := ascii "child-1", project_name := ascii "app", ref := ascii "refs/heads/main"
      commit_id := List.replicate 40 'a'.toUInt8, client_id := ascii "pusher", attempt := 3
      parent_run_id := ascii "parent-1", workflow_job := ascii "build" }
    workflow_text := childText
    workflow := { childWorkflow with runs_on := [ascii "linux"] }
    is_default_branch := true
    sisters := [{ name := ascii "lib", commit := List.replicate 40 'b'.toUInt8, checkout := { depth := 5 } }] }

private theorem childText_parsed : parseCiWorkflow childText = .ok childWorkflow := by
  have read : (parseCiWorkflow childText).toOption = some childWorkflow := by decide +kernel
  cases parsed : parseCiWorkflow childText with
  | error _ =>
    rw [parsed] at read
    cases read
  | ok workflow =>
    rw [parsed] at read
    exact congrArg Except.ok (Option.some.inj read)

private theorem childJob_prepared : Prepared childJob := by
  have request : ValidRequest childJob.job :=
    ⟨by decide +kernel, by decide +kernel, by decide +kernel, by decide +kernel, by decide +kernel⟩
  have text : parseCiWorkflow childJob.workflow_text = .ok childWorkflow := by
    rw [show childJob.workflow_text = childText from by simp only [childJob]]
    exact childText_parsed
  refine ⟨request, ⟨_, text, .child rfl (by decide +kernel) rfl⟩, ?_, by decide, ?_⟩
  · exact fun released => nomatch released
  · intro sister member
    obtain rfl := List.mem_singleton.mp member
    exact ⟨by decide +kernel, _, List.mem_cons_self, rfl, rfl⟩

def childLease : CiLease := { runner := ascii "runner", token := unusableToken, expires_epoch_seconds := 9 }

def childPolicy : CiRemotePolicy :=
  { timeout_seconds := 1800, max_log_bytes := 1, artifact_max_bytes := 2, allow_network := true, lease_seconds := 60 }

theorem child_description_survives :
    (∃ response, formatCiClaimResponse childJob childLease childPolicy 2 = .ok response
        ∧ parseCiClaimResponse response = .ok (some ⟨received childJob, childLease.token, childPolicy⟩))
      ∧ (∃ payload, formatCiVmAssignment (received childJob) childPolicy = .ok payload
        ∧ payload.length ≤ kCiVmControlPayloadMax
        ∧ parseCiClaimResponse payload = .ok (some ⟨received childJob, unusableToken, childPolicy.safe⟩)
        ∧ parseCiVmAssignment payload = .ok ⟨received childJob, childPolicy.safe⟩)
      ∧ ∀ payload other assignment, parseCiVmAssignment payload = .ok assignment →
        parseCiVmAssignment other = .ok assignment → payload = other :=
  @job_description_survives childJob childLease childPolicy 2 childJob_prepared unusableToken_held (.inl rfl)

/-- The lease of the policy does not reach the guest. -/
theorem lease_not_kept :
    ¬ ∃ payload, formatCiVmAssignment (received childJob) childPolicy = .ok payload
      ∧ parseCiVmAssignment payload = .ok ⟨received childJob, { childPolicy with allow_network := false }⟩ := by
  rintro ⟨payload, written, read⟩
  obtain ⟨other, formatted, -, -, kept⟩ := assignment_read childJob_prepared childPolicy
  rw [written, Except.ok.injEq] at formatted
  rw [← formatted, read, Except.ok.injEq] at kept
  have lease := congrArg (fun assignment => assignment.policy.lease_seconds) kept
  exact absurd lease (by decide)

end CkGit.Assignment
