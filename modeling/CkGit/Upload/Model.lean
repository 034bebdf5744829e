import CkGit.Base.Inevitable
import CkGit.Ci.Names

/-!
# Resumable upload of one staged file

RemoteCiSink::upload (src/common/ci_remote.cpp) sends a file in puts; each put
is served by a process of its own, which runs appendCiStagedUpload
(src/common/ci_results.cpp). The process reads the record and the held length,
and then writes: it removes an outdated part, replaces the record and appends
its bytes, one step each, so several processes of one upload may interleave.
A put may arrive with any part of its bytes, its reply may be lost, and the
client then goes on while the process is still there (`late`). The staging
directory is empty when a lease begins; the checksum is a parameter, and a
write the file system refuses is left out.
-/
namespace CkGit.Upload
open CkGit.Base CkGit.Ci

inductive CiUploadKind where
  | kArtifact
  | kAsset
  | kPages
  deriving DecidableEq, Repr

def kCiPagesUploadName : Bytes := ascii "site"
/-- A chunk of a resumable upload is at most this large. -/
def kMaximumCiUploadChunkBytes : Nat := 4 * 1024 * 1024

def isValidUploadName (kind : CiUploadKind) (name : Bytes) : Bool :=
  match kind with
  | .kPages => name == kCiPagesUploadName
  | .kArtifact | .kAsset => isValidCiArtifactName name && name != ascii "release"

section
variable {Digest : Type} [DecidableEq Digest]

/-- The record file of a staged upload; its kind and name are in its file name. -/
structure Announced (Digest : Type) where
  total : Nat
  sha256 : Digest
  deriving DecidableEq

/-- The `.ini` and `.part` files of one staged upload. -/
structure Staged (Digest : Type) where
  record : Option (Announced Digest) := none
  part : Option Bytes := none
  deriving DecidableEq

def Staged.bytes (s : Staged Digest) : Bytes := s.part.getD []
/-- readMeta's `held`. -/
def Staged.held (s : Staged Digest) : Nat := s.bytes.length

structure PutCommand (Digest : Type) where
  kind : CiUploadKind
  name : Bytes
  total : Nat
  sha256 : Digest
  offset : Nat
  bytes : Bytes
  deriving DecidableEq

inductive Reply where
  | ok (held : Nat)
  | error (message : String)
  deriving DecidableEq, Repr

/-- Where appendCiStagedUpload is: before its checks, about to remove the part
of an earlier upload, about to write the record, about to append. -/
inductive Serving where
  | checking
  | removing
  | recording
  | appending (held : Nat)
  deriving DecidableEq, Repr

/-- A put's process. -/
structure Put (Digest : Type) where
  command : PutCommand Digest
  serving : Serving
  deriving DecidableEq

inductive Served (Digest : Type) where
  | working (put : Put Digest) (staged : Staged Digest)
  | replied (reply : Reply) (staged : Staged Digest)

/-- The checks before anything is read. -/
def PutCommand.refused (max_total : Nat) (c : PutCommand Digest) : Option String :=
  if ¬ isValidUploadName c.kind c.name then some "invalid upload name or checksum"
  else if c.total > max_total then some "the upload exceeds the size cap"
  else if c.bytes.length > kMaximumCiUploadChunkBytes then some "an upload chunk is too large"
  else if c.offset > c.total ∨ c.bytes.length > c.total - c.offset then
    some "an upload chunk runs past the announced size"
  else none

/-- The comparison of the offset with the held length. -/
def PutCommand.compare (c : PutCommand Digest) (held : Nat) (staged : Staged Digest) : Served Digest :=
  if c.offset < held then .replied (.ok held) staged
  else if c.offset > held then
    .replied (.error "an upload chunk skips bytes the server does not hold") staged
  else if c.bytes.isEmpty then .replied (.ok held) staged
  else .working ⟨c, .appending held⟩ staged

/-- One step of appendCiStagedUpload. -/
def Put.serve (max_total : Nat) (put : Put Digest) (staged : Staged Digest) : Served Digest :=
  let c := put.command
  match put.serving with
  | .checking =>
    match c.refused max_total with
    | some message => .replied (.error message) staged
    | none =>
      if staged.record = some ⟨c.total, c.sha256⟩ then c.compare staged.held staged
      else if c.offset ≠ 0 then .replied (.error "an upload must start at offset 0") staged
      else .working ⟨c, .removing⟩ staged
  | .removing => .working ⟨c, .recording⟩ { staged with part := none }
  | .recording => c.compare 0 { staged with record := some ⟨c.total, c.sha256⟩ }
  | .appending held =>
    .replied (.ok (held + c.bytes.length)) { staged with part := some (staged.bytes ++ c.bytes) }

/-- takeStaged's outcome: the stored bytes, the note to record instead of them,
or the exception of a part that cannot be read. -/
inductive Taken where
  | stored (bytes : Bytes)
  | note (message : String)
  | failed (message : String)
  deriving DecidableEq, Repr

def takeStaged (sha256 : Bytes → Digest) (staged : Staged Digest) : Taken :=
  match staged.record with
  | none => .note "the output was never uploaded"
  | some upload =>
    if staged.held ≠ upload.total then .note "the upload was incomplete"
    else
      match staged.part with
      | none => .failed "could not checksum regular file"
      | some bytes =>
        if sha256 bytes ≠ upload.sha256 then .note "the upload failed its checksum"
        else .stored bytes

/-- What one call of RemoteCiSink::upload sends. -/
structure Artifact where
  kind : CiUploadKind
  name : Bytes
  file : Bytes
  valid : isValidUploadName kind name = true

def Artifact.total (u : Artifact) : Nat := u.file.length

/-- Where upload() is: about to send the next chunk or, after a failure, an
empty put at offset 0 that asks for the held length; waiting for that request;
or holding its reply. -/
inductive Phase (Digest : Type) where
  | sending
  | asking
  | waiting (probe : Bool) (put : Put Digest)
  | answered (probe : Bool) (reply : Reply)
  | returned
  | threw

structure World (Digest : Type) where
  offset : Nat := 0
  failures : Nat := 0
  phase : Phase Digest := .sending
  late : List (Put Digest) := []
  staged : Staged Digest := {}

def World.init : World Digest := { offset := 0 }

variable (sha256 : Bytes → Digest) (u : Artifact)

def Artifact.chunk (offset : Nat) : Bytes := (u.file.drop offset).take kMaximumCiUploadChunkBytes

def Artifact.command (offset : Nat) (bytes : Bytes) : PutCommand Digest :=
  ⟨u.kind, u.name, u.total, sha256 u.file, offset, bytes⟩

/-- The end of upload()'s do-while loop. -/
def World.again (w : World Digest) : World Digest :=
  { w with phase := if w.offset < u.total then .sending else .returned }

/-- A request without a usable reply. -/
def World.fail (w : World Digest) : World Digest :=
  { w with failures := w.failures + 1, phase := if w.failures + 1 > 6 then .threw else .asking }

def World.receive (probe : Bool) (reply : Reply) (w : World Digest) : World Digest :=
  match probe, reply with
  | false, .ok held => { w with offset := held, failures := 0 }.again u
  | true, .ok held => { w with offset := held }.again u
  | false, .error _ => w.fail
  | true, .error _ => w.again u

/-- The reply will not come. -/
def World.lose (probe : Bool) (w : World Digest) : World Digest :=
  if probe then w.again u else w.fail

def Put.Writing (put : Put Digest) : Prop := put.serving ≠ .checking

/-- The process the client waits for. -/
def World.current (w : World Digest) : List (Put Digest) :=
  match w.phase with
  | .waiting _ put => [put]
  | _ => []

/-- The processes at work. -/
def World.puts (w : World Digest) : List (Put Digest) := w.current ++ w.late

/-- A put that turns to writing does so while no other one is writing. -/
def Alone (others : List (Put Digest)) : Served Digest → Prop
  | .working _ _ => ∀ other ∈ others, ¬ other.Writing
  | .replied _ _ => True

/-- A put may be served now; `Exclusive` allows it to turn to writing only
while no other put is writing. -/
abbrev Guard (Digest : Type) := Put Digest → List (Put Digest) → Served Digest → Prop

def Unguarded : Guard Digest := fun _ _ _ => True

def Exclusive : Guard Digest := fun put others served => put.Writing ∨ Alone others served

/-- The steps by which puts are served and answered and nothing is lost. -/
inductive Serves (guard : Guard Digest) (cap : Nat) : World Digest → World Digest → Prop where
  | send {w : World Digest} (ready : w.phase = .sending) :
      Serves guard cap w { w with
        phase := .waiting false ⟨u.command sha256 w.offset (u.chunk w.offset), .checking⟩ }
  | ask {w : World Digest} (ready : w.phase = .asking) :
      Serves guard cap w { w with phase := .waiting true ⟨u.command sha256 0 [], .checking⟩ }
  | work {w : World Digest} {probe : Bool} {put next : Put Digest} {staged : Staged Digest}
      (current : w.phase = .waiting probe put)
      (served : put.serve cap w.staged = .working next staged)
      (allowed : guard put w.late (.working next staged)) :
      Serves guard cap w { w with phase := .waiting probe next, staged := staged }
  | answer {w : World Digest} {probe : Bool} {put : Put Digest} {reply : Reply}
      {staged : Staged Digest} (current : w.phase = .waiting probe put)
      (served : put.serve cap w.staged = .replied reply staged) :
      Serves guard cap w { w with phase := .answered probe reply, staged := staged }
  | workLate {w : World Digest} {put next : Put Digest} {before after : List (Put Digest)}
      {staged : Staged Digest} (found : w.late = before ++ put :: after)
      (served : put.serve cap w.staged = .working next staged)
      (allowed : guard put ({ w with late := before ++ after }.puts) (.working next staged)) :
      Serves guard cap w { w with late := before ++ next :: after, staged := staged }
  | answerLate {w : World Digest} {put : Put Digest} {before after : List (Put Digest)}
      {reply : Reply} {staged : Staged Digest} (found : w.late = before ++ put :: after)
      (served : put.serve cap w.staged = .replied reply staged) :
      Serves guard cap w { w with late := before ++ after, staged := staged }
  | receive {w : World Digest} {probe : Bool} {reply : Reply}
      (current : w.phase = .answered probe reply) : Serves guard cap w (w.receive u probe reply)

inductive Step (guard : Guard Digest) (cap : Nat) : World Digest → World Digest → Prop where
  | serves {w v : World Digest} (taken : Serves sha256 u guard cap w v) : Step guard cap w v
  /-- A request arrives with only its first bytes. -/
  | cut {w : World Digest} (length : Nat) (ready : w.phase = .sending) :
      Step guard cap w { w with
        phase := .waiting false
          ⟨u.command sha256 w.offset ((u.chunk w.offset).take length), .checking⟩ }
  /-- A request never arrives. -/
  | dropSend {w : World Digest} (ready : w.phase = .sending) : Step guard cap w w.fail
  | dropAsk {w : World Digest} (ready : w.phase = .asking) : Step guard cap w (w.again u)
  /-- The client stops waiting; the process does not. -/
  | leave {w : World Digest} {probe : Bool} {put : Put Digest}
      (current : w.phase = .waiting probe put) :
      Step guard cap w ({ w with late := put :: w.late }.lose u probe)
  /-- The reply is lost. -/
  | loseReply {w : World Digest} {probe : Bool} {reply : Reply}
      (current : w.phase = .answered probe reply) : Step guard cap w (w.lose u probe)

def Reachable (guard : Guard Digest) (cap : Nat) (w : World Digest) : Prop :=
  Relation.ReflTransGen (Step sha256 u guard cap) .init w

/-- What an upload promises over the runs a guard allows. -/
structure Faithful (guard : Guard Digest) (cap : Nat) : Prop where
  stagedPrefix : ∀ w, Reachable sha256 u guard cap w →
    w.staged.bytes <+: u.file ∧ w.staged.held ≤ min u.total cap
  neverShrinks : ∀ w v, Reachable sha256 u guard cap w → Step sha256 u guard cap w v →
    w.staged.held ≤ v.staged.held
  reportsHeld : ∀ w, Reachable sha256 u guard cap w → ∀ put ∈ w.puts, ∀ held staged,
    put.serve cap w.staged = .replied (.ok held) staged → held = staged.held
  takesWhole : ∀ w, Reachable sha256 u guard cap w → ∀ bytes,
    takeStaged sha256 w.staged = .stored bytes ↔ w.staged.part = some bytes ∧ bytes = u.file
  completes : ∀ w, Reachable sha256 u guard cap w → w.phase ≠ .threw →
    Base.Inevitable (Serves sha256 u guard cap)
      (fun v => v.phase = .returned ∧ v.staged.part = some u.file) w

end

end CkGit.Upload
