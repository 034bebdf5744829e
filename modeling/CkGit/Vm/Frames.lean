import CkGit.Base.Framing
import CkGit.Base.Text

/-!
The frames of the CI VM channel (src/common/ci_vm_protocol.cpp): encodeCiVmFrame
and CiVmFrameDecoder. A call returns or throws and leaves the decoder it leaves.
-/
namespace CkGit.Vm
open CkGit.Base

def kCiVmControlPayloadMax : Nat := 256 * 1024
def kCiVmChunkPayloadMax : Nat := 64 * 1024
def kCiVmInputBufferMax : Nat := 512 * 1024
def kHeader : Nat := 9

inductive CiVmFrameType where
  | hello
  | assignment
  | request
  | event
  | chunk
  | done
  | cancel
  | error
  deriving DecidableEq, Repr

def CiVmFrameType.code (type : CiVmFrameType) : UInt8 :=
  match type with
  | .hello => 1
  | .assignment => 2
  | .request => 3
  | .event => 4
  | .chunk => 5
  | .done => 6
  | .cancel => 7
  | .error => 8

/-- The type of a byte that is valid as one. -/
def frameType (byte : UInt8) : Option CiVmFrameType :=
  if byte = 1 then some .hello
  else if byte = 2 then some .assignment
  else if byte = 3 then some .request
  else if byte = 4 then some .event
  else if byte = 5 then some .chunk
  else if byte = 6 then some .done
  else if byte = 7 then some .cancel
  else if byte = 8 then some .error
  else none

def limit (type : CiVmFrameType) : Nat :=
  if type = .chunk then kCiVmChunkPayloadMax else kCiVmControlPayloadMax

structure CiVmFrame where
  type : CiVmFrameType
  payload : Bytes
  deriving DecidableEq, Repr

def magic : Bytes := ascii "CKV1"

def sizeBytes (n : Nat) : Bytes :=
  [24, 16, 8, 0].map fun shift => UInt8.ofNat (n / 2 ^ shift)

def frameBytes (frame : CiVmFrame) : Bytes :=
  magic ++ frame.type.code :: sizeBytes frame.payload.length ++ frame.payload

def encodeCiVmFrame (frame : CiVmFrame) : Except String Bytes :=
  if frame.payload.length > limit frame.type then .error "invalid VM frame"
  else .ok (frameBytes frame)

structure CiVmFrameDecoder where
  input : Bytes := []
  failed : Bool := false
  deriving DecidableEq, Repr

namespace CiVmFrameDecoder

def poisoned : CiVmFrameDecoder := { failed := true }

def feed (bytes : Bytes) (decoder : CiVmFrameDecoder) : Except String Unit × CiVmFrameDecoder :=
  if decoder.failed then (.error "VM frame decoder already failed", decoder)
  else if bytes.length > kCiVmInputBufferMax - decoder.input.length then
    (.error "VM frame input buffer exceeded", poisoned)
  else (.ok (), { decoder with input := decoder.input ++ bytes })

def next (decoder : CiVmFrameDecoder) : Except String (Option CiVmFrame) × CiVmFrameDecoder :=
  let input := decoder.input
  let rejected := (.error "malformed or oversized VM frame", poisoned)
  if decoder.failed then (.error "VM frame decoder already failed", decoder)
  else if input.length < kHeader then (.ok none, decoder)
  else if input.take 4 ≠ magic then rejected
  else
    match frameType (input.getD 4 0) with
    | none => rejected
    | some type =>
      let size := ((input.drop 5).take 4).foldl (fun size byte => size * 256 + byte.toNat) 0
      if size > limit type then rejected
      else if input.length - kHeader < size then (.ok none, decoder)
      else (.ok (some ⟨type, (input.drop kHeader).take size⟩),
        { decoder with input := input.drop (kHeader + size) })

def finish (decoder : CiVmFrameDecoder) : Except String Unit × CiVmFrameDecoder :=
  if decoder.failed then (.error "VM frame decoder already failed", decoder)
  else if decoder.input ≠ [] then (.error "truncated VM frame at EOF", poisoned)
  else (.ok (), decoder)

/-- The frames next() gives until it has none or throws. -/
def drainRounds (rounds : Nat) (decoder : CiVmFrameDecoder) :
    List CiVmFrame × Except String Unit × CiVmFrameDecoder :=
  match rounds, decoder.next with
  | _, (.error error, after) => ([], .error error, after)
  | _, (.ok none, after) => ([], .ok (), after)
  | 0, (.ok (some _), _) => ([], .ok (), decoder)
  | rounds + 1, (.ok (some frame), after) =>
    let (frames, result) := drainRounds rounds after
    (frame :: frames, result)

/-- A frame is taken from the buffer, so no more rounds than bytes. -/
def drain (decoder : CiVmFrameDecoder) : List CiVmFrame × Except String Unit × CiVmFrameDecoder :=
  decoder.drainRounds decoder.input.length

/-- Feeds the pieces, draining after each, until a call throws. -/
def feedAll (pieces : List Bytes) (decoder : CiVmFrameDecoder) :
    List CiVmFrame × Except String Unit × CiVmFrameDecoder :=
  match pieces with
  | [] => ([], .ok (), decoder)
  | piece :: rest =>
    match decoder.feed piece with
    | (.error error, after) => ([], .error error, after)
    | (.ok (), fed) =>
      match fed.drain with
      | (frames, .error error, after) => (frames, .error error, after)
      | (frames, .ok (), after) =>
        let (more, result) := feedAll rest after
        (frames ++ more, result)

end CiVmFrameDecoder
end CkGit.Vm
