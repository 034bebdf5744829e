import CkGit.Vm.Frames
import CkGit.Base.Checks

/-!
The VM frame decoder gives the same frames however the bytes are cut, and what
it does with bytes that are no frames: the header is looked at once its nine
bytes are there.
-/
namespace CkGit.Vm
open CkGit.Base

/-- The type and the size in a header, where they are valid. -/
def headerOf (header : Bytes) : Option (CiVmFrameType × Nat) :=
  if header.take 4 ≠ magic then none
  else
    match frameType (header.getD 4 0) with
    | none => none
    | some type =>
      let size := ((header.drop 5).take 4).foldl (fun size byte => size * 256 + byte.toNat) 0
      if size > limit type then none else some (type, size)

/-- What next() sees at the front of its buffer. -/
def frontOf (input : Bytes) : Front UInt8 CiVmFrame :=
  if input.length < kHeader then .wait
  else
    match headerOf (input.take kHeader) with
    | none => .bad
    | some (type, size) =>
      if (input.drop kHeader).length < size then .wait
      else .frame ⟨type, (input.drop kHeader).take size⟩ ((input.drop kHeader).drop size)

theorem frameType_code (type : CiVmFrameType) : frameType type.code = some type := by
  cases type <;> rfl

theorem code_of_frameType {byte : UInt8} {type : CiVmFrameType} (h : frameType byte = some type) :
    byte = type.code := by
  unfold frameType at h
  repeat' split at h
  all_goals first | (cases h; assumption) | cases h

theorem limit_le (type : CiVmFrameType) : limit type ≤ kCiVmControlPayloadMax := by
  cases type <;> decide

theorem foldl_sizeBytes {n : Nat} (small : n < 2 ^ 32) :
    (sizeBytes n).foldl (fun size byte => size * 256 + byte.toNat) 0 = n := by
  simp only [sizeBytes, List.map_cons, List.map_nil, List.foldl_cons, List.foldl_nil, UInt8.toNat_ofNat']
  omega

theorem sizeBytes_foldl (a b c d : UInt8) :
    sizeBytes ([a, b, c, d].foldl (fun size byte => size * 256 + byte.toNat) 0) = [a, b, c, d] := by
  have ha := a.toNat_lt
  have hb := b.toNat_lt
  have hc := c.toNat_lt
  have hd := d.toNat_lt
  have byte : ∀ {n : Nat} {x : UInt8}, n % 256 = x.toNat → UInt8.ofNat n = x := by
    intro n x same
    apply UInt8.toNat_inj.mp
    rw [UInt8.toNat_ofNat']
    exact same
  simp only [sizeBytes, List.map_cons, List.map_nil, List.foldl_cons, List.foldl_nil]
  congr 1
  · exact byte (by omega)
  congr 1
  · exact byte (by omega)
  congr 1
  · exact byte (by omega)
  congr 1
  exact byte (by omega)

/-- The header of a frame. -/
def headerBytes (type : CiVmFrameType) (size : Nat) : Bytes := magic ++ type.code :: sizeBytes size

theorem headerBytes_length (type : CiVmFrameType) (size : Nat) :
    (headerBytes type size).length = kHeader := rfl

theorem headerOf_headerBytes {type : CiVmFrameType} {size : Nat} (fits : size ≤ limit type) :
    headerOf (headerBytes type size) = some (type, size) := by
  have small : size < 2 ^ 32 := by
    have control := limit_le type
    have bound : kCiVmControlPayloadMax < 2 ^ 32 := by decide
    omega
  have magic_there : (headerBytes type size).take 4 = magic := rfl
  have type_there : (headerBytes type size).getD 4 0 = type.code := rfl
  have size_there : ((headerBytes type size).drop 5).take 4 = sizeBytes size := rfl
  rw [headerOf, if_neg (not_not.mpr magic_there), type_there, frameType_code]
  simp only [size_there, foldl_sizeBytes small]
  rw [if_neg (Nat.not_lt.mpr fits)]

theorem headerBytes_of_headerOf {header : Bytes} {type : CiVmFrameType} {size : Nat}
    (nine : header.length = kHeader) (h : headerOf header = some (type, size)) :
    header = headerBytes type size ∧ size ≤ limit type := by
  match header, nine with
  | [c, k, v, one, t, a, b, x, y], _ =>
    unfold headerOf at h
    split at h
    case isTrue => cases h
    rename_i starts
    split at h
    case h_1 => cases h
    rename_i found known
    simp only at h
    split at h
    case isTrue => cases h
    rename_i fits
    obtain ⟨rfl, rfl⟩ := Prod.mk.inj (Option.some.inj h)
    have magic_there : [c, k, v, one] = magic := not_not.mp starts
    have type_there : t = found.code := code_of_frameType known
    refine ⟨?_, Nat.not_lt.mp fits⟩
    rw [headerBytes, ← magic_there, ← type_there]
    show _ = _ ++ t :: sizeBytes ([a, b, x, y].foldl _ 0)
    rw [sizeBytes_foldl]
    rfl

theorem frontOf_header {header : Bytes} (nine : header.length = kHeader) (body : Bytes) :
    frontOf (header ++ body) = match headerOf header with
      | none => .bad
      | some (type, size) =>
        if body.length < size then .wait else .frame ⟨type, body.take size⟩ (body.drop size) := by
  have enough : ¬ (header ++ body).length < kHeader := by
    rw [List.length_append]
    omega
  rw [frontOf, if_neg enough, List.take_left' nine, List.drop_left' nine]

/-- A buffer that does not wait for its header has one. -/
theorem header_split {input : Bytes} (enough : ¬ input.length < kHeader) :
    ∃ header body, header.length = kHeader ∧ input = header ++ body :=
  ⟨input.take kHeader, input.drop kHeader, List.length_take_of_le (Nat.not_lt.mp enough),
    (List.take_append_drop _ _).symm⟩

theorem frontOf_frame {input rest : Bytes} {frame : CiVmFrame} (h : frontOf input = .frame frame rest) :
    frame.payload.length ≤ limit frame.type ∧ input = frameBytes frame ++ rest := by
  by_cases short : input.length < kHeader
  · rw [frontOf, if_pos short] at h
    cases h
  obtain ⟨header, body, nine, rfl⟩ := header_split short
  rw [frontOf_header nine] at h
  cases known : headerOf header with
  | none =>
    rw [known] at h
    cases h
  | some found =>
    obtain ⟨type, size⟩ := found
    obtain ⟨rfl, fits⟩ := headerBytes_of_headerOf nine known
    simp only [known] at h
    split at h
    case isTrue => cases h
    rename_i whole
    obtain ⟨rfl, rfl⟩ := Front.frame.inj h
    have length : (body.take size).length = size := List.length_take_of_le (Nat.not_lt.mp whole)
    refine ⟨by rwa [length], ?_⟩
    rw [frameBytes, length, List.append_assoc, List.append_assoc]
    show headerBytes type size ++ body = headerBytes type size ++ _
    rw [List.take_append_drop]

theorem frontOf_frameBytes {frame : CiVmFrame} (fits : frame.payload.length ≤ limit frame.type)
    (more : Bytes) : frontOf (frameBytes frame ++ more) = .frame frame more := by
  have split : frameBytes frame ++ more
      = headerBytes frame.type frame.payload.length ++ (frame.payload ++ more) := by
    rw [frameBytes, headerBytes, List.append_assoc]
  have whole : ¬ (frame.payload ++ more).length < frame.payload.length := by
    rw [List.length_append]
    omega
  rw [split, frontOf_header (headerBytes_length _ _), headerOf_headerBytes fits]
  simp only [if_neg whole, List.take_left, List.drop_left]

theorem frontOf_bad {input : Bytes} (h : frontOf input = .bad) :
    ∃ header body, header.length = kHeader ∧ input = header ++ body ∧ headerOf header = none := by
  by_cases short : input.length < kHeader
  · rw [frontOf, if_pos short] at h
    cases h
  obtain ⟨header, body, nine, rfl⟩ := header_split short
  refine ⟨header, body, nine, rfl, ?_⟩
  rw [frontOf_header nine] at h
  cases known : headerOf header with
  | none => rfl
  | some found =>
    simp only [known] at h
    split at h <;> cases h

theorem frontOf_bad_append {input : Bytes} (h : frontOf input = .bad) (more : Bytes) :
    frontOf (input ++ more) = .bad := by
  obtain ⟨header, body, nine, rfl, bad⟩ := frontOf_bad h
  rw [List.append_assoc, frontOf_header nine, bad]

/-- A buffer that waits is short, and goes on to a frame once its header is there. -/
theorem frontOf_wait {input : Bytes} (h : frontOf input = .wait) :
    input.length < kHeader + kCiVmControlPayloadMax
      ∧ (kHeader ≤ input.length → ∃ frame more, frame.payload.length ≤ limit frame.type
        ∧ input ++ more = frameBytes frame) := by
  by_cases short : input.length < kHeader
  · exact ⟨Nat.lt_add_right _ short, fun enough => absurd short (Nat.not_lt.mpr enough)⟩
  obtain ⟨header, body, nine, rfl⟩ := header_split short
  rw [frontOf_header nine] at h
  cases known : headerOf header with
  | none =>
    rw [known] at h
    cases h
  | some found =>
    obtain ⟨type, size⟩ := found
    obtain ⟨rfl, fits⟩ := headerBytes_of_headerOf nine known
    simp only [known] at h
    split at h
    case isFalse => cases h
    rename_i part
    have control := limit_le type
    have filled : (body ++ List.replicate (size - body.length) 0).length = size := by
      rw [List.length_append, List.length_replicate]
      omega
    constructor
    · rw [List.length_append]
      omega
    · intro _
      refine ⟨⟨type, body ++ List.replicate (size - body.length) 0⟩,
        List.replicate (size - body.length) 0, by rwa [filled], ?_⟩
      rw [frameBytes, filled, List.append_assoc]
      rfl

def frames : Reader UInt8 CiVmFrame where
  read := frontOf
  shrinks := by
    intro input frame rest h
    rw [(frontOf_frame h).2, frameBytes, List.length_append, List.length_append, List.length_append]
    have start : 0 < magic.length := by decide
    omega
  frame_append := by
    intro input frame rest h more
    obtain ⟨fits, rfl⟩ := frontOf_frame h
    rw [List.append_assoc]
    exact frontOf_frameBytes fits _
  bad_append := frontOf_bad_append

def coding : Reader.Encoding frames where
  Valid frame := frame.payload.length ≤ limit frame.type
  encode := frameBytes
  reads := frontOf_frameBytes
  only := frontOf_frame
  nothing := rfl

namespace CiVmFrameDecoder

theorem next_eq (input : Bytes) : next { input } = match frontOf input with
    | .wait => (.ok none, { input })
    | .bad => (.error "malformed or oversized VM frame", poisoned)
    | .frame frame rest => (.ok (some frame), { input := rest }) := by
  by_cases short : input.length < kHeader
  · rw [frontOf, if_pos short]
    simp [next, short]
  obtain ⟨header, body, nine, rfl⟩ := header_split short
  have first : (header ++ body).take 4 = header.take 4 := by
    rw [List.take_append_of_le_length (by rw [nine]; decide)]
  have fifth : (header ++ body).getD 4 0 = header.getD 4 0 := by
    rw [List.getD_eq_getElem?_getD, List.getD_eq_getElem?_getD,
      List.getElem?_append_left (by rw [nine]; decide)]
  have sized : ((header ++ body).drop 5).take 4 = (header.drop 5).take 4 := by
    rw [List.drop_append_of_le_length (by rw [nine]; decide), List.take_append_of_le_length]
    rw [List.length_drop, nine]
    decide
  have behind : (header ++ body).length - kHeader = body.length := by
    rw [List.length_append]
    omega
  have after : ∀ size, (header ++ body).drop (kHeader + size) = body.drop size := by
    intro size
    rw [← nine, List.drop_length_add_append]
  rw [frontOf_header nine, headerOf]
  simp only [next, short, first, fifth, sized, behind, after, List.drop_left' nine, if_false,
    Bool.false_eq_true]
  by_cases starts : header.take 4 = magic
  · rw [if_neg (not_not.mpr starts), if_neg (not_not.mpr starts)]
    cases frameType (header.getD 4 0) with
    | none => rfl
    | some type =>
      simp only
      by_cases large : ((header.drop 5).take 4).foldl (fun size byte => size * 256 + byte.toNat) 0
          > limit type
      · rw [if_pos large, if_pos large]
      · rw [if_neg large, if_neg large]
        simp only
        split <;> rfl
  · rw [if_pos starts, if_pos starts]

/-- What a drained decoder leaves. -/
def settled (left : Option Bytes) : Except String Unit × CiVmFrameDecoder :=
  match left with
  | some input => (.ok (), { input })
  | none => (.error "malformed or oversized VM frame", poisoned)

theorem drainRounds_splits {input : Bytes} {found : List CiVmFrame} {left : Option Bytes}
    (h : frames.Splits input found left) {rounds : Nat} (enough : input.length ≤ rounds) :
    drainRounds rounds { input } = (found, settled left) := by
  induction h generalizing rounds with
  | @wait input read =>
    have next_wait := next_eq input
    rw [show frontOf input = .wait from read] at next_wait
    unfold drainRounds
    rw [next_wait]
    rfl
  | @bad input read =>
    have next_bad := next_eq input
    rw [show frontOf input = .bad from read] at next_bad
    unfold drainRounds
    rw [next_bad]
    rfl
  | @frame input frame rest found left read _ ih =>
    have next_frame := next_eq input
    rw [show frontOf input = .frame frame rest from read] at next_frame
    have shorter := frames.shrinks read
    cases rounds with
    | zero => omega
    | succ rounds =>
      unfold drainRounds
      rw [next_frame]
      simp only [ih (by omega : rest.length ≤ rounds)]

theorem feedAll_splits {pieces : List Bytes} {rest : Bytes} {found : List CiVmFrame}
    {left : Option Bytes} (small : ∀ piece ∈ pieces, piece.length ≤ kCiVmChunkPayloadMax)
    (waits : frontOf rest = .wait) (h : frames.Splits (rest ++ pieces.flatten) found left) :
    feedAll pieces { input := rest } = (found, settled left) := by
  induction pieces generalizing rest found left with
  | nil =>
    rw [List.flatten_nil, List.append_nil] at h
    obtain ⟨rfl, rfl⟩ := h.unique (.wait waits)
    rfl
  | cons piece pieces ih =>
    have room : ¬ piece.length > kCiVmInputBufferMax - rest.length := by
      have held := (frontOf_wait waits).1
      have fed := small piece List.mem_cons_self
      have sizes : kHeader + kCiVmControlPayloadMax + kCiVmChunkPayloadMax ≤ kCiVmInputBufferMax := by
        decide
      omega
    have fed : feed piece { input := rest } = (.ok (), { input := rest ++ piece }) := by
      simp [feed, room]
    obtain ⟨first, middle, g⟩ := @Reader.Splits.of_read _ _ frames (rest ++ piece)
    have drained : drain { input := rest ++ piece } = (first, settled middle) :=
      drainRounds_splits g (Nat.le_refl _)
    rw [List.flatten_cons, ← List.append_assoc] at h
    unfold feedAll
    rw [fed]
    simp only
    rw [drained]
    cases middle with
    | none =>
      obtain ⟨rfl, rfl⟩ := h.unique (g.stuck rfl _)
      rfl
    | some held =>
      obtain ⟨later, last, further⟩ := @Reader.Splits.of_read _ _ frames (held ++ pieces.flatten)
      obtain ⟨rfl, rfl⟩ := h.unique (g.resume rfl further)
      have continued := ih (fun other member => small other (List.mem_cons_of_mem _ member))
        (g.waits rfl) further
      simp only [settled]
      rw [continued]
      rfl

end CiVmFrameDecoder

theorem encodeCiVmFrame_ok {frame : CiVmFrame} {bytes : Bytes} :
    encodeCiVmFrame frame = .ok bytes ↔ coding.Valid frame ∧ frameBytes frame = bytes := by
  unfold encodeCiVmFrame
  split
  · rename_i large
    exact ⟨nofun, fun valid => absurd valid.1 (Nat.not_le.mpr large)⟩
  · rename_i fits
    rw [Except.ok.injEq]
    exact ⟨fun same => ⟨Nat.not_lt.mp fits, same⟩, And.right⟩

theorem encoded_frames {whole : List CiVmFrame} {encoded : List Bytes}
    (h : whole.mapM encodeCiVmFrame = .ok encoded) :
    encoded = whole.map frameBytes ∧ ∀ frame ∈ whole, coding.Valid frame := by
  have each := mapM_ok h
  clear h
  induction each with
  | nil => exact ⟨rfl, nofun⟩
  | cons first _ ih =>
    obtain ⟨valid, rfl⟩ := encodeCiVmFrame_ok.mp first
    exact ⟨by rw [ih.1, List.map_cons], List.forall_mem_cons.mpr ⟨valid, ih.2⟩⟩

theorem flatten_frameBytes (whole : List CiVmFrame) :
    (whole.map frameBytes).flatten = coding.encodeAll whole := (List.flatMap_def ..).symm

theorem encode_valid {whole : List CiVmFrame} (valid : ∀ frame ∈ whole, coding.Valid frame) :
    whole.mapM encodeCiVmFrame = .ok (whole.map frameBytes) := by
  apply mapM_of_forall₂
  rw [List.forall₂_map_right_iff, List.forall₂_same]
  exact fun frame member => encodeCiVmFrame_ok.mpr ⟨valid frame member, rfl⟩

/-- The start of a concatenation of encoded frames. -/
def IsStart (bytes : Bytes) : Prop :=
  ∃ (whole : List CiVmFrame) (encoded : List Bytes) (more : Bytes),
    whole.mapM encodeCiVmFrame = .ok encoded ∧ bytes ++ more = encoded.flatten

/-- A buffer that waits without being the start of a frame has no whole header. -/
theorem short_of_wait {done : List CiVmFrame} (valid : ∀ frame ∈ done, coding.Valid frame) {tail : Bytes}
    (waits : frontOf tail = .wait) (odd : ¬ IsStart (coding.encodeAll done ++ tail)) :
    tail ≠ [] ∧ tail.length < kHeader := by
  constructor
  · rintro rfl
    apply odd
    refine ⟨done, _, [], encode_valid valid, ?_⟩
    rw [List.append_nil, List.append_nil, flatten_frameBytes]
  · by_contra whole
    obtain ⟨frame, more, fits, split⟩ := (frontOf_wait waits).2 (Nat.not_lt.mp whole)
    apply odd
    refine ⟨done ++ [frame], _, more, encode_valid fun other member => ?_, ?_⟩
    · rcases List.mem_append.mp member with old | new
      · exact valid other old
      · exact List.mem_singleton.mp new ▸ fits
    · rw [List.append_assoc, split, flatten_frameBytes, Reader.Encoding.encodeAll,
        Reader.Encoding.encodeAll, List.flatMap_append, List.flatMap_singleton]
      rfl

open CiVmFrameDecoder in
/-- Any cut of their encodings, or of a start of them, gives exactly the frames that lie in it whole.
Bytes that are no frames give the frames before the first bad header, and nothing works once its
nine bytes are there; with fewer there, nothing more comes and the end is refused. -/
theorem frames_chunked (pieces : List Bytes)
    (small : ∀ piece ∈ pieces, piece.length ≤ kCiVmChunkPayloadMax) :
    (∀ (whole : List CiVmFrame) encoded more, whole.mapM encodeCiVmFrame = .ok encoded →
      pieces.flatten ++ more = encoded.flatten →
      ∃ found decoder, feedAll pieces {} = (found, .ok (), decoder) ∧ found <+: whole
        ∧ (∀ count ≤ whole.length, count ≤ found.length ↔ (encoded.take count).flatten <+: pieces.flatten)
        ∧ (decoder.finish.1 = .ok () ↔ ∃ count, pieces.flatten = (encoded.take count).flatten))
    ∧ (¬ IsStart pieces.flatten → ∃ (found : List CiVmFrame) (encoded : List Bytes) (tail : Bytes),
      found.mapM encodeCiVmFrame = .ok encoded
      ∧ pieces.flatten = encoded.flatten ++ tail
      ∧ ((kHeader ≤ tail.length ∧ headerOf (tail.take kHeader) = none
          ∧ ∃ error, feedAll pieces {} = (found, .error error, poisoned))
        ∨ (tail.length < kHeader ∧ ∃ decoder error, feedAll pieces {} = (found, .ok (), decoder)
          ∧ decoder.finish = (.error error, poisoned))))
    ∧ ∀ bytes, ∃ error, feed bytes poisoned = (.error error, poisoned)
      ∧ poisoned.next = (.error error, poisoned) ∧ poisoned.finish = (.error error, poisoned) := by
  have start : ∀ {found left}, frames.Splits pieces.flatten found left →
      feedAll pieces {} = (found, settled left) :=
    fun h => @feedAll_splits pieces [] _ _ small rfl h
  refine ⟨?_, ?_, fun bytes => ⟨_, rfl, rfl, rfl⟩⟩
  · intro whole encoded more written part
    obtain ⟨rfl, valid⟩ := encoded_frames written
    rw [flatten_frameBytes] at part
    obtain ⟨found, rest, splits, first, inside, boundary⟩ := coding.splits_part valid part
    simp only [← List.map_take, flatten_frameBytes]
    refine ⟨found, { input := rest }, start splits, first, inside, ?_⟩
    rw [← boundary]
    by_cases empty : rest = [] <;> simp [finish, empty]
  · intro odd
    obtain ⟨found, left, splits⟩ := @Reader.Splits.of_read _ _ frames pieces.flatten
    obtain ⟨tail, whole, valid, waiting, spoiled⟩ := coding.tail_of_splits splits
    refine ⟨found, _, tail, encode_valid valid, whole.trans (by rw [flatten_frameBytes]), ?_⟩
    cases left with
    | none =>
      obtain ⟨header, body, nine, rfl, bad⟩ := frontOf_bad (spoiled rfl)
      refine .inl ⟨?_, ?_, _, start splits⟩
      · rw [List.length_append]
        omega
      · rw [List.take_left' nine, bad]
    | some rest =>
      obtain rfl := waiting rest rfl
      rw [whole] at odd
      obtain ⟨some_bytes, short⟩ := short_of_wait valid (splits.waits rfl) odd
      refine .inr ⟨short, _, "truncated VM frame at EOF", start splits, ?_⟩
      simp [finish, some_bytes]

def hellos : List CiVmFrame := [⟨.hello, ascii "x"⟩, ⟨.hello, ascii "yz"⟩]

/-- The first is cut inside its header, the second ends inside its payload. -/
def cutHello : List Bytes := [ascii "CKV", ascii "1\x01\x00\x00\x00\x01xCKV1\x01\x00\x00\x00\x02y"]

theorem frames_chunked_hello : (∀ piece ∈ cutHello, piece.length ≤ kCiVmChunkPayloadMax)
    ∧ ∃ decoder, CiVmFrameDecoder.feedAll cutHello {} = ([⟨.hello, ascii "x"⟩], .ok (), decoder)
      ∧ decoder.finish.1 ≠ .ok () := by
  have small : ∀ piece ∈ cutHello, piece.length ≤ kCiVmChunkPayloadMax := by decide
  obtain ⟨found, decoder, fed, first, inside, boundary⟩ := (frames_chunked cutHello small).1
    hellos (hellos.map frameBytes) (ascii "z") rfl (by decide)
  have one : found.length = 1 := by
    have reached : 1 ≤ found.length := (inside 1 (by decide)).mpr (by decide)
    have left : ¬ 2 ≤ found.length := fun both => absurd ((inside 2 (by decide)).mp both) (by decide)
    omega
  have found_hello : found = [⟨.hello, ascii "x"⟩] := by
    rw [List.prefix_iff_eq_take.mp first, one]
    rfl
  refine ⟨small, decoder, found_hello ▸ fed, fun finished => ?_⟩
  obtain ⟨count, ends⟩ := boundary.mp finished
  rcases count with _ | _ | count
  · exact absurd ends (by decide)
  · exact absurd ends (by decide)
  · rw [List.take_of_length_le (Nat.le_add_left 2 count)] at ends
    exact absurd ends (by decide)

/-- One byte that starts no frame is kept without an error. -/
theorem not_failing_short : ¬ ∀ pieces : List Bytes,
    (∀ piece ∈ pieces, piece.length ≤ kCiVmChunkPayloadMax) → ¬ IsStart pieces.flatten →
    (CiVmFrameDecoder.feedAll pieces {}).2.2.next.1.isOk = false := by
  intro all
  have odd : ¬ IsStart ['X'.toUInt8] := by
    rintro ⟨whole, encoded, more, written, part⟩
    obtain ⟨rfl, -⟩ := encoded_frames written
    cases whole with
    | nil => cases part
    | cons frame rest =>
      have first : some 'X'.toUInt8 = some 'C'.toUInt8 := congrArg List.head? part
      revert first
      decide
  have failed := all [['X'.toUInt8]] (by decide) odd
  revert failed
  decide

end CkGit.Vm
