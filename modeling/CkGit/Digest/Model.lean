import CkGit.Base.Sha256

/-!
Streaming SHA-256: add, compress and finish of Sha256 (src/common/hash.cpp,
include/ckgit/hash.hpp).
-/
namespace CkGit.Digest
open CkGit.Base
open CkGit.Base.Sha256 (Registers)

abbrev Word := BitVec 32

structure Sha256 where
  state : Vector Word 8 := #v[0x6a09e667, 0xbb67ae85, 0x3c6ef372, 0xa54ff53a, 0x510e527f, 0x9b05688c, 0x1f83d9ab, 0x5be0cd19]
  block : Vector UInt8 64 := Vector.replicate 64 0
  used : Fin 64 := 0
  total : BitVec 64 := 0
deriving Repr, DecidableEq

def constants : List Word := [
  0x428a2f98, 0x71374491, 0xb5c0fbcf, 0xe9b5dba5, 0x3956c25b, 0x59f111f1, 0x923f82a4, 0xab1c5ed5,
  0xd807aa98, 0x12835b01, 0x243185be, 0x550c7dc3, 0x72be5d74, 0x80deb1fe, 0x9bdc06a7, 0xc19bf174,
  0xe49b69c1, 0xefbe4786, 0x0fc19dc6, 0x240ca1cc, 0x2de92c6f, 0x4a7484aa, 0x5cb0a9dc, 0x76f988da,
  0x983e5152, 0xa831c66d, 0xb00327c8, 0xbf597fc7, 0xc6e00bf3, 0xd5a79147, 0x06ca6351, 0x14292967,
  0x27b70a85, 0x2e1b2138, 0x4d2c6dfc, 0x53380d13, 0x650a7354, 0x766a0abb, 0x81c2c92e, 0x92722c85,
  0xa2bfe8a1, 0xa81a664b, 0xc24b8b70, 0xc76c51a3, 0xd192e819, 0xd6990624, 0xf40e3585, 0x106aa070,
  0x19a4c116, 0x1e376c08, 0x2748774c, 0x34b0bcb5, 0x391c0cb3, 0x4ed8aa4a, 0x5b9cca4f, 0x682e6ff3,
  0x748f82ee, 0x78a5636f, 0x84c87814, 0x8cc70208, 0x90befffa, 0xa4506ceb, 0xbef9a3f7, 0xc67178f2]

/-- One byte of the block into its word. -/
def loadByte (block : Vector UInt8 64) (index : Nat) (words : Vector Word 64) (byte : Nat) : Vector Word 64 :=
  words.setIfInBounds index
    ((words[index]?.getD 0 <<< 8) ||| (block[index * 4 + byte]?.getD 0).toBitVec.setWidth 32)

def loadWord (block : Vector UInt8 64) (words : Vector Word 64) (index : Nat) : Vector Word 64 :=
  (List.range 4).foldl (loadByte block index) words

def extendWord (words : Vector Word 64) (index : Nat) : Vector Word 64 :=
  let a := words[index - 15]?.getD 0
  let b := words[index - 2]?.getD 0
  words.setIfInBounds index
    (words[index - 16]?.getD 0 + (a.rotateRight 7 ^^^ a.rotateRight 18 ^^^ (a >>> 3)) + words[index - 7]?.getD 0 +
      (b.rotateRight 17 ^^^ b.rotateRight 19 ^^^ (b >>> 10)))

/-- The words of a block: sixteen read from it, the others from earlier ones. -/
def words (block : Vector UInt8 64) : Vector Word 64 :=
  let loaded := (List.range 16).foldl (loadWord block) (Vector.replicate 64 0)
  (List.range' 16 48).foldl extendWord loaded

/-- The local variables of compress. -/
structure Variables where
  a : Word
  b : Word
  c : Word
  d : Word
  e : Word
  f : Word
  g : Word
  h : Word

def mix (words : Vector Word 64) (v : Variables) (index : Nat) : Variables :=
  let first := v.h + (v.e.rotateRight 6 ^^^ v.e.rotateRight 11 ^^^ v.e.rotateRight 25) +
    ((v.e &&& v.f) ^^^ (~~~v.e &&& v.g)) + constants.getD index 0 + words[index]?.getD 0
  let second := (v.a.rotateRight 2 ^^^ v.a.rotateRight 13 ^^^ v.a.rotateRight 22) +
    ((v.a &&& v.b) ^^^ (v.a &&& v.c) ^^^ (v.b &&& v.c))
  { h := v.g, g := v.f, f := v.e, e := v.d + first, d := v.c, c := v.b, b := v.a, a := first + second }

def Sha256.compress (hash : Sha256) : Sha256 :=
  let s := hash.state
  let v := (List.range 64).foldl (mix (words hash.block))
    { a := s[0], b := s[1], c := s[2], d := s[3], e := s[4], f := s[5], g := s[6], h := s[7] }
  { hash with state := #v[s[0] + v.a, s[1] + v.b, s[2] + v.c, s[3] + v.d, s[4] + v.e, s[5] + v.f, s[6] + v.g, s[7] + v.h] }

/-- The state under the names of the standard. -/
def Sha256.value (hash : Sha256) : Registers :=
  { a := hash.state[0], b := hash.state[1], c := hash.state[2], d := hash.state[3],
    e := hash.state[4], f := hash.state[5], g := hash.state[6], h := hash.state[7] }

/-- One byte of add: a full block is compressed at once. -/
def Sha256.addByte (hash : Sha256) (byte : UInt8) : Sha256 :=
  let block := hash.block.set hash.used byte
  if hash.used.val + 1 = 64 then { ({ hash with block } : Sha256).compress with used := 0 }
  else { hash with block, used := hash.used + 1 }

def Sha256.add (hash : Sha256) (bytes : Bytes) : Sha256 :=
  bytes.foldl Sha256.addByte { hash with total := hash.total + BitVec.ofNat 64 bytes.length }

theorem addByte_used (hash : Sha256) (byte : UInt8) : (hash.addByte byte).used = hash.used + 1 := by
  unfold Sha256.addByte
  split
  · rename_i full
    have last : hash.used = 63 := by omega
    change 0 = hash.used + 1
    rw [last]
    rfl
  · rfl

/-- The loop of zero bytes before the length. -/
def Sha256.fill (hash : Sha256) : Sha256 :=
  if hash.used = 56 then hash else (hash.add [0]).fill
termination_by (56 - hash.used).val
decreasing_by
  have used : (hash.add [0]).used = hash.used + 1 := addByte_used _ 0
  rw [used]
  omega

/-- A word of std::hex with width 8 and fill zero. -/
def hexWord (word : Word) : Bytes :=
  let digits := (Nat.toDigits 16 word.toNat).map Char.toUInt8
  List.replicate (8 - digits.length) '0'.toUInt8 ++ digits

def Sha256.finish (hash : Sha256) : Bytes :=
  let bits := hash.total * 8
  let hash := ((hash.add [0x80]).fill)
  let length := (List.range 8).map fun index => UInt8.ofBitVec ((bits >>> ((7 - index) * 8)).setWidth 8)
  let hash := hash.add length
  hash.state.toList.flatMap hexWord

def sha256Hex (data : Bytes) : Bytes := (({} : Sha256).add data).finish

end CkGit.Digest
