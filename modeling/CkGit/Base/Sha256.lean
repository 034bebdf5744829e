import CkGit.Base.Text
import Mathlib.Data.Nat.Find
import Mathlib.Data.Nat.Prime.Basic
import Mathlib.Data.List.GetD

/-!
SHA-256 of byte strings as FIPS 180-4 states it: constants from the roots of
the first primes, padding (5.1.1), message words (5.2.1), the schedule and the
rounds (6.2.2) and the digest.
-/
namespace CkGit.Base.Sha256

abbrev Word := BitVec 32

def ch (x y z : Word) : Word := (x &&& y) ^^^ (~~~x &&& z)
def maj (x y z : Word) : Word := (x &&& y) ^^^ (x &&& z) ^^^ (y &&& z)
def upper0 (x : Word) : Word := x.rotateRight 2 ^^^ x.rotateRight 13 ^^^ x.rotateRight 22
def upper1 (x : Word) : Word := x.rotateRight 6 ^^^ x.rotateRight 11 ^^^ x.rotateRight 25
def lower0 (x : Word) : Word := x.rotateRight 7 ^^^ x.rotateRight 18 ^^^ (x >>> 3)
def lower1 (x : Word) : Word := x.rotateRight 17 ^^^ x.rotateRight 19 ^^^ (x >>> 10)

/-- The first 64 primes. -/
def primes : List Nat := (List.range 312).filter fun n => n.Prime

/-- The first thirty-two bits of the fractional part of a root. -/
def fraction (power n : Nat) : Word :=
  BitVec.ofNat 32 (Nat.findGreatest (fun root => root ^ power ≤ n * 2 ^ (32 * power)) (n * 2 ^ (32 * power)))

/-- K: cube roots. -/
def constant (t : Nat) : Word := fraction 3 (primes.getD t 0)

/-- The working variables, and the hash value between blocks. -/
structure Registers where
  a : Word
  b : Word
  c : Word
  d : Word
  e : Word
  f : Word
  g : Word
  h : Word
deriving Repr, DecidableEq

/-- H of block zero: square roots. -/
def initial : Registers where
  a := fraction 2 (primes.getD 0 0)
  b := fraction 2 (primes.getD 1 0)
  c := fraction 2 (primes.getD 2 0)
  d := fraction 2 (primes.getD 3 0)
  e := fraction 2 (primes.getD 4 0)
  f := fraction 2 (primes.getD 5 0)
  g := fraction 2 (primes.getD 6 0)
  h := fraction 2 (primes.getD 7 0)

/-- A number in `count` bytes, the most significant first. -/
def bigEndian (count n : Nat) : Bytes := (List.range count).map fun i => UInt8.ofNat (n / 256 ^ (count - 1 - i))

theorem exists_zeros (length : Nat) : ∃ k, (length + 1 + k) % 64 = 56 :=
  ⟨(119 - length % 64) % 64, by omega⟩

/-- The least number of zero bytes that leaves eight of the last block. -/
def zeros (length : Nat) : Nat := Nat.find (exists_zeros length)

def padded (message : Bytes) : Bytes :=
  message ++ 0x80 :: List.replicate (zeros message.length) 0 ++ bigEndian 8 (8 * message.length)

/-- Word `t` of block `i`. -/
def messageWord (message : Bytes) (i t : Nat) : Word :=
  (message.getD (64 * i + 4 * t) 0).toBitVec ++ (message.getD (64 * i + 4 * t + 1) 0).toBitVec
    ++ (message.getD (64 * i + 4 * t + 2) 0).toBitVec ++ (message.getD (64 * i + 4 * t + 3) 0).toBitVec

/-- W: the message schedule. -/
def schedule (m : Nat → Word) (t : Nat) : Word :=
  if t < 16 then m t
  else lower1 (schedule m (t - 2)) + schedule m (t - 7) + lower0 (schedule m (t - 15)) + schedule m (t - 16)
termination_by t

def roundStep (w : Nat → Word) (v : Registers) (t : Nat) : Registers :=
  let t1 := v.h + upper1 v.e + ch v.e v.f v.g + constant t + w t
  let t2 := upper0 v.a + maj v.a v.b v.c
  { a := t1 + t2, b := v.a, c := v.b, d := v.c, e := v.d + t1, f := v.e, g := v.f, h := v.g }

def Registers.add (v w : Registers) : Registers :=
  { a := v.a + w.a, b := v.b + w.b, c := v.c + w.c, d := v.d + w.d,
    e := v.e + w.e, f := v.f + w.f, g := v.g + w.g, h := v.h + w.h }

def hashBlock (hash : Registers) (m : Nat → Word) : Registers :=
  ((List.range 64).foldl (roundStep (schedule m)) hash).add hash

/-- The hash value after the first blocks of a message. -/
def hashBlocks (message : Bytes) (count : Nat) : Registers :=
  (List.range count).foldl (fun hash i => hashBlock hash (messageWord message i)) initial

def Registers.words (v : Registers) : List Word := [v.a, v.b, v.c, v.d, v.e, v.f, v.g, v.h]

def digest (message : Bytes) : Bytes :=
  (hashBlocks (padded message) ((padded message).length / 64)).words.flatMap fun word => bigEndian 4 word.toNat

def primeTable : List Nat :=
  [2, 3, 5, 7, 11, 13, 17, 19, 23, 29, 31, 37, 41, 43, 47, 53, 59, 61, 67, 71, 73, 79, 83, 89, 97, 101, 103,
    107, 109, 113, 127, 131, 137, 139, 149, 151, 157, 163, 167, 173, 179, 181, 191, 193, 197, 199, 211, 223,
    227, 229, 233, 239, 241, 251, 257, 263, 269, 271, 277, 281, 283, 293, 307, 311]

theorem primes_eq : primes = primeTable := by
  have same : primes = (List.range 312).filter fun n => 2 ≤ n ∧ ∀ m < n, m ∣ n → m = 1 :=
    List.filter_congr fun n _ => by simp [Nat.prime_def_lt]
  rw [same]
  decide +kernel

/-- A root between two neighbours has the smaller one's bits. -/
theorem fraction_eq {power n root : Nat} (positive : power ≠ 0) (low : root ^ power ≤ n * 2 ^ (32 * power))
    (high : n * 2 ^ (32 * power) < (root + 1) ^ power) : fraction power n = BitVec.ofNat 32 root := by
  have bound : root ≤ n * 2 ^ (32 * power) := (Nat.le_self_pow positive root).trans low
  have found : Nat.findGreatest (fun root => root ^ power ≤ n * 2 ^ (32 * power)) (n * 2 ^ (32 * power)) = root := by
    refine Nat.findGreatest_eq_iff.mpr ⟨bound, fun _ => low, fun {other} larger _ fits => ?_⟩
    have grows : (root + 1) ^ power ≤ other ^ power := Nat.pow_le_pow_left larger power
    omega
  rw [fraction, found]

theorem zeros_eq {length k : Nat} (fits : (length + 1 + k) % 64 = 56)
    (least : ∀ less < k, (length + 1 + less) % 64 ≠ 56) : zeros length = k :=
  (Nat.find_eq_iff (exists_zeros length)).mpr ⟨fits, least⟩

@[simp] theorem bigEndian_length (count n : Nat) : (bigEndian count n).length = count := by simp [bigEndian]

/-- The schedule reads the sixteen words of the block only. -/
theorem schedule_congr {m m' : Nat → Word} (same : ∀ t < 16, m t = m' t) (t : Nat) : schedule m t = schedule m' t := by
  fun_induction schedule m t with
  | case1 t small => rw [schedule, if_pos small, same t small]
  | case2 t large ih2 ih7 ih15 ih16 =>
    rw [schedule.eq_def m' t, if_neg large, ih2, ih7, ih15, ih16]

theorem hashBlock_congr {m m' : Nat → Word} (same : ∀ t < 16, m t = m' t) (hash : Registers) :
    hashBlock hash m = hashBlock hash m' := by
  rw [hashBlock, hashBlock, funext (schedule_congr same)]

theorem hashBlocks_succ (message : Bytes) (count : Nat) :
    hashBlocks message (count + 1) = hashBlock (hashBlocks message count) (messageWord message count) := by
  simp [hashBlocks, List.range_succ]

/-- More of a message does not change its full blocks. -/
theorem hashBlocks_append {message : Bytes} {count : Nat} (whole : 64 * count ≤ message.length) (more : Bytes) :
    hashBlocks (message ++ more) count = hashBlocks message count := by
  induction count with
  | zero => simp only [hashBlocks, List.range_zero, List.foldl_nil]
  | succ count ih =>
    have kept (j : Nat) (inside : j < 64 * (count + 1)) : (message ++ more).getD j 0 = message.getD j 0 :=
      List.getD_append _ _ _ _ (by omega)
    rw [hashBlocks_succ, hashBlocks_succ, ih (by omega)]
    refine hashBlock_congr (fun t small => ?_) _
    simp only [messageWord, kept _ (show 64 * count + 4 * t < _ by omega),
      kept _ (show 64 * count + 4 * t + 1 < _ by omega), kept _ (show 64 * count + 4 * t + 2 < _ by omega),
      kept _ (show 64 * count + 4 * t + 3 < _ by omega)]

end CkGit.Base.Sha256
