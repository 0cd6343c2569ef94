import Rkboot.Lib.Blocks
import Rkboot.Lib.Word

/-! # XXH64

The hash of a byte string: four accumulators take stripes of 32 bytes and converge to one, which
takes the bytes that are left, eight, four or one at a time. A string of less than 32 bytes has
no stripes and starts from a constant. -/
namespace Rkboot.Lib.Xxh64

def prime1 : UInt64 := 0x9E3779B185EBCA87
def prime2 : UInt64 := 0xC2B2AE3D27D4EB4F
def prime3 : UInt64 := 0x165667B19E3779F9
def prime4 : UInt64 := 0x85EBCA77C2B2AE63
def prime5 : UInt64 := 0x27D4EB2F165667C5

def rotl (x n : UInt64) : UInt64 := x <<< n ||| x >>> (64 - n)

/-- A little-endian number. -/
def lane (bytes : List UInt8) : UInt64 := bytes.foldr (fun b v => b.toUInt64 ||| v <<< 8) 0

def round (acc lane : UInt64) : UInt64 := rotl (acc + lane * prime2) 31 * prime1

def mergeAccumulator (acc accN : UInt64) : UInt64 := (acc ^^^ round 0 accN) * prime1 + prime4

structure Accumulators where
  acc1 : UInt64
  acc2 : UInt64
  acc3 : UInt64
  acc4 : UInt64

namespace Accumulators

def init (seed : UInt64) : Accumulators :=
  ⟨seed + prime1 + prime2, seed + prime2, seed, seed - prime1⟩

/-- A stripe of four lanes. -/
def stripe (a : Accumulators) (bytes : List UInt8) : Accumulators :=
  ⟨round a.acc1 (lane (bytes.take 8)), round a.acc2 (lane ((bytes.drop 8).take 8)),
    round a.acc3 (lane ((bytes.drop 16).take 8)), round a.acc4 (lane ((bytes.drop 24).take 8))⟩

def converge (a : Accumulators) : UInt64 :=
  [a.acc1, a.acc2, a.acc3, a.acc4].foldl mergeAccumulator
    (rotl a.acc1 1 + rotl a.acc2 7 + rotl a.acc3 12 + rotl a.acc4 18)

end Accumulators

def consume8 (acc : UInt64) (bytes : List UInt8) : UInt64 :=
  rotl (acc ^^^ round 0 (lane bytes)) 27 * prime1 + prime4

def consume4 (acc : UInt64) (bytes : List UInt8) : UInt64 :=
  rotl (acc ^^^ lane bytes * prime1) 23 * prime2 + prime3

def consume1 (acc : UInt64) (byte : UInt8) : UInt64 :=
  rotl (acc ^^^ byte.toUInt64 * prime5) 11 * prime1

/-- The bytes behind the last stripe. -/
def consume (acc : UInt64) (bytes : List UInt8) : UInt64 :=
  let acc := (blocks 8 bytes).foldl consume8 acc
  let bytes := blockRest 8 bytes
  if 4 ≤ bytes.length then (bytes.drop 4).foldl consume1 (consume4 acc (bytes.take 4))
  else bytes.foldl consume1 acc

def avalanche (acc : UInt64) : UInt64 :=
  let acc := (acc ^^^ acc >>> 33) * prime2
  let acc := (acc ^^^ acc >>> 29) * prime3
  acc ^^^ acc >>> 32

def hash (seed : UInt64) (bytes : List UInt8) : UInt64 :=
  let acc :=
    if bytes.length < 32 then seed + prime5
    else ((blocks 32 bytes).foldl Accumulators.stripe (.init seed)).converge
  avalanche (consume (acc + UInt64.ofNat bytes.length) (blockRest 32 bytes))

example : hash 0 [] = 0xEF46DB3751D8E999 := by decide

-- "Nobody inspects the spammish repetition": a stripe, then four bytes and three
example : hash 0 [0x4e, 0x6f, 0x62, 0x6f, 0x64, 0x79, 0x20, 0x69, 0x6e, 0x73, 0x70, 0x65, 0x63,
    0x74, 0x73, 0x20, 0x74, 0x68, 0x65, 0x20, 0x73, 0x70, 0x61, 0x6d, 0x6d, 0x69, 0x73, 0x68, 0x20,
    0x72, 0x65, 0x70, 0x65, 0x74, 0x69, 0x74, 0x69, 0x6f, 0x6e] = 0xFBCEA83C8A378BF1 := by decide

/-- A lane is the little-endian word at its address. -/
theorem lane_bytesAt (f : Nat → UInt8) (a n : Nat) :
    lane (bytesAt f a n) = UInt64.ofNat (leWord f a n) := by
  induction n generalizing a with
  | zero => rfl
  | succ n ih =>
    have hshift : UInt64.ofNat (leWord f (a + 1) n <<< 8) = UInt64.ofNat (leWord f (a + 1) n) <<< 8 :=
      UInt64.ofNat_shiftLeft _ _ (by decide)
    rw [bytesAt_succ, leWord, UInt64.ofNat_or, hshift, ← ih]
    simp [lane]

/-- The stripe of 32 bytes from an address on. -/
theorem stripe_bytesAt (acc : Accumulators) (f : Nat → UInt8) (a : Nat) :
    acc.stripe (bytesAt f a 32) =
      ⟨round acc.acc1 (UInt64.ofNat (leWord f a 8)), round acc.acc2 (UInt64.ofNat (leWord f (a + 8) 8)),
        round acc.acc3 (UInt64.ofNat (leWord f (a + 16) 8)),
        round acc.acc4 (UInt64.ofNat (leWord f (a + 24) 8))⟩ := by
  simp only [Accumulators.stripe, bytesAt_drop, bytesAt_take, Nat.reduceLeDiff, Nat.reduceSub,
    lane_bytesAt]

end Rkboot.Lib.Xxh64
