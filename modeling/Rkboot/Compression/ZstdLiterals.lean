import Rkboot.Compression.Lzcommon
import Rkboot.Compression.ZstdTables

/-! # The literals of a zstd block

`zstd_probe_literals` reads the header of the literals section, and `decode_literals`
writes the literals to memory: a copy of the input, one repeated byte, or one or four
Huffman streams, each read from its last byte backwards. `[lo, hi)` is the part of the
input that can be read. A null pointer is `none`: it is below every address, and a
stream that starts there is read past the beginning of the input. -/
namespace Rkboot.Compression.Zstd
open Lib Lzcommon

/-! ## The header -/

/-- The flags of a literals section that is not truncated. -/
inductive LiteralsKind where
  | raw
  | rle
  | huff (treeless oneStream : Bool)
  deriving DecidableEq, Repr

structure LiteralsProbe where
  start : Nat
  stop : Nat
  size : Nat
  kind : LiteralsKind
  deriving DecidableEq, Repr

section
variable (inp : Nat → UInt8)

/-- Regenerated size, compressed size and the end of the header, for a section whose first three
bytes are there. -/
def compressedSizes (ptr stop lsh0 sizeFormat : Nat) : Option (Nat × Nat × Nat) :=
  let byte i := (inp (ptr + i)).toNat
  let regenSize := lsh0 >>> 4 ||| byte 1 <<< 4
  if sizeFormat < 2 then some (regenSize &&& 0x3ff, regenSize >>> 10 ||| byte 2 <<< 2, ptr + 3)
  else if stop - (ptr + 2) < sizeFormat then none
  else if sizeFormat = 2 then
    some (regenSize ||| byte 2 <<< 12 &&& 0x3000, byte 2 >>> 2 ||| byte 3 <<< 6, ptr + 4)
  else
    some (regenSize ||| byte 2 <<< 12 &&& 0x3f000,
      byte 2 >>> 6 ||| byte 3 <<< 2 ||| byte 4 <<< 10, ptr + 5)

/-- Size and end of the header of raw or RLE literals. -/
def plainSize (ptr stop lsh0 : Nat) : Option (Nat × Nat) :=
  let byte i := (inp (ptr + i)).toNat
  if !lsh0.testBit 2 then some (lsh0 >>> 3, ptr + 1)
  else if !lsh0.testBit 3 then
    if stop - (ptr + 1) < 1 then none else some (lsh0 >>> 4 ||| byte 1 <<< 4, ptr + 2)
  else if stop - (ptr + 1) < 2 then none
  else some (lsh0 >>> 4 ||| byte 1 <<< 4 ||| byte 2 <<< 12, ptr + 3)

/-- `none` is `ZSTD_TRUNCATED`. -/
def zstdProbeLiterals (ptr stop : Nat) : Option LiteralsProbe :=
  let lsh0 := (inp ptr).toNat
  let blockType := lsh0 &&& 3
  if 2 ≤ blockType then
    let sizeFormat := lsh0 >>> 2 &&& 3
    if stop - (ptr + 1) < 2 then none
    else match compressedSizes inp ptr stop lsh0 sizeFormat with
    | none => none
    | some (regenSize, compSize, start) =>
      if stop - start < compSize then none
      else some ⟨start, start + compSize, regenSize, .huff (blockType = 3) (sizeFormat = 0)⟩
  else match plainSize inp ptr stop lsh0 with
  | none => none
  | some (size, start) =>
    if lsh0.testBit 0 then
      if stop - start < 1 then none else some ⟨start, start + 1, size, .rle⟩
    else if stop - start < size then none
    else some ⟨start, start + size, size, .raw⟩

end

/-! ## Huffman streams -/

/-- The unused bits stand at the top of the container, above the lowest `shift`. -/
structure LitBits where
  stop : Nat
  bits : Nat
  shift : Nat

/-- `in < end`. -/
def below (start : Option Nat) (stop : Nat) : Bool :=
  match start with
  | none => true
  | some start => start < stop

section
variable (inp : Nat → UInt8) (lo hi : Nat) (start : Option Nat) (table : Nat → UInt8 × Nat)

/-- `do {bits |= *--end << (shift -= 8);} while (shift >= 8 && in < end);`. A `shift` below 8
wraps, and four bytes are enough. -/
def LitBits.load : Nat → LitBits → Except Fault LitBits
  | 0, b => .ok b
  | fuel + 1, b =>
    if b.shift < 8 then .error .undefined
    else if ¬ (lo ≤ b.stop - 1 ∧ b.stop - 1 < hi) then .error .bounds
    else
      let shift := b.shift - 8
      let b : LitBits := ⟨b.stop - 1, b.bits ||| (inp (b.stop - 1)).toNat <<< shift, shift⟩
      if 8 ≤ shift ∧ below start b.stop then LitBits.load fuel b else .ok b

/-- The next entry of the table, with as many bits as its code has. -/
def LitBits.entry : Nat → LitBits → Except Fault (Option ((UInt8 × Nat) × LitBits))
  | 0, _ => .error .undefined
  | fuel + 1, b =>
    let entry := table (b.bits >>> 21)
    if entry.2 ≤ 32 - b.shift then
      if 32 ≤ entry.2 then .error .undefined else .ok (some (entry, b))
    else if !below start b.stop then .ok none
    else do LitBits.entry fuel (← b.load inp lo hi start 4)

/-- `shift += len; bits <<= len;` -/
def LitBits.skip (b : LitBits) (len : Nat) : LitBits :=
  ⟨b.stop, (b.bits <<< len) % 2 ^ 32, b.shift + len⟩

/-- The loop that writes `n` literals from `out` on. -/
def literalLoop : Nat → Nat → LitBits → Exec (Option LitBits)
  | 0, _, b => pure (some b)
  | n + 1, out, b => do
    match ← Exec.lift (b.entry inp lo hi start table 6) with
    | none => pure none
    | some ((sym, len), b) =>
      Exec.store out sym
      literalLoop n (out + 1) (b.skip len)

/-- The container behind the last byte of a stream, which marks where it ends. -/
def LitBits.ofLast (stop lastByte : Nat) : LitBits :=
  let numBits := Nat.log2 lastByte
  ⟨stop, if numBits ≠ 0 then (lastByte <<< (32 - numBits)) % 2 ^ 32 else 0, 32 - numBits⟩

def zstdDecompressLiteralStream (stop out outEnd : Nat) : Exec Bool := do
  Exec.assert (out < outEnd)
  if !below start stop then return false
  let lastByte ← Exec.fetch inp lo hi (stop - 1)
  if lastByte = 0 then return false
  match ← literalLoop inp lo hi start table (outEnd - out) out
    (.ofLast (stop - 1) lastByte.toNat) with
  | none => pure false
  | some b => pure (start = some b.stop ∧ b.shift = 32)

end

section
variable (inp : Nat → UInt8) (lo hi : Nat)

def zstdDecodeHuff4streams (start : Option Nat) (stop out outEnd : Nat)
    (table : Nat → UInt8 × Nat) : Exec Bool :=
  match start with
  | none => Exec.fault .bounds
  | some start =>
    if stop - start < 10 then pure false
    else
      let size1 := leWord inp start 2
      let size2 := leWord inp (start + 2) 2
      let size3 := leWord inp (start + 4) 2
      let start := start + 6
      if stop - start < size1 + size2 + size3 + 1 then pure false
      else
        let decompSize123 := (outEnd - out + 3) / 4
        let stream start stop out outEnd :=
          zstdDecompressLiteralStream inp lo hi (some start) table stop out outEnd
        do
          if !(← stream start (start + size1) out (out + decompSize123)) then return false
          let start := start + size1
          let out := out + decompSize123
          if !(← stream start (start + size2) out (out + decompSize123)) then return false
          let start := start + size2
          let out := out + decompSize123
          if !(← stream start (start + size3) out (out + decompSize123)) then return false
          let start := start + size3
          let out := out + decompSize123
          stream start stop out outEnd

def decodeLiterals (start : Option Nat) (stop out outEnd : Nat) (kind : LiteralsKind)
    (tables : DecTables) : Exec Bool :=
  match kind, start with
  | .huff _ true, _ => zstdDecompressLiteralStream inp lo hi start tables.huffTable stop out outEnd
  | .huff _ false, _ => zstdDecodeHuff4streams inp lo hi start stop out outEnd tables.huffTable
  | _, none => Exec.fault .bounds
  | .raw, some start => do
    lzcommonLiteralCopy inp .input out start (outEnd - out)
    pure true
  | .rle, some start => do
    Exec.modify fun m => m.memset out (inp start) (outEnd - out)
    pure true

end
end Rkboot.Compression.Zstd
