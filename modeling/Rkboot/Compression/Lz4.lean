import Rkboot.Compression.Lzcommon
import Rkboot.Compression.Status

/-! # The LZ4 decompressor

`decompress_block` decodes one block, `decode_block` and `decode_trailer` are
the steps a client runs. Content and block checksums are skipped, not checked. -/
namespace Rkboot.Compression.Lz4
open Lib Lzcommon

def fbindep : Nat := 32
def fbchecksum : Nat := 16
def fcsize : Nat := 8
def fcchecksum : Nat := 4
def freserved : Nat := 2
def fdictid : Nat := 1

/-! ## One block -/

section
variable (inp : Nat → UInt8) (start stop : Nat)

/-- `do {length += add = *in++; check(..);} while (add == 255);`. The checks are those of the
literal and of the match length below; the slack of earlier checks covers the read. -/
def extend (ok : Nat → Nat → Bool) : Nat → Nat → Nat → Exec (Option (Nat × Nat))
  | 0, _, _ => Exec.fault .bounds
  | fuel + 1, length, ptr => do
    let add ← Exec.fetch inp start stop ptr
    let length := length + add.toNat
    let ptr := ptr + 1
    if !ok length ptr then pure none
    else if add = 255 then extend ok fuel length ptr
    else pure (some (length, ptr))

/-- The literal length of a sequence, with its extension bytes. -/
def literalLength (copy ptr : Nat) : Exec (Option (Nat × Nat)) :=
  if copy = 15 then
    extend inp start stop (fun copy ptr => copy ≤ stop - ptr) (stop - ptr) copy ptr
  else pure (some (copy, ptr))

/-- The match length of a sequence, with its extension bytes. -/
def matchLength (restsize maxFinalBlockStart length ptr : Nat) : Exec (Option (Nat × Nat)) :=
  if length = 19 then
    extend inp start stop (fun length ptr => length ≤ restsize && ptr ≤ maxFinalBlockStart)
      (stop - ptr) length ptr
  else if maxFinalBlockStart < ptr then pure none
  else pure (some (length, ptr))

variable (outEnd windowStart : Nat)

/-- The loop over sequences, in a block of at least six bytes. -/
def sequences : Nat → Nat → Nat → Exec (Option Nat)
  | 0, _, _ => Exec.fault .bounds
  | fuel + 1, ptr, out => do
    let maxFinalBlockStart := stop - 6
    Exec.assert (ptr ≤ maxFinalBlockStart)
    Exec.assert (5 ≤ outEnd - out)
    let token ← Exec.fetch inp start stop ptr
    let ptr := ptr + 1
    let copy := token.toNat >>> 4
    let length := token.toNat &&& 15
    match ← literalLength inp start stop copy ptr with
    | none => pure none
    | some (copy, ptr) =>
      if outEnd - out < copy then pure none
      else if stop - ptr < copy + 8 then
        if stop - ptr ≠ copy then pure none
        else if length ≠ 0 then pure none
        else do
          lzcommonLiteralCopy inp .input out ptr copy
          pure (some (out + copy))
      else do
        lzcommonLiteralCopy inp .input out ptr copy
        let ptr := ptr + copy
        let out := out + copy
        let dist0 ← Exec.fetch inp start stop ptr
        let dist1 ← Exec.fetch inp start stop (ptr + 1)
        let dist := dist0.toNat ||| dist1.toNat <<< 8
        let ptr := ptr + 2
        if dist = 0 then pure none
        else if out - windowStart < dist then pure none
        else
          let length := length + 4
          -- the last five output bytes must be literals
          if outEnd - out < length + 5 then pure none
          else do
            match ← matchLength inp start stop (outEnd - out - 5) maxFinalBlockStart length ptr with
            | none => pure none
            | some (length, ptr) => do
              lzcommonMatchCopy inp out dist length
              sequences fuel ptr (out + length)

/-- `decompress_block` on the input bytes `[start, stop)`; `none` is the null pointer. -/
def decompressBlock (out : Nat) : Exec (Option Nat) := do
  Exec.assert (outEnd - out ≤ 2 ^ 31)
  if stop ≤ start then pure none
  else if stop - start < 6 then do
    let token ← Exec.fetch inp start stop start
    let ptr := start + 1
    if (stop - ptr) * 16 ≠ token.toNat then pure none
    else
      let token := token.toNat >>> 4
      if outEnd - out < token then pure none
      else do
        Exec.modify fun m => m.memcpy inp .input out ptr token
        pure (some (out + token))
  else sequences inp start stop outEnd windowStart (stop - start) start out

end

/-! ## Frames -/

/-- `in[0] | in[1] << 8 | in[2] << 16 | in[3] << 24`. -/
def le32 (inp : Nat → UInt8) (a : Nat) : Nat := leWord inp a 4

def probe (inp : Nat → UInt8) (start stop : Nat) : ProbeStatus :=
  if stop - start < 4 then .notEnoughData
  else if inp start ≠ 4 ∨ inp (start + 1) ≠ 34 ∨ inp (start + 2) ≠ 77 ∨ inp (start + 3) ≠ 24 then
    .wrongMagic
  else if stop - start < 7 then .notEnoughData
  else
    let flags := (inp (start + 4)).toNat
    let bd := (inp (start + 5)).toNat
    let ptr := start + 6
    if flags >>> 6 ≠ 1 then .reservedFeature
    else if flags &&& freserved ≠ 0 then .reservedFeature
    else if flags &&& fdictid ≠ 0 then .unimplementedFeature
    else if bd &&& 0x8f ≠ 0 then .reservedFeature
    else if bd >>> 4 &&& 7 < 4 then .reservedFeature
    else if flags &&& fcsize ≠ 0 then
      if stop - ptr < 9 then .notEnoughData else .sizeKnown (leWord inp ptr 8)
    else .sizeUnknown

/-- The step `decode` points to. -/
inductive Step where
  | decodeBlock
  | decodeTrailer
  deriving DecidableEq, Repr

/-- `struct lz4_dec_state`; no step is the null pointer. -/
structure Lz4DecState where
  decode : Option Step
  st : DecompressorState
  maxBlockSize : Nat
  flags : Nat

def decodeTrailer (st : Lz4DecState) (start stop : Nat) : DecodeResult × Lz4DecState :=
  let st := { st with decode := none }
  if st.flags &&& fcchecksum ≠ 0 then
    if stop - start < 4 then (.status .err, st) else (.consumed 4, st)
  else (.consumed 0, st)

/-- The data of a block, stored or compressed; `none` if it does not decode. -/
def writeBlock (inp : Nat → UInt8) (st : Lz4DecState) (ptr blockSize : Nat) :
    Exec (Option Nat) :=
  let out := st.st.out
  let outEnd := st.st.outEnd
  let actualBlockSize := blockSize &&& 0x7fffffff
  if blockSize &&& 2 ^ 31 ≠ 0 then do
    lzcommonLiteralCopy inp .input out ptr actualBlockSize
    pure (some (out + actualBlockSize))
  else
    let outLimit := if outEnd - out < st.maxBlockSize then outEnd else out + st.maxBlockSize
    decompressBlock inp ptr (ptr + blockSize) outLimit st.st.windowStart out

/-- `out` moves behind a block, and with independent blocks the window starts there. -/
def Lz4DecState.advance (st : Lz4DecState) (out : Nat) : Lz4DecState :=
  let windowStart := if st.flags &&& fbindep ≠ 0 then out else st.st.windowStart
  { st with st := { st.st with out := out, windowStart := windowStart } }

def decodeBlock (inp : Nat → UInt8) (st : Lz4DecState) (start stop : Nat) :
    Exec (DecodeResult × Lz4DecState) :=
  if stop - start < 4 then pure (.status .err, st)
  else
    let blockSize := le32 inp start
    let ptr := start + 4
    let actualBlockSize := blockSize &&& 0x7fffffff
    if actualBlockSize = 0 then pure (.consumed 4, { st with decode := some .decodeTrailer })
    else if st.maxBlockSize < actualBlockSize then pure (.status .err, st)
    else if stop - ptr < actualBlockSize then pure (.status .needMoreData, st)
    else
      let totalSize := actualBlockSize + 4 + if st.flags &&& fbchecksum ≠ 0 then 4 else 0
      if st.st.outEnd - st.st.out < actualBlockSize then pure (.status .needMoreSpace, st)
      else do
        match ← writeBlock inp st ptr blockSize with
        | none => pure (.status .err, st)
        | some out => pure (.consumed totalSize, st.advance out)

/-- The step a client runs; with a null `decode` there is none. -/
def Lz4DecState.run (inp : Nat → UInt8) (st : Lz4DecState) (start stop : Nat) :
    Exec (DecodeResult × Lz4DecState) :=
  match st.decode with
  | none => Exec.fault .undefined
  | some .decodeBlock => decodeBlock inp st start stop
  | some .decodeTrailer => pure (decodeTrailer st start stop)

def init (inp : Nat → UInt8) (st : Lz4DecState) (start stop : Nat) :
    Exec (Option Nat × Lz4DecState) := do
  Exec.assert (7 ≤ stop - start)
  let flags := (inp (start + 4)).toNat
  let bd := (inp (start + 5)).toNat
  let blockSizeField := bd >>> 4 &&& 7
  let st := { st with
    flags := flags, maxBlockSize := 256 <<< (2 * blockSizeField), decode := some .decodeBlock }
  let ptr := if flags &&& fcsize ≠ 0 then start + 8 else start
  pure (some (ptr + 7), st)

abbrev lz4Decompressor : Decompressor where
  State := Lz4DecState
  probe := probe
  init := init
  running st := st.decode.isSome
  decode := Lz4DecState.run
  client st := st.st
  setClient st c := { st with st := c }

end Rkboot.Compression.Lz4
