import Rkboot.Compression.ZstdLiterals
import Rkboot.Compression.ZstdSequences

/-! # The zstd decompressor

`decompress_block` decodes the literals of a block, to the end of the output space
unless they are in the input as they are, and executes its sequences. `decode_block`
and `decode_trailer` are the steps a client runs; the content checksum is an XXH64
that every block updates. -/
namespace Rkboot.Compression.Zstd
open Lib Lzcommon

/-! ## Sequence execution -/

/-- Output position, the literals that are left and where they are. -/
structure CopyState where
  out : Nat
  literalPtr : Nat
  size : Nat

/-- The fields of a packed sequence. -/
def sequenceCopy (sequence : Nat) : Nat := sequence &&& 0x1ffff
def sequenceLength (sequence : Nat) : Nat := (sequence >>> 17 &&& 0x1ffff) + 3
def sequenceDist (sequence : Nat) : Nat := ((sequence >>> 34) + 1) % 2 ^ 32

section
variable (inp : Nat → UInt8) (sp : Space) (outEnd windowStart : Nat)

/-- One turn of the loop over a round's sequences. -/
def execSequence (sequence : Nat) (c : CopyState) : Exec (Except DecodeStatus CopyState) :=
  let copy := sequenceCopy sequence
  let length := sequenceLength sequence
  let dist := sequenceDist sequence
  if c.size < copy then pure (.error .err)
  else if outEnd - c.out < length + c.size then pure (.error .needMoreSpace)
  else do
    lzcommonLiteralCopy inp sp c.out c.literalPtr copy
    let out := c.out + copy
    if out - windowStart < dist then pure (.error .err)
    else do
      lzcommonMatchCopy inp out dist length
      pure (.ok ⟨out + length, c.literalPtr + copy, c.size - copy⟩)

def execSequences : List Nat → CopyState → Exec (Except DecodeStatus CopyState)
  | [], c => pure (.ok c)
  | sequence :: rest, c => do
    match ← execSequence inp sp outEnd windowStart sequence c with
    | .error s => pure (.error s)
    | .ok c => execSequences rest c

variable (unaligned : Bool) (lo hi start : Nat) (tables : DecTables)

/-- `while (num_seq)`: rounds of up to 128 sequences, each decoded and then executed. -/
def sequenceRounds : Nat → Nat → SequencesState → CopyState →
    Exec (Except DecodeStatus (SequencesState × CopyState))
  | 0, _, s, c => pure (.ok (s, c))
  | fuel + 1, numSeq, s, c =>
    if numSeq = 0 then pure (.ok (s, c))
    else do
      let seqThisRound := min 128 numSeq
      match ← Exec.lift (decodeSequences unaligned inp lo hi start tables seqThisRound s) with
      | none => pure (.error .err)
      | some (sequences, s) =>
        match ← execSequences inp sp outEnd windowStart sequences c with
        | .error e => pure (.error e)
        | .ok c => sequenceRounds fuel (numSeq - seqThisRound) s c

end

/-! ## One block -/

/-- The rest of the sequence count behind its first byte, and where it ends. -/
def sequenceCount (inp : Nat → UInt8) (ptr stop numSeq : Nat) : Option (Nat × Nat) :=
  if 128 ≤ numSeq then
    if numSeq = 255 then
      if stop - ptr < 3 then none else some (leWord inp ptr 2 + 0x7f00, ptr + 2)
    else if stop - ptr < 2 then none
    else some ((numSeq - 128) <<< 8 ||| (inp ptr).toNat, ptr + 1)
  else if stop - ptr < 1 then none
  else some (numSeq, ptr)

/-- The three calls of `handle_decoding_table`. -/
def sequenceTables (inp : Nat → UInt8) (ptr stop scm : Nat) (tables : DecTables) :
    Except Fault (Option Nat × DecTables) := do
  let mode n := TableMode.ofBits (scm >>> n &&& 3)
  let (ptr, t) ← handleDecodingTable inp ptr stop (mode 6) copySettings
    ⟨tables.copyLog, tables.copyTable⟩
  let tables := { tables with copyLog := t.log, copyTable := t.table }
  match ptr with
  | none => pure (none, tables)
  | some ptr =>
    let (ptr, t) ← handleDecodingTable inp ptr stop (mode 4) distSettings
      ⟨tables.distLog, tables.distTable⟩
    let tables := { tables with distLog := t.log, distTable := t.table }
    match ptr with
    | none => pure (none, tables)
    | some ptr =>
      let (ptr, t) ← handleDecodingTable inp ptr stop (mode 2) lengthSettings
        ⟨tables.lengthLog, tables.lengthTable⟩
      pure (ptr, { tables with lengthLog := t.log, lengthTable := t.table })

/-- The Huffman table of the literals: where they start, or the null pointer, and `none` if there
is no table. A tree description that is not accepted is not reported here. -/
def literalTables (inp : Nat → UInt8) (probe : LiteralsProbe) (tables : DecTables) :
    Except Fault (Option (Option Nat × DecTables)) :=
  match probe.kind with
  | .huff false _ => do
    pure (some (← zstdDecodeTreeDescription inp probe.start probe.stop tables))
  | .huff true _ =>
    if tables.huffDepth = 0 then .ok none else .ok (some (some probe.start, tables))
  | _ => .ok (some (some probe.start, tables))

section
variable (unaligned : Bool) (inp : Nat → UInt8) (lo hi : Nat)
variable (outEnd windowStart out : Nat)

/-- The sequences section and their execution, behind the first byte of the sequence count. -/
def runSequences (ptr stop numSeq : Nat) (sp : Space) (literalPtr size : Nat)
    (tables : DecTables) : Exec (DecodeResult × DecTables) :=
  match sequenceCount inp ptr stop numSeq with
  | none => pure (.status .err, tables)
  | some (numSeq, ptr) =>
    let scm := (inp ptr).toNat
    if scm % 4 ≠ 0 then pure (.status .err, tables)
    else do
      match ← Exec.lift (sequenceTables inp (ptr + 1) stop scm tables) with
      | (none, tables) => pure (.status .err, tables)
      | (some ptr, tables) =>
        match ← Exec.lift (initSequences unaligned inp lo hi ptr stop tables) with
        | none => pure (.status .err, tables)
        | some s =>
          match ← sequenceRounds inp sp outEnd windowStart unaligned lo hi ptr tables numSeq numSeq s
            ⟨out, literalPtr, size⟩ with
          | .error e => pure (.status e, tables)
          | .ok (s, c) =>
            match finishSequences s ptr tables with
            | none => pure (.status .err, tables)
            | some tables => do
              Exec.modify fun m => m.memcpy inp sp c.out c.literalPtr c.size
              pure (.consumed (c.out + c.size - out), tables)

/-- The literals at the end of the output space, unless the input has them as they are; `none` if
they do not decode. -/
def placeLiterals (literalStart : Option Nat) (probe : LiteralsProbe) (tables : DecTables) :
    Exec (Option (Space × Nat)) :=
  if probe.kind = .raw then pure (some (.input, probe.stop - probe.size))
  else do
    let ptr := outEnd + lzcommonBlock - probe.size
    if ← decodeLiterals inp lo hi literalStart probe.stop ptr (ptr + probe.size) probe.kind tables
    then pure (some (.output, ptr))
    else pure none

/-- `decompress_block`; what it returns as consumed is the size of the output. -/
def decompressBlock (start stop : Nat) (tables : DecTables) : Exec (DecodeResult × DecTables) :=
  if stop - start < 1 then pure (.status .err, tables)
  else match zstdProbeLiterals inp start stop with
  | none => pure (.status .err, tables)
  | some probe => do
    match ← Exec.lift (literalTables inp probe tables) with
    | none => pure (.status .err, tables)
    | some (literalStart, tables) =>
      let ptr := probe.stop
      if outEnd - out < probe.size then pure (.status .needMoreSpace, tables)
      else if stop - ptr < 1 then pure (.status .err, tables)
      else
        let numSeq := (inp ptr).toNat
        if numSeq = 0 then do
          if ← decodeLiterals inp lo hi literalStart probe.stop out (out + probe.size) probe.kind
            tables
          then pure (.consumed probe.size, tables)
          else pure (.status .err, tables)
        else do
          match ← placeLiterals inp lo hi outEnd literalStart probe tables with
          | none => pure (.status .err, tables)
          | some (sp, literalPtr) =>
            runSequences unaligned inp lo hi outEnd windowStart out (ptr + 1) stop numSeq sp literalPtr
              probe.size tables

end

/-! ## XXH64 -/

/-- `struct xxh64_state`. -/
structure Xxh64State where
  buf : Nat → UInt8
  state0 : UInt64
  state1 : UInt64
  state2 : UInt64
  state3 : UInt64
  len : UInt64
  offset : Nat
  longHash : Bool

def xxh64Prime0 : UInt64 := 11400714785074694791
def xxh64Prime1 : UInt64 := 14029467366897019727
def xxh64Prime2 : UInt64 := 1609587929392839161
def xxh64Prime3 : UInt64 := 9650029242287828579
def xxh64Prime4 : UInt64 := 2870177450012600261

/-- `x << n | x >> (64 - n)`. -/
def rotl64 (x n : UInt64) : UInt64 := x <<< n ||| x >>> (64 - n)

def xxh64Step (state : UInt64) : UInt64 := rotl64 state 31 * xxh64Prime0
def xxh64Shuffle (val : UInt64) : UInt64 := xxh64Step (val * xxh64Prime1)
def xxh64Round (state val : UInt64) : UInt64 := xxh64Step (state + val * xxh64Prime1)
def xxh64Mergestep (state : UInt64) : UInt64 := state * xxh64Prime0 + xxh64Prime3
def xxh64Merge (state val : UInt64) : UInt64 := xxh64Mergestep (state ^^^ xxh64Shuffle val)

/-- `ldle64a`. -/
def ldle64 (f : Nat → UInt8) (a : Nat) : UInt64 := UInt64.ofNat (leWord f a 8)

def xxh64Byte (hash : UInt64) (b : UInt8) : UInt64 :=
  rotl64 (hash ^^^ b.toUInt64 * xxh64Prime4) 11 * xxh64Prime0

def xxh64Finalize (st : Xxh64State) : Except Fault UInt64 :=
  let hash :=
    if st.longHash then
      let merged := rotl64 st.state0 1 + rotl64 st.state1 7 + rotl64 st.state2 12 +
        rotl64 st.state3 18
      [st.state0, st.state1, st.state2, st.state3].foldl xxh64Merge merged
    else xxh64Prime4
  let singleRounds := st.offset >>> 3
  if 4 ≤ singleRounds then .error .assertion
  else
    let hash := (List.range singleRounds).foldl (fun hash i =>
      xxh64Mergestep (rotl64 (hash ^^^ xxh64Shuffle (ldle64 st.buf (8 * i))) 27)) (hash + st.len)
    let ptr := 8 * singleRounds
    let word := UInt64.ofNat (leWord st.buf ptr 4)
    let (hash, ptr) :=
      if st.offset &&& 4 ≠ 0 then
        (rotl64 (hash ^^^ word * xxh64Prime0) 23 * xxh64Prime1 + xxh64Prime2, ptr + 4)
      else (hash, ptr)
    let hash := (bytesAt st.buf ptr (st.offset &&& 3)).foldl xxh64Byte hash
    let hash := (hash ^^^ hash >>> 33) * xxh64Prime1
    let hash := (hash ^^^ hash >>> 29) * xxh64Prime2
    .ok (hash ^^^ hash >>> 32)

/-- `memcpy((u8 *)state->buf + offset, buf, n)`. -/
def Xxh64State.fill (st : Xxh64State) (offset : Nat) (data : Nat → UInt8) (n : Nat) : Xxh64State :=
  { st with buf := fun i => if offset ≤ i ∧ i < offset + n then data (i - offset) else st.buf i }

/-- The four rounds of a stripe of 32 bytes. -/
def Xxh64State.stripe (st : Xxh64State) (data : Nat → UInt8) (a : Nat) : Xxh64State :=
  { st with
    state0 := xxh64Round st.state0 (ldle64 data a)
    state1 := xxh64Round st.state1 (ldle64 data (a + 8))
    state2 := xxh64Round st.state2 (ldle64 data (a + 16))
    state3 := xxh64Round st.state3 (ldle64 data (a + 24)) }

/-- `while (size >= 32)`, `n` times from `data[ptr]` on; without unaligned loads a stripe goes
through the buffer. -/
def Xxh64State.stripes (unaligned : Bool) (data : Nat → UInt8) (ptr n : Nat) (st : Xxh64State) :
    Xxh64State :=
  (List.range n).foldl (fun st i =>
    let a := ptr + 32 * i
    if unaligned then st.stripe data a
    else
      let st := st.fill 0 (fun k => data (a + k)) 32
      st.stripe st.buf 0) st

def xxh64Update (unaligned : Bool) (st : Xxh64State) (data : Nat → UInt8) (size : Nat) :
    Except Fault Xxh64State :=
  let st := { st with len := st.len + UInt64.ofNat size }
  if size ≤ 32 ∧ st.offset + size < 32 then
    .ok { st.fill st.offset data size with offset := st.offset + size }
  else
    let fillup := 32 - st.offset
    if size < fillup then .error .assertion
    else
      let st := st.fill st.offset data fillup
      let st := { st.stripe st.buf 0 with longHash := true }
      let n := (size - fillup) / 32
      let st := st.stripes unaligned data fillup n
      let ptr := fillup + 32 * n
      .ok { st.fill 0 (fun k => data (ptr + k)) (size - ptr) with offset := size - ptr }

def xxh64Init (st : Xxh64State) : Xxh64State :=
  { st with
    offset := 0
    len := 0
    longHash := false
    state0 := xxh64Prime0 + xxh64Prime1
    state1 := xxh64Prime1
    state2 := 0
    state3 := 0 - xxh64Prime0 }

/-! ## Frames -/

def singleSegmentFlag : Nat := 0x20
def frameHeaderDescriptorReserved : Nat := 8
def contentChecksumFlag : Nat := 4

/-- The size of the content size field. -/
def fcsFieldSize (desc : Nat) : Nat :=
  let size := desc >>> 6
  if desc &&& singleSegmentFlag ≠ 0 ∨ size ≠ 0 then 1 <<< size else size

/-- Content size and window descriptor. -/
def frameHeaderSize (desc : Nat) : Nat :=
  fcsFieldSize desc + if desc &&& singleSegmentFlag ≠ 0 then 0 else 1

/-- The content size, in a field of 1, 2, 4 or 8 bytes; that of two bytes starts at 256. -/
def contentSize (inp : Nat → UInt8) (ptr size : Nat) : Nat :=
  if size = 2 then (inp (ptr + 1)).toNat <<< 8 + 0x100 ||| (inp ptr).toNat
  else leWord inp ptr size

def probe (inp : Nat → UInt8) (start stop : Nat) : ProbeStatus :=
  if stop - start < 4 then .notEnoughData
  else if leWord inp start 4 ≠ 0xfd2fb528 then .wrongMagic
  else if stop - start < 6 then .notEnoughData
  else
    let desc := (inp (start + 4)).toNat
    if desc &&& frameHeaderDescriptorReserved ≠ 0 then .reservedFeature
    else if desc &&& 3 ≠ 0 then .unimplementedFeature
    else
      let ptr := start + 5
      if stop - ptr < frameHeaderSize desc then .notEnoughData
      else
        let ptr := if desc &&& singleSegmentFlag ≠ 0 then ptr else ptr + 1
        if fcsFieldSize desc = 0 then .sizeUnknown
        else .sizeKnown (contentSize inp ptr (fcsFieldSize desc))

/-- The step `decode` points to. -/
inductive Step where
  | decodeBlock
  | decodeTrailer
  deriving DecidableEq, Repr

/-- `struct zstd_dec_state`; no step is the null pointer. -/
structure ZstdDecState where
  decode : Option Step
  st : DecompressorState
  tables : DecTables
  xxh64 : Xxh64State
  windowSize : Nat
  haveContentChecksum : Bool

/-- `decode` is cleared before the data is known to be there. -/
def decodeTrailer (inp : Nat → UInt8) (st : ZstdDecState) (start stop : Nat) :
    Except Fault (DecodeResult × ZstdDecState) :=
  let st := { st with decode := none }
  if st.haveContentChecksum then
    if stop - start < 4 then .ok (.status .needMoreData, st)
    else do
      let hash ← xxh64Finalize st.xxh64
      if hash.toNat % 2 ^ 32 ≠ leWord inp start 4 then pure (.status .err, st)
      else pure (.consumed 4, st)
  else .ok (.consumed 0, st)

section
variable (unaligned : Bool) (inp : Nat → UInt8) (st : ZstdDecState) (start stop : Nat)

/-- The checksum behind a block of `decompSize` bytes. -/
def ZstdDecState.checksum (decompSize : Nat) : Exec Xxh64State :=
  if st.haveContentChecksum then do
    let data ← Exec.view fun m => fun i => m.byte (st.st.out + i)
    Exec.lift (xxh64Update unaligned st.xxh64 data decompSize)
  else pure st.xxh64

/-- The pointers and the next step behind a block of `decompSize` bytes. -/
def ZstdDecState.behind (lastBlock : Bool) (decompSize : Nat) (xxh64 : Xxh64State) : ZstdDecState :=
  let out := st.st.out + decompSize
  let windowStart :=
    if st.windowSize < out - st.st.windowStart then out - st.windowSize else st.st.windowStart
  { st with
    xxh64 := xxh64
    st := { st.st with out := out, windowStart := windowStart }
    decode := if lastBlock then some .decodeTrailer else st.decode }

def ZstdDecState.advance (lastBlock : Bool) (decompSize : Nat) : Exec ZstdDecState := do
  let xxh64 ← st.checksum unaligned decompSize
  pure (st.behind lastBlock decompSize xxh64)

def rawBlock (ptr blockSize : Nat) (lastBlock : Bool) : Exec (DecodeResult × ZstdDecState) :=
  if st.st.outEnd - st.st.out < blockSize then pure (.status .needMoreSpace, st)
  else if stop - ptr < blockSize then pure (.status .needMoreData, st)
  else do
    lzcommonLiteralCopy inp .input st.st.out ptr blockSize
    let st ← st.advance unaligned lastBlock blockSize
    pure (.consumed (blockSize + 3), st)

/-- `*out = *in++; lzcommon_match_copy(out + 1, 1, block_size - 1);` -/
def writeRle (out ptr blockSize : Nat) : Exec Unit :=
  if blockSize = 0 then pure ()
  else do
    Exec.store out (inp ptr)
    lzcommonMatchCopy inp (out + 1) 1 (blockSize - 1)

def rleBlock (ptr blockSize : Nat) (lastBlock : Bool) : Exec (DecodeResult × ZstdDecState) :=
  if st.st.outEnd - st.st.out < blockSize then pure (.status .needMoreSpace, st)
  else if stop - ptr < 1 then pure (.status .needMoreData, st)
  else do
    writeRle inp st.st.out ptr blockSize
    let st ← st.advance unaligned lastBlock blockSize
    pure (.consumed 4, st)

def compressedBlock (ptr blockSize : Nat) (lastBlock : Bool) :
    Exec (DecodeResult × ZstdDecState) :=
  if stop - ptr < blockSize then pure (.status .needMoreData, st)
  else do
    match ← decompressBlock unaligned inp start stop (st.st.outEnd - lzcommonBlock)
      st.st.windowStart st.st.out ptr (ptr + blockSize) st.tables with
    | (.status s, tables) => pure (.status s, { st with tables := tables })
    | (.consumed decompSize, tables) => do
      let st ← { st with tables := tables }.advance unaligned lastBlock decompSize
      pure (.consumed (blockSize + 3), st)

def decodeBlock : Exec (DecodeResult × ZstdDecState) :=
  if stop - start < 3 then pure (.status .needMoreData, st)
  else
    let header := (inp start).toNat
    let lastBlock := header.testBit 0
    let blockSize := header >>> 3 ||| (inp (start + 1)).toNat <<< 5 ||| (inp (start + 2)).toNat <<< 13
    let ptr := start + 3
    if st.st.outEnd - st.st.out ≤ lzcommonBlock then pure (.status .needMoreSpace, st)
    else if header >>> 1 &&& 3 = 0 then rawBlock unaligned inp st stop ptr blockSize lastBlock
    else if header >>> 1 &&& 3 = 1 then rleBlock unaligned inp st stop ptr blockSize lastBlock
    else if header >>> 1 &&& 3 = 2 then
      compressedBlock unaligned inp st start stop ptr blockSize lastBlock
    else pure (.status .err, st)

/-- The step a client runs; with a null `decode` there is none. -/
def ZstdDecState.run : Exec (DecodeResult × ZstdDecState) :=
  match st.decode with
  | none => Exec.fault .undefined
  | some .decodeBlock => decodeBlock unaligned inp st start stop
  | some .decodeTrailer => Exec.lift (decodeTrailer inp st start stop)

end

def init (inp : Nat → UInt8) (st : ZstdDecState) (start stop : Nat) :
    Exec (Option Nat × ZstdDecState) := do
  Exec.assert (6 ≤ stop - start)
  let desc := (inp (start + 4)).toNat
  Exec.assert (5 + frameHeaderSize desc < stop - start)
  let ptr := start + 5
  let first := (inp ptr).toNat
  let single := desc &&& singleSegmentFlag ≠ 0
  let windowSize :=
    if single then contentSize inp ptr (fcsFieldSize desc)
    else (8 ||| (first &&& 7)) <<< 7 <<< (first >>> 3)
  let ptr := if single then ptr else ptr + 1
  pure (some (ptr + fcsFieldSize desc), { st with
    windowSize := windowSize
    tables := { st.tables with
      distLog := tableNotAvailable, lengthLog := tableNotAvailable, copyLog := tableNotAvailable
      huffDepth := 0
      dist1 := 1, dist2 := 4, dist3 := 8 }
    decode := some .decodeBlock
    haveContentChecksum := desc &&& contentChecksumFlag ≠ 0
    xxh64 := xxh64Init st.xxh64 })

abbrev zstdDecompressor (unaligned : Bool) : Decompressor where
  State := ZstdDecState
  probe := probe
  init := init
  running st := st.decode.isSome
  decode := ZstdDecState.run unaligned
  client st := st.st
  setClient st c := { st with st := c }

end Rkboot.Compression.Zstd
