import Rkboot.Compression.Status
import Rkboot.Lib.Word

/-! # The gzip decompressor

`block_start` reads a block header and builds the decoding tables, `huff_block`
and `raw_block` decode the block, `trailer` checks CRC and size. Tables are
functions on indices; an index past the end of one of the decoder's arrays stops
the run. `unaligned` chooses between the two refills the source has. -/
namespace Rkboot.Compression.Inflate
open Lib
open Function (update)

/-! ## CRC -/

def crc32Byte (input poly : Nat) : Nat :=
  (List.range 8).foldl (fun x _ => (x >>> 1) ^^^ (if x &&& 1 ≠ 0 then poly else 0)) input

/-- `crc = crc >> 8 ^ crc_table[(u8)crc ^ c]`. -/
def crcStep (table : Nat → Nat) (crc : Nat) (c : UInt8) : Nat :=
  (crc >>> 8) ^^^ table (crc % 256 ^^^ c.toNat)

/-! ## Huffman tables -/

/-- What `construct_codes` has given out; no `code` is behind its `goto end`. -/
structure Alloc where
  code : Option Nat
  codes : Nat → Nat
  allocated : Nat

/-- The next code of the same length, in reversed bit order. -/
def increment : Nat → Nat → Option Nat
  | 0, code => if code.testBit 0 then none else some (code ||| 1 <<< 0)
  | pos + 1, code =>
    -- the bit is set, so clearing it is an exclusive or
    if code.testBit (pos + 1) then increment pos (code ^^^ 1 <<< (pos + 1))
    else some (code ||| 1 <<< (pos + 1))

def allocSym (lengths : Nat → Nat) (len : Nat) (a : Alloc) (sym : Nat) : Alloc :=
  match a.code with
  | none => a
  | some code =>
    if lengths sym ≠ len then a
    else ⟨increment (len - 1) code, update a.codes sym code, a.allocated + 1⟩

def activeSyms (numSymbols : Nat) (lengths : Nat → Nat) : Nat :=
  (List.range numSymbols).countP fun sym => lengths sym ≠ 0

def clearUnused (numSymbols : Nat) (lengths codes : Nat → Nat) : Nat → Nat :=
  fun sym => if sym < numSymbols ∧ lengths sym = 0 then 0 else codes sym

def constructCodes (numSymbols : Nat) (lengths codes : Nat → Nat) : Except Fault (Nat → Nat) :=
  let a := (List.range' 1 15).foldl
    (fun a len => (List.range numSymbols).foldl (allocSym lengths len) a)
    ⟨some 0, clearUnused numSymbols lengths codes, 0⟩
  if activeSyms numSymbols lengths = a.allocated then .ok a.codes else .error .assertion

/-- A decoding table: `dectable` for codes of up to 11 bits, the symbols with longer codes in
`overlength`, those of length `12 + i` from `oloff[i]` to `oloff[i + 1]`. -/
structure HuffTable where
  dectable : Nat → Nat
  oloff : Nat → Nat
  overlength : Nat → Nat

/-- The entries of one symbol. -/
def enterSym (lengths codes : Nat → Nat) (dectable : Nat → Nat) (sym : Nat) : Nat → Nat :=
  let len := lengths sym
  if len = 0 then dectable
  else if len ≤ 11 then
    (List.range (2048 >>> len)).foldl
      (fun t i => update t (i <<< len ||| codes sym) (len ||| sym <<< 4)) dectable
  else update dectable (codes sym &&& 0x7ff) 12

/-- `overlength_count[len - 12]` behind the first `n` symbols. -/
def overlengthCount (lengths : Nat → Nat) (n len : Nat) : Nat :=
  (List.range n).countP fun sym => lengths sym = len

def overlengthOffset (lengths : Nat → Nat) (n : Nat) : Nat → Nat
  | 0 => 0
  | i + 1 => overlengthOffset lengths n i + overlengthCount lengths n (12 + i)

/-- The second pass: `count` counts the symbols of each length from the start again. -/
def placeSym (lengths codes oloff : Nat → Nat) (t : (Nat → Nat) × (Nat → Nat)) (sym : Nat) :
    Except Fault ((Nat → Nat) × (Nat → Nat)) :=
  let len := lengths sym
  if len < 12 then .ok t
  else
    let (count, overlength) := t
    let idx := count (len - 12) + oloff (len - 12)
    if idx < oloff (len - 11) then
      .ok (update count (len - 12) (count (len - 12) + 1),
        update overlength idx (sym ||| codes sym <<< 9))
    else .error .assertion

def constructDectable (numSymbols : Nat) (lengths codes : Nat → Nat) (overlength : Nat → Nat) :
    Except Fault HuffTable := do
  if (List.range numSymbols).any fun sym => 15 < lengths sym then throw .assertion
  let dectable := (List.range numSymbols).foldl (enterSym lengths codes) fun _ => 10
  let oloff := overlengthOffset lengths numSymbols
  let (count, overlength) ← (List.range numSymbols).foldlM (placeSym lengths codes oloff)
    (fun _ => 0, overlength)
  if (List.range 4).all fun i => oloff i + count i == oloff (i + 1) then
    pure ⟨dectable, oloff, overlength⟩
  else throw .assertion

/-! ## Bit buffers -/

structure BitBuf where
  ptr : Nat
  bits : Nat
  numBits : Nat

/-- `bits >>= n; num_bits -= n;` -/
def BitBuf.skip (b : BitBuf) (n : Nat) : BitBuf := ⟨b.ptr, b.bits >>> n, b.numBits - n⟩

/-- `bits |= *ptr++ << num_bits; num_bits += 8;` -/
def BitBuf.push (inp : Nat → UInt8) (b : BitBuf) : BitBuf :=
  ⟨b.ptr + 1, b.bits ||| (inp b.ptr).toNat <<< b.numBits, b.numBits + 8⟩

/-- `REFILL_LOOP`; with fewer than 25 bits four bytes are enough. -/
def refillLoop (inp : Nat → UInt8) (stop : Nat) : Nat → BitBuf → BitBuf
  | 0, b => b
  | fuel + 1, b => if b.numBits < 25 ∧ b.ptr < stop then refillLoop inp stop fuel (b.push inp) else b

section
variable (unaligned : Bool) (inp : Nat → UInt8) (start stop : Nat)

/-- `REFILL`; the word loaded by `LDU32LEU_END` must lie in the slice, and 32 is no shift. -/
def refill (b : BitBuf) : Except Fault BitBuf :=
  if unaligned then
    if b.ptr = stop then .ok b
    else
      let readBytes := min ((32 - b.numBits) / 8) (stop - b.ptr)
      let numBits := b.numBits + 8 * readBytes
      let ptr := b.ptr + readBytes
      if ptr < start + 4 then .error .bounds
      else if numBits = 0 then .error .undefined
      else .ok ⟨ptr, leWord inp (ptr - 4) 4 >>> (32 - numBits), numBits⟩
  else .ok (refillLoop inp stop 4 b)

end

/-- `REFILL_LOOP` into an empty container, behind the bits of the byte that are used up. -/
def startBits (inp : Nat → UInt8) (start stop skipBits : Nat) : BitBuf :=
  (refillLoop inp stop 4 ⟨start, 0, 0⟩).skip skipBits

/-! ## Symbols -/

/-- `for_range(i, ..)` over a slice of the overlength symbols, an array of `size` entries. -/
def search (overlength : Nat → Nat) (size suffix : Nat) : Nat → Nat → Except Fault (Option Nat)
  | 0, _ => .ok none
  | k + 1, i =>
    if size ≤ i then .error .bounds
    else if overlength i >>> 9 = suffix then .ok (some (overlength i &&& 0x1ff))
    else search overlength size suffix k (i + 1)

/-- The search by increasing length. `++len == 4` never holds, so behind length 15 the loop goes
on to `oloff[5]`. -/
def overlengthSym (t : HuffTable) (size bits numBits : Nat) :
    Nat → Nat → Except Fault (Option (Nat × Nat))
  | 0, len => if numBits < len then .ok none else .error .bounds
  | fuel + 1, len =>
    if numBits < len then .ok none
    else do
      match ← search t.overlength size (bits &&& (1 <<< len - 1))
        (t.oloff (len - 11) - t.oloff (len - 12)) (t.oloff (len - 12)) with
      | some sym => pure (some (sym, len))
      | none => overlengthSym t size bits numBits fuel (len + 1)

/-- A symbol and the length of its code; `none` if there are not enough bits. -/
def decodeSym (t : HuffTable) (size : Nat) (b : BitBuf) : Except Fault (Option (Nat × Nat)) :=
  let val := t.dectable (b.bits &&& 0x7ff)
  let len := val &&& 0xf
  if 11 < len then overlengthSym t size b.bits b.numBits 4 12
  else if b.numBits < len then .ok none
  else .ok (some (val >>> 4, len))

/-! ## State -/

/-- The step `decode` points to. -/
inductive Step where
  | blockStart
  | huffBlock
  | rawBlock
  | trailer
  deriving DecidableEq, Repr

/-- `struct gzip_dec_state`; no step is the null pointer. -/
structure GzipDecState where
  decode : Option Step
  st : DecompressorState
  crcTable : Nat → Nat
  crc : Nat
  isize : Nat
  skipBits : Nat
  lastBlock : Bool
  litLengths : Nat → Nat
  distLengths : Nat → Nat
  litCodes : Nat → Nat
  distCodes : Nat → Nat
  lit : HuffTable
  dist : HuffTable
  litBase : Nat → Nat
  distBase : Nat → Nat

def litExtra (i : Nat) : Nat :=
  [1, 1, 1, 1, 2, 2, 2, 2, 3, 3, 3, 3, 4, 4, 4, 4, 5, 5, 5, 5, 0].getD i 0

def distExtra (i : Nat) : Nat :=
  [1, 1, 2, 2, 3, 3, 4, 4, 5, 5, 6, 6, 7, 7, 8, 8, 9, 9, 10, 10, 11, 11, 12, 12, 13, 13].getD i 0

/-- `decode = !last_block ? block_start : trailer`. -/
def GzipDecState.nextBlock (st : GzipDecState) : Option Step :=
  some (if !st.lastBlock then .blockStart else .trailer)

/-! ## Tokens of a Huffman block -/

/-- A decoded token; a match with its length as the tables give it. -/
inductive RawToken where
  | literal (lit : Nat)
  | endOfBlock
  | copy (length dist : Nat)

section
variable (unaligned : Bool) (inp : Nat → UInt8) (start stop : Nat) (st : GzipDecState)

/-- The length a symbol above 256 stands for, with its extra bits. -/
def readLength (lit : Nat) (b : BitBuf) : Except Fault (Option (Nat × BitBuf)) :=
  let length := lit - 257 + 3
  if 11 ≤ length then
    let idx := length - 11
    if 21 ≤ idx then .error .bounds
    else
      let numExtra := litExtra idx
      let length := st.litBase idx + (b.bits &&& (1 <<< numExtra - 1))
      if b.numBits < numExtra then .ok none else .ok (some (length, b.skip numExtra))
  else .ok (some (length, b))

/-- The distance of a symbol, with its extra bits. -/
def readDist (sym : Nat) (b : BitBuf) : Except Fault (Option (Nat × BitBuf)) :=
  let dist := sym + 1
  if 5 ≤ dist then
    let idx := dist - 5
    if 26 ≤ idx then .error .bounds
    else do
      let b ← refill unaligned inp start stop b
      let numExtra := distExtra idx
      let dist := st.distBase idx + (b.bits &&& (1 <<< numExtra - 1))
      if b.numBits < numExtra then pure none else pure (some (dist, b.skip numExtra))
  else .ok (some (dist, b))

/-- What follows a length: the distance symbol and its extra bits. -/
def readMatch (length : Nat) (b : BitBuf) : Except Fault (Option (RawToken × BitBuf)) := do
  let b ← refill unaligned inp start stop b
  match ← decodeSym st.dist 30 b with
  | none => pure none
  | some (sym, len) =>
    match ← readDist unaligned inp start stop st sym (b.skip len) with
    | none => pure none
    | some (dist, b) => pure (some (.copy length dist, b))

/-- The next token; `none` where the source is interrupted for lack of data. -/
def readToken (b : BitBuf) : Except Fault (Option (RawToken × BitBuf)) := do
  match ← decodeSym st.lit 286 b with
  | none => pure none
  | some (lit, len) =>
    let b := b.skip len
    if lit < 256 then pure (some (.literal lit, b))
    else if 256 < lit then
      match ← readLength st lit b with
      | none => pure none
      | some (length, b) => readMatch unaligned inp start stop st length b
    else pure (some (.endOfBlock, b))

/-! ## The Huffman block -/

/-- How the loop of `huff_block` ends. -/
inductive HuffEnd where
  | err
  | interrupted (s : DecodeStatus) (b : BitBuf) (out crc : Nat)
  | ended (b : BitBuf) (out crc : Nat)

/-- The body of `do { .. } while (--length);`, `n` times. -/
def copyMatch (table : Nat → Nat) (dist : Nat) : Nat → Nat → Nat → Exec Nat
  | 0, _, crc => pure crc
  | n + 1, out, crc => do
    let c ← Exec.load (fun _ => 0) .output (out - dist)
    Exec.store out c
    copyMatch table dist n (out + 1) (crcStep table crc c)

/-- How often the body runs; from 0 the counter wraps. -/
def copyCount (length : Nat) : Nat := if length = 0 then 2 ^ 32 else length

def huffLoop : Nat → BitBuf → Nat → Nat → Exec HuffEnd
  | 0, _, _, _ => Exec.fault .undefined
  | fuel + 1, b, out, crc => do
    match ← Exec.lift (readToken unaligned inp start stop st b) with
    | none => pure (.interrupted .needMoreData b out crc)
    | some (.endOfBlock, b') => pure (.ended b' out crc)
    | some (.literal lit, b') =>
      if st.st.outEnd ≤ out then pure (.interrupted .needMoreSpace b out crc)
      else do
        let c := UInt8.ofNat lit
        Exec.store out c
        let b' ← Exec.lift (refill unaligned inp start stop b')
        huffLoop fuel b' (out + 1) (crcStep st.crcTable crc c)
    | some (.copy length dist, b') =>
      if out - st.st.windowStart < dist then pure .err
      else if length = 258 then pure .err
      else
        let length := if 258 ≤ length then 258 else length
        if st.st.outEnd - out < length then pure (.interrupted .needMoreSpace b out crc)
        else do
          let crc ← copyMatch st.crcTable dist (copyCount length) out crc
          let b' ← Exec.lift (refill unaligned inp start stop b')
          huffLoop fuel b' (out + copyCount length) crc

/-- What `huff_block` leaves behind. -/
def GzipDecState.finish (b : BitBuf) (out crc : Nat) : GzipDecState :=
  { st with
    skipBits := (8 - b.numBits % 8) % 8
    isize := (st.isize + (out - st.st.out)) % 2 ^ 32
    crc := crc
    st := { st.st with
      out := out
      windowStart := if 32768 < out - st.st.windowStart then out - 32768 else st.st.windowStart } }

/-- The bytes in front of the one that holds the next bit. -/
def BitBuf.consumed (b : BitBuf) : Nat := b.ptr - start - (b.numBits + 7) / 8

/-- Every turn of the loop takes a bit of input or a byte of space. -/
def huffFuel : Nat := 8 * (stop - start) + (st.st.outEnd - st.st.out) + 1

def huffBlock : Exec (DecodeResult × GzipDecState) :=
  if stop - start < 4 then pure (.status .needMoreData, st)
  else do
    let b := startBits inp start stop st.skipBits
    match ← huffLoop unaligned inp start stop st (huffFuel start stop st) b st.st.out st.crc with
    | .err => pure (.status .err, st)
    | .interrupted s b out crc =>
      let res := if st.st.out < out then .consumed (b.consumed start) else .status s
      pure (res, st.finish b out crc)
    | .ended b out crc =>
      pure (.consumed (b.consumed start), { st.finish b out crc with decode := st.nextBlock })

end

/-! ## Stored blocks and the trailer -/

/-- `while (in < end) {u8 c = *out++ = *in++; crc = ..;}` -/
def copyRaw (table : Nat → Nat) (inp : Nat → UInt8) : Nat → Nat → Nat → Nat → Exec Nat
  | 0, _, _, crc => pure crc
  | n + 1, ptr, out, crc => do
    Exec.store out (inp ptr)
    copyRaw table inp n (ptr + 1) (out + 1) (crcStep table crc (inp ptr))

def rawBlock (inp : Nat → UInt8) (st : GzipDecState) (start stop : Nat) :
    Exec (DecodeResult × GzipDecState) :=
  if stop - start < 4 then pure (.status .needMoreData, st)
  else
    let len := leWord inp start 2
    let nlen := leWord inp (start + 2) 2
    if len ^^^ (0xffff ^^^ nlen) ≠ 0 then pure (.status .err, st)
    else if stop - (start + 4) < len then pure (.status .needMoreData, st)
    else if st.st.outEnd - st.st.out < len then pure (.status .needMoreSpace, st)
    else do
      let crc ← copyRaw st.crcTable inp len (start + 4) st.st.out st.crc
      pure (.consumed (4 + len), { st with
        decode := st.nextBlock
        st := { st.st with out := st.st.out + len }
        crc := crc
        isize := (st.isize + len) % 2 ^ 32 })

def trailer (inp : Nat → UInt8) (st : GzipDecState) (start stop : Nat) :
    DecodeResult × GzipDecState :=
  if stop - start = 0 then (.status .needMoreData, st)
  else
    let ptr := if st.skipBits ≠ 0 then start + 1 else start
    if stop - ptr < 8 then (.status .needMoreData, st)
    else if leWord inp ptr 4 ≠ st.crc ^^^ 0xffffffff then (.status .err, st)
    else if st.isize ≠ leWord inp (ptr + 4) 4 then (.status .err, st)
    else (.consumed (ptr + 8 - start), { st with decode := none })

/-! ## Code lengths -/

/-- `ERROR_CODES`. -/
inductive HuffError where
  | outOfData
  | firstRep
  | repTooLong
  | fillTooLong
  | codeUnassigned
  deriving DecidableEq, Repr

/-- `if (!huff.ptr) {return DECODE_NEED_MORE_DATA;}` and `check(huff.val == NO_ERROR, ..)`. -/
def HuffError.status : HuffError → DecodeStatus
  | .outOfData => .needMoreData
  | .codeUnassigned => .needMoreData
  | .firstRep => .err
  | .repTooLong => .err
  | .fillTooLong => .err

section
variable (inp : Nat → UInt8) (stop : Nat)

/-- Bytes are taken in until `want` says that there are enough bits. -/
def fillBits (want : BitBuf → Nat) : Nat → BitBuf → Option BitBuf
  | 0, b => some b
  | fuel + 1, b =>
    if b.numBits < want b then if stop ≤ b.ptr then none else fillBits want fuel (b.push inp)
    else some b

/-- `huff_with_extra`, which is not given tables for overlength codes. -/
def huffWithExtra (dectable : Nat → Nat) (val : Nat) (extraBitTable baselineTable : List Nat)
    (b : BitBuf) : Except Fault (Except HuffError (Nat × BitBuf)) :=
  match fillBits inp stop (fun b => dectable (b.bits &&& 0x7ff) &&& 0xf) 3 b with
  | none => .ok (.error .outOfData)
  | some b =>
    let entry := dectable (b.bits &&& 0x7ff)
    let len := entry &&& 0xf
    if 12 ≤ len then .error .undefined
    else
      let b := b.skip len
      let sym := entry >>> 4
      if sym < val then .ok (.ok (sym, b))
      else
        let idx := sym - val
        if extraBitTable.length ≤ idx then .error .bounds
        else
          let extra := extraBitTable.getD idx 0
          match fillBits inp stop (fun _ => extra) 2 b with
          | none => .ok (.error .outOfData)
          | some b =>
            .ok (.ok (val + baselineTable.getD idx 0 + (b.bits &&& (1 <<< extra - 1)), b.skip extra))

def clengthExtra : List Nat := [2, 3, 7]
def clengthBase : List Nat := [0, 4, 12]

/-- `while (sym < end) {lengths[sym] = lengths[sym - 1]; sym += 1;}` -/
def repeatLast (lengths : Nat → Nat) (sym rep : Nat) : Nat → Nat :=
  (List.range' sym rep).foldl (fun l s => update l s (l (s - 1))) lengths

/-- `while (sym < end) {lengths[sym++] = 0;}` -/
def fillZero (lengths : Nat → Nat) (sym rep : Nat) : Nat → Nat :=
  (List.range' sym rep).foldl (fun l s => update l s 0) lengths

/-- `decode_lengths` from symbol `sym` on; the lengths stored so far stay stored. -/
def decodeLengths (dectable : Nat → Nat) (numSymbols : Nat) :
    Nat → Nat → BitBuf → (Nat → Nat) → Except Fault ((Nat → Nat) × Except HuffError BitBuf)
  | 0, _, b, lengths => .ok (lengths, .ok b)
  | fuel + 1, sym, b, lengths =>
    if numSymbols ≤ sym then .ok (lengths, .ok b)
    else do
      match ← huffWithExtra inp stop dectable 16 clengthExtra clengthBase b with
      | .error e => pure (lengths, .error e)
      | .ok (lengthCode, b) =>
        if lengthCode < 16 then
          decodeLengths dectable numSymbols fuel (sym + 1) b (update lengths sym lengthCode)
        else if lengthCode < 20 then
          let rep := lengthCode - 16 + 3
          if sym = 0 then pure (lengths, .error .firstRep)
          else if numSymbols < sym + rep then pure (lengths, .error .repTooLong)
          else decodeLengths dectable numSymbols fuel (sym + rep) b (repeatLast lengths sym rep)
        else
          let rep := lengthCode - 20 + 3
          if numSymbols < sym + rep then pure (lengths, .error .fillTooLong)
          else decodeLengths dectable numSymbols fuel (sym + rep) b (fillZero lengths sym rep)

end

/-- `for_range(i, n, size) {lengths[i] = 0;}` -/
def clearFrom (n size : Nat) (lengths : Nat → Nat) : Nat → Nat :=
  fun i => if n ≤ i ∧ i < size then 0 else lengths i

/-! ## Block headers -/

def hclenOrder (i : Nat) : Nat :=
  [16, 17, 18, 0, 8, 7, 9, 6, 10, 5, 11, 4, 12, 3, 13, 2, 14, 1, 15].getD i 0

section
variable (unaligned : Bool) (inp : Nat → UInt8) (start stop : Nat)

/-- The lengths of the code length code, from position `i` of `hclen_order` on. -/
def readCodeLengths : Nat → Nat → BitBuf → (Nat → Nat) → Except Fault (Option (BitBuf × (Nat → Nat)))
  | 0, _, b, lengths2 => .ok (some (b, lengths2))
  | n + 1, i, b, lengths2 => do
    let b ← refill unaligned inp start stop b
    if b.numBits < 3 then pure none
    else readCodeLengths n (i + 1) (b.skip 3) (update lengths2 (hclenOrder i) (b.bits &&& 7))

/-- The end of the dynamic branch: the tables of both alphabets. -/
def buildTables (st : GzipDecState) : Except Fault GzipDecState := do
  let litCodes ← constructCodes 286 st.litLengths st.litCodes
  let lit ← constructDectable 286 st.litLengths litCodes st.lit.overlength
  let distCodes ← constructCodes 30 st.distLengths st.distCodes
  let dist ← constructDectable 30 st.distLengths distCodes st.dist.overlength
  pure { st with litCodes := litCodes, lit := lit, distCodes := distCodes, dist := dist }

/-- The dynamic branch behind the code length code: the two length sequences and their tables. -/
def readTables (st : GzipDecState) (hlit hdist : Nat) (lengths2 : Nat → Nat) (b : BitBuf) :
    Except Fault ((DecodeStatus ⊕ BitBuf) × GzipDecState) := do
  let lengthCodes ← constructCodes 19 lengths2 fun _ => 0
  let table ← constructDectable 19 lengths2 lengthCodes st.dist.overlength
  let st := { st with dist := table }
  let (litLengths, res) ← decodeLengths inp stop table.dectable hlit hlit 0 b st.litLengths
  match res with
  | .error e => pure (.inl e.status, { st with litLengths := litLengths })
  | .ok b =>
    let st := { st with litLengths := clearFrom hlit 286 litLengths }
    let (distLengths, res) ← decodeLengths inp stop table.dectable hdist hdist 0 b st.distLengths
    match res with
    | .error e => pure (.inl e.status, { st with distLengths := distLengths })
    | .ok b =>
      let st ← buildTables { st with distLengths := clearFrom hdist 30 distLengths }
      pure (.inr b, st)

/-- The dynamic branch of `block_start`, behind the three header bits. -/
def dynamicHeader (st : GzipDecState) (b : BitBuf) :
    Except Fault ((DecodeStatus ⊕ BitBuf) × GzipDecState) := do
  let b ← refill unaligned inp start stop b
  if b.numBits < 14 then pure (.inl .needMoreData, st)
  else
    let hlit := (b.bits &&& 31) + 257
    let hdist := (b.bits >>> 5 &&& 31) + 1
    let hclen := (b.bits >>> 10 &&& 15) + 4
    if 286 < hlit then pure (.inl .err, st)
    else if 30 < hdist then pure (.inl .err, st)
    else
      match ← readCodeLengths unaligned inp start stop hclen 0 (b.skip 14) fun _ => 0 with
      | none => pure (.inl .needMoreData, st)
      | some (b, lengths2) =>
        let lengths2 := (List.range' hclen (19 - hclen)).foldl
          (fun l i => update l (hclenOrder i) 0) lengths2
        readTables inp stop st hlit hdist lengths2 b

def bitrevNibble (i : Nat) : Nat :=
  [0x0, 0x8, 0x4, 0xc, 0x2, 0xa, 0x6, 0xe, 0x1, 0x9, 0x5, 0xd, 0x3, 0xb, 0x7, 0xf].getD i 0

/-- An entry of the fixed literal table; a `u16`, so that what is below zero wraps. -/
def fixedLit (i : Nat) : Nat :=
  let rev := (i <<< 8 &&& 0x100) ||| bitrevNibble (i >>> 1 &&& 15) <<< 4 |||
    bitrevNibble (i >>> 5 &&& 15)
  if rev < 0x5f then ((rev >>> 2) + 256) <<< 4 ||| 7
  else if rev < 0x17f then (((rev >>> 1) + 2 ^ 16 - 0x30) <<< 4 ||| 8) % 2 ^ 16
  else if rev < 0x18b then ((rev >>> 1) + 280 - 0xc0) <<< 4 ||| 8
  else if rev < 0x18f then 10
  else (rev + 144 - 0x190) <<< 4 ||| 9

def fixedDist (i : Nat) : Nat :=
  let rev := (i <<< 4 &&& 0x10) ||| bitrevNibble (i >>> 1 &&& 15)
  if rev < 30 then rev <<< 4 ||| 5 else 10

/-- The loop over `i < 512` that stores each entry four times. -/
def fixedTable (entry : Nat → Nat) (t : Nat → Nat) : Nat → Nat :=
  (List.range 512).foldl (fun t i =>
    update (update (update (update t (i + 512) (entry i))
      i (entry i)) (i + 1536) (entry i)) (i + 1024) (entry i)) t

/-- The fixed branch of `block_start`, with its four assertions. -/
def fixedTables (st : GzipDecState) : Except Fault GzipDecState :=
  let lit := fixedTable fixedLit st.lit.dectable
  if lit 0 = 0x1007 ∧ lit 0xc = 0x8 ∧ lit 0x3 = (280 <<< 4 ||| 8) ∧ lit 0x13 = 0x909 then
    .ok { st with
      lit := ⟨lit, fun i => if i < 5 then 0 else st.lit.oloff i, st.lit.overlength⟩
      dist := ⟨fixedTable fixedDist st.dist.dectable,
        fun i => if i < 5 then 0 else st.dist.oloff i, st.dist.overlength⟩ }
  else .error .assertion

def blockStart (st : GzipDecState) : Except Fault (DecodeResult × GzipDecState) :=
  if stop - start < 4 then .ok (.status .needMoreData, st)
  else
    let b := startBits inp start stop st.skipBits
    if b.numBits < 3 then .ok (.status .needMoreData, st)
    else
      let blockHeader := b.bits &&& 7
      let b := b.skip 3
      let st := { st with lastBlock := blockHeader &&& 1 ≠ 0 }
      if blockHeader >>> 1 = 0 then
        .ok (.consumed (b.ptr - start - b.numBits / 8),
          { st with decode := some .rawBlock, skipBits := 0 })
      else if 2 < blockHeader >>> 1 then .ok (.status .err, st)
      else if blockHeader >>> 1 = 2 then do
        match ← dynamicHeader unaligned inp start stop st b with
        | (.inl s, st) => pure (.status s, st)
        | (.inr b, st) => pure (.consumed (b.consumed start),
            { st with decode := some .huffBlock, skipBits := (8 - b.numBits % 8) % 8 })
      else do
        let st ← fixedTables st
        pure (.consumed (b.consumed start),
          { st with decode := some .huffBlock, skipBits := (8 - b.numBits % 8) % 8 })

end

/-! ## Streams -/

def fhcrc : Nat := 2
def fextra : Nat := 4
def fname : Nat := 8
def fcomment : Nat := 16
def freservedMask : Nat := 0xe0

def strnlen (inp : Nat → UInt8) : Nat → Nat → Nat
  | _, 0 => 0
  | a, n + 1 => if inp a = 0 then 0 else strnlen inp (a + 1) n + 1

/-- `probe` behind the extra field: name, comment and header CRC. -/
def probeNames (inp : Nat → UInt8) (flags content stop : Nat) : ProbeStatus :=
  let content1 := content + strnlen inp content (stop - content)
  if flags &&& fname ≠ 0 ∧ stop ≤ content1 then .notEnoughData
  else
    let content := if flags &&& fname ≠ 0 then content1 + 1 else content
    let content2 := content + strnlen inp content (stop - content)
    if flags &&& fcomment ≠ 0 ∧ stop ≤ content2 then .notEnoughData
    else
      let content := if flags &&& fcomment ≠ 0 then content2 + 1 else content
      if flags &&& fhcrc ≠ 0 ∧ stop - content < 2 then .notEnoughData
      else .sizeUnknown

def probe (inp : Nat → UInt8) (start stop : Nat) : ProbeStatus :=
  if stop - start < 2 then .notEnoughData
  else if inp start ≠ 31 ∨ inp (start + 1) ≠ 139 then .wrongMagic
  else if stop - start < 18 then .notEnoughData
  else if inp (start + 2) ≠ 8 then .reservedFeature
  else
    let flags := (inp (start + 3)).toNat
    let content := start + 10
    if flags &&& freservedMask ≠ 0 then .reservedFeature
    else if flags &&& fextra ≠ 0 then
      let length := leWord inp content 2
      if stop - (content + 2) < length then .notEnoughData
      else probeNames inp flags (content + 2 + length) stop
    else probeNames inp flags content stop

def crcEntry (i : Nat) : Nat := crc32Byte i 0xedb88320

/-- `lit_base` and `dist_base`: each base is the one before plus what its extra bits count. -/
def baseTable (first : Nat) (extra : Nat → Nat) : Nat → Nat
  | 0 => first
  | i + 1 => baseTable first extra i + 1 <<< extra i

/-- `do { .. } while (++ptr < content);` over `n` header bytes. -/
def headerCrc (inp : Nat → UInt8) (start n : Nat) : Nat :=
  (List.range n).foldl (fun crc i => crcStep crcEntry crc (inp (start + i))) 0xffffffff

/-- A string that must end before `stop`. -/
def skipString (inp : Nat → UInt8) (content stop : Nat) : Except Fault Nat :=
  let content := content + strnlen inp content (stop - content)
  if content < stop then .ok (content + 1) else .error .assertion

/-- The extra field; the assertion is the other way round than it should be. -/
def skipExtra (inp : Nat → UInt8) (content stop : Nat) : Except Fault Nat :=
  let length := leWord inp content 2
  if stop - (content + 2) ≤ length then .ok (content + 2 + length) else .error .assertion

/-- The tables and fields `init` sets when it succeeds. -/
def GzipDecState.reset (st : GzipDecState) : GzipDecState :=
  { st with
    decode := some .blockStart
    litBase := fun i => if i < 21 then baseTable 11 litExtra i else st.litBase i
    distBase := fun i => if i < 26 then baseTable 5 distExtra i else st.distBase i
    skipBits := 0
    lastBlock := false
    isize := 0
    crc := 0xffffffff }

/-- `init` behind the names; `none` is the null pointer. -/
def initContent (inp : Nat → UInt8) (st : GzipDecState) (flags start content stop : Nat) :
    Option Nat × GzipDecState :=
  if flags &&& fhcrc ≠ 0 then
    if stop - content < 2 then (none, st)
    else if headerCrc inp start (content - start) % 2 ^ 16 ≠ leWord inp content 2 then (none, st)
    else if stop - (content + 2) ≤ 8 then (none, st)
    else (some (content + 2), st.reset)
  else if stop - content ≤ 8 then (none, st)
  else (some content, st.reset)

/-- A field of the header that is there only with its flag. -/
def skipIf (flag : Bool) (skip : Nat → Except Fault Nat) (content : Nat) : Except Fault Nat :=
  if flag then skip content else .ok content

def init (inp : Nat → UInt8) (st : GzipDecState) (start stop : Nat) :
    Except Fault (Option Nat × GzipDecState) :=
  if stop - start < 18 then .error .assertion
  else do
    let st := { st with crcTable := fun i => if i < 256 then crcEntry i else st.crcTable i }
    let flags := (inp (start + 3)).toNat
    let content ← skipIf (flags &&& fextra ≠ 0) (skipExtra inp · stop) (start + 10)
    let content ← skipIf (flags &&& fname ≠ 0) (skipString inp · stop) content
    let content ← skipIf (flags &&& fcomment ≠ 0) (skipString inp · stop) content
    pure (initContent inp st flags start content stop)

/-- The step a client runs; with a null `decode` there is none. -/
def GzipDecState.run (unaligned : Bool) (inp : Nat → UInt8) (st : GzipDecState) (start stop : Nat) :
    Exec (DecodeResult × GzipDecState) :=
  match st.decode with
  | none => Exec.fault .undefined
  | some .blockStart => Exec.lift (blockStart unaligned inp start stop st)
  | some .huffBlock => huffBlock unaligned inp start stop st
  | some .rawBlock => rawBlock inp st start stop
  | some .trailer => pure (trailer inp st start stop)

abbrev gzipDecompressor (unaligned : Bool) : Decompressor where
  State := GzipDecState
  probe := probe
  init inp st start stop := Exec.lift (init inp st start stop)
  running st := st.decode.isSome
  decode := GzipDecState.run unaligned
  client st := st.st
  setClient st c := { st with st := c }

end Rkboot.Compression.Inflate
