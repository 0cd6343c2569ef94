import Rkboot.Compression.ZstdTables
import Rkboot.Lib.Word

/-! # The sequences of a zstd block

A sequence says how many literals to copy and the length and distance of the match
behind them. `handle_decoding_table` provides the three FSE tables a block uses,
`decode_sequences` walks them along a bit stream that is read from its end and packs
every sequence into a word. `unaligned` chooses between the two refills the source
has, and `[lo, hi)` is the part of the input that can be read. -/
namespace Rkboot.Compression.Zstd
open Lib

/-! ## Tables of a block -/

/-- `Symbol_Compression_Modes`, two bits each. -/
inductive TableMode where
  | predefinedMode
  | rleMode
  | fseCompressedMode
  | repeatMode
  deriving DecidableEq, Repr

def TableMode.ofBits (bits : Nat) : TableMode :=
  if bits = 0 then .predefinedMode else if bits = 1 then .rleMode
  else if bits = 2 then .fseCompressedMode else .repeatMode

structure TableSettings where
  log : Nat
  sym : Nat
  maxLog : Nat
  predefDistr : List Nat

def tableNotAvailable : Nat := 255

def lengthSettings : TableSettings where
  log := 6
  maxLog := 9
  sym := 53
  predefDistr := [
    1, 4, 3, 2,  2, 2, 2, 2,
    2, 1, 1, 1,  1, 1, 1, 1,
    1, 1, 1, 1,  1, 1, 1, 1,
    1, 1, 1, 1,  1, 1, 1, 1,
    1, 1, 1, 1,  1, 1, 1, 1,
    1, 1, 1, 1,  1, 1, 0, 0,
    0, 0, 0, 0,  0]

def copySettings : TableSettings where
  log := 6
  maxLog := 9
  sym := 36
  predefDistr := [
    4, 3, 2, 2,  2, 2, 2, 2,
    2, 2, 2, 2,  2, 1, 1, 1,
    2, 2, 2, 2,  2, 2, 2, 2,
    2, 3, 2, 1,  1, 1, 1, 1,
    0, 0, 0, 0]

def distSettings : TableSettings where
  log := 5
  maxLog := 8
  sym := 29
  predefDistr := [
    1, 1, 1, 1,  1, 1, 2, 2,
    2, 1, 1, 1,  1, 1, 1, 1,
    1, 1, 1, 1,  1, 1, 1, 1,
    0, 0, 0, 0,  0]

/-- A table with its accuracy. -/
structure FseTable where
  log : Nat
  table : Nat → Nat

def predefWeight (settings : TableSettings) (i : Nat) : Nat :=
  let w := settings.predefDistr.getD i 0
  if w ≠ 0 then w + 1 else 0

/-- The checks and the build all modes but RLE and repeat share. -/
def checkedTable (settings : TableSettings) (ptr log : Nat) (weights : Nat → Nat) (t : FseTable) :
    Except Fault (Option Nat × FseTable) :=
  if settings.maxLog < log then .ok (none, { t with log := log })
  else do
    let table ← fseBuildTable log settings.sym weights t.table
    pure (some ptr, ⟨log, table⟩)

/-- The input behind the description of the table, or the null pointer, and the table. -/
def handleDecodingTable (inp : Nat → UInt8) (start stop : Nat) (mode : TableMode)
    (settings : TableSettings) (t : FseTable) : Except Fault (Option Nat × FseTable) :=
  match mode with
  | .predefinedMode => checkedTable settings start settings.log (predefWeight settings) t
  | .rleMode =>
    if stop ≤ start then .ok (none, t)
    else
      let sym := (inp start).toNat
      if settings.sym ≤ sym then .ok (none, t)
      else .ok (some (start + 1), ⟨0, Function.update t.table 0 (sym <<< 5)⟩)
  | .fseCompressedMode => do
    match ← fseDecodeDistribution inp stop start 64 settings.sym with
    | none => pure (none, t)
    | some (log, none) => pure (none, { t with log := log })
    | some (log, some (ptr, weights)) => checkedTable settings ptr log weights t
  | .repeatMode => if t.log = tableNotAvailable then .ok (none, t) else .ok (some start, t)

/-! ## The bit stream -/

/-- The unused bits are the lowest `numBits` of the container. -/
structure SeqBits where
  ptr : Nat
  bits : Nat
  numBits : Nat

section
variable (unaligned : Bool) (inp : Nat → UInt8) (lo hi start : Nat)

/-- `bits = bits << 8 | *--ptr; num_bits += 8;` -/
def SeqBits.push (b : SeqBits) : SeqBits :=
  ⟨b.ptr - 1, (b.bits <<< 8 ||| (inp (b.ptr - 1)).toNat) % 2 ^ 64, b.numBits + 8⟩

/-- `while (num_bits <= 56 && start < ptr)`; eight bytes are enough. -/
def SeqBits.fill : Nat → SeqBits → SeqBits
  | 0, b => b
  | fuel + 1, b =>
    if b.numBits ≤ 56 ∧ start < b.ptr then SeqBits.fill fuel (b.push inp) else b

/-- `REFILL`. -/
def SeqBits.refill (total : Nat) (b : SeqBits) : Except Fault (Option SeqBits) :=
  if unaligned then
    let readBytes := min (8 - (b.numBits + 7) / 8) (b.ptr - start)
    let ptr := b.ptr - readBytes
    let numBits := b.numBits + 8 * readBytes
    if ptr < lo ∨ hi < ptr + 8 then .error .bounds
    else if numBits < total then .ok none
    else .ok (some ⟨ptr, leWord inp ptr 8, numBits⟩)
  else if total ≤ b.numBits then .ok (some b)
  else if b.ptr - start < (total - b.numBits + 7) / 8 then .ok none
  else .ok (some ((b.push inp).fill inp start 8))

/-- `DECODE3`: three values from the top of the unused bits. The container may be short of them
even behind a refill, and then the shift is out of range; so is the mask for a value of 31 bits.
A shift by 64 only happens where the mask is 0. -/
def decode3 (bitsA bitsB bitsC : Nat) (b : SeqBits) :
    Except Fault (Option ((Nat × Nat × Nat) × SeqBits)) := do
  let total := bitsA + bitsB + bitsC
  match ← b.refill unaligned inp lo hi start total with
  | none => pure none
  | some b =>
    if b.numBits < total ∨ 31 ≤ bitsA ∨ 31 ≤ bitsB ∨ 31 ≤ bitsC then throw .undefined
    let tmp1 := b.bits >>> (b.numBits - total)
    let tmp2 := (b.bits >>> (b.numBits - bitsA)) % 2 ^ 32
    let tmp3 := (tmp1 >>> bitsC) % 2 ^ 32
    pure (some ((tmp2 &&& (1 <<< bitsA - 1), tmp3 &&& (1 <<< bitsB - 1),
      tmp1 &&& (1 <<< bitsC - 1)), { b with numBits := b.numBits - total }))

end

/-! ## Sequences -/

/-- `struct sequences_state`. -/
structure SequencesState where
  bits : SeqBits
  dist1 : Nat
  dist2 : Nat
  dist3 : Nat
  entryCopy : Nat
  entryLength : Nat
  entryDist : Nat

def ctableEntry (base bits : Nat) : Nat := base ||| bits <<< 24

def ctableCopy : List Nat :=
  List.range 16 ++ [
    ctableEntry 16 1, ctableEntry 18 1, ctableEntry 20 1, ctableEntry 22 1,
    ctableEntry 24 2, ctableEntry 28 2, ctableEntry 32 3, ctableEntry 40 3,
    ctableEntry 48 4, ctableEntry 64 6, ctableEntry 128 7, ctableEntry 256 8,
    ctableEntry 512 9, ctableEntry 1024 10, ctableEntry 2048 11, ctableEntry 4096 12,
    ctableEntry 8192 13, ctableEntry 16384 14, ctableEntry 32768 15, ctableEntry 65536 16]

def ctableLength : List Nat :=
  List.range 32 ++ [
    ctableEntry 32 1, ctableEntry 34 1, ctableEntry 36 1, ctableEntry 38 1,
    ctableEntry 40 2, ctableEntry 44 2, ctableEntry 48 3, ctableEntry 56 3,
    ctableEntry 64 4, ctableEntry 80 4, ctableEntry 96 5, ctableEntry 128 7,
    ctableEntry 256 8, ctableEntry 512 9, ctableEntry 1024 10, ctableEntry 2048 11,
    ctableEntry 4096 12, ctableEntry 8192 13, ctableEntry 16384 14, ctableEntry 32768 15,
    ctableEntry 65536 16]

/-- An entry of one of the constant tables. -/
def constEntry (table : List Nat) (i : Nat) : Except Fault Nat :=
  match table[i]? with
  | some v => .ok v
  | none => .error .bounds

/-- An entry of an array of `size` entries. -/
def arrayEntry (table : Nat → Nat) (size i : Nat) : Except Fault Nat :=
  if i < size then .ok (table i) else .error .bounds

section
variable (unaligned : Bool) (inp : Nat → UInt8) (lo hi : Nat)

def initSequences (start stop : Nat) (tables : DecTables) :
    Except Fault (Option SequencesState) := do
  if stop - start < 1 then return none
  let lastByte := (inp (stop - 1)).toNat
  if lastByte = 0 then return none
  let b := SeqBits.fill inp start 8 ⟨stop - 1, lastByte, Nat.log2 lastByte⟩
  match ← decode3 unaligned inp lo hi start tables.copyLog tables.distLog tables.lengthLog b with
  | none => pure none
  | some ((stateCopy, stateDist, stateLength), b) =>
    pure (some {
      bits := b
      dist1 := tables.dist1 % 2 ^ 32
      dist2 := tables.dist2 % 2 ^ 32
      dist3 := tables.dist3 % 2 ^ 32
      entryCopy := stateCopy <<< 11
      entryLength := stateLength <<< 11
      entryDist := stateDist <<< 11 })

/-- The distance a value stands for, and the history without it. -/
def usedDist (s : SequencesState) (copy dist : Nat) : Except Fault (Nat × SequencesState) :=
  let rotated := { s with dist3 := s.dist2, dist2 := s.dist1 }
  if 3 < dist then .ok (dist - 3, rotated)
  else if copy = 0 then
    if dist = 3 then .ok ((s.dist1 + 2 ^ 32 - 1) % 2 ^ 32, rotated)
    else if dist = 1 then .ok (s.dist2, { s with dist2 := s.dist1 })
    else if dist = 2 then .ok (s.dist3, rotated)
    else .error .assertion
  else if dist = 1 then .ok (s.dist1, s)
  else if dist = 2 then .ok (s.dist2, { s with dist2 := s.dist1 })
  else .ok (s.dist3, rotated)

def packSequence (s : SequencesState) (copy length dist : Nat) :
    Except Fault (Option (Nat × SequencesState)) := do
  let (used, s) ← usedDist s copy dist
  if used = 0 then return none
  if ¬ (copy < 0x20000 ∧ length < 0x20000) then throw .assertion
  pure (some ((copy ||| length <<< 17 ||| (used - 1) <<< 34) % 2 ^ 64, { s with dist1 := used }))

/-- One turn of the loop of `decode_sequences`. -/
def decodeSequence (start : Nat) (tables : DecTables) (s : SequencesState) :
    Except Fault (Option (Nat × SequencesState)) := do
  match ← decode3 unaligned inp lo hi start (fseBits s.entryCopy) (fseBits s.entryLength)
    (fseBits s.entryDist) s.bits with
  | none => pure none
  | some ((stateCopy, stateLength, stateDist), b) =>
    let entryCopy ← arrayEntry tables.copyTable 512 (stateCopy + fseBase s.entryCopy)
    let entryDist ← arrayEntry tables.distTable 256 (stateDist + fseBase s.entryDist)
    let entryLength ← arrayEntry tables.lengthTable 512 (stateLength + fseBase s.entryLength)
    let constLength ← constEntry ctableLength (fseSym entryLength)
    let constCopy ← constEntry ctableCopy (fseSym entryCopy)
    let symDist := fseSym entryDist
    match ← decode3 unaligned inp lo hi start symDist (constLength >>> 24) (constCopy >>> 24) b with
    | none => pure none
    | some ((extraDist, extraLength, extraCopy), b) =>
      let s := { s with
        bits := b, entryCopy := entryCopy, entryLength := entryLength, entryDist := entryDist }
      packSequence s (extraCopy + (constCopy &&& 0xffffff))
        (extraLength + (constLength &&& 0xffffff)) (extraDist + 1 <<< symDist)

def decodeSequences (start : Nat) (tables : DecTables) :
    Nat → SequencesState → Except Fault (Option (List Nat × SequencesState))
  | 0, s => .ok (some ([], s))
  | n + 1, s => do
    match ← decodeSequence unaligned inp lo hi start tables s with
    | none => pure none
    | some (sequence, s) =>
      match ← decodeSequences start tables n s with
      | none => pure none
      | some (rest, s) => pure (some (sequence :: rest, s))

end

def finishSequences (s : SequencesState) (start : Nat) (tables : DecTables) : Option DecTables :=
  if s.bits.numBits = 0 ∧ s.bits.ptr = start then
    some { tables with dist1 := s.dist1, dist2 := s.dist2, dist3 := s.dist3 }
  else none

end Rkboot.Compression.Zstd
