import Rkboot.Compression.Status
import Mathlib.Logic.Function.Basic

/-! # The decoding tables of the zstd decompressor

`fse_decode_distribution` reads the probabilities of a set of symbols,
`fse_build_table` turns them into a table of state transitions, and
`zstd_decode_tree_description` builds the table of a Huffman code. Tables and
local arrays are functions on indices; an index past the end of an array stops
the run. A probability is stored one higher than it is, and 0 stands for one
that is less than 1. -/
namespace Rkboot.Compression.Zstd
open Lib

/-! ## FSE distributions -/

/-- `trunc_length`. -/
def truncLength (range : Nat) : Nat := Nat.log2 range

def truncCutoff (range length : Nat) : Nat := 2 <<< length - range

/-- The bits `fse_decode_distribution` has read and not used. -/
structure DistBits where
  ptr : Nat
  bits : Nat
  numBits : Nat

def DistBits.skip (b : DistBits) (n : Nat) : DistBits := ⟨b.ptr, b.bits >>> n, b.numBits - n⟩

section
variable (inp : Nat → UInt8) (stop : Nat)

/-- Bytes until `n` bits are there, if the input has them; `fuel` of `n` is enough. -/
def DistBits.want (n : Nat) : Nat → DistBits → Option DistBits
  | 0, b => some b
  | fuel + 1, b =>
    if n ≤ b.numBits then some b
    else if b.ptr < stop then
      DistBits.want n fuel ⟨b.ptr + 1, b.bits ||| (inp b.ptr).toNat <<< b.numBits, b.numBits + 8⟩
    else none

/-- A probability, in truncated binary, when `left` entries are not given out yet. -/
def readProb (b : DistBits) (left : Nat) : Option (Nat × DistBits) := do
  let length := truncLength (left + 2)
  let cutoff := truncCutoff (left + 2) length
  let b ← b.want inp stop length length
  let val := b.bits &&& (1 <<< length - 1)
  let b := b.skip length
  if cutoff ≤ val then
    let b ← b.want inp stop 1 1
    some (val + (if b.bits.testBit 0 then 1 <<< length - cutoff else 0), b.skip 1)
  else some (val, b)

/-- The repeat flags behind a probability of 0. They may name the symbol `maxSym` itself: whether
there is room for it depends on the array, of `size` entries, that the caller passed. -/
def zeroRepeats (size maxSym : Nat) :
    Nat → DistBits → Nat → (Nat → Nat) → Except Fault (Option (DistBits × Nat × (Nat → Nat)))
  | 0, _, _, _ => .error .undefined
  | fuel + 1, b, sym, weights =>
    match b.want inp stop 2 2 with
    | none => .ok none
    | some b =>
      let rep := b.bits &&& 3
      if maxSym < sym + rep then .ok none
      else if 0 < rep ∧ size ≤ sym + rep then .error .bounds
      else
        let weights := fun i => if sym < i ∧ i ≤ sym + rep then 1 else weights i
        if rep = 3 then zeroRepeats size maxSym fuel (b.skip 2) (sym + rep) weights
        else .ok (some (b.skip 2, sym + rep, weights))

/-- The loop over the symbols; it only succeeds when all entries are given out. -/
def distLoop (size maxSym : Nat) :
    Nat → DistBits → Nat → Nat → (Nat → Nat) → Except Fault (Option (Nat × (Nat → Nat)))
  | 0, _, _, _, _ => .ok none
  | fuel + 1, b, left, sym, weights =>
    if maxSym ≤ sym then .ok none
    else match readProb inp stop b left with
    | none => .ok none
    | some (val, b) =>
      let weights := Function.update weights sym val
      if val = 1 then do
        match ← zeroRepeats inp stop size maxSym (maxSym + 1) b sym weights with
        | none => pure none
        | some (b, sym, weights) => distLoop size maxSym fuel b left (sym + 1) weights
      else if val ≠ 0 ∧ left < val - 1 then .error .assertion
      else
        let left := left - (if val = 0 then 1 else val - 1)
        if left = 0 then .ok (some (b.ptr, fun i => if sym < i ∧ i < maxSym then 1 else weights i))
        else distLoop size maxSym fuel b left (sym + 1) weights

/-- The accuracy, which is stored as soon as it is read, and what follows it: the rest of the
input and the weights. -/
def fseDecodeDistribution (start size maxSym : Nat) :
    Except Fault (Option (Nat × Option (Nat × (Nat → Nat)))) :=
  if stop - start < 1 then .ok none
  else do
    let first := (inp start).toNat
    let log := (first &&& 15) + 5
    let rest ← distLoop inp stop size maxSym (maxSym + 1) ⟨start + 1, first >>> 4, 4⟩ (1 <<< log) 0
      fun _ => 0
    pure (some (log, rest))

end

/-! ## FSE tables -/

def fseBits (entry : Nat) : Nat := entry &&& 31
def fseSym (entry : Nat) : Nat := entry >>> 5 &&& 63
def fseBase (entry : Nat) : Nat := entry >>> 11

section
variable (log numSym : Nat) (distribution : Nat → Nat)

/-- Symbols of less than one entry take single entries from the end of the table. -/
def placeRare (t : (Nat → Nat) × Nat) (sym : Nat) : Except Fault ((Nat → Nat) × Nat) :=
  let (table, numLt1) := t
  if distribution sym ≠ 0 then .ok t
  else if 1 <<< log ≤ numLt1 then .error .bounds
  else .ok (Function.update table (1 <<< log - 1 - numLt1) (log ||| sym <<< 5), numLt1 + 1)

/-- `do { .. } while (pos > mask - num_lt1);` -/
def nextPos (limit : Nat) : Nat → Nat → Except Fault Nat
  | 0, _ => .error .undefined
  | fuel + 1, pos =>
    let pos := (pos + (5 <<< (log - 3) ||| 3)) &&& (1 <<< log - 1)
    if limit < pos then nextPos limit fuel pos else .ok pos

/-- The entries of one symbol, spread over the table. -/
def spreadSym (limit : Nat) (t : (Nat → Nat) × Nat) (sym : Nat) :
    Except Fault ((Nat → Nat) × Nat) :=
  (List.range (distribution sym - 1)).foldlM (fun (table, pos) _ => do
    let next ← nextPos log limit (1 <<< log) pos
    pure (Function.update table pos sym, next)) t

/-- The `i`th entry, from the symbol that was put there and how often it was seen before. -/
def fillEntry (t : (Nat → Nat) × (Nat → Nat)) (i : Nat) :
    Except Fault ((Nat → Nat) × (Nat → Nat)) :=
  let (table, counter) := t
  let sym := table i
  if ¬ (sym < numSym ∧ 1 < distribution sym) then .error .assertion
  else
    let len := truncLength (distribution sym - 1)
    let cutoff := truncCutoff (distribution sym - 1) len
    let seen := counter sym
    let readBits := if seen < cutoff then log - len else log - len - 1
    let base := (if seen < cutoff then seen + 1 <<< len - cutoff else seen - cutoff) <<< readBits
    if ¬ base < 1 <<< log - 1 then .error .assertion
    else .ok (Function.update table i (readBits ||| sym <<< 5 ||| base <<< 11),
      Function.update counter sym (seen + 1))

def fseBuildTable (table : Nat → Nat) : Except Fault (Nat → Nat) := do
  if ¬ (5 ≤ log ∧ log ≤ 20 ∧ numSym ≤ 64) then throw .assertion
  let (table, numLt1) ← (List.range numSym).foldlM (placeRare log distribution) (table, 0)
  -- with every entry taken the limit wraps
  let limit := (1 <<< log - 1 + 2 ^ 32 - numLt1) % 2 ^ 32
  let (table, pos) ← (List.range numSym).foldlM (spreadSym log distribution limit) (table, 0)
  if pos ≠ 0 then throw .assertion
  let (table, _) ← (List.range (1 <<< log - numLt1)).foldlM (fillEntry log numSym distribution)
    (table, fun _ => 0)
  pure table

end

/-! ## Huffman trees -/

/-- `struct dectables`; an entry of the Huffman table is a symbol and the length of its code. -/
structure DecTables where
  huffDepth : Nat
  copyLog : Nat
  lengthLog : Nat
  distLog : Nat
  dist1 : Nat
  dist2 : Nat
  dist3 : Nat
  huffTable : Nat → UInt8 × Nat
  copyTable : Nat → Nat
  lengthTable : Nat → Nat
  distTable : Nat → Nat

/-- The weights read so far and the sum of the shares they stand for. -/
structure Weights where
  num : Nat
  sum : Nat
  weight : Nat → Nat

/-- A weight; `1 << w` needs the weight to be less than 31. -/
def Weights.add (ws : Weights) (w : Nat) : Except Fault Weights :=
  if 31 ≤ w then .error .undefined
  else .ok ⟨ws.num + 1, (ws.sum + 1 <<< w >>> 1) % 2 ^ 32, Function.update ws.weight ws.num w⟩

/-- The container of the weights' bit stream, which is read from its end. -/
structure RevBits where
  stop : Nat
  bits : Nat
  numBits : Nat

/-- `bits = bits << 8 | *--weights_end; num_bits += 8;` -/
def RevBits.push (inp : Nat → UInt8) (b : RevBits) : RevBits :=
  ⟨b.stop - 1, (b.bits <<< 8 ||| (inp (b.stop - 1)).toNat) % 2 ^ 32, b.numBits + 8⟩

/-- `bits >> (num_bits -= n) & MASK31(n)`. -/
def RevBits.take (b : RevBits) (n : Nat) : Nat × RevBits :=
  (b.bits >>> (b.numBits - n) &&& (1 <<< n - 1), { b with numBits := b.numBits - n })

/-- `while (num_bits <= 24 && in < weights_end)`; four bytes are enough. -/
def RevBits.fill (inp : Nat → UInt8) (start : Nat) : Nat → RevBits → RevBits
  | 0, b => b
  | fuel + 1, b =>
    if b.numBits ≤ 24 ∧ start < b.stop then RevBits.fill inp start fuel (b.push inp) else b

section
variable (inp : Nat → UInt8) (start : Nat) (table : Nat → Nat)

/-- `fse_table[i]`, an array of 64 entries. -/
def fseEntry (i : Nat) : Except Fault Nat := if i < 64 then .ok (table i) else .error .bounds

/-- `UPDATE_ENTRY`. -/
def updateEntry (entry : Nat) (b : RevBits) : Except Fault (Nat × RevBits) := do
  let (v, b) := b.take (fseBits entry)
  let entry ← fseEntry table (v + fseBase entry)
  pure (entry, b)

/-- Pairs of weights while the container can be filled to 25 bits. -/
def pairLoop : Nat → RevBits → Nat → Nat → Weights →
    Except Fault (Option (RevBits × Nat × Nat × Weights))
  | 0, _, _, _, _ => .error .undefined
  | fuel + 1, b, even, odd, ws =>
    let b := b.fill inp start 4
    if b.numBits ≤ 24 then .ok (some (b, even, odd, ws))
    else do
      let ws ← ws.add (fseSym even)
      let ws ← ws.add (fseSym odd)
      if 254 ≤ ws.num then pure none
      else
        let (even, b) ← updateEntry table even b
        let (odd, b) ← updateEntry table odd b
        pairLoop fuel b even odd ws

/-- Single weights, from the two states in turn, until the bits are used up. -/
def singleLoop : Nat → RevBits → Nat → Nat → Weights → Except Fault (Option Weights)
  | 0, _, _, _, _ => .error .undefined
  | fuel + 1, b, this, other, ws =>
    if 253 < ws.num then .ok none
    else do
      let ws ← ws.add (fseSym this)
      if b.numBits < fseBits this then
        let ws ← ws.add (fseSym other)
        pure (some ws)
      else
        let (this, b) ← updateEntry table this b
        singleLoop fuel b other this ws

end

/-- The bit stream of weights that ends `header` bytes behind `start`; the distribution ends at
`ptr`. -/
def weightStream (inp : Nat → UInt8) (start ptr header log : Nat) (table : Nat → Nat) :
    Except Fault (Option Weights) := do
  if header ≤ 2 then return none
  let last := start + header
  let bits := (inp (last - 1)).toNat <<< 8 ||| (inp (last - 2)).toNat
  if bits < 0x100 then return none
  let b : RevBits := ⟨last - 2, bits, Nat.log2 bits⟩
  if b.numBits < 2 * log ∧ ¬ ptr < b.stop then return none
  let first := if b.numBits < 2 * log then b.push inp else b
  if b.numBits < 2 * log ∧ ¬ 2 * log < first.numBits then throw .assertion
  let (stateEven, b) := first.take log
  let (stateOdd, b) := b.take log
  if ¬ (stateEven < 1 <<< log ∧ stateOdd < 1 <<< log) then throw .assertion
  match ← pairLoop inp ptr table 128 b (table stateEven) (table stateOdd) ⟨0, 0, fun _ => 0⟩ with
  | none => pure none
  | some (b, even, odd, ws) => singleLoop table 256 b even odd ws

/-- Weights compressed with an FSE table of their own, in `header` bytes from `start` on. -/
def fseHuffWeights (inp : Nat → UInt8) (start stop header : Nat) : Except Fault (Option Weights) := do
  match ← fseDecodeDistribution inp stop start 12 12 with
  | none => pure none
  | some (_, none) => pure none
  | some (log, some (ptr, distribution)) =>
    if 6 < log then pure none
    else
      let table ← fseBuildTable log 12 distribution fun _ => 0
      if stop - ptr < header then pure none
      else weightStream inp start ptr header log table

/-- Weights of four bits each. -/
def directHuffWeights (inp : Nat → UInt8) (start num : Nat) : Except Fault Weights :=
  (List.range num).foldlM (fun ws i =>
    let byte := (inp (start + i / 2)).toNat
    ws.add (if i % 2 = 0 then byte >>> 4 else byte &&& 15)) ⟨0, 0, fun _ => 0⟩

/-- `__builtin_ctz`. -/
def ctz (n : Nat) : Nat := ((List.range 32).find? fun i => n.testBit i).getD 0

/-- `while (sum > (1u << maxbits)) {maxbits += 1;}` -/
def maxBits (sum : Nat) : Nat → Nat → Nat
  | 0, bits => bits
  | fuel + 1, bits => if 1 <<< bits < sum then maxBits sum fuel (bits + 1) else bits

/-- One turn of the insertion sort; the sorted part stands with its highest weight first. -/
def insertWeight (x : Nat × Nat) : List (Nat × Nat) → List (Nat × Nat)
  | [] => [x]
  | y :: ys => if y.1 ≤ x.1 then x :: y :: ys else y :: insertWeight x ys

/-- `weights` and `order` behind the insertion sort: symbols by weight, then by value. -/
def sortWeights (weight : Nat → Nat) : List (Nat × Nat) :=
  ((List.range 256).foldl (fun l i => insertWeight (weight i, i) l) []).reverse

/-- The entries of one symbol behind those of the symbols before it. -/
def enterCode (maxbits : Nat) (t : Nat × (Nat → UInt8 × Nat)) (x : Nat × Nat) :
    Except Fault (Nat × (Nat → UInt8 × Nat)) :=
  let (code, table) := t
  let (weight, sym) := x
  if weight = 0 then .ok t
  else
    let len := maxbits + 1 - weight
    let numEntries := 1 <<< (11 - len)
    if code % numEntries ≠ 0 ∨ 2048 < code + numEntries then .error .assertion
    else .ok (code + numEntries, fun i =>
      if code ≤ i ∧ i < code + numEntries then (UInt8.ofNat sym, len) else table i)

/-- The tree given by the weights, the last of which is implied. -/
def buildTree (ws : Weights) (tables : DecTables) : Except Fault (Option DecTables) :=
  if ws.sum = 0 then .ok none
  else
    let lastweight := ctz ws.sum + 1
    if 31 ≤ lastweight then .error .undefined
    else
      let sum := (ws.sum + 1 <<< lastweight >>> 1) % 2 ^ 32
      let weight := fun i =>
        if i = ws.num then lastweight else if ws.num < i then 0 else ws.weight i
      let maxbits := maxBits sum 32 lastweight
      if sum ≠ 1 <<< maxbits then .ok none
      else if 11 < maxbits then .ok none
      else do
        let (code, table) ← (sortWeights weight).foldlM (enterCode maxbits) (0, tables.huffTable)
        if code ≠ 2048 then throw .assertion
        pure (some { tables with huffDepth := maxbits, huffTable := table })

/-- The end of the description, or the null pointer. -/
def zstdDecodeTreeDescription (inp : Nat → UInt8) (start stop : Nat) (tables : DecTables) :
    Except Fault (Option Nat × DecTables) :=
  if stop - start < 1 then .ok (none, tables)
  else
    let header := (inp start).toNat
    let ptr := start + 1
    let num := header - 127
    let build (ws : Weights) (last : Nat) : Except Fault (Option Nat × DecTables) := do
      match ← buildTree ws tables with
      | none => pure (none, tables)
      | some tables => pure (some last, tables)
    if header < 128 then do
      match ← fseHuffWeights inp ptr stop header with
      | none => pure (none, tables)
      | some ws => build ws (ptr + header)
    else if stop - ptr < (num + 1) / 2 then .ok (none, tables)
    else do build (← directHuffWeights inp ptr num) (ptr + (num + 1) / 2)

end Rkboot.Compression.Zstd
