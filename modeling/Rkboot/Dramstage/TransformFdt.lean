import Rkboot.Lib.Buffer
import Mathlib.Data.List.DropRight

/-! # `transform_fdt`: preparing the device tree for the kernel

One pass copies the tokens of the input tree to the output, leaves out the
properties and the memory node it replaces, and inserts its own. The output
never is read back. Addresses of the output count from `out_header`, those of
the input from `header`; `toks`, `out` and their ends count 32-bit words, as
the pointers of the source do. A function that returns a null pointer or
`false` half-way returns `none` here. -/
namespace Rkboot.Dramstage
open Lib

structure FdtAddendum where
  fdtAddress : UInt64
  initcpioStart : UInt64
  initcpioEnd : UInt64
  dramStart : UInt64
  dramSize : UInt64
  entropy : Nat → UInt32
  entropyWords : Nat
  bootCpu : UInt32

def ascii (s : String) : List UInt8 := s.toList.map fun c => UInt8.ofNat c.toNat

/-- The word `be32(v)` as it is laid out in memory. -/
def be32 (v : Nat) : List UInt8 := beBytes 4 v

def be64 (v : Nat) : List UInt8 := beBytes 8 v

/-- A word in the byte order of the machine. -/
def le32 (v : UInt32) : List UInt8 :=
  [v.toUInt8, (v >>> 8).toUInt8, (v >>> 16).toUInt8, (v >>> 24).toUInt8]

@[simp] theorem be32_length (v : Nat) : (be32 v).length = 4 := beBytes_length 4 v

@[simp] theorem be64_length (v : Nat) : (be64 v).length = 8 := beBytes_length 8 v

@[simp] theorem le32_length (v : UInt32) : (le32 v).length = 4 := rfl

/-! ## Tokens -/

def cmdNode : Nat := 1
def cmdNodeEnd : Nat := 2
def cmdProp : Nat := 3
def cmdNop : Nat := 4
def cmdEnd : Nat := 9

def strnlen (f : Nat → UInt8) (a : Nat) : Nat → Nat
  | 0 => 0
  | maxlen + 1 => if f a = 0 then 0 else strnlen f (a + 1) maxlen + 1

/-- `strncmp(a, b, maxlen) == 0` for a string constant `b` (its final NUL left out). -/
def strncmpZero (f : Nat → UInt8) : Nat → List UInt8 → Nat → Bool
  | _, _, 0 => true
  | a, [], _ + 1 => f a == 0
  | a, c :: cs, maxlen + 1 => f a == c && strncmpZero f (a + 1) cs maxlen

def fdtTokenSize (inp : Nat → UInt8) (start stop : Nat) : Nat :=
  if stop ≤ start then 0
  else
    let space := 4 * (stop - start)
    let cmd := beAt inp (4 * start) 4
    if cmd = cmdNode then
      let namelen := strnlen inp (4 * start + 4) space
      if namelen ≠ space then (5 + namelen) % 2 ^ 32 else 0
    else if cmd = cmdNodeEnd then 4
    else if cmd = cmdProp then
      if space < 12 then 0
      else
        let total := (12 + beAt inp (4 * start + 4) 4) % 2 ^ 32
        if space < total then 0 else total
    else if cmd = cmdNop then 4
    else 0

/-! ## Inserted text -/

inductive InsStr where
  | deviceType
  | reg
  | initrdStart
  | initrdEnd
  | kaslrSeed
  | rngSeed

def InsStr.text : InsStr → List UInt8
  | deviceType => ascii "device_type"
  | reg => ascii "reg"
  | initrdStart => ascii "linux,initrd-start"
  | initrdEnd => ascii "linux,initrd-end"
  | kaslrSeed => ascii "kaslr-seed"
  | rngSeed => ascii "rng-seed"

/-- `INSSTR_OFF_*`. -/
def InsStr.off : InsStr → Nat
  | deviceType => 0
  | reg => 12
  | initrdStart => 16
  | initrdEnd => 35
  | kaslrSeed => 52
  | rngSeed => 63

/-- Every name with its NUL, and the NUL that ends the constant. -/
def insertedStrings : List UInt8 :=
  [InsStr.deviceType, .reg, .initrdStart, .initrdEnd, .kaslrSeed, .rngSeed].flatMap
    (fun i => i.text ++ [0]) ++ [0]

theorem insertedStrings_length : insertedStrings.length = 73 := by decide

/-- The words of a property token in front of its value. -/
def propHeader (len nameOff : Nat) : List UInt8 := be32 cmdProp ++ be32 len ++ be32 nameOff

@[simp] theorem propHeader_length (len nameOff : Nat) : (propHeader len nameOff).length = 12 := by
  simp [propHeader]

/-- Words stored at `out`, which is moved behind them. -/
def emit (out : Nat) (bs : List UInt8) : Exec (Option Nat) := do
  Exec.put (4 * out) bs
  pure (some (out + bs.length / 4))

/-- The value of an initrd property: `addr_cells - 1` (a 32-bit difference) zero
words and the low word of the address. -/
def initrdCells (addrCells : Nat) (v : UInt64) : List UInt8 :=
  List.replicate (4 * ((addrCells + (2 ^ 32 - 1)) % 2 ^ 32)) 0 ++ be32 v.toNat

theorem initrdCells_length {addrCells} (v : UInt64) (h : addrCells ≠ 0) (h4 : addrCells ≤ 4) :
    (initrdCells addrCells v).length = 4 * addrCells := by
  simp [initrdCells]
  omega

def insertInitrd (outEnd : Nat) (info : FdtAddendum) (addrCells stringOffset out : Nat) :
    Exec (Option Nat) :=
  if info.initcpioStart = info.initcpioEnd then pure (some out)
  else if outEnd - out < 6 then pure none
  else if outEnd - out - 6 < 2 * addrCells then pure none
  else emit out
    (propHeader (4 * addrCells) (stringOffset + InsStr.off .initrdStart) ++
      initrdCells addrCells info.initcpioStart ++
      propHeader (4 * addrCells) (stringOffset + InsStr.off .initrdEnd) ++
      initrdCells addrCells info.initcpioEnd)

def insertKaslrSeed (outEnd : Nat) (info : FdtAddendum) (stringOffset out : Nat) :
    Exec (Option Nat) :=
  if 2 ≤ info.entropyWords then
    if outEnd - out < 5 then pure none
    else emit out (propHeader 8 (stringOffset + InsStr.off .kaslrSeed) ++
      le32 (info.entropy 0) ++ le32 (info.entropy 1))
  else pure (some out)

def insertRngSeed (outEnd : Nat) (info : FdtAddendum) (stringOffset out : Nat) :
    Exec (Option Nat) :=
  if 2 < info.entropyWords then
    if outEnd - out < 3 then pure none
    else if outEnd - out - 3 < info.entropyWords - 2 then pure none
    else emit out (propHeader (4 * (info.entropyWords - 2)) (stringOffset + InsStr.off .rngSeed) ++
      (List.range (info.entropyWords - 2)).flatMap fun i => le32 (info.entropy (i + 2)))
  else pure (some out)

theorem flatMap_le32_length (l : List Nat) (f : Nat → UInt32) :
    (l.flatMap fun i => le32 (f i)).length = 4 * l.length := by
  induction l with
  | nil => rfl
  | cons i l ih => simp [ih]; omega

def insertChosenProps (outEnd : Nat) (info : FdtAddendum) (addrCells stringOffset out : Nat) :
    Exec (Option Nat) :=
  (insertInitrd outEnd info addrCells stringOffset out).orFail fun out =>
  (insertKaslrSeed outEnd info stringOffset out).orFail fun out =>
  insertRngSeed outEnd info stringOffset out

/-- A number as `n` cells: at most its two low words, behind zeros. -/
def dramCells (n : Nat) (v : UInt64) : List UInt8 :=
  (List.range n).flatMap fun i =>
    if n - i > 2 then be32 0 else be32 (v.toNat >>> ((n - i - 1) * 32))

@[simp] theorem dramCells_length (n : Nat) (v : UInt64) : (dramCells n v).length = 4 * n := by
  have h : ∀ i, (if n - i > 2 then be32 0 else be32 (v.toNat >>> ((n - i - 1) * 32))).length = 4 := by
    intro i
    split <;> simp
  simp [dramCells, List.length_flatMap, h]
  omega

def memoryNode (info : FdtAddendum) (addrCells sizeCells stringSize : Nat) : List UInt8 :=
  be32 cmdNode ++ ascii "memory" ++ [0, 0] ++
    propHeader 7 (stringSize + InsStr.off .deviceType) ++ ascii "memory" ++ [0, 0] ++
    propHeader ((addrCells + sizeCells) * 4) (stringSize + InsStr.off .reg) ++
    dramCells addrCells info.dramStart ++ dramCells sizeCells info.dramSize ++
    be32 cmdNodeEnd

theorem memoryNode_length (info : FdtAddendum) (addrCells sizeCells stringSize : Nat) :
    (memoryNode info addrCells sizeCells stringSize).length = 4 * (12 + addrCells + sizeCells) := by
  have h : (ascii "memory").length = 6 := by decide
  simp [memoryNode, h]
  omega

def insertMemoryNode (outEnd : Nat) (info : FdtAddendum) (addrCells sizeCells stringSize out : Nat) :
    Exec (Option Nat) :=
  if (info.dramStart.toNat > 0 ∧ addrCells = 0) ∨
      (info.dramStart.toNat > 0xffffffff ∧ addrCells < 2) ∨
      (info.dramSize.toNat > 0 ∧ sizeCells = 0) ∨
      (info.dramSize.toNat > 0xffffffff ∧ sizeCells < 2) ∨
      outEnd - out < 12 + addrCells + sizeCells then pure none
  else emit out (memoryNode info addrCells sizeCells stringSize)

/-! ## The token loop -/

/-- The parts of the input the loop reads: the structure block up to `toksEnd`
and the string block. -/
structure FdtInput where
  inp : Nat → UInt8
  toks : Nat
  toksEnd : Nat
  str : Nat
  stringSize : Nat

/-- The locals of the loop that are no pointers; `path` is the part of the
buffer in use. -/
structure Pass where
  path : List UInt8
  skipLen : Nat
  addrCells : Nat
  sizeCells : Nat
  inChosen : Bool
  deriving DecidableEq

structure TokState extends Pass where
  toks : Nat
  out : Nat
  deriving DecidableEq

section
variable (outEnd : Nat) (info : FdtAddendum) (t : FdtInput)

def FdtInput.cmd (toks : Nat) : Nat := beAt t.inp (4 * toks) 4

def FdtInput.named (offset : Nat) (name : String) : Bool :=
  strncmpZero t.inp (t.str + offset) (ascii name) (t.stringSize - offset)

def replacedProps : List String :=
  ["linux,initrd-start", "linux,initrd-end", "kaslr-seed", "rng-seed"]

def chosenPath : List UInt8 := 0 :: ascii "chosen" ++ [0]

/-- `size - 4`, in a `u32`. -/
def nameSize (size : Nat) : Nat := if size < 4 then size + 2 ^ 32 - 4 else size - 4

def beginNode (s : TokState) (size : Nat) : Option TokState :=
  let skipLen := if s.path.length = 1 ∧ size = 11 ∧
      bytesAt t.inp (4 * s.toks + 4) 7 = ascii "memory" ++ [0] then s.path.length else s.skipLen
  if 256 - s.path.length < nameSize size then none
  else
    let path := s.path ++ bytesAt t.inp (4 * s.toks + 4) (nameSize size)
    let inChosen := if path = chosenPath then true else s.inChosen
    some { s with path, skipLen, inChosen }

/-- `while (path[--path_len - 1]) {}`, which must stop inside the path. -/
def popName (path : List UInt8) : Option (List UInt8) :=
  match path.dropLast.rdropWhile (· ≠ 0) with
  | [] => none
  | b :: bs => some (b :: bs)

def endNode (s : TokState) : Exec (Option TokState) :=
  if 1 < s.path.length then
    match popName s.path with
    | none => .fault .bounds
    | some path => pure (some { s with path })
  else if s.path.length = 1 then
    (insertMemoryNode outEnd info s.addrCells s.sizeCells t.stringSize s.out).orFail fun out =>
      pure (some { s with out, path := [] })
  else pure none

def property (s : TokState) (size : Nat) : Option TokState :=
  let offset := beAt t.inp (4 * s.toks + 8) 4
  if t.stringSize ≤ offset then none
  else if s.path.length = 1 ∧ size = 16 then
    if t.named offset "#address-cells" then
      let addrCells := beAt t.inp (4 * s.toks + 12) 4
      if s.addrCells ≠ 0 then none
      else if 4 < addrCells then none
      else some { s with addrCells }
    else if t.named offset "#size-cells" then
      let sizeCells := beAt t.inp (4 * s.toks + 12) 4
      if s.sizeCells ≠ 0 then none
      else if 4 < sizeCells then none
      else some { s with sizeCells }
    else some s
  else if s.inChosen ∧ replacedProps.any (t.named offset) then
    some { s with skipLen := s.path.length }
  else some s

/-- Before the first token of `/chosen` that is no property. -/
def closeChosen (s : TokState) : Exec (Option TokState) :=
  if s.inChosen ∧ t.cmd s.toks ≠ cmdProp then
    (insertChosenProps outEnd info s.addrCells t.stringSize s.out).orFail fun out =>
      pure (some { s with out, inChosen := false })
  else pure (some s)

def token (s : TokState) (size : Nat) : Exec (Option TokState) :=
  if t.cmd s.toks = cmdNode then pure (beginNode t s size)
  else if t.cmd s.toks = cmdNodeEnd then endNode outEnd info t s
  else do
    Exec.assert (t.cmd s.toks = cmdProp)
    pure (property t s size)

def copyToken (s : TokState) (sizeWords : Nat) : Exec (Option TokState) :=
  (if s.skipLen = 0 then
    if outEnd - s.out < sizeWords then pure none
    else emit s.out (bytesAt t.inp (4 * s.toks) (4 * sizeWords))
  else pure (some s.out)).orFail fun out =>
    pure (some { s with
      out
      toks := s.toks + sizeWords
      skipLen := if s.path.length ≤ s.skipLen then 0 else s.skipLen })

/-- The body of the loop. -/
def tokenStep (s : TokState) : Exec (Option TokState) :=
  let size := fdtTokenSize t.inp s.toks t.toksEnd
  if size = 0 then pure none
  else if t.cmd s.toks = cmdNop then pure (some { s with toks := s.toks + 1 })
  else
    (closeChosen outEnd info t s).orFail fun s =>
    (token outEnd info t s size).orFail fun s =>
    copyToken outEnd t s ((size + 3) % 2 ^ 32 / 4)

def tokenLoop : Nat → TokState → Exec (Option TokState)
  | 0, _ => .fault .undefined
  | fuel + 1, s => (tokenStep outEnd info t s).orFail fun s =>
    if s.path = [] then pure (some s) else tokenLoop fuel s

end

/-! ## Header and memory reservations -/

/-- What the checks of the header leave: the tree and the reservation block, in
64-bit words. -/
structure FdtLayout where
  tree : FdtInput
  resv : Nat
  resvEnd : Nat

def readHeader (inp : Nat → UInt8) (inSize : Nat) : Option FdtLayout :=
  let field (i : Nat) := beAt inp (4 * i) 4
  let version := field 5
  let compatible := field 6
  let totalsize := field 1
  let structOffset := field 2
  let toks := structOffset / 4
  let structSize := field 9
  let toksEnd := if 17 ≤ version then toks + structSize / 4 else inSize / 4
  let stringSize := field 8
  let stringOffset := field 3
  let reservedOffset := field 4
  if field 0 ≠ 0xd00dfeed then none
  else if version < compatible ∨ version < 16 ∨ 17 < compatible then none
  else if inSize < totalsize then none
  else if structOffset % 4 ≠ 0 ∨ inSize < structOffset then none
  else if 17 ≤ version ∧ (structSize % 4 ≠ 0 ∨ inSize / 4 - toks < structSize / 4) then none
  else if beAt inp (4 * toks) 4 ≠ cmdNode ∨ beAt inp (4 * (toks + 1)) 4 ≠ 0 then none
  else if totalsize ≤ stringOffset ∨ totalsize < (stringOffset + stringSize) % 2 ^ 32 ∨
      (stringOffset + stringSize) % 2 ^ 32 < stringOffset then none
  else if reservedOffset % 8 ≠ 0 ∨ totalsize ≤ reservedOffset then none
  else some {
    tree := { inp, toks, toksEnd, str := stringOffset, stringSize }
    resv := reservedOffset / 8
    resvEnd := reservedOffset / 8 + (totalsize - reservedOffset) / 8 }

section
variable (outEnd : Nat)

/-- The reservations of the input up to the one of length zero; `fuel` bounds
the entries there are. -/
def copyReservations (inp : Nat → UInt8) (resvEnd : Nat) :
    Nat → Nat → Nat → Exec (Option Nat)
  | 0, _, _ => .fault .undefined
  | fuel + 1, resv, out =>
    if resvEnd - resv < 2 then pure none
    else if outEnd - out < 4 then pure none
    else if bytesAt inp (8 * (resv + 1)) 8 = List.replicate 8 0 then pure (some out)
    else (emit out (bytesAt inp (8 * resv) 16)).orFail fun out =>
      copyReservations inp resvEnd fuel (resv + 2) out

def reserveInitcpio (info : FdtAddendum) (out : Nat) : Exec (Option Nat) :=
  if info.initcpioStart = info.initcpioEnd then pure (some out)
  else emit out (be64 info.initcpioStart.toNat ++
    be64 (info.initcpioEnd - info.initcpioStart).toNat)

/-- Everything in front of the structure block; returns the state in which the
loop starts. -/
def startTokens (l : FdtLayout) (info : FdtAddendum) : Exec (Option TokState) :=
  if outEnd < 20 then pure none
  else do
    Exec.put 48 (List.replicate 16 0)
    (reserveInitcpio info 16).orFail fun out =>
    (copyReservations outEnd l.tree.inp l.resvEnd (l.resvEnd - l.resv + 1) l.resv out).orFail
      fun out => do
        Exec.put (4 * out) (List.replicate 16 0)
        Exec.put 16 (be32 48)
        Exec.put 8 (be32 (4 * (out + 4)))
        pure (some {
          toks := l.tree.toks
          out := out + 4
          path := []
          skipLen := 0
          addrCells := 0
          sizeCells := 0
          inChosen := false })

/-- Everything behind the structure block that started at the word `structOut`,
except for the magic number. -/
def finish (info : FdtAddendum) (t : FdtInput) (structOut : Nat) (s : TokState) :
    Exec (Option Unit) :=
  if t.cmd s.toks ≠ cmdEnd then pure none
  else if outEnd ≤ s.out then pure none
  else do
    Exec.put (4 * s.out) (be32 cmdEnd)
    let outStringOffset := 4 * (s.out + 1)
    let outStringSize := (insertedStrings.length + t.stringSize) % 2 ^ 32
    Exec.put 12 (be32 outStringOffset)
    Exec.put 36 (be32 (outStringOffset - 4 * structOut - 4))
    Exec.put 32 (be32 outStringSize)
    if outStringSize < t.stringSize ∨ (outEnd - (s.out + 1)) * 4 < outStringSize then pure none
    else do
      Exec.put outStringOffset (bytesAt t.inp t.str t.stringSize)
      Exec.put (outStringOffset + t.stringSize) insertedStrings
      let outTotalsize := (outStringOffset + outStringSize) % 2 ^ 32
      Exec.put 4 (be32 outTotalsize)
      Exec.put 48 (be64 info.fdtAddress.toNat)
      Exec.put 56 (be64 outTotalsize)
      Exec.put 20 (be32 17)
      Exec.put 24 (be32 16)
      Exec.put 28 (be32 info.bootCpu.toNat)
      pure (some ())

/-- The body of `transform_fdt` between the two stores of the magic number. -/
def transformTree (l : FdtLayout) (info : FdtAddendum) : Exec (Option Unit) :=
  (startTokens outEnd l info).orFail fun s =>
  (tokenLoop outEnd info l.tree (l.tree.toksEnd - l.tree.toks + 1) s).orFail fun s' =>
  finish outEnd info l.tree s.out s'

def transformFdt (inp : Nat → UInt8) (inSize : Nat) (info : FdtAddendum) : Exec Bool := do
  Exec.assert (outEnd ≤ 0x40000000)
  Exec.put 0 (be32 0)
  match readHeader inp inSize with
  | none => pure false
  | some l =>
    match ← transformTree outEnd l info with
    | none => pure false
    | some () =>
      Exec.put 0 (be32 0xd00dfeed)
      pure true

end
end Rkboot.Dramstage
