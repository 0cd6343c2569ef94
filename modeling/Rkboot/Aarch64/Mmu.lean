import Mathlib.Logic.Function.Basic
import Mathlib.Algebra.Ring.Nat

/-! # Page tables of the stage 1 translation

The code that fills and empties the translation tables of a 4 KiB granule:
the assembly routine `mmu_multimap` with one instance of its loop body for
each level, and the C functions that map and unmap single ranges. Addresses
and descriptors are 64-bit words. The assertions of both parts are enabled,
the development assertions of the assembly are not, as in the build files. -/
namespace Rkboot.Aarch64

/-- The array `pagetables` and its length. -/
structure Frames where
  pagetables : Nat
  numPagetables : Nat

/-- The words of the memory by address, and the number of tables handed out. -/
structure Memory where
  word : Nat → Nat
  nextPagetable : Nat

def Memory.write (m : Memory) (a v : Nat) : Memory :=
  { m with word := Function.update m.word a v }

/-- The words of the 4 KiB from `a` on set to zero. -/
def Memory.clear (m : Memory) (a : Nat) : Memory :=
  { m with word := fun b => if a ≤ b ∧ b < a + 0x1000 then 0 else m.word b }

def mask64 (n : Nat) : Nat := (1 <<< n) - 1

/-- What ends a call other than its return. -/
inductive Fail where
  | outOfPagetables
  | misalignedMapping
  | wrappingMapping
  | overlappingMapping
  | assertion
  /-- The list of mappings has no end mark. -/
  | listEnd
  deriving DecidableEq, Repr

def Fail.message : Fail → String
  | .outOfPagetables => "ran out of pagetables\r\n"
  | .misalignedMapping => "BUG: misaligned mapping boundary\r\n"
  | .wrappingMapping => "BUG: wrapping mapping\r\n"
  | .overlappingMapping => "BUG: overlapping memory mappings\r\n"
  | .assertion | .listEnd => ""

/-! ## The walk -/

/-- `pagetables[table][pos]`. -/
def Memory.pte (m : Memory) (f : Frames) (table pos : Nat) : Nat :=
  m.word (f.pagetables + 0x1000 * table + 8 * pos)

/-- The number of the table a table descriptor names. -/
def Frames.index (f : Frames) (pte : Nat) : Nat :=
  ((pte >>> 12 &&& mask64 36) + 2 ^ 64 - f.pagetables >>> 12) % 2 ^ 64

/-- `map_address`; `none` where an assertion fails. -/
def mapAddress (f : Frames) (m : Memory) (addr : Nat) : Option Nat :=
  let pteL0 := m.pte f 0 (addr >>> 39 &&& 0x1ff)
  if pteL0 &&& 3 ≠ 3 then none else
  let ptL1 := f.index pteL0
  if f.numPagetables ≤ ptL1 then none else
  let pteL1 := m.pte f ptL1 (addr >>> 30 &&& 0x1ff)
  if pteL1 &&& 3 = 1 then some (pteL1 &&& mask64 18 <<< 30 ||| addr &&& mask64 30) else
  if pteL1 &&& 3 ≠ 3 then none else
  let ptL2 := f.index pteL1
  if f.numPagetables ≤ ptL2 then none else
  let pteL2 := m.pte f ptL2 (addr >>> 21 &&& 0x1ff)
  if pteL2 &&& 3 = 1 then some (pteL2 &&& mask64 27 <<< 21 ||| addr &&& mask64 21) else
  if pteL2 &&& 3 ≠ 3 then none else
  let ptL3 := f.index pteL2
  if f.numPagetables ≤ ptL3 then none else
  let pteL3 := m.pte f ptL3 (addr >>> 12 &&& 0x1ff)
  if pteL3 &&& 3 ≠ 3 then none else
  some (pteL3 &&& mask64 36 <<< 12 ||| addr &&& mask64 12)

/-! ## mmu_multimap -/

/-- `extract_address` without large physical addresses. -/
def extractAddress (d : Nat) : Nat := d &&& 0x0000fffffffff000

/-- The arguments of one instance of `multimap_level`. -/
structure LevelArgs where
  shift : Nat
  isMappable : Bool
  /-- `next_level_label` is given. -/
  hasNext : Bool
  /-- `prev_level_label` is given. -/
  hasPrev : Bool

def multimapLevel : Nat → LevelArgs
  | 0 => ⟨39, false, true, false⟩
  | 1 => ⟨30, true, true, true⟩
  | 2 => ⟨21, true, true, true⟩
  | _ => ⟨12, true, false, true⟩

/-- The labels of the loop body: `8:`, `1:`, `3:`, `7:` and `return_label`. -/
inductive Label where
  | start
  | loop
  | deeper
  | ended
  | back
  deriving DecidableEq, Repr

structure Regs where
  addr : Nat
  desc : Nat
  nextMapAddr : Nat
  /-- What is left of the list of mappings, a word each. -/
  map : List Nat
  /-- The table pointer of each level; the one of the next level doubles as scratch register. -/
  tablePtr : Nat → Nat

def Regs.setPtr (r : Regs) (level p : Nat) : Regs :=
  { r with tablePtr := Function.update r.tablePtr level p }

/-- Where control is in the instance for `level`. -/
structure Config where
  level : Nat
  label : Label
  regs : Regs
  mem : Memory

inductive Outcome where
  | goto (c : Config)
  | done (map : List Nat) (m : Memory)
  | fail (e : Fail)

inductive Next where
  | mapping (desc nextMapAddr : Nat) (map : List Nat)
  | done (map : List Nat)
  | fail (e : Fail)

/-- `next_mapping`: the next mapping of the list that is not empty. -/
def nextMapping (addr : Nat) : List Nat → Next
  | [] => .fail .listEnd
  | desc :: map =>
    if ¬ desc.testBit 0 then .done map else
    match map with
    | [] => .fail .listEnd
    | next :: map =>
      if addr = next then nextMapping addr map
      else if next &&& 0xfff ≠ 0 then .fail .misalignedMapping
      else .mapping desc next map

/-- `alloc_page_table`: the address of a cleared table. -/
def allocPageTable (f : Frames) (root : Nat) (m : Memory) : Except Fail (Nat × Memory) :=
  if f.numPagetables ≤ m.nextPagetable then .error .outOfPagetables else
  let t := (root + m.nextPagetable <<< 12) % 2 ^ 64
  .ok (t, { m.clear t with nextPagetable := (m.nextPagetable + 1) % 2 ^ 32 })

namespace Config

def args (c : Config) : LevelArgs := multimapLevel c.level

def pos (c : Config) : Nat := c.regs.addr >>> c.args.shift &&& 0x1ff

/-- The address of the entry for `addr` in the table of this level. -/
def entry (c : Config) : Nat := c.regs.tablePtr c.level + c.pos <<< 3

def goto (c : Config) (l : Label) : Outcome := .goto { c with label := l }

/-- `8:`, reached from other levels and with a new mapping. -/
def start (c : Config) : Outcome :=
  let mask := mask64 c.args.shift
  if c.args.isMappable && c.args.hasNext then
    if c.regs.addr &&& mask ≠ 0 then c.goto .deeper
    else if (extractAddress c.regs.desc + 2 ^ 64 - c.regs.addr) % 2 ^ 64 &&& mask ≠ 0 then
      c.goto .deeper
    else c.goto .loop
  else c.goto .loop

/-- The entry for `addr` written and the mapping advanced behind it. -/
def writeEntry (c : Config) (next : Nat) : Config :=
  let size := 1 <<< c.args.shift
  let r := c.regs
  { c with
    regs := { r.setPtr (c.level + 1) (if c.args.shift ≤ 23 then next else size) with
      addr := next, desc := (r.desc + size) % 2 ^ 64 }
    mem := c.mem.write c.entry (if c.args.hasNext then r.desc ^^^ 2 else r.desc) }

/-- `1:`, the mapping loop. -/
def loop (c : Config) : Outcome :=
  if c.args.isMappable then
    let next := (c.regs.addr + 1 <<< c.args.shift) % 2 ^ 64
    if c.args.hasNext && decide (c.regs.nextMapAddr < next) then
      { c with regs := c.regs.setPtr (c.level + 1) next }.goto .deeper
    else if (c.mem.word c.entry).testBit 0 then .fail .overlappingMapping
    else
      let c' := c.writeEntry next
      if next = c.regs.nextMapAddr then c'.goto .ended
      else if c.pos ≠ 0x1ff then c'.goto .loop
      else { c' with level := c.level - 1 }.goto .back
  else c.goto .deeper

/-- `3:`, to the next level; the last level falls through. -/
def deeper (f : Frames) (c : Config) : Outcome :=
  if c.args.hasNext then
    let e := c.mem.word c.entry
    if e.testBit 0 then
      .goto ⟨c.level + 1, .start, c.regs.setPtr (c.level + 1) (extractAddress e), c.mem⟩
    else
      match allocPageTable f (c.regs.tablePtr 0) c.mem with
      | .error e => .fail e
      | .ok (t, m) =>
        .goto ⟨c.level + 1, .start, c.regs.setPtr (c.level + 1) t,
          m.write c.entry (extractAddress t ||| 3)⟩
  else c.goto .ended

/-- `7:`, the current mapping has ended. -/
def ended (c : Config) : Outcome :=
  match nextMapping c.regs.addr c.regs.map with
  | .fail e => .fail e
  | .done map => .done map c.mem
  | .mapping desc next map =>
    { c with regs := { c.regs with desc := desc, nextMapAddr := next, map := map } }.goto .start

/-- `return_label`, behind the end of a table of the next level. -/
def back (c : Config) : Outcome :=
  if c.pos ≠ 0 then c.goto .start
  else if c.args.hasPrev then { c with level := c.level - 1 }.goto .back
  else .fail .wrappingMapping

def step (f : Frames) (c : Config) : Outcome :=
  match c.label with
  | .start => c.start
  | .loop => c.loop
  | .deeper => c.deeper f
  | .ended => c.ended
  | .back => c.back

/-- The steps until the call ends, as many as `fuel` allows. -/
def run (f : Frames) : Nat → Config → Option (Except Fail (List Nat × Memory))
  | 0, _ => none
  | fuel + 1, c =>
    match c.step f with
    | .goto c => run f fuel c
    | .done map m => some (.ok (map, m))
    | .fail e => some (.error e)

end Config

/-- `mmu_multimap` with a root table and a list of mappings, two words each. -/
def mmuMultimap (f : Frames) (fuel table : Nat) (map : List Nat) (m : Memory) :
    Option (Except Fail (List Nat × Memory)) :=
  match map with
  | addr :: desc :: next :: map =>
    if (addr ||| next) &&& 0xfff ≠ 0 then some (.error .misalignedMapping)
    else Config.run f fuel
      ⟨0, .start, ⟨addr, desc, next, map, Function.update (fun _ => 0) 0 table⟩, m⟩
  | _ => some (.error .listEnd)

/-! ## Single ranges -/

def pgtabPage (attridx : Nat) : Nat := 3 ||| 1 <<< 10 ||| attridx <<< 2

def pgtabOuterShareable : Nat := 2 <<< 8

def rangeDesc (paddr flags : Nat) : Nat :=
  paddr ||| pgtabPage (flags &&& 7) ||| flags &&& 0x3e0 ||| pgtabOuterShareable

/-- `mmu_map_range`, which maps into the first table of the array. -/
def mmuMapRange (f : Frames) (fuel first last paddr flags : Nat) (m : Memory) :
    Option (Except Fail (List Nat × Memory)) :=
  if last ≤ first then some (.error .assertion)
  else mmuMultimap f fuel f.pagetables
    [first, rangeDesc paddr flags, (last + 1) % 2 ^ 64, 0] m

structure PteLvl where
  shift : Nat
  lastLevel : Bool
  mappingAllowed : Bool

def pteLvls : List PteLvl :=
  [⟨39, false, false⟩, ⟨30, false, true⟩, ⟨21, false, true⟩, ⟨12, true, true⟩]

/-- The entries from `i` on checked against the template and cleared. -/
def clearEntries (pt template : Nat) : Nat → Nat → Memory → Except Fail Memory
  | _, 0, m => .ok m
  | i, n + 1, m =>
    if m.word (pt + 8 * i) &&& 3 ≠ template then .error .assertion
    else clearEntries pt template (i + 1) n (m.write (pt + 8 * i) 0)

/-- The loop behind the barrier, which invalidates the entries, asserts that they are empty. -/
def checkCleared (pt : Nat) (m : Memory) : Nat → Nat → Except Fail Memory
  | _, 0 => .ok m
  | i, n + 1 =>
    if (m.word (pt + 8 * i)).testBit 0 then .error .assertion else checkCleared pt m (i + 1) n

/-- `unmap_one` from a level on: the last address it has unmapped. -/
def unmapOne (first : Nat) : List PteLvl → Nat → Nat → Memory → Except Fail (Nat × Memory)
  | [], _, _, _ => .error .assertion
  | l :: ls, pt, last, m =>
    let mask := mask64 l.shift
    let endAligned := last &&& mask = mask
    let notAlsoLast := first >>> l.shift < last >>> l.shift
    let firstEntry := first >>> l.shift &&& mask64 9
    if l.mappingAllowed ∧ first &&& mask = 0 ∧ (endAligned ∨ notAlsoLast) then do
      let last := if endAligned then last else (last + 2 ^ 64 - 1 <<< l.shift) % 2 ^ 64 ||| mask
      let lastEntry := last >>> l.shift &&& mask64 9
      let count := lastEntry + 1 - firstEntry
      let m ← clearEntries pt (if l.lastLevel then 3 else 1) firstEntry count m
      let m ← checkCleared pt m firstEntry count
      return (last, m)
    else if l.lastLevel then .error .assertion
    else
      let entry := m.word (pt + 8 * firstEntry)
      if entry &&& 3 ≠ 3 then .error .assertion
      else unmapOne first ls (extractAddress entry) (if notAlsoLast then first ||| mask else last) m

/-- The loop of `mmu_unmap_range`. -/
def unmapLoop (f : Frames) (last : Nat) : Nat → Nat → Memory → Option (Except Fail Memory)
  | 0, _, _ => none
  | fuel + 1, first, m =>
    match unmapOne first pteLvls f.pagetables last m with
    | .error e => some (.error e)
    | .ok (first, m) => if first < last then unmapLoop f last fuel (first + 1) m else some (.ok m)

def mmuUnmapRange (f : Frames) (fuel first last : Nat) (m : Memory) : Option (Except Fail Memory) :=
  if last ≤ first then some (.error .assertion) else unmapLoop f last fuel first m

end Rkboot.Aarch64
