import Rkboot.Lib.Machine
import Mathlib.Logic.Function.Basic
import Mathlib.Algebra.Ring.Nat

/-! # regtool

A description of registers is a list of lines: fields, and pragmas that repeat the lines they cover
or move the layout pointer. `layout_fields` gives each field its place, and `hex_blob` makes the words
of the registers from the values of the fields. -/
namespace Rkboot.Tools.Regtool
open Lib Function

/-- `enum repetition`. -/
inductive Repetition where
  | freq
  | cs
  | cs4
  | addrbit
  | databit
  | device
  | dslice
  | aslice
  | acslice
  | mystery10
  | sync
  deriving DecidableEq, Repr

namespace Repetition

def index : Repetition → Nat
  | freq => 0
  | cs => 1
  | cs4 => 2
  | addrbit => 3
  | databit => 4
  | device => 5
  | dslice => 6
  | aslice => 7
  | acslice => 8
  | mystery10 => 9
  | sync => 10

/-- `rep_names`. -/
def name : Repetition → String
  | freq => "freq"
  | cs => "cs"
  | cs4 => "cs4"
  | addrbit => "addrbit"
  | databit => "databit"
  | device => "device"
  | dslice => "dslice"
  | aslice => "aslice"
  | acslice => "acslice"
  | mystery10 => "mystery10"
  | sync => "sync"

/-- `rep_num_repetitions`. -/
def numRepetitions : Repetition → Nat
  | freq => 3
  | cs => 2
  | cs4 => 4
  | addrbit => 6
  | databit => 8
  | device => 2
  | dslice => 4
  | aslice => 3
  | acslice => 4
  | mystery10 => 10
  | sync => 0

end Repetition

/-- `NUM_REP`. -/
def numRep : Nat := 11

/-! ## Lines -/

/-- A field description, as `read_lines` accepts it. -/
structure FieldLine where
  alignment : Nat
  size : Nat
  ro : Bool
  packed : Bool
  upperLimit : Bool
  lowerLimit : Bool
  value : String
  alignment_eq : alignment = 1 ∨ alignment = 8 ∨ alignment = 16 ∨ alignment = 32
  size_pos : 0 < size
  size_le : size ≤ 32

inductive LineKind where
  | field (f : FieldLine)
  | pragma (rep : Repetition) (offsetStart offsetEnd : Nat)

/-- `struct line`. -/
structure Line where
  line : Nat
  indent : Nat
  kind : LineKind

/-- `struct field`; the values are those of all repetitions, whether active or not. -/
structure Field where
  line : Nat
  flags : Nat
  offset : Nat
  repValue : Repetition → Nat

/-- `struct context`. A repetition that is not set globally has the value 0 outside its scope. -/
structure Context where
  lines : List Line
  globalReps : Nat
  repValues : Repetition → Nat
  first : Nat
  last : Nat
  unset : ∀ rep, globalReps.testBit rep.index = false → repValues rep = 0

/-! ## Layout -/

/-- The checks of `layout_fields` that can fail, with the number of the line. -/
inductive LayoutError where
  | indented (line : Nat)
  | endOffset (line : Nat)
  | nested (line : Nat) (rep : Repetition)
  | startOffset (line expected got : Nat)
  | setGlobally (line : Nat) (rep : Repetition)
  | syncNested (line : Nat)
  | assertion

def LayoutError.message : LayoutError → String
  | indented line => s!"line {line}: indented without declaring the repetition scope\n"
  | endOffset line => s!"line {line}: end offset did not match"
  | nested line rep => s!"line {line}: nested repetitions of type {rep.name}\n"
  | startOffset line expected got =>
    s!"line {line}: start offset does not match: expected {expected / 32}+{expected % 32}, " ++
      s!"got {got / 32}+{got % 32}"
  | setGlobally line rep =>
    s!"line {line}: '{rep.name}' value was set globally, cannot be used as a repetition"
  | syncNested line => s!"line {line}: sync pragmas should only be used at the top level\n"
  | assertion => "assertion failed"

/-- The local variables of `layout_fields`, and what it changes of the context. The innermost
repetition is the first of `active`. -/
structure LayoutState where
  pos : Nat
  curOffset : Nat
  active : List Repetition
  repStart : Repetition → Nat
  repEnd : Repetition → Nat
  repValues : Repetition → Nat
  fields : List Field

/-- `(cur_offset + alignment - 1) & ~(u16)(alignment - 1)`, stored to a `u16`. -/
def alignOffset (offset alignment : Nat) : Nat :=
  ((offset + alignment - 1) &&& (2 ^ 32 - alignment)) % 2 ^ 16

/-- Where a field starts. -/
def placeField (offset : Nat) (f : FieldLine) : Nat :=
  let offset := alignOffset offset f.alignment
  if (offset + f.size - 1) / 32 ≠ offset / 32 then ((offset &&& (2 ^ 32 - 32)) + 32) % 2 ^ 16
  else offset

/-- The layout pointer behind a field at `offset`. -/
def behindField (offset : Nat) (f : FieldLine) : Nat :=
  if f.packed then offset else (offset + f.size) % 2 ^ 16

def repFlags (active : List Repetition) : Nat :=
  active.foldr (fun rep flags => flags ||| 1 <<< rep.index) 0

/-- The number of the line at `pos`. -/
def Context.lineNumber (ctx : Context) (pos : Nat) : Nat := (ctx.lines[pos]?.map Line.line).getD 0

/-- `while (cur_indent < num_active_reps)`: whether the scope of a repetition begins again, which goes
back to the start of the outer loop. -/
def popReps (ctx : Context) (indent : Nat) :
    List Repetition → LayoutState → Except LayoutError (Bool × LayoutState)
  | [], s => .ok (false, s)
  | rep :: outer, s =>
    if indent < outer.length + 1 then
      let value := s.repValues rep + 1
      if value < rep.numRepetitions then
        .ok (true, { s with repValues := update s.repValues rep value, pos := s.repStart rep + 1 })
      else if (outer.all fun r => s.repValues r = 0) ∧ s.repEnd rep ≠ s.curOffset then
        .error (.endOffset (ctx.lineNumber (s.repStart rep)))
      else popReps ctx indent outer
        { s with repValues := update s.repValues rep 0, active := outer }
    else .ok (false, s)

def layoutField (s : LayoutState) (f : FieldLine) : LayoutState :=
  let offset := placeField s.curOffset f
  { s with
    fields := s.fields ++ [⟨s.pos, repFlags s.active, offset, s.repValues⟩]
    curOffset := behindField offset f }

def layoutPragma (ctx : Context) (s : LayoutState) (line : Nat) (rep : Repetition)
    (offsetStart offsetEnd : Nat) : Except LayoutError LayoutState :=
  if rep ∈ s.active then .error (.nested line rep)
  else if (s.active.all fun r => s.repValues r = 0) ∧ s.curOffset ≠ offsetStart then
    .error (.startOffset line offsetStart s.curOffset)
  else if ctx.globalReps.testBit rep.index then .error (.setGlobally line rep)
  else if rep ≠ .sync then
    if ¬ s.active.length + 1 < numRep then .error .assertion
    else .ok { s with
      active := rep :: s.active
      repValues := update s.repValues rep 0
      repEnd := update s.repEnd rep offsetEnd
      repStart := update s.repStart rep s.pos }
  else if s.active.length ≠ 0 then .error (.syncNested line)
  else .ok { s with curOffset := offsetEnd }

def layoutLine (ctx : Context) (s : LayoutState) (l : Line) : Except LayoutError LayoutState :=
  match l.kind with
  | .field f => .ok (layoutField s f)
  | .pragma rep offsetStart offsetEnd => layoutPragma ctx s l.line rep offsetStart offsetEnd

/-- The indentation that the loop sees, 0 behind the last line. -/
def Context.indentAt (ctx : Context) (pos : Nat) : Nat := (ctx.lines[pos]?.map Line.indent).getD 0

/-- `pos += 1`, unless a check has failed. -/
def layoutAdvance : Except LayoutError LayoutState → LayoutState ⊕ Except LayoutError (List Field)
  | .error e => .inr (.error e)
  | .ok s => .inl { s with pos := s.pos + 1 }

/-- What follows the inner loop. -/
def layoutNext (ctx : Context) :
    Except LayoutError (Bool × LayoutState) → LayoutState ⊕ Except LayoutError (List Field)
  | .error e => .inr (.error e)
  | .ok (true, s) => .inl s
  | .ok (false, s) =>
    match ctx.lines[s.pos]? with
    | none => .inr (.ok s.fields)
    | some l => layoutAdvance (layoutLine ctx s l)

/-- One turn of the outer loop: from `continue_outer_loop` to there. -/
def layoutStep (ctx : Context) (s : LayoutState) : LayoutState ⊕ Except LayoutError (List Field) :=
  if s.active.length < ctx.indentAt s.pos then .inr (.error (.indented (ctx.lineNumber s.pos)))
  else layoutNext ctx (popReps ctx (ctx.indentAt s.pos) s.active s)

def Context.start (ctx : Context) : LayoutState where
  pos := 0
  curOffset := 0
  active := []
  repStart := fun _ => 0
  repEnd := fun _ => 0
  repValues := ctx.repValues
  fields := []

/-- What `layout_fields` ends with. -/
def LayoutFields (ctx : Context) (r : Except LayoutError (List Field)) : Prop :=
  Ends (layoutStep ctx) ctx.start r

/-! ## Register words -/

/-- `enum value_type`. -/
inductive ValueType where
  | number
  | qmcyc
  | parenthesis
  | bool
  deriving DecidableEq, Repr

/-- `struct value`; the value is 64 bits wide. -/
structure Value where
  type : ValueType
  val : Nat
  deriving DecidableEq, Repr

/-- Why `hex_blob` stops; `evaluation` are all the checks while the value expression is evaluated. -/
inductive BlobError where
  | evaluation
  | results (line : Nat) (expr : String)
  | notTiming (line : Nat) (expr : String)
  | notNumber (line : Nat) (expr : String)
  | tooWide (line value size : Nat)
  | noField
  deriving DecidableEq, Repr

def BlobError.message : BlobError → String
  | evaluation => "evaluation failed"
  | results line expr =>
    s!"line {line}: value expression '{expr}' produced more than one result\n"
  | notTiming line expr =>
    s!"line {line}: value expression '{expr}' did not produce a timing value\n"
  | notNumber line expr =>
    s!"line {line}: value expression '{expr}' did not produce a raw number\n"
  | tooWide line value size =>
    s!"line {line}: value {value} (0x" ++ String.ofList (Nat.toDigits 16 value) ++
      s!") does not fit into a field of {size} bits\n"
  | noField => "no such field"

/-- The check that a value fits into its field. -/
def fitValue (line : Nat) (f : FieldLine) (value : Nat) : Except BlobError Nat :=
  if f.size = 32 ∨ value &&& (2 ^ 32 - 2 ^ f.size) = 0 then .ok value
  else .error (.tooWide line value f.size)

/-- `field_value`: what is left of the stack after the evaluation, rounded to cycles for a timing
field and stored to a `u32`. -/
def fieldValue (line : Nat) (f : FieldLine) (expr : String) : List Value → Except BlobError Nat
  | [v] =>
    if f.lowerLimit ∨ f.upperLimit then
      if v.type ≠ .qmcyc then .error (.notTiming line expr)
      else fitValue line f ((v.val + if f.upperLimit then 3999 else 0) % 2 ^ 64 / 4000 % 2 ^ 32)
    else if v.type ≠ .number then .error (.notNumber line expr)
    else fitValue line f (v.val % 2 ^ 32)
  | _ => .error (.results line expr)

/-- The local variables of `hex_blob`, and the words that it has printed. -/
structure BlobState where
  reg : Nat
  regVal : Nat
  words : List Nat

/-- The words, with that of the current register if it has been asked for. -/
def BlobState.emit (first last : Nat) (b : BlobState) : List Nat :=
  if first ≤ b.reg ∧ b.reg ≤ last then b.words ++ [b.regVal] else b.words

/-- The loop over the registers before the one of the next field. -/
def BlobState.skip (first last : Nat) : Nat → BlobState → BlobState
  | 0, b => b
  | n + 1, b => skip first last n { reg := b.reg + 1, regVal := 0, words := b.emit first last }

section
-- `demultiplex` and `run_expression`: the expression for the values of the repetitions and the stack
-- that it leaves, unless they stop the program
variable (evaluate : Field → FieldLine → Option (String × List Value)) (ctx : Context)

/-- The value of a field, which stands in the line. -/
def hexValue (line : Nat) (f : FieldLine) (field : Field) : Except BlobError Nat :=
  match evaluate field f with
  | none => .error .evaluation
  | some (expr, stack) => fieldValue line f expr stack

def hexField (b : BlobState) (field : Field) : Except BlobError BlobState :=
  match ctx.lines[field.line]? with
  | some ⟨line, _, .field f⟩ =>
    if f.ro ∨ f.packed then .ok b
    else
      let b := b.skip ctx.first ctx.last (field.offset / 32 - b.reg)
      match hexValue evaluate line f field with
      | .error e => .error e
      | .ok value =>
        .ok { b with regVal := b.regVal ||| (value <<< (field.offset % 32)) % 2 ^ 32 }
  | _ => .error .noField

/-- What `hex_blob` prints. -/
def hexBlob (fields : List Field) : Except BlobError (List Nat) :=
  match fields.foldlM (hexField evaluate ctx) ⟨0, 0, []⟩ with
  | .error e => .error e
  | .ok b => .ok (b.emit ctx.first ctx.last)

end

end Rkboot.Tools.Regtool
