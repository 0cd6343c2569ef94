import Rkboot.Tools.Regtool

/-! # The value expressions of regtool

An expression is evaluated in two stages: `demultiplex` replaces the calls of repetitions by one of
their arguments, and `run_expression` runs what is left on a stack of 64-bit values. A number in the text
is below `2 ^ 32`, what the operators make of it below `2 ^ 64`. -/
namespace Rkboot.Tools.Regtool
open Lib List

/-- `struct macro`. -/
structure Macro where
  name : List Char
  value : List Char

/-- What `struct context` has for the expressions. -/
structure RpnContext extends Context where
  macros : List Macro
  freqMhz : Nat → Nat
  /-- The latencies of each frequency, in the order of `enum lpddr4_latency_value`. -/
  freqSteps : Nat → Nat → Nat

/-! ## Text -/

def blank (c : Char) : Bool := c = ' ' ∨ c = '\t' ∨ c = '\r' ∨ c = '\n'

def stripl (text : List Char) : List Char := text.dropWhile blank

def stripr (text : List Char) : List Char := (text.reverse.dropWhile blank).reverse

def decDigit (c : Char) : Option Nat :=
  if '0' ≤ c ∧ c ≤ '9' then some (c.toNat - '0'.toNat) else none

def hexDigit (c : Char) : Option Nat :=
  if '0' ≤ c ∧ c ≤ '9' then some (c.toNat - '0'.toNat)
  else if 'A' ≤ c ∧ c ≤ 'F' then some (c.toNat - 'A'.toNat + 10)
  else if 'a' ≤ c ∧ c ≤ 'f' then some (c.toNat - 'a'.toNat + 10)
  else none

/-- The loops of `parse_dec` and `parse_hex`: the value, and how many characters were read. A digit
stops them if the value is above `limit` then. -/
def parseDigits (digit : Char → Option Nat) (base : Nat) (limit : Nat → Nat) :
    Nat → Nat → List Char → Option (Nat × Nat)
  | val, len, [] => some (val, len)
  | val, len, c :: rest =>
    match digit c with
    | none => some (val, len)
    | some d =>
      if limit d < val then none
      else parseDigits digit base limit (val * base + d) (len + 1) rest

def parseDec (text : List Char) : Option (Nat × Nat) :=
  match text with
  | [] => none
  | c :: _ =>
    if (decDigit c).isNone then none
    else parseDigits decDigit 10 (fun d => (2 ^ 32 - 1 - d) / 10) 0 0 text

def parseHex (text : List Char) : Option (Nat × Nat) :=
  match text with
  | '0' :: 'x' :: c :: rest =>
    if (hexDigit c).isNone then none
    else parseDigits hexDigit 16 (fun _ => (2 ^ 32 - 1) >>> 4) 0 2 (c :: rest)
  | _ => none

/-! ## Demultiplexing -/

/-- The text before and behind the first occurrence. -/
def memmem (needle : List Char) : List Char → Option (List Char × List Char)
  | [] => none
  | c :: rest =>
    if needle.isPrefixOf (c :: rest) then some ([], (c :: rest).drop needle.length)
    else (memmem needle rest).map fun (before, behind) => (c :: before, behind)

/-- The argument `value` of a call with `num` arguments, from inside the argument `param` and that many
open parentheses, and the text behind the call. -/
def callArgument (num value : Nat) : Nat → Nat → List Char → Option (List Char × List Char)
  | _, _, [] => none
  | param, depth, c :: rest =>
    if depth = 0 ∧ c = ')' then if param + 1 = num then some ([], rest) else none
    else if depth = 0 ∧ c = ',' then
      if param + 1 < num then callArgument num value (param + 1) 0 rest else none
    else
      let depth := if c = ')' then depth - 1 else if c = '(' then depth + 1 else depth
      (callArgument num value param depth rest).map fun (arg, behind) =>
        (if param = value then c :: arg else arg, behind)

/-- `rep_macro`. -/
def Repetition.call (rep : Repetition) : List Char := rep.name.toList ++ ['(']

/-- The loop over the calls of a repetition. Each call it replaces makes the text shorter, so it ends
within as many turns as the text has characters. -/
def demultiplexRep (rep : Repetition) (value : Nat) : Nat → List Char → Option (List Char)
  | 0, text => some text
  | fuel + 1, text =>
    match memmem rep.call text with
    | none => some text
    | some (before, behind) =>
      match callArgument rep.numRepetitions value 0 0 behind with
      | none => none
      | some (arg, behind) => demultiplexRep rep value fuel (before ++ arg ++ behind)

def Repetition.all : List Repetition :=
  [freq, cs, cs4, addrbit, databit, device, dslice, aslice, acslice, mystery10, sync]

def demultiplex (ctx : Context) (localReps : Nat) (repValues : Repetition → Nat) (expr : List Char) :
    Option (List Char) :=
  Repetition.all.foldlM (fun text rep =>
    if (localReps ||| ctx.globalReps).testBit rep.index then
      demultiplexRep rep
        (if localReps.testBit rep.index then repValues rep else ctx.repValues rep) text.length text
    else some text) expr

/-! ## Operators -/

inductive RpnError where
  | notEnoughValues (tok : String)
  | evaluation (error : String)
  | tokenize (text : List Char)
  deriving DecidableEq, Repr

/-- `struct rpn_op`: each operator makes one value of its inputs, the first of which is the deepest on
the stack, or says what is wrong with them. -/
inductive Operator where
  | nullary (op : Value)
  | unary (op : Value → Except String Value)
  | binary (op : Value → Value → Except String Value)
  | ternary (op : Value → Value → Value → Except String Value)

def push (stack : List Value) : Except String Value → Except RpnError (List Value)
  | .error error => .error (.evaluation error)
  | .ok v => .ok (v :: stack)

/-- An operator on a stack, the top of which is the first value. -/
def Operator.run (tok : String) : Operator → List Value → Except RpnError (List Value)
  | nullary v, stack => .ok (v :: stack)
  | unary op, v :: stack => push stack (op v)
  | binary op, b :: a :: stack => push stack (op a b)
  | ternary op, v :: b :: a :: stack => push stack (op a b v)
  | _, _ => .error (.notEnoughValues tok)

def opClocks (param : Nat) (v : Value) : Except String Value :=
  if v.type ≠ .number then .error "value not a raw number"
  else .ok ⟨.qmcyc, (v.val * 4000 + param) % 2 ^ 64⟩

def opMax (a b : Value) : Except String Value :=
  if a.type ≠ b.type then .error "inputs are of different type"
  else .ok ⟨a.type, if a.val < b.val then b.val else a.val⟩

def opPlus (a b : Value) : Except String Value :=
  if a.type ≠ b.type then .error "inputs are of different type"
  else .ok ⟨a.type, (a.val + b.val) % 2 ^ 64⟩

def opMinus (a b : Value) : Except String Value :=
  if a.type ≠ b.type then .error "inputs are of different type"
  else if a.val < b.val then .error "difference would be negative"
  else .ok ⟨a.type, a.val - b.val⟩

def opTimes (a b : Value) : Except String Value :=
  if a.type ≠ .number ∧ b.type ≠ .number then .error "neither factor is a raw number"
  else .ok ⟨a.type, a.val * b.val % 2 ^ 64⟩

/-- `op_div_p` adds `round := b->val - 1` before it divides, `op_div_n` nothing. -/
def opDiv (round : Nat → Nat) (a b : Value) : Except String Value :=
  if b.type ≠ .number then .error "denominator is not a raw number"
  else if b.val = 0 then .error "denominator is 0"
  else .ok ⟨a.type, (a.val + round b.val) % 2 ^ 64 / b.val⟩

def opDivP : Value → Value → Except String Value := opDiv (· - 1)

def opDivN : Value → Value → Except String Value := opDiv fun _ => 0

def opCompare (holds : Nat → Nat → Bool) (a b : Value) : Except String Value :=
  if a.type ≠ b.type then .error "inputs are of different type"
  else .ok ⟨.bool, if holds a.val b.val then 1 else 0⟩

def opLess : Value → Value → Except String Value := opCompare fun a b => a < b

def opNogreater : Value → Value → Except String Value := opCompare fun a b => a ≤ b

def opRound (param : Nat) (v : Value) : Except String Value :=
  if v.type ≠ .qmcyc then .error "value not a timing value"
  else .ok ⟨v.type, (v.val + param) % 2 ^ 64 - (v.val + param) % 2 ^ 64 % 4000⟩

/-- The types of the two values are not compared. -/
def opSelect (a b v : Value) : Except String Value :=
  if v.type ≠ .bool then .error "condition not a boolean"
  else .ok ⟨a.type, if v.val = 0 then b.val else a.val⟩

def opParenOpen : Value := ⟨.parenthesis, 0⟩

def opParenClose (a b : Value) : Except String Value :=
  if a.type ≠ .parenthesis then .error "parenthesis unmatched" else .ok b

section
variable (ctx : RpnContext) (repValues : Repetition → Nat)

/-- The value of the repetition `freq`. -/
def RpnContext.freq : Nat :=
  if ctx.globalReps.testBit Repetition.freq.index then ctx.repValues .freq else repValues .freq

def opTimeunit (param : Nat) (v : Value) : Except String Value :=
  if v.type ≠ .number then .error "value not a raw number"
  else if ¬ ctx.freq repValues < 3 then .error "assertion failed"
  else .ok ⟨.qmcyc, (v.val * (param >>> 16) + (param &&& 0xffff)) * ctx.freqMhz (ctx.freq repValues) %
    2 ^ 64⟩

def opTabulatedLatency (param : Nat) (v : Value) : Except String Value :=
  if v.type ≠ .number then .error "value not a raw number"
  else .ok ⟨v.type, v.val * ctx.freqSteps (ctx.freq repValues) param % 2 ^ 64⟩

def opMhz : Value := ⟨.number, ctx.freqMhz (ctx.freq repValues)⟩

/-- The operators, in the order in which `init_ops` registers them. -/
def ops : List (String × Operator) :=
  [("MHz", .nullary (opMhz ctx repValues)),
    ("(", .nullary opParenOpen),
    ("ns", .unary (opTimeunit ctx repValues (4 <<< 16))),
    (".5ns", .unary (opTimeunit ctx repValues (4 <<< 16 ||| 2))),
    (".75ns", .unary (opTimeunit ctx repValues (4 <<< 16 ||| 3))),
    ("us", .unary (opTimeunit ctx repValues (4000 <<< 16))),
    ("tCK", .unary (opClocks 0)),
    (".5tCK", .unary (opClocks 2000)),
    ("tRFC", .unary (opTimeunit ctx repValues ((180 * 4) <<< 16))),
    ("ceil", .unary (opRound 3999)),
    ("floor", .unary (opRound 0)),
    ("RL_nDBI", .unary (opTabulatedLatency ctx repValues 0)),
    ("RL_DBI", .unary (opTabulatedLatency ctx repValues 1)),
    ("WL_A", .unary (opTabulatedLatency ctx repValues 2)),
    ("WL_B", .unary (opTabulatedLatency ctx repValues 3)),
    ("nWR", .unary (opTabulatedLatency ctx repValues 4)),
    ("nRTP", .unary (opTabulatedLatency ctx repValues 5)),
    ("MRVal", .unary (opTabulatedLatency ctx repValues 6)),
    ("max", .binary opMax),
    ("+", .binary opPlus),
    ("-", .binary opMinus),
    ("*", .binary opTimes),
    ("div_p", .binary opDivP),
    ("div_n", .binary opDivN),
    ("<=", .binary opNogreater),
    ("<", .binary opLess),
    (")", .binary opParenClose),
    ("sel", .ternary opSelect)]

/-! ## The stack machine -/

/-- The part of `run_expression` between two ends of the expansion stack: `skip` characters belong to
the last token, and `expand` runs the text of a macro, if there is one of that name. -/
def runTokens (expand : List Char → Option (List Value → Except RpnError (List Value))) :
    Nat → List Char → List Value → Except RpnError (List Value)
  | _, [], stack => .ok stack
  | skip + 1, _ :: rest, stack => runTokens expand skip rest stack
  | 0, c :: rest, stack =>
    if blank c then runTokens expand 0 rest stack
    else
      match (parseHex (c :: rest)).or (parseDec (c :: rest)) with
      | some (val, len) => runTokens expand (len - 1) rest (⟨.number, val⟩ :: stack)
      | none =>
        let word := (c :: rest).takeWhile (· ≠ ' ')
        -- the first operator that the word begins with; no blank has to follow it
        match (ops ctx repValues).find? fun op => op.1.toList.isPrefixOf word with
        | some (tok, op) =>
          match op.run tok stack with
          | .error e => .error e
          | .ok stack => runTokens expand (tok.toList.length - 1) rest stack
        | none =>
          match expand word with
          | none => .error (.tokenize (c :: rest))
          | some run =>
            match run stack with
            | .error e => .error e
            | .ok stack => runTokens expand (word.length - 1) rest stack

/-- The macros by their names. In its text a macro sees those before it, so no expansion is endless. -/
def expansions : List Macro → List (List Char × (List Value → Except RpnError (List Value))) :=
  foldl (fun runs m => runs ++ [(m.name, runTokens ctx repValues (runs.lookup ·) 0 m.value)]) []

def runExpression (expr : List Char) : Except RpnError (List Value) :=
  runTokens ctx repValues ((expansions ctx repValues ctx.macros).lookup ·) 0 expr []

end

/-- What `hex_blob` evaluates for a field: the expression that is left of the first stage, and the stack
that the second one leaves. -/
def evaluate (ctx : RpnContext) (field : Field) (f : FieldLine) : Option (String × List Value) :=
  match demultiplex ctx.toContext field.flags field.repValue f.value.toList with
  | none => none
  | some demuxed =>
    let expr := stripl (stripr demuxed)
    match runExpression ctx field.repValue expr with
    | .error _ => none
    | .ok stack => some (String.ofList expr, stack)

/-! ## The first stage leaves no call -/

theorem memmem_length {needle text before behind} (h : memmem needle text = some (before, behind)) :
    before.length + needle.length + behind.length = text.length := by
  induction text generalizing before with
  | nil => cases h
  | cons c rest ih =>
    rw [memmem] at h
    split at h
    · rename_i hfound
      obtain ⟨behind', hsplit⟩ := isPrefixOf_iff_prefix.mp hfound
      cases h
      rw [← hsplit, drop_left, length_append, length_nil, Nat.zero_add]
    · obtain ⟨⟨before, behind⟩, hrest, hpair⟩ := Option.map_eq_some_iff.mp h
      cases hpair
      have := ih hrest
      rw [length_cons, length_cons]
      omega

theorem callArgument_length {num value param depth text arg behind}
    (h : callArgument num value param depth text = some (arg, behind)) :
    arg.length + behind.length < text.length := by
  induction text generalizing param depth arg behind with
  | nil => cases h
  | cons c rest ih =>
    rw [callArgument] at h
    rw [length_cons]
    split at h
    · split at h
      · cases h
        rw [length_nil]
        omega
      · cases h
    · split at h
      · split at h
        · have := ih h
          omega
        · cases h
      · obtain ⟨⟨arg, behind⟩, hrest, hpair⟩ := Option.map_eq_some_iff.mp h
        have := ih hrest
        dsimp only at hpair
        split at hpair <;> cases hpair
        · rw [length_cons]
          omega
        · omega

/-- The turns that the length of the text allows are enough. -/
theorem demultiplexRep_memmem {rep value fuel text text'} (hfuel : text.length ≤ fuel)
    (h : demultiplexRep rep value fuel text = some text') : memmem rep.call text' = none := by
  induction fuel generalizing text with
  | zero =>
    obtain rfl := length_eq_zero_iff.mp (Nat.le_zero.mp hfuel)
    cases h
    rfl
  | succ fuel ih =>
    rw [demultiplexRep] at h
    split at h
    · cases h
      assumption
    · rename_i before behind hcall
      split at h
      · cases h
      · rename_i arg behind' harg
        have hbefore := memmem_length hcall
        have hbehind := callArgument_length harg
        refine ih ?_ h
        rw [length_append, length_append]
        omega

end Rkboot.Tools.Regtool
