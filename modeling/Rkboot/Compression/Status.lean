import Rkboot.Lib.Exec

/-! # What the decompressors share with their clients

The status codes of `compression.h` and the part of `struct decompressor_state`
that the client sets. A decode step returns a `size_t`: a status below
`NUM_DECODE_STATUS`, or `NUM_DECODE_STATUS` plus the number of bytes consumed. -/
namespace Rkboot.Compression
open Lib

/-- `DEFINE_DECODE_STATUS`. -/
inductive DecodeStatus where
  | err
  | needMoreSpace
  | needMoreData
  deriving DecidableEq, Repr

def DecodeStatus.code : DecodeStatus → Nat
  | .err => 0
  | .needMoreSpace => 1
  | .needMoreData => 2

def numDecodeStatus : Nat := 3

/-- `decode_status_msg`; `none` is an index past its end. -/
def decodeStatusMsg : Nat → Option String
  | 0 => some "decoding error"
  | 1 => some "decoding can't proceed without more output space"
  | 2 => some "decoding can't proceed without more input data"
  | _ => none

/-- What a decode step returns. -/
inductive DecodeResult where
  | status (s : DecodeStatus)
  | consumed (n : Nat)
  deriving DecidableEq, Repr

/-- The `size_t` of the C interface. -/
def DecodeResult.code : DecodeResult → Nat
  | .status s => s.code
  | .consumed n => numDecodeStatus + n

/-- `DEFINE_COMPR_PROBE_STATUS`. -/
inductive ProbeStatus where
  | sizeUnknown
  | sizeKnown (size : Nat)
  | notEnoughData
  | wrongMagic
  | unimplementedFeature
  | reservedFeature
  deriving DecidableEq, Repr

/-- `status <= COMPR_PROBE_LAST_SUCCESS`. -/
def ProbeStatus.success : ProbeStatus → Bool
  | .sizeUnknown => true
  | .sizeKnown _ => true
  | _ => false

/-- The client's part of `struct decompressor_state`. -/
structure DecompressorState where
  windowStart : Nat
  out : Nat
  outEnd : Nat

/-- The pointers are in order; what a client sets up and every step keeps. -/
structure DecompressorState.Ordered (st : DecompressorState) : Prop where
  window : st.windowStart ≤ st.out
  space : st.out ≤ st.outEnd

/-- `struct decompressor`, and the step `decode` points to. -/
structure Decompressor where
  State : Type
  probe : (Nat → UInt8) → Nat → Nat → ProbeStatus
  init : (Nat → UInt8) → State → Nat → Nat → Exec (Option Nat × State)
  /-- `state->decode != 0`. -/
  running : State → Bool
  decode : (Nat → UInt8) → State → Nat → Nat → Exec (DecodeResult × State)
  client : State → DecompressorState
  setClient : State → DecompressorState → State

/-- The states a client can come to: `init` after a successful probe, in whatever the state held
before; steps that do not fail; and between steps the client may move the window and the output
and change the space, as long as the window keeps its size. -/
inductive Decompressor.Reachable (d : Decompressor) : d.State → Prop where
  | init {inp : Nat → UInt8} {start stop ptr : Nat} {st st' : d.State} {m m' : Mem}
      {c : DecompressorState} : (d.probe inp start stop).success = true →
      (d.init inp st start stop).run m = .ok (some ptr, st') m' → c.Ordered →
      d.Reachable (d.setClient st' c)
  | step {inp : Nat → UInt8} {start stop : Nat} {st st' : d.State} {m m' : Mem}
      {r : DecodeResult} : d.Reachable st →
      (d.decode inp st start stop).run m = .ok (r, st') m' → r ≠ .status .err → d.Reachable st'
  | move {st : d.State} {c : DecompressorState} : d.Reachable st → c.Ordered →
      c.out - c.windowStart = (d.client st).out - (d.client st).windowStart →
      d.Reachable (d.setClient st c)

/-- What `init` establishes and steps and moves keep holds in every reachable state. -/
theorem Decompressor.Reachable.invariant {d : Decompressor} (I : d.State → Prop)
    (hinit : ∀ {inp start stop ptr st st' m m' c}, (d.probe inp start stop).success = true →
      (d.init inp st start stop).run m = .ok (some ptr, st') m' → c.Ordered → I (d.setClient st' c))
    (hstep : ∀ {inp start stop st st' m m' r}, I st →
      (d.decode inp st start stop).run m = .ok (r, st') m' → r ≠ .status .err → I st')
    (hmove : ∀ {st c}, I st → c.Ordered →
      c.out - c.windowStart = (d.client st).out - (d.client st).windowStart → I (d.setClient st c))
    {st} (h : d.Reachable st) : I st := by
  induction h with
  | init hp hi hc => exact hinit hp hi hc
  | step _ hrun hr ih => exact hstep ih hrun hr
  | move _ hc hw ih => exact hmove ih hc hw

/-! ## Runs of a decompressor

A run starts with `init` after a successful probe. The client then calls the step
`decode` points to with slices of its choice, and may move the output in between. -/

/-- A call that was made: its slice, the state before, what it returned and the state behind. -/
structure Event (d : Decompressor) where
  inp : Nat → UInt8
  start : Nat
  stop : Nat
  st : d.State
  r : DecodeResult
  st' : d.State

/-- The step asked for more input or more space. -/
def DecodeResult.NeedMore (r : DecodeResult) : Prop :=
  r = .status .needMoreData ∨ r = .status .needMoreSpace

/-- Runs whose calls all meet a condition on slice and state, with their calls, the latest
first. -/
inductive Decompressor.Trace (d : Decompressor)
    (Met : (Nat → UInt8) → d.State → Nat → Nat → Prop) : List (Event d) → d.State → Prop where
  | init {inp : Nat → UInt8} {start stop ptr : Nat} {st st' : d.State} {m m' : Mem}
      {c : DecompressorState} : (d.probe inp start stop).success = true →
      (d.init inp st start stop).run m = .ok (some ptr, st') m' → c.Ordered →
      d.Trace Met [] (d.setClient st' c)
  | step {inp : Nat → UInt8} {start stop : Nat} {st st' : d.State} {m m' : Mem}
      {r : DecodeResult} {es : List (Event d)} : d.Trace Met es st → Met inp st start stop →
      (d.decode inp st start stop).run m = .ok (r, st') m' → r ≠ .status .err →
      d.Trace Met (⟨inp, start, stop, st, r, st'⟩ :: es) st'
  | move {st : d.State} {c : DecompressorState} {es : List (Event d)} : d.Trace Met es st →
      c.Ordered → c.out - c.windowStart = (d.client st).out - (d.client st).windowStart →
      d.Trace Met es (d.setClient st c)

section
variable (d : Decompressor) (Met : (Nat → UInt8) → d.State → Nat → Nat → Prop)
  (Resumes : d.State → d.State → Prop)
  (Compared : (Nat → UInt8) → d.State → Nat → Nat → Prop)

/-- A call that asks for more leaves what it needs to go on, and one that ends the stream has
compared its checksum. -/
def Decompressor.Honest (inp : Nat → UInt8) (st : d.State) (start stop : Nat) : Prop :=
  ∀ m r st' m', (d.decode inp st start stop).run m = .ok (r, st') m' → r ≠ .status .err →
    (r.NeedMore → Resumes st st') ∧ (d.running st' = false → Compared inp st start stop)

/-- The same along runs: of every call, and of the end of the stream. -/
def Decompressor.HonestRuns : Prop :=
  ∀ es st, d.Trace Met es st → (∀ e ∈ es, e.r.NeedMore → Resumes e.st e.st') ∧
    (d.running st = false → ∃ e es', es = e :: es' ∧ Compared e.inp e.st e.start e.stop)

end

section
variable {d : Decompressor} {Met : (Nat → UInt8) → d.State → Nat → Nat → Prop}
  {Resumes : d.State → d.State → Prop} {Compared : (Nat → UInt8) → d.State → Nat → Nat → Prop}

theorem Decompressor.Trace.reachable {es st} (h : d.Trace Met es st) : d.Reachable st := by
  induction h with
  | init hp hi hc => exact .init hp hi hc
  | step _ _ hrun hr ih => exact .step ih hrun hr
  | move _ hc hw ih => exact .move ih hc hw

/-- Calls that are honest one by one make honest runs. -/
theorem honestRuns_of_honest (hinit : ∀ {inp st start stop ptr st' m m' c},
      (d.init inp st start stop).run m = .ok (some ptr, st') m' →
      d.running (d.setClient st' c) = true)
    (hmove : ∀ st c, d.running (d.setClient st c) = d.running st)
    (hstep : ∀ st, d.Reachable st → ∀ inp start stop, Met inp st start stop →
      d.Honest Resumes Compared inp st start stop) : d.HonestRuns Met Resumes Compared := by
  intro es st h
  induction h with
  | init _ hi _ => exact ⟨by simp, fun hr => by rw [hinit hi] at hr; cases hr⟩
  | @step inp start stop st st' m m' r es htrace hmet hrun hr ih =>
    obtain ⟨hmore, hend⟩ := hstep st htrace.reachable inp start stop hmet m r st' m' hrun hr
    exact ⟨List.forall_mem_cons.mpr ⟨hmore, ih.1⟩, fun hd => ⟨_, es, rfl, hend hd⟩⟩
  | move _ _ _ ih => exact ⟨ih.1, fun hd => ih.2 (by rwa [hmove] at hd)⟩

end

/-- Runs with all they have output: what each step leaves between the old and the new `out`. The
client may change memory and pointers between steps. -/
inductive Decompressor.Writes (d : Decompressor) : List UInt8 → d.State → Prop where
  | init {inp : Nat → UInt8} {start stop ptr : Nat} {st st' : d.State} {m m' : Mem}
      {c : DecompressorState} : (d.init inp st start stop).run m = .ok (some ptr, st') m' →
      c.Ordered → d.Writes [] (d.setClient st' c)
  | step {inp : Nat → UInt8} {start stop : Nat} {st st' : d.State} {m m' : Mem}
      {r : DecodeResult} {output : List UInt8} : d.Writes output st →
      (d.decode inp st start stop).run m = .ok (r, st') m' →
      d.Writes (output ++ m'.bytes (d.client st).out ((d.client st').out - (d.client st).out)) st'
  | move {st : d.State} {c : DecompressorState} {output : List UInt8} : d.Writes output st →
      c.Ordered → d.Writes output (d.setClient st c)

/-- What `init` establishes of no output, and steps and moves keep, holds along every run. -/
theorem Decompressor.Writes.invariant {d : Decompressor} (I : List UInt8 → d.State → Prop)
    (hinit : ∀ {inp start stop ptr st st' m m' c},
      (d.init inp st start stop).run m = .ok (some ptr, st') m' → c.Ordered → I [] (d.setClient st' c))
    (hstep : ∀ {inp start stop st st' m m' r output}, I output st →
      (d.decode inp st start stop).run m = .ok (r, st') m' →
      I (output ++ m'.bytes (d.client st).out ((d.client st').out - (d.client st).out)) st')
    (hmove : ∀ {st c output}, I output st → c.Ordered → I output (d.setClient st c))
    {output st} (h : d.Writes output st) : I output st := by
  induction h with
  | init hi hc => exact hinit hi hc
  | step _ hrun ih => exact hstep ih hrun
  | move _ hc ih => exact hmove ih hc

end Rkboot.Compression
