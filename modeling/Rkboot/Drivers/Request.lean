import Rkboot.Lib.Exec

/-! # Transfer requests and what the hardware does with them

The drivers fill in a transfer object, hand it to a controller and wait for the interrupt handler to
store the result. What the hardware does is a parameter: how every command is answered, how every
request ends, and which compare-exchanges fail for no reason. -/
namespace Rkboot.Drivers
open Lib List

/-- `enum iost`. -/
inductive Iost where
  | ok
  | transient
  | invalid
  | localFault
  | globalFault
  deriving DecidableEq, Repr

def Iost.code : Iost → Nat
  | .ok => 0
  | .transient => 1
  | .invalid => 2
  | .localFault => 3
  | .globalFault => 4

theorem Iost.code_eq_zero {res : Iost} : res.code = 0 ↔ res = .ok := by
  cases res <;> simp [code]

/-- Why a call does not return. -/
inductive Trap where
  | assertion
  | endless
  deriving DecidableEq, Repr

def check (p : Prop) [Decidable p] : Except Trap Unit := if p then .ok () else .error .assertion

theorem check_eq_ok {p : Prop} [Decidable p] {u} (h : check p = .ok u) : p := by
  rw [check] at h
  split at h
  · assumption
  · cases h

@[simp] theorem check_of {p : Prop} [Decidable p] (h : p) : check p = .ok () := if_pos h

theorem bind_of_ok {ε α β : Type} {x a} (h : x = .ok a) (f : α → Except ε β) : (x >>= f) = f a := by
  rw [h]
  rfl

/-- The status of a transfer object: an `enum iost` once it has ended, then `CREATING` and
`SUBMITTED`. -/
inductive XferStatus where
  | ended (res : Iost)
  | creating
  | submitted
  deriving DecidableEq, Repr

/-- The blocks from `lba` on, to the memory from `start` to `stop`. -/
structure Request where
  lba : Nat
  start : Nat
  stop : Nat
  deriving DecidableEq, Repr

/-- What the hardware does: the answer to the command of the `n`-th request, the result the
interrupt handler stores for it, and whether a weak compare-exchange fails without a reason. -/
structure Controller where
  command : Nat → Iost
  completion : Nat → Iost
  spurious : Nat → Nat → Bool

/-- Memory, and the requests that are with the hardware; the latest one is the first of `sent`. -/
structure Bus where
  mem : Nat → UInt8
  flight : List Request
  sent : List Request
  claims : Nat

def Bus.send (bus : Bus) (r : Request) : Bus :=
  { bus with flight := r :: bus.flight, sent := r :: bus.sent }

/-- The bytes a request has read from a device with blocks of `blockSize` bytes. -/
def Request.fill (content : Nat → UInt8) (blockSize : Nat) (r : Request) (mem : Nat → UInt8) :
    Nat → UInt8 :=
  fun a => if r.start ≤ a ∧ a < r.stop then content (blockSize * r.lba + (a - r.start)) else mem a

theorem Request.fill_inside {content : Nat → UInt8} {blockSize} {r : Request}
    {mem a} (h : r.start ≤ a) (h' : a < r.stop) :
    r.fill content blockSize mem a = content (blockSize * r.lba + (a - r.start)) := if_pos ⟨h, h'⟩

theorem Request.fill_below {content blockSize} {r : Request}
    {mem : Nat → UInt8} {a} (h : a < r.start) : r.fill content blockSize mem a = mem a :=
  if_neg fun hin => absurd hin.1 (not_le.mpr h)

/-- The requests in flight end, with the `n`-th result for the `n`-th request. -/
def Bus.complete (bus : Bus) (content : Nat → UInt8) (blockSize : Nat) (res : Iost) : Bus :=
  { bus with
    flight := []
    mem := if res = .ok then bus.flight.foldr (Request.fill content blockSize) bus.mem else bus.mem }

/-! ## Buffers -/

/-- The addresses of some buffers, in order. -/
def bufferAddresses (bufs : List (Nat × Nat)) : List Nat :=
  bufs.flatMap fun b => List.range' b.1 (b.2 - b.1)

section
variable {X : Type} {add : X → Nat → Nat → Except Trap (Bool × X)}

/-- Calls that add buffers, up to one that fails. -/
def addAll (add : X → Nat → Nat → Except Trap (Bool × X)) :
    List (Nat × Nat) → X → Except Trap (Bool × X)
  | [], x => .ok (true, x)
  | b :: bufs, x => do
    match ← add x b.1 b.2 with
    | (false, x) => pure (false, x)
    | (true, x) => addAll add bufs x

theorem addAll_inv {P : X → List Nat → Prop} (hadd : ∀ {x addrs start stop x'}, P x addrs →
      add x start stop = .ok (true, x') → P x' (addrs ++ List.range' start (stop - start)))
    {bufs x x' addrs} (h : P x addrs) (hrun : addAll add bufs x = .ok (true, x')) :
    P x' (addrs ++ bufferAddresses bufs) := by
  induction bufs generalizing x addrs with
  | nil =>
    cases hrun
    simpa [bufferAddresses] using h
  | cons b bufs ih =>
    obtain ⟨⟨_ | _, x₁⟩, hone, hrun⟩ := except_bind_eq_ok hrun
    · cases hrun
    · rw [bufferAddresses, flatMap_cons, ← append_assoc]
      exact ih (hadd h hone) hrun

end

/-- An entry behind the first `n` of an array. -/
theorem flatMap_range_update {α β : Type} (g : α → List β) (f : Nat → α) (n : Nat) (d : α) :
    (List.range (n + 1)).flatMap (fun i => g (Function.update f n d i)) =
      (List.range n).flatMap (fun i => g (f i)) ++ g d := by
  rw [range_succ, flatMap_append, flatMap_singleton, Function.update_self, flatMap_def, flatMap_def]
  congr 2
  refine map_congr_left fun i hi => ?_
  rw [Function.update_of_ne (Nat.ne_of_lt (mem_range.mp hi))]

section
variable {S : Type} [DecidableEq S] (submitted creating : S) (spurious : Nat → Bool)

/-- `do {if (status == SUBMITTED) {return IOST_TRANSIENT;}} while (atomic_compare_exchange_weak(..))`.
A compare-exchange that succeeds is followed by another one, which fails if the status was not
`creating` before. -/
def claim : Nat → S → S → Except Trap (Iost × S)
  | 0, _, _ => .error .endless
  | fuel + 1, status, expected =>
    if expected = submitted then .ok (.transient, status)
    else if status = expected ∧ spurious fuel = false then claim fuel creating expected
    else .ok (.ok, status)

variable {submitted creating spurious}

theorem claim_eq_ok {fuel status expected status' res}
    (h : claim submitted creating spurious fuel status expected = .ok (res, status')) :
    (res = .transient ∧ expected = submitted ∧ status' = status) ∨
      res = .ok ∧ expected ≠ submitted ∧ (status' = status ∨ status' = creating) := by
  induction fuel generalizing status with
  | zero => cases h
  | succ fuel ih =>
    rw [claim] at h
    split at h
    · cases h
      exact Or.inl ⟨rfl, ‹_›, rfl⟩
    · split at h
      · rcases ih h with ⟨-, hexp, -⟩ | ⟨hres, hexp, hstatus⟩
        · exact absurd hexp ‹_›
        · exact Or.inr ⟨hres, hexp, Or.inr (hstatus.elim id id)⟩
      · cases h
        exact Or.inr ⟨rfl, ‹_›, Or.inl rfl⟩

end
end Rkboot.Drivers
