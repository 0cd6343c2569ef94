import Rkboot.Lib.Chain

/-! # The run queue

`sched_queue_many`, `sched_queue_list` and `sched_unqueue` as sequences of their atomic operations.
What a call does between two of them (storing `last->next`, looking for the last runnable of
a list it has taken, reversing the fresh runnables) only touches memory that no other call uses,
and belongs to the atomic operation before it. Loops run with fuel; no result is a loop that is
still running. -/
namespace Rkboot.Sched
open Lib Function List

/-- A `struct sched_runnable_list`: `fresh` of the run queue, or one that runnables wait on. -/
inductive ListId (W : Type) where
  | fresh
  | wait (w : W)
  deriving DecidableEq

/-- The values of `tail`: null, `&rq->head`, or the address of a runnable's `next`. -/
inductive TailPtr (R : Type) where
  | null
  | head
  | next (r : R)
  deriving DecidableEq

/-- The arguments `first` and `last` of `sched_queue_many`. The chain between them and whether it
was taken from a list are not known to the code. -/
structure Offer (R : Type) where
  first : R
  last : R
  chain : List R
  moved : Bool

/-- What a thread does next. -/
inductive Pc (R W : Type) where
  | idle
  | load (list : ListId W) (offer : Offer R)
  | cas (list : ListId W) (offer : Offer R) (next : Option R)
  | exchange (dest : Option (ListId W)) (src : W)

/-- `struct sched_runqueue`, the lists, the `next` of every runnable and the calls in progress. -/
structure State (R W T : Type) where
  next : R → Option R
  heads : ListId W → Option R
  head : Option R
  tail : TailPtr R
  pc : T → Pc R W

inductive Event (R W : Type) where
  | silent
  | linked (list : ListId W) (offer : Offer R)
  | returned (r : R)

section
variable {R W T : Type}

/-- Up to its first atomic operation; no list is `CURRENT_RUNQUEUE`. -/
def schedQueueMany (list : Option (ListId W)) (offer : Offer R) : Pc R W :=
  .load (list.getD .fresh) offer

def schedQueueSingle (list : Option (ListId W)) (runnable : R) : Pc R W :=
  schedQueueMany list ⟨runnable, runnable, [runnable], false⟩

def schedQueueList (dest : Option (ListId W)) (src : W) : Pc R W := .exchange dest src

/-- `while (last->next) {last = last->next;}`, with the runnables it passes. -/
def findLast (next : R → Option R) : Nat → R → Option (R × List R)
  | 0, _ => none
  | fuel + 1, last =>
    match next last with
    | none => some (last, [last])
    | some r => (findLast next fuel r).map fun found => (found.1, last :: found.2)

variable [DecidableEq R]

/-- `*tail = v`. -/
def State.store (s : State R W T) (tail : TailPtr R) (v : Option R) : State R W T :=
  match tail with
  | .null => s
  | .head => { s with head := v }
  | .next r => { s with next := update s.next r v }

@[simp] theorem State.store_pc (s : State R W T) (tail : TailPtr R) (v : Option R) :
    (s.store tail v).pc = s.pc := by
  cases tail <;> rfl

@[simp] theorem State.store_tail (s : State R W T) (tail : TailPtr R) (v : Option R) :
    (s.store tail v).tail = s.tail := by
  cases tail <;> rfl

variable [DecidableEq W] [DecidableEq T]

/-- `last->next = next`, on the way to the compare-exchange. -/
def State.offer (s : State R W T) (t : T) (list : ListId W) (o : Offer R) : State R W T :=
  { s with
    next := update s.next o.last (s.heads list)
    pc := update s.pc t (.cas list o (s.heads list)) }

/-- The next atomic operation of thread `t`. A weak compare-exchange may fail for no reason. -/
def State.atomicStep (fuel : Nat) (spurious : Bool) (t : T) (s : State R W T) :
    Option (Event R W × State R W T) :=
  match s.pc t with
  | .idle => none
  | .load list o => some (.silent, s.offer t list o)
  | .cas list o next =>
    if s.heads list = next ∧ spurious = false then
      some (.linked list o,
        { s with heads := update s.heads list (some o.first), pc := update s.pc t .idle })
    else some (.silent, s.offer t list o)
  | .exchange dest src =>
    let heads := update s.heads (.wait src) none
    match s.heads (.wait src) with
    | none => some (.silent, { s with heads := heads, pc := update s.pc t .idle })
    | some head => (findLast s.next fuel head).map fun (last, chain) =>
      (.silent, { s with
        heads := heads, pc := update s.pc t (schedQueueMany dest ⟨head, last, chain, true⟩) })

/-- The `do` loop of `sched_unqueue`: all of `fresh` in front of `next`, in reverse. -/
def reverse : Nat → (R → Option R) → R → Option R → Option ((R → Option R) × Option R)
  | 0, _, _, _ => none
  | fuel + 1, heap, fresh, next =>
    let tmp := heap fresh
    let heap := update heap fresh next
    match tmp with
    | none => some (heap, some fresh)
    | some fresh' => reverse fuel heap fresh' (some fresh)

def State.oldTail (s : State R W T) : TailPtr R := if s.tail = .null then .head else s.tail

/-- `sched_unqueue` up to `*old_tail = next`. -/
def State.addFresh (fuel : Nat) (s : State R W T) : Option (State R W T) :=
  match s.heads .fresh with
  | none => some s
  | some fresh =>
    (reverse fuel s.next fresh none).map fun (heap, next) =>
      { s with
        next := heap, heads := update s.heads .fresh none, tail := .next fresh }.store s.oldTail next

/-- The rest of `sched_unqueue`. -/
def State.takeFirst (s : State R W T) : Option R × State R W T :=
  match s.head with
  | none => (none, s)
  | some res =>
    (some res, { s with head := s.next res, tail := if s.next res = none then .head else s.tail })

def State.schedUnqueue (fuel : Nat) (s : State R W T) : Option (Option R × State R W T) :=
  (s.addFresh fuel).map State.takeFirst

end

/-! ## What the loops do to chains -/

section
variable {R : Type} {heap : R → Option R} {fresh : R} {next : Option R} {l acc : List R}

theorem findLast_path (h : Path heap (some fresh) l none) : ∃ init last, l = init ++ [last] ∧
    ∀ fuel, findLast heap fuel fresh = if fuel < l.length then none else some (last, l) := by
  induction l generalizing fresh with
  | nil => cases h
  | cons r l ih =>
    obtain rfl : fresh = r := Option.some.inj h.1
    have htail : Path heap (heap fresh) l none := h.2
    cases hnext : heap fresh with
    | none =>
      rw [hnext] at htail
      cases l with
      | nil =>
        refine ⟨[], fresh, rfl, fun fuel => ?_⟩
        cases fuel with
        | zero => rfl
        | succ fuel => rw [findLast, hnext, if_neg (by simp)]
      | cons r' l => cases htail.1
    | some r' =>
      rw [hnext] at htail
      obtain ⟨init, last, rfl, hfound⟩ := ih htail
      refine ⟨fresh :: init, last, rfl, fun fuel => ?_⟩
      cases fuel with
      | zero => rfl
      | succ fuel =>
        rw [findLast, hnext]
        dsimp only
        rw [hfound, length_cons]
        simp only [Nat.add_lt_add_iff_right]
        split <;> rfl

theorem reverse_path [DecidableEq R] (h : Path heap (some fresh) l none)
    (hacc : Path heap next acc none) (hl : l.Nodup) (hdisj : ∀ r ∈ l, r ∉ acc) : ∃ heap' first,
      (∀ fuel, reverse fuel heap fresh next = if fuel < l.length then none else some (heap', first)) ∧
      Path heap' first (l.reverse ++ acc) none ∧ ∀ r ∉ l, heap' r = heap r := by
  induction l generalizing heap fresh next acc with
  | nil => cases h
  | cons r l ih =>
    obtain rfl : fresh = r := Option.some.inj h.1
    obtain ⟨hfresh, hl⟩ := nodup_cons.mp hl
    have hgrown : Path (update heap fresh next) (some fresh) (fresh :: acc) none :=
      ⟨rfl, by rw [update_self]; exact hacc.update (hdisj fresh mem_cons_self) next⟩
    have htail : Path heap (heap fresh) l none := h.2
    cases hnext : heap fresh with
    | none =>
      rw [hnext] at htail
      cases l with
      | nil =>
        refine ⟨_, _, fun fuel => ?_, hgrown, fun r hr => update_of_ne (ne_of_not_mem_cons hr) ..⟩
        cases fuel with
        | zero => rfl
        | succ fuel => rw [reverse, hnext, if_neg (by simp)]
      | cons r' l => cases htail.1
    | some r' =>
      rw [hnext] at htail
      have hdisj' : ∀ r ∈ l, r ∉ fresh :: acc := fun r hr hmem =>
        (mem_cons.mp hmem).elim (fun he => hfresh (he ▸ hr)) (hdisj r (mem_cons_of_mem _ hr))
      obtain ⟨heap', first, hrev, hpath, hframe⟩ := ih (htail.update hfresh next) hgrown hl hdisj'
      refine ⟨heap', first, fun fuel => ?_, by simpa using hpath, fun r hr => ?_⟩
      · cases fuel with
        | zero => rfl
        | succ fuel =>
          rw [reverse, hnext]
          dsimp only
          rw [hrev]
          simp only [length_cons, Nat.add_lt_add_iff_right]
      · rw [mem_cons, not_or] at hr
        rw [hframe r hr.2, update_of_ne hr.1]

end
end Rkboot.Sched
