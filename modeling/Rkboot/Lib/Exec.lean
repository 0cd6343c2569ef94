import Mathlib.Tactic.Common
import Mathlib.Algebra.Ring.Nat

/-! # Byte memory and runs that write it

A run reads and writes one byte memory and either returns a value or stops:
at a failed assertion, at an index outside an array, or at an operation the
language leaves undefined. What it stored before it stopped stays stored. The
memory also records which addresses were stored to, so that "stores only in
this range" is not confused with "changes only this range".

The input of a run is a second, read-only memory (`Space.input`): a source
pointer says which of the two it points into, and an input never aliases an
output. -/
namespace Rkboot.Lib
open List

inductive Fault where
  | assertion
  | bounds
  | undefined
  deriving DecidableEq, Repr

structure Mem where
  byte : Nat → UInt8
  /-- Addresses stored to so far, the latest first. -/
  stores : List Nat

def Mem.store (m : Mem) (a : Nat) (b : UInt8) : Mem :=
  ⟨fun x => if x = a then b else m.byte x, a :: m.stores⟩

theorem Mem.store_byte (m : Mem) (a x : Nat) (b : UInt8) :
    (m.store a b).byte x = if x = a then b else m.byte x := rfl

@[simp] theorem Mem.store_byte_self (m : Mem) (a : Nat) (b : UInt8) :
    (m.store a b).byte a = b := by simp [Mem.store]

theorem Mem.store_byte_ne (m : Mem) {a x} (b : UInt8) (h : x ≠ a) :
    (m.store a b).byte x = m.byte x := by simp [Mem.store, h]

/-- The memory a source pointer points into. -/
inductive Space where
  | input
  | output
  deriving DecidableEq, Repr

/-- The byte a source pointer sees. -/
def Mem.src (m : Mem) (inp : Nat → UInt8) : Space → Nat → UInt8
  | .input, a => inp a
  | .output, a => m.byte a

/-- The `n` bytes from address `a` on. -/
def bytesAt (f : Nat → UInt8) (a n : Nat) : List UInt8 := (List.range n).map fun i => f (a + i)

def Mem.bytes (m : Mem) (a n : Nat) : List UInt8 := bytesAt m.byte a n

@[simp] theorem bytesAt_length (f : Nat → UInt8) (a n : Nat) : (bytesAt f a n).length = n := by
  simp [bytesAt]

@[simp] theorem bytesAt_zero (f : Nat → UInt8) (a : Nat) : bytesAt f a 0 = [] := rfl

theorem bytesAt_getElem? (f : Nat → UInt8) (a n i : Nat) :
    (bytesAt f a n)[i]? = if i < n then some (f (a + i)) else none := by
  by_cases h : i < n <;> simp [bytesAt, h]

theorem bytesAt_getD (f : Nat → UInt8) {a n i} (h : i < n) :
    (bytesAt f a n).getD i 0 = f (a + i) := by
  rw [getD_eq_getElem?_getD, bytesAt_getElem?, if_pos h, Option.getD_some]

theorem bytesAt_append (f : Nat → UInt8) (a k n : Nat) :
    bytesAt f a (k + n) = bytesAt f a k ++ bytesAt f (a + k) n := by
  simp [bytesAt, range_add, Function.comp_def, Nat.add_assoc]

theorem bytesAt_succ (f : Nat → UInt8) (a n : Nat) :
    bytesAt f a (n + 1) = f a :: bytesAt f (a + 1) n := by
  rw [Nat.add_comm, bytesAt_append]
  rfl

theorem bytesAt_eq {f g : Nat → UInt8} {a b n} (h : ∀ i < n, f (a + i) = g (b + i)) :
    bytesAt f a n = bytesAt g b n :=
  map_congr_left fun i hi => h i (mem_range.mp hi)

theorem bytesAt_congr {f g : Nat → UInt8} {a n}
    (h : ∀ i < n, f (a + i) = g (a + i)) : bytesAt f a n = bytesAt g a n := bytesAt_eq h

theorem bytesAt_take (f : Nat → UInt8) {a n k} (h : k ≤ n) :
    (bytesAt f a n).take k = bytesAt f a k := by
  obtain ⟨r, rfl⟩ := Nat.exists_eq_add_of_le h
  rw [bytesAt_append, take_left' (bytesAt_length f a k)]

theorem bytesAt_drop (f : Nat → UInt8) {a n k} (h : k ≤ n) :
    (bytesAt f a n).drop k = bytesAt f (a + k) (n - k) := by
  obtain ⟨r, rfl⟩ := Nat.exists_eq_add_of_le h
  rw [bytesAt_append, drop_left' (bytesAt_length f a k), Nat.add_sub_cancel_left]

/-- What stands in front of the rest stands at the address, and the rest behind it. -/
theorem bytesAt_eq_append {f a n} {l r : List UInt8}
    (h : bytesAt f a n = l ++ r) : n = l.length + r.length ∧ bytesAt f a l.length = l ∧
      bytesAt f (a + l.length) r.length = r := by
  have hn : n = l.length + r.length := by
    rw [← length_append, ← h, bytesAt_length]
  rw [hn, bytesAt_append] at h
  exact ⟨hn, append_inj h (by simp)⟩

@[simp] theorem Mem.bytes_length (m : Mem) (a n : Nat) : (m.bytes a n).length = n :=
  bytesAt_length _ _ _

theorem Mem.bytes_append (m : Mem) (a k n : Nat) :
    m.bytes a (k + n) = m.bytes a k ++ m.bytes (a + k) n := bytesAt_append _ _ _ _

/-! ## Stores confined to a range -/

/-- From `m` to `m'` only addresses in `[lo, hi)` were stored to. -/
structure Stored (m m' : Mem) (lo hi : Nat) : Prop where
  log : ∃ new, m'.stores = new ++ m.stores ∧ ∀ a ∈ new, lo ≤ a ∧ a < hi
  frame : ∀ a, a < lo ∨ hi ≤ a → m'.byte a = m.byte a

theorem Stored.refl (m : Mem) (lo hi : Nat) : Stored m m lo hi :=
  ⟨⟨[], by simp, by simp⟩, fun _ _ => rfl⟩

theorem Stored.trans {m m' m'' lo hi} (h : Stored m m' lo hi)
    (h' : Stored m' m'' lo hi) : Stored m m'' lo hi := by
  obtain ⟨new, hn, hin⟩ := h.log
  obtain ⟨new', hn', hin'⟩ := h'.log
  refine ⟨⟨new' ++ new, by rw [hn', hn, append_assoc], ?_⟩, ?_⟩
  · intro a ha
    rcases mem_append.mp ha with ha | ha
    · exact hin' a ha
    · exact hin a ha
  · intro a ha
    rw [h'.frame a ha, h.frame a ha]

theorem Stored.mono {m m' lo hi lo' hi'} (h : Stored m m' lo hi)
    (hlo : lo' ≤ lo) (hhi : hi ≤ hi') : Stored m m' lo' hi' := by
  obtain ⟨new, hn, hin⟩ := h.log
  refine ⟨⟨new, hn, fun a ha => ?_⟩, fun a ha => h.frame a (by omega)⟩
  have := hin a ha
  omega

theorem Stored.store (m : Mem) (b : UInt8) {a lo hi} (hlo : lo ≤ a) (hhi : a < hi) :
    Stored m (m.store a b) lo hi := by
  refine ⟨⟨[a], rfl, by simpa using ⟨hlo, hhi⟩⟩, fun x hx => ?_⟩
  exact m.store_byte_ne b (by omega)

theorem Stored.behind {m m' b a n} (h : Stored (m.store a b) m' (a + 1) (a + 1 + n)) :
    Stored m m' a (a + (n + 1)) :=
  (Stored.store m b (Nat.le_refl a) (by omega)).trans (h.mono (by omega) (by omega))

theorem Stored.bytes {m m' : Mem} {lo hi a n} (h : Stored m m' lo hi)
    (hn : a + n ≤ lo ∨ hi ≤ a) : m'.bytes a n = m.bytes a n :=
  bytesAt_congr fun i hi => h.frame _ (by omega)

/-! ## Runs -/

/-- A computation that returned did so at every step. -/
theorem except_bind_eq_ok {ε α β : Type} {x} {f : α → Except ε β} {b}
    (h : (x >>= f) = .ok b) : ∃ a, x = .ok a ∧ f a = .ok b := by
  cases x with
  | ok a => exact ⟨a, rfl, h⟩
  | error e => cases h

theorem exists_ok {ε α β : Type} {x : Except ε α} {f : α → β} {b}
    (h : x.toOption.map f = some b) : ∃ a, x = .ok a ∧ f a = b := by
  cases x with
  | error e => cases h
  | ok a => exact ⟨a, rfl, Option.some.inj h⟩

theorem except_bind_congr {ε α β : Type} {x} {f g : α → Except ε β}
    (h : ∀ a, x = .ok a → f a = g a) : x >>= f = x >>= g := by
  cases x with
  | ok a => exact h a rfl
  | error e => rfl

inductive Res (α : Type) where
  | ok (a : α) (m : Mem)
  | fault (f : Fault) (m : Mem)

/-- The memory a run leaves behind, whether it returned or stopped. -/
def Res.mem {α : Type} : Res α → Mem
  | .ok _ m => m
  | .fault _ m => m

@[simp] theorem Res.mem_ok {α : Type} (a : α) (m : Mem) : (Res.ok a m).mem = m := rfl
@[simp] theorem Res.mem_fault {α : Type} (f : Fault) (m : Mem) :
    (Res.fault f m : Res α).mem = m := rfl

structure Exec (α : Type) where
  run : Mem → Res α

namespace Exec
variable {α β : Type}

protected def bind (x : Exec α) (f : α → Exec β) : Exec β := ⟨fun m =>
  match x.run m with
  | .ok a m' => (f a).run m'
  | .fault e m' => .fault e m'⟩

instance : Monad Exec where
  pure a := ⟨fun m => .ok a m⟩
  bind := Exec.bind

def fault (f : Fault) : Exec α := ⟨fun m => .fault f m⟩

/-- `assert(p)`. -/
def assert (p : Bool) : Exec Unit := if p then pure () else fault .assertion

/-- A byte of the input that must lie in `[lo, hi)`. -/
def fetch (inp : Nat → UInt8) (lo hi a : Nat) : Exec UInt8 :=
  if lo ≤ a ∧ a < hi then pure (inp a) else fault .bounds

def load (inp : Nat → UInt8) (sp : Space) (a : Nat) : Exec UInt8 :=
  ⟨fun m => .ok (m.src inp sp a) m⟩

def store (a : Nat) (b : UInt8) : Exec Unit := ⟨fun m => .ok () (m.store a b)⟩

def modify (f : Mem → Mem) : Exec Unit := ⟨fun m => .ok () (f m)⟩

/-- Something the memory shows. -/
def view (f : Mem → α) : Exec α := ⟨fun m => .ok (f m) m⟩

/-- A computation that touches no memory. -/
def lift : Except Fault α → Exec α
  | .ok a => pure a
  | .error f => fault f

@[simp] theorem run_pure (a : α) (m : Mem) : (pure a : Exec α).run m = .ok a m := rfl
@[simp] theorem run_fault (f : Fault) (m : Mem) : (fault f : Exec α).run m = .fault f m := rfl
@[simp] theorem run_load (inp : Nat → UInt8) (sp : Space) (a : Nat) (m : Mem) :
    (load inp sp a).run m = .ok (m.src inp sp a) m := rfl
@[simp] theorem run_store (a : Nat) (b : UInt8) (m : Mem) :
    (store a b).run m = .ok () (m.store a b) := rfl
@[simp] theorem run_modify (f : Mem → Mem) (m : Mem) : (modify f).run m = .ok () (f m) := rfl
@[simp] theorem run_view (f : Mem → α) (m : Mem) : (view f).run m = .ok (f m) m := rfl
@[simp] theorem lift_ok (a : α) : (lift (.ok a) : Exec α) = pure a := rfl
@[simp] theorem lift_error (f : Fault) : (lift (.error f) : Exec α) = fault f := rfl
@[simp] theorem assert_true : assert true = pure () := rfl
@[simp] theorem assert_false : assert false = fault .assertion := rfl

theorem fetch_of_mem (inp : Nat → UInt8) {lo hi a} (hlo : lo ≤ a) (hhi : a < hi) :
    fetch inp lo hi a = pure (inp a) := if_pos ⟨hlo, hhi⟩

theorem run_bind (x : Exec α) (f : α → Exec β) (m : Mem) :
    (x >>= f).run m = match x.run m with
      | .ok a m' => (f a).run m'
      | .fault e m' => .fault e m' := rfl

theorem run_bind_of_ok {x : Exec α} {a m m'} (h : x.run m = .ok a m')
    (f : α → Exec β) : (x >>= f).run m = (f a).run m' := by rw [run_bind, h]

@[simp] theorem pure_bind (a : α) (f : α → Exec β) : (pure a >>= f : Exec β) = f a := rfl
@[simp] theorem fault_bind (e : Fault) (f : α → Exec β) : (fault e >>= f) = fault e := rfl

/-- A returning run returned at every step on the way. -/
theorem bind_eq_ok {x : Exec α} {f : α → Exec β} {m m'' b} (h : (x >>= f).run m = .ok b m'') :
    ∃ a m', x.run m = .ok a m' ∧ (f a).run m' = .ok b m'' := by
  rw [run_bind] at h
  cases hx : x.run m with
  | ok a m' => rw [hx] at h; exact ⟨a, m', rfl, h⟩
  | fault e m' => rw [hx] at h; cases h

theorem assert_eq_ok {p m m' u} (h : (assert p).run m = .ok u m') : p = true ∧ m' = m := by
  cases p with
  | true => cases h; exact ⟨rfl, rfl⟩
  | false => cases h

theorem lift_eq_ok {x : Except Fault α} {m m' : Mem} {a : α} (h : (lift x).run m = .ok a m') :
    x = .ok a ∧ m' = m := by
  cases x with
  | ok b => cases h; exact ⟨rfl, rfl⟩
  | error f => cases h

theorem fetch_eq_ok {inp lo hi a m m' b}
    (h : (fetch inp lo hi a).run m = .ok b m') : fetch inp lo hi a = pure b := by
  unfold fetch at h ⊢
  split at h
  · rename_i hmem
    cases h
    exact if_pos hmem
  · cases h

theorem bind_lift_eq_ok {x : Except Fault α} {f : α → Exec β} {m m' : Mem} {b : β}
    (h : (lift x >>= f).run m = .ok b m') : ∃ a, x = .ok a ∧ (f a).run m = .ok b m' := by
  obtain ⟨a, m₁, ha, hf⟩ := bind_eq_ok h
  obtain ⟨hx, rfl⟩ := lift_eq_ok ha
  exact ⟨a, hx, hf⟩

theorem bind_lift_congr {x : Except Fault α} {f g : α → Exec β}
    (h : ∀ a, x = .ok a → f a = g a) : lift x >>= f = lift x >>= g := by
  cases x with
  | ok a => exact h a rfl
  | error e => rfl

theorem bind_assert_eq_ok {p} {f : Unit → Exec β} {m m' b}
    (h : (assert p >>= f).run m = .ok b m') : p = true ∧ (f ()).run m = .ok b m' := by
  obtain ⟨a, m₁, ha, hf⟩ := bind_eq_ok h
  obtain ⟨hp, rfl⟩ := assert_eq_ok ha
  exact ⟨hp, hf⟩

/-! ## Runs confined to a range -/

/-- Whatever the memory, the run stores only to addresses in `[lo, hi)`. -/
def Within (lo hi : Nat) (x : Exec α) : Prop := ∀ m, Stored m (x.run m).mem lo hi

variable {lo hi : Nat}

/-! ## Runs with a postcondition -/

/-- From this memory, the run stores only to addresses in `[lo, hi)`, and what it returns and leaves
behind has the property. -/
def Ends (m : Mem) (lo hi : Nat) (P : α → Mem → Prop) (x : Exec α) : Prop :=
  Stored m (x.run m).mem lo hi ∧ ∀ a m', x.run m = .ok a m' → P a m'

section
variable {x : Exec α} {m : Mem} {P : α → Mem → Prop}

theorem Ends.returns {a m'} (h : x.run m = .ok a m') (hs : Stored m m' lo hi) (hP : P a m') :
    x.Ends m lo hi P := by
  refine ⟨h ▸ hs, fun b m'' hb => ?_⟩
  rw [h] at hb
  cases hb
  exact hP

theorem Ends.pure {a} (h : P a m) : (Pure.pure a : Exec α).Ends m lo hi P := .returns rfl (.refl _ _ _) h

theorem Ends.fault (f : Fault) : (Exec.fault f : Exec α).Ends m lo hi P := ⟨.refl _ _ _, nofun⟩

theorem Ends.lift {x : Except Fault α} (h : ∀ a, x = .ok a → P a m) : (Exec.lift x).Ends m lo hi P := by
  cases x with
  | ok a => exact .pure (h a rfl)
  | error f => exact .fault f

theorem Ends.bind {f : α → Exec β} {Q} (hx : x.Ends m lo hi P)
    (hf : ∀ a m', P a m' → (f a).Ends m' lo hi Q) : (x >>= f).Ends m lo hi Q := by
  obtain ⟨hs, hx⟩ := hx
  rw [Ends, run_bind]
  cases hm : x.run m with
  | ok a m' =>
    rw [hm] at hs
    obtain ⟨hs', hQ⟩ := hf a m' (hx a m' hm)
    exact ⟨hs.trans hs', hQ⟩
  | fault e m' =>
    rw [hm] at hs
    exact ⟨hs, nofun⟩

theorem Ends.imp {Q : α → Mem → Prop} (h : x.Ends m lo hi P) (hPQ : ∀ a m', P a m' → Q a m') :
    x.Ends m lo hi Q := ⟨h.1, fun a m' hrun => hPQ a m' (h.2 a m' hrun)⟩

theorem Ends.bind_of_ok {f : α → Exec β} {Q a m'} (h : x.run m = .ok a m') (hs : Stored m m' lo hi)
    (hf : (f a).Ends m' lo hi Q) : (x >>= f).Ends m lo hi Q :=
  .bind (P := fun b m₁ => (f b).Ends m₁ lo hi Q) (.returns h hs hf) fun _ _ => id

theorem Ends.bind_lift {x : Except Fault α} {f : α → Exec β} {Q}
    (h : ∀ a, x = .ok a → (f a).Ends m lo hi Q) : (Exec.lift x >>= f).Ends m lo hi Q :=
  .bind (P := fun a m' => (f a).Ends m' lo hi Q) (.lift h) fun _ _ => id

theorem Ends.ite {p : Prop} [Decidable p] {y : Exec α} (hx : p → x.Ends m lo hi P)
    (hy : ¬ p → y.Ends m lo hi P) : (if p then x else y).Ends m lo hi P := by
  split
  · exact hx ‹_›
  · exact hy ‹_›

theorem Ends.mono {lo' hi' : Nat} (h : x.Ends m lo hi P) (hlo : lo' ≤ lo) (hhi : hi ≤ hi') :
    x.Ends m lo' hi' P := ⟨h.1.mono hlo hhi, h.2⟩

end

/-! ## Runs that do not depend on the memory -/

/-- A result, with the memory it leaves behind. -/
def resOf : Except Fault α → Mem → Res α
  | .ok a, m => .ok a m
  | .error f, m => .fault f m

/-- What the run returns, or where it stops, is the same for every memory, and it stores only to
addresses in `[lo, hi)`. -/
def Uniform (lo hi : Nat) (x : Exec α) : Prop :=
  ∃ r : Except Fault α, ∀ m, ∃ m', x.run m = resOf r m' ∧ Stored m m' lo hi

theorem Uniform.returns {x : Exec α} {a}
    (h : ∀ m, ∃ m', x.run m = .ok a m' ∧ Stored m m' lo hi) : Uniform lo hi x := ⟨.ok a, h⟩

theorem Uniform.pure (a : α) : Uniform lo hi (Pure.pure a : Exec α) :=
  .returns fun m => ⟨m, rfl, .refl _ _ _⟩

theorem Uniform.fault (f : Fault) : Uniform lo hi (Exec.fault f : Exec α) :=
  ⟨.error f, fun m => ⟨m, rfl, .refl _ _ _⟩⟩

theorem Uniform.lift (x : Except Fault α) : Uniform lo hi (Exec.lift x) := by
  cases x with
  | ok a => exact .pure a
  | error f => exact .fault f

theorem Uniform.assert (p : Bool) : Uniform lo hi (Exec.assert p) := by
  cases p with
  | true => exact .pure ()
  | false => exact .fault _

theorem Uniform.fetch (inp : Nat → UInt8) (l h a : Nat) : Uniform lo hi (Exec.fetch inp l h a) := by
  unfold Exec.fetch
  split
  · exact .pure _
  · exact .fault _

theorem Uniform.store {a} (b : UInt8) (hlo : lo ≤ a) (hhi : a < hi) :
    Uniform lo hi (Exec.store a b) := .returns fun m => ⟨_, rfl, .store m b hlo hhi⟩

theorem Uniform.modify {f : Mem → Mem} (h : ∀ m, Stored m (f m) lo hi) :
    Uniform lo hi (Exec.modify f) := .returns fun m => ⟨_, rfl, h m⟩

theorem Uniform.bind_of {x : Exec α} {f : α → Exec β} (hx : Uniform lo hi x)
    (hf : ∀ a m m', x.run m = .ok a m' → Uniform lo hi (f a)) : Uniform lo hi (x >>= f) := by
  obtain ⟨r, hr⟩ := hx
  cases r with
  | error e =>
    refine ⟨.error e, fun m => ?_⟩
    obtain ⟨m', hm, hs⟩ := hr m
    exact ⟨m', by rw [run_bind, hm]; rfl, hs⟩
  | ok a =>
    obtain ⟨m₀, hm₀, -⟩ := hr ⟨fun _ => 0, []⟩
    obtain ⟨r', hr'⟩ := hf a _ m₀ hm₀
    refine ⟨r', fun m => ?_⟩
    obtain ⟨m', hm, hs⟩ := hr m
    obtain ⟨m'', hm', hs'⟩ := hr' m'
    exact ⟨m'', by rw [run_bind, hm]; exact hm', hs.trans hs'⟩

theorem Uniform.bind {x} {f : α → Exec β} (hx : Uniform lo hi x)
    (hf : ∀ a, Uniform lo hi (f a)) : Uniform lo hi (x >>= f) := hx.bind_of fun a _ _ _ => hf a

theorem Uniform.ite {p : Prop} [Decidable p] {x y : Exec α} (hx : p → Uniform lo hi x)
    (hy : ¬ p → Uniform lo hi y) : Uniform lo hi (if p then x else y) := by
  split
  · exact hx ‹_›
  · exact hy ‹_›

theorem Uniform.mono {x : Exec α} {lo' hi' : Nat} (hx : Uniform lo hi x) (hlo : lo' ≤ lo)
    (hhi : hi ≤ hi') : Uniform lo' hi' x := by
  obtain ⟨r, hr⟩ := hx
  refine ⟨r, fun m => ?_⟩
  obtain ⟨m', hm, hs⟩ := hr m
  exact ⟨m', hm, hs.mono hlo hhi⟩

theorem Uniform.within {x : Exec α} (hx : Uniform lo hi x) : Within lo hi x := by
  intro m
  obtain ⟨r, hr⟩ := hx
  obtain ⟨m', hm, hs⟩ := hr m
  rw [hm]
  cases r <;> exact hs

/-- One run shows what every run returns, or where it stops. -/
theorem Uniform.result {x : Exec α} (hx : Uniform lo hi x) (m m₁ : Mem) :
    (∃ a m' m₁', x.run m = .ok a m' ∧ x.run m₁ = .ok a m₁') ∨
      ∃ e m' m₁', x.run m = .fault e m' ∧ x.run m₁ = .fault e m₁' := by
  obtain ⟨r, hr⟩ := hx
  obtain ⟨m', hm, -⟩ := hr m
  obtain ⟨m₁', hm₁, -⟩ := hr m₁
  cases r with
  | ok a => exact .inl ⟨a, m', m₁', hm, hm₁⟩
  | error e => exact .inr ⟨e, m', m₁', hm, hm₁⟩

end Exec
end Rkboot.Lib
