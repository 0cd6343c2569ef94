import Rkboot.Lib.Exec

/-! # Where runs stop

A run stops with a fault where one of its parts does. The rules follow the ways a run is put together
and say exactly when it stops; a part that is spared a fault drops out. -/
namespace Rkboot.Lib

theorem except_bind_eq_error {ε α β : Type} {x} {f : α → Except ε β} {e} :
    x >>= f = .error e ↔ x = .error e ∨ ∃ a, x = .ok a ∧ f a = .error e := by
  cases x with
  | ok a =>
    refine ⟨fun h => .inr ⟨a, rfl, h⟩, ?_⟩
    rintro (h | ⟨b, hb, h⟩)
    · cases h
    · cases hb
      exact h
  | error e' =>
    refine ⟨fun h => .inl (by cases h; rfl), ?_⟩
    rintro (h | ⟨b, hb, h⟩)
    · cases h
      rfl
    · cases hb

/-- Where neither part stops, the whole does not. -/
theorem except_bind_ne_error {ε α β : Type} {x} {f : α → Except ε β} {e}
    (hx : x ≠ .error e) (hf : ∀ a, x = .ok a → f a ≠ .error e) : x >>= f ≠ .error e := by
  intro h
  rcases except_bind_eq_error.mp h with h | ⟨a, ha, h⟩
  · exact hx h
  · exact hf a ha h

theorem ite_ne_error {ε α : Type} {x y : Except ε α} {e} {p : Prop} [Decidable p]
    (hx : x ≠ .error e) (hy : ¬ p → y ≠ .error e) : (if p then x else y) ≠ .error e := by
  split
  · exact hx
  · exact hy ‹_›

namespace Exec
variable {α β : Type} {x : Exec α} {f : α → Exec β} {e : Fault} {m : Mem}

/-- From this memory, the run stops with this fault. -/
def Stops (x : Exec α) (e : Fault) (m : Mem) : Prop := ∃ m', x.run m = .fault e m'

theorem not_stops_of_ok {a m'} (h : x.run m = .ok a m') : ¬ x.Stops e m := by
  rintro ⟨m'', hstop⟩
  rw [h] at hstop
  cases hstop

theorem not_stops_pure (a : α) : ¬ (pure a : Exec α).Stops e m := not_stops_of_ok rfl

theorem stops_fault {e'} : (fault e' : Exec α).Stops e m ↔ e' = e := by
  constructor
  · rintro ⟨m', ⟨⟩⟩
    rfl
  · rintro rfl
    exact ⟨m, rfl⟩

theorem stops_bind : (x >>= f).Stops e m ↔
    x.Stops e m ∨ ∃ a m', x.run m = .ok a m' ∧ (f a).Stops e m' := by
  unfold Stops
  rw [run_bind]
  cases x.run m with
  | ok a m' =>
    refine ⟨fun h => .inr ⟨a, m', rfl, h⟩, ?_⟩
    rintro (⟨m'', h⟩ | ⟨b, m'', hb, h⟩)
    · cases h
    · cases hb
      exact h
  | fault e' m' =>
    refine ⟨fun ⟨m'', h⟩ => .inl ⟨m'', by cases h; rfl⟩, ?_⟩
    rintro (⟨m'', h⟩ | ⟨b, m'', hb, h⟩)
    · cases h
      exact ⟨m', rfl⟩
    · cases hb

/-- A part that returns drops out. -/
theorem stops_bind_of_ok {a m'} (h : x.run m = .ok a m') :
    (x >>= f).Stops e m ↔ (f a).Stops e m' := by
  rw [Stops, run_bind_of_ok h]
  rfl

theorem stops_bind_lift {x} : (lift x >>= f).Stops e m ↔
    x = .error e ∨ ∃ a, x = .ok a ∧ (f a).Stops e m := by
  cases x with
  | ok a =>
    refine ⟨fun h => .inr ⟨a, rfl, h⟩, ?_⟩
    rintro (h | ⟨b, hb, h⟩)
    · cases h
    · cases hb
      exact h
  | error e' =>
    rw [lift_error, fault_bind, stops_fault]
    refine ⟨fun h => .inl (h ▸ rfl), ?_⟩
    rintro (h | ⟨b, hb, h⟩)
    · cases h
      rfl
    · cases hb

theorem stops_bind_assert {p} {f : Unit → Exec β} : (assert p >>= f).Stops .assertion m ↔
    p = false ∨ p = true ∧ (f ()).Stops .assertion m := by
  cases p with
  | true =>
    simp
  | false => exact ⟨fun _ => .inl rfl, fun _ => ⟨m, rfl⟩⟩

/-- Whatever the memory, the run does not stop with this fault. -/
def Spared (e : Fault) (x : Exec α) : Prop := ∀ m, ¬ x.Stops e m

theorem Spared.pure (a : α) : Spared e (Pure.pure a : Exec α) := fun _ => not_stops_pure a

theorem Spared.fault {e'} (h : e' ≠ e) : Spared e (Exec.fault e' : Exec α) :=
  fun _ hstop => h (stops_fault.mp hstop)

theorem Spared.returns (h : ∀ m, ∃ a m', x.run m = .ok a m') : Spared e x := by
  intro m
  obtain ⟨a, m', hrun⟩ := h m
  exact not_stops_of_ok hrun

theorem Spared.fetch (inp : Nat → UInt8) (lo hi a : Nat) : Spared .assertion (Exec.fetch inp lo hi a) := by
  unfold Exec.fetch
  split
  · exact .pure _
  · exact .fault (by decide)

theorem Spared.lift {x : Except Fault α} (h : x ≠ .error e) : Spared e (Exec.lift x) := by
  cases x with
  | ok a => exact .pure a
  | error e' => exact .fault fun heq => h (heq ▸ rfl)

theorem Spared.bind_of (hx : Spared e x) (hf : ∀ a m m', x.run m = .ok a m' → Spared e (f a)) :
    Spared e (x >>= f) := by
  intro m h
  rcases stops_bind.mp h with h | ⟨a, m', hrun, h⟩
  · exact hx m h
  · exact hf a m m' hrun m' h

theorem Spared.bind (hx : Spared e x) (hf : ∀ a, Spared e (f a)) : Spared e (x >>= f) :=
  hx.bind_of fun a _ _ _ => hf a

theorem Spared.ite {p : Prop} [Decidable p] {x y : Exec α} (hx : p → Spared e x)
    (hy : ¬ p → Spared e y) : Spared e (if p then x else y) := by
  split
  · exact hx ‹_›
  · exact hy ‹_›

theorem stops_bind_spared (hf : ∀ a, Spared e (f a)) : (x >>= f).Stops e m ↔ x.Stops e m :=
  stops_bind.trans (or_iff_left fun ⟨a, m', _, h⟩ => hf a m' h)

theorem stops_ite_spared {p : Prop} [Decidable p] {y : Exec α} (hx : Spared e x) :
    (if p then x else y).Stops e m ↔ ¬ p ∧ y.Stops e m := by
  split
  · exact iff_of_false (hx m) fun h => h.1 ‹_›
  · exact (and_iff_right ‹_›).symm

theorem stops_unless {p : Prop} [Decidable p] {a : α} :
    (if p then Pure.pure a else x).Stops e m ↔ ¬ p ∧ x.Stops e m := stops_ite_spared (.pure a)

end Exec
end Rkboot.Lib
