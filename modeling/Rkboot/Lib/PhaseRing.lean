import Mathlib.Data.Nat.ModEq
import Mathlib.Data.List.Basic

/-! # Rings with a phase bit

A producer writes its entries one after the other into the `n` slots of a ring, each with a bit that
changes from one round to the next. A consumer that knows how many entries it has taken sees by the
bit whether the slot it comes to has been written again. -/
namespace Rkboot.Lib
open Function Nat List

/-- The phase of the entry with number `k`: set in the first round. -/
def phaseAt (n k : Nat) : Bool := k / n % 2 = 0

theorem phaseAt_add (n k : Nat) (hn : 0 < n) : phaseAt n (k + n) = !phaseAt n k := by
  rw [phaseAt, phaseAt, add_div_right k hn]
  rcases mod_two_eq_zero_or_one (k / n) with h | h <;> simp [add_mod, h]

/-- Where the entry behind number `k` goes. -/
theorem succ_mod_ring {size k} :
    (k + 1) % (size + 1) = if k % (size + 1) < size then k % (size + 1) + 1 else 0 := by
  have hlt : k % (size + 1) < size + 1 := mod_lt k (succ_pos size)
  rw [← mod_add_mod]
  split
  · exact mod_eq_of_lt (by omega)
  · rw [show k % (size + 1) + 1 = size + 1 by omega, mod_self]

/-- The phase changes where the position goes back to 0. -/
theorem phaseAt_succ {size k} : phaseAt (size + 1) (k + 1) =
    if k % (size + 1) < size then phaseAt (size + 1) k else !phaseAt (size + 1) k := by
  have hdiv := div_add_mod k (size + 1)
  have hlt : k % (size + 1) < size + 1 := mod_lt k (succ_pos size)
  split
  · have h : (k + 1) / (size + 1) = k / (size + 1) := by
      refine Nat.div_eq_of_lt_le ?_ ?_
      · rw [mul_comm]; omega
      · rw [succ_mul, mul_comm]; omega
    rw [phaseAt, phaseAt, h]
  · have h : (k + 1) / (size + 1) = k / (size + 1) + 1 := by
      refine Nat.div_eq_of_lt_le ?_ ?_
      · rw [succ_mul, mul_comm]; omega
      · rw [succ_mul, succ_mul, mul_comm]; omega
    rw [phaseAt, phaseAt, h]
    rcases mod_two_eq_zero_or_one (k / (size + 1)) with h' | h' <;> simp [add_mod, h']

section
variable {α : Type} {phase : α → Bool} {n : Nat} {slots : Nat → α} {written : List α}

/-- The slots hold the last `n` entries that were written; those that are written next still have
the phase of the round before. -/
structure PhaseRing (phase : α → Bool) (n : Nat) (slots : Nat → α) (written : List α) : Prop where
  past : ∀ k (hk : k < written.length), written.length ≤ k + n → slots (k % n) = written[k]
  future : ∀ k, written.length ≤ k → k < written.length + n → phase (slots (k % n)) = !phaseAt n k
  stamped : ∀ k (hk : k < written.length), phase written[k] = phaseAt n k

theorem PhaseRing.empty (h : ∀ i, phase (slots i) = false) : PhaseRing phase n slots [] where
  past k hk := absurd hk (Nat.not_lt_zero k)
  future k _ hk := by
    have hlt : k < n := by simpa using hk
    rw [h, phaseAt, div_eq_of_lt hlt]
    rfl
  stamped k hk := absurd hk (Nat.not_lt_zero k)

/-- Numbers less than a round apart have different slots. -/
theorem slot_ne {k l} (hkl : k < l) (hln : l < k + n) : k % n ≠ l % n := by
  intro h
  have hdvd : n ∣ l - k := (modEq_iff_dvd' (le_of_lt hkl)).mp h
  exact absurd (le_of_dvd (by omega) hdvd) (by omega)

/-- The producer writes the next entry. -/
theorem PhaseRing.write (h : PhaseRing phase n slots written) (hn : 0 < n) {x}
    (hx : phase x = phaseAt n written.length) :
    PhaseRing phase n (update slots (written.length % n) x) (written ++ [x]) where
  past k hk hle := by
    rw [length_append, length_singleton] at hk hle
    rcases Nat.lt_succ_iff_lt_or_eq.mp hk with hk | rfl
    · rw [update_of_ne (slot_ne hk (by omega)), getElem_append_left hk]
      exact h.past k hk (by omega)
    · simp
  future k hle hlt := by
    rw [length_append, length_singleton] at hle hlt
    rcases lt_or_ge k (written.length + n) with hk | hk
    · rw [update_of_ne (slot_ne hle hk).symm]
      exact h.future k (by omega) hk
    · obtain rfl : k = written.length + n := by omega
      rw [add_mod_right, update_self, hx, phaseAt_add n _ hn, Bool.not_not]
  stamped k hk := by
    rw [length_append, length_singleton] at hk
    rcases Nat.lt_succ_iff_lt_or_eq.mp hk with hk | rfl
    · rw [getElem_append_left hk]
      exact h.stamped k hk
    · simpa using hx

/-- What a consumer that has taken `k` entries sees. -/
theorem PhaseRing.phase_eq_iff (h : PhaseRing phase n slots written) {k} (hn : 0 < n)
    (hk : k ≤ written.length) (hle : written.length ≤ k + n) :
    phase (slots (k % n)) = phaseAt n k ↔ k < written.length := by
  constructor
  · intro hphase
    by_contra hlt
    rw [h.future k (by omega) (by omega)] at hphase
    exact absurd hphase (by simp)
  · intro hlt
    rw [h.past k hlt hle]
    exact h.stamped k hlt

end
end Rkboot.Lib
