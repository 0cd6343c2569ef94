import Mathlib.Data.Finset.Card

/-! # Counting loops

A `for` loop over a range is a left fold over it; what holds before the body at
`i` and after it at `i + 1` holds from one end of the loop to the other. -/
namespace Rkboot.Lib
open Nat List

theorem foldl_range_inv {α : Type} {f : α → Nat → α} {n a} (I : Nat → α → Prop)
    (h0 : I 0 a) (hstep : ∀ i a, i < n → I i a → I (i + 1) (f a i)) :
    I n ((List.range n).foldl f a) := by
  induction n with
  | zero => exact h0
  | succ n ih =>
    rw [range_succ, foldl_append]
    exact hstep n _ (lt_succ_self n) (ih fun i a hi => hstep i a (by omega))

theorem foldl_range'_inv {α : Type} {f : α → Nat → α} {s n a} (I : Nat → α → Prop)
    (h0 : I s a) (hstep : ∀ i a, s ≤ i → i < s + n → I i a → I (i + 1) (f a i)) :
    I (s + n) ((List.range' s n).foldl f a) := by
  induction n with
  | zero => exact h0
  | succ n ih =>
    rw [range'_concat, foldl_append, Nat.one_mul]
    exact hstep (s + n) _ (by omega) (by omega) (ih fun i a h1 h2 => hstep i a h1 (by omega))

section
variable {ε α : Type} {f : α → Nat → Except ε α} {n : Nat}

theorem foldlM_range_succ (f : α → Nat → Except ε α) (n : Nat) (a : α) :
    (List.range (n + 1)).foldlM f a = (List.range n).foldlM f a >>= fun a => f a n := by
  simp [range_succ, foldlM_append]

theorem foldlM_range_succ_eq_ok {a c} (h : (List.range (n + 1)).foldlM f a = .ok c) :
    ∃ b, (List.range n).foldlM f a = .ok b ∧ f b n = .ok c := by
  rw [foldlM_range_succ] at h
  cases hb : (List.range n).foldlM f a with
  | error e => rw [hb] at h; cases h
  | ok b => rw [hb] at h; exact ⟨b, rfl, h⟩

/-- A loop whose body can stop, and does not. -/
theorem foldlM_range_ok {a} (I : Nat → α → Prop) (h0 : I 0 a)
    (hstep : ∀ i a, i < n → I i a → ∃ b, f a i = .ok b ∧ I (i + 1) b) :
    ∃ b, (List.range n).foldlM f a = .ok b ∧ I n b := by
  induction n with
  | zero => exact ⟨a, rfl, h0⟩
  | succ n ih =>
    obtain ⟨b, hb, hI⟩ := ih fun i a hi => hstep i a (by omega)
    obtain ⟨c, hc, hI'⟩ := hstep n b (lt_succ_self n) hI
    refine ⟨c, ?_, hI'⟩
    rw [foldlM_range_succ, hb]
    exact hc

theorem foldlM_range_inv {a c} (I : Nat → α → Prop) (h0 : I 0 a)
    (hstep : ∀ i a b, i < n → I i a → f a i = .ok b → I (i + 1) b)
    (h : (List.range n).foldlM f a = .ok c) : I n c := by
  induction n generalizing c with
  | zero =>
    cases h
    exact h0
  | succ n ih =>
    obtain ⟨b, hb, hc⟩ := foldlM_range_succ_eq_ok h
    exact hstep n b c (lt_succ_self n) (ih (fun i a b hi => hstep i a b (by omega)) hb) hc

end

theorem countP_range_eq_card (p : Nat → Bool) (n : Nat) :
    (List.range n).countP p = (Finset.filter (fun i => p i = true) (Finset.range n)).card := by
  induction n with
  | zero => rfl
  | succ n ih =>
    rw [range_succ, countP_append, ih, Finset.range_add_one, Finset.filter_insert]
    by_cases h : p n = true
    · simp [h]
    · simp [h]

/-! ## Occurrences in a sequence

The places of a sequence that hold the same value, in their order. -/

section
variable {α : Type} [DecidableEq α]

/-- How often a value occurs among the first `n`. -/
def occurs (f : Nat → α) (a : α) (n : Nat) : Nat := ((List.range n).map f).count a

/-- How often the value at `i` occurs before it. -/
def rank (f : Nat → α) (i : Nat) : Nat := occurs f (f i) i

variable {f g : Nat → α} {a : α} {i j n k : Nat}

theorem occurs_succ (f : Nat → α) (a : α) (n : Nat) :
    occurs f a (n + 1) = occurs f a n + if f n = a then 1 else 0 := by
  rw [occurs, range_succ, map_append, count_append, occurs, map_singleton, count_singleton]
  simp only [beq_iff_eq]

theorem occurs_mono (f : Nat → α) (a : α) (h : j ≤ n) : occurs f a j ≤ occurs f a n := by
  induction h with
  | refl => exact Nat.le_refl _
  | step _ ih => exact Nat.le_trans ih (occurs_succ f a _ ▸ Nat.le_add_right _ _)

theorem occurs_congr (h : ∀ i < n, f i = g i) : occurs f a n = occurs g a n := by
  rw [occurs, map_congr_left fun i hi => h i (mem_range.mp hi), occurs]

/-- Where the value does not occur. -/
theorem occurs_eq_of_ne (hjn : j ≤ n) (h : ∀ i, j ≤ i → i < n → f i ≠ a) :
    occurs f a n = occurs f a j := by
  induction hjn with
  | refl => rfl
  | step hjn ih =>
    rw [occurs_succ, if_neg (h _ hjn (Nat.lt_succ_self _)), Nat.add_zero]
    exact ih fun i hji hin => h i hji (lt_succ_of_lt hin)

theorem rank_lt (hi : i < n) (ha : f i = a) : rank f i < occurs f a n := by
  have hmono := occurs_mono f a (show i + 1 ≤ n from hi)
  rw [occurs_succ, if_pos ha] at hmono
  rw [rank, ha]
  exact hmono

theorem rank_inj (hi : f i = a) (hj : f j = a) (h : rank f i = rank f j) : i = j := by
  rcases Nat.lt_trichotomy i j with hlt | heq | hgt
  · exact absurd (rank_lt hlt (hi.trans hj.symm)) (by rw [h, rank]; exact Nat.lt_irrefl _)
  · exact heq
  · exact absurd (rank_lt hgt (hj.trans hi.symm)) (by rw [← h, rank]; exact Nat.lt_irrefl _)

theorem exists_rank (hk : k < occurs f a n) : ∃ i < n, f i = a ∧ rank f i = k := by
  induction n with
  | zero => exact absurd hk (Nat.not_lt_zero k)
  | succ n ih =>
    rw [occurs_succ] at hk
    by_cases hlt : k < occurs f a n
    · obtain ⟨i, hi, h⟩ := ih hlt
      exact ⟨i, lt_succ_of_lt hi, h⟩
    · split at hk
      · rename_i ha
        refine ⟨n, lt_succ_self n, ha, ?_⟩
        rw [rank, ha]
        omega
      · exact absurd hk hlt

/-- A value that occurs once. -/
theorem occurs_eq_one (hi : i < n) (h : ∀ j < n, f j = a ↔ j = i) : occurs f a n = 1 := by
  have hsplit : occurs f a n = occurs f a (i + 1) := by
    refine occurs_eq_of_ne hi fun j hij hjn hj => ?_
    have := (h j hjn).mp hj
    omega
  have hbefore : occurs f a i = occurs f a 0 := by
    refine occurs_eq_of_ne (Nat.zero_le i) fun j _ hji hj => ?_
    have := (h j (Nat.lt_trans hji hi)).mp hj
    omega
  rw [hsplit, occurs_succ, hbefore, if_pos ((h i hi).mpr rfl)]
  rfl

end
end Rkboot.Lib
