import Mathlib.Data.List.Nodup

/-! # Linked lists in a heap

A heap gives each cell a pointer to the next one. `Path` reads a stretch of it as a list, and
`Separate` says that lists kept at several places share no cell. -/
namespace Rkboot.Lib
open Function List

section
variable {R : Type} {next next' : R → Option R} {a b c : Option R} {l l' : List R} {r : R}

/-- Following `next` from the pointer `a` passes the cells `l` and arrives at the pointer `b`. -/
def Path (next : R → Option R) : Option R → List R → Option R → Prop
  | a, [], b => a = b
  | a, r :: l, b => a = some r ∧ Path next (next r) l b

@[simp] theorem path_nil : Path next a [] b ↔ a = b := Iff.rfl

@[simp] theorem path_cons : Path next a (r :: l) b ↔ a = some r ∧ Path next (next r) l b := Iff.rfl

theorem path_append : Path next a (l ++ l') b ↔ ∃ c, Path next a l c ∧ Path next c l' b := by
  induction l generalizing a with
  | nil => simp
  | cons r l ih => simp [ih, and_assoc]

theorem Path.append (h : Path next a l c) (h' : Path next c l' b) : Path next a (l ++ l') b :=
  path_append.mpr ⟨c, h, h'⟩

/-- A path only depends on the cells it passes. -/
theorem Path.congr (h : Path next a l b) (hl : ∀ r ∈ l, next' r = next r) : Path next' a l b := by
  induction l generalizing a with
  | nil => exact h
  | cons r l ih =>
    refine ⟨h.1, ?_⟩
    rw [hl r mem_cons_self]
    exact ih h.2 fun r' hr' => hl r' (mem_cons_of_mem _ hr')

theorem Path.update [DecidableEq R] (h : Path next a l b) (hr : r ∉ l) (v : Option R) :
    Path (update next r v) a l b :=
  h.congr fun r' hr' => update_of_ne (fun he : r' = r => hr (he ▸ hr')) ..

/-- Where the last cell of a path leads can be changed. -/
theorem Path.update_last [DecidableEq R] (h : Path next a l (some r)) (hr : r ∉ l) (v : Option R) :
    Path (Function.update next r v) a (l ++ [r]) v :=
  (h.update hr v).append ⟨rfl, update_self ..⟩

/-- From one pointer there is one way to the end. -/
theorem Path.unique (h : Path next a l none) (h' : Path next a l' none) : l = l' := by
  induction l generalizing a l' with
  | nil =>
    cases l' with
    | nil => rfl
    | cons r l' => exact absurd ((path_nil.mp h).symm.trans h'.1) (by simp)
  | cons r l ih =>
    cases l' with
    | nil => exact absurd (h.1.symm.trans (path_nil.mp h')) (by simp)
    | cons r' l' =>
      obtain rfl : r = r' := Option.some.inj (h.1.symm.trans h'.1)
      rw [ih h.2 h'.2]

theorem Path.ne_nil (h : Path next (some r) l none) : l ≠ [] := by
  rintro rfl
  cases h

end

section
variable {P R : Type} {c : P → List R}

/-- The lists at the places of `c` have no element twice, neither in one nor in two of them. -/
structure Separate (c : P → List R) : Prop where
  nodup : ∀ p, (c p).Nodup
  unique : ∀ {p q r}, r ∈ c p → r ∈ c q → p = q

theorem Separate.not_mem (h : Separate c) {p q} (hpq : p ≠ q) {r} (hr : r ∈ c p) : r ∉ c q :=
  fun hq => hpq (h.unique hr hq)

variable [DecidableEq P]

/-- A place gets a list of its own elements and of new ones. -/
theorem Separate.put (h : Separate c) (p : P) {l : List R} (hl : l.Nodup)
    (hnew : ∀ r ∈ l, r ∈ c p ∨ ∀ q, r ∉ c q) : Separate (update c p l) := by
  have hother : ∀ {q r}, q ≠ p → r ∈ l → r ∉ c q := fun hq hr hc =>
    (hnew _ hr).elim (fun hp => hq (h.unique hc hp)) fun hn => hn _ hc
  refine ⟨fun q => ?_, fun {q q' r} hr hr' => ?_⟩
  · by_cases hq : q = p
    · rw [hq, update_self]
      exact hl
    · rw [update_of_ne hq]
      exact h.nodup q
  · by_cases hq : q = p <;> by_cases hq' : q' = p
    · rw [hq, hq']
    · rw [hq, update_self] at hr
      rw [update_of_ne hq'] at hr'
      exact absurd hr' (hother hq' hr)
    · rw [hq', update_self] at hr'
      rw [update_of_ne hq] at hr
      exact absurd hr (hother hq hr')
    · rw [update_of_ne hq] at hr
      rw [update_of_ne hq'] at hr'
      exact h.unique hr hr'

/-- The elements of one place go to another. -/
theorem Separate.move (h : Separate c) {p q} (hpq : p ≠ q) {l : List R}
    (hl : l.Perm (c p ++ c q)) : Separate (update (update c p []) q l) := by
  have hempty : Separate (update c p []) := h.put p nodup_nil fun r hr => absurd hr (by simp)
  refine hempty.put q ?_ fun r hr => ?_
  · refine hl.symm.nodup (List.Nodup.append (h.nodup p) (h.nodup q) ?_)
    exact fun r hp hq => hpq (h.unique hp hq)
  · rw [update_of_ne hpq.symm]
    refine (mem_append.mp (hl.subset hr)).elim (fun hp => .inr fun q' hq' => ?_) .inl
    by_cases hqp : q' = p
    · rw [hqp, update_self] at hq'
      cases hq'
    · rw [update_of_ne hqp] at hq'
      exact hqp (h.unique hq' hp)

theorem exists_mem_push {q l r} : (∃ p, r ∈ update c q (l ++ c q) p) ↔ r ∈ l ∨ ∃ p, r ∈ c p := by
  constructor
  · rintro ⟨p, hp⟩
    by_cases hq : p = q
    · rw [hq, update_self, mem_append] at hp
      exact hp.imp_right fun h => ⟨q, h⟩
    · rw [update_of_ne hq] at hp
      exact .inr ⟨p, hp⟩
  · rintro (hl | ⟨p, hp⟩)
    · exact ⟨q, by rw [update_self]; exact mem_append_left _ hl⟩
    · by_cases hq : p = q
      · exact ⟨q, by rw [update_self, ← hq]; exact mem_append_right _ hp⟩
      · exact ⟨p, by rwa [update_of_ne hq]⟩

theorem exists_mem_move {p q} {l : List R} (hl : l.Perm (c p ++ c q)) {r} :
    (∃ a, r ∈ update (update c p []) q l a) ↔ ∃ a, r ∈ c a := by
  constructor
  · rintro ⟨a, ha⟩
    by_cases hq : a = q
    · rw [hq, update_self] at ha
      exact (mem_append.mp (hl.subset ha)).elim (fun h => ⟨p, h⟩) fun h => ⟨q, h⟩
    · rw [update_of_ne hq] at ha
      by_cases hp : a = p
      · rw [hp, update_self] at ha
        cases ha
      · exact ⟨a, by rwa [update_of_ne hp] at ha⟩
  · rintro ⟨a, ha⟩
    by_cases hq : a = q
    · exact ⟨q, by rw [update_self]; exact hl.symm.subset (mem_append_right _ (hq ▸ ha))⟩
    · by_cases hp : a = p
      · exact ⟨q, by rw [update_self]; exact hl.symm.subset (mem_append_left _ (hp ▸ ha))⟩
      · exact ⟨a, by rwa [update_of_ne hq, update_of_ne hp]⟩

end
end Rkboot.Lib
