import Mathlib.Data.List.Induction
import Mathlib.Data.Set.Insert

/-! # Radix trees held in tables

A table gives an entry for each index, and an entry of level `n` may name a
table of level `n + 1`. A walk follows a path of indices from the root until
an entry names no table. The tables form a tree when no table is reached on
two paths; then one store into a table changes the walks through one slot. -/
namespace Rkboot.Lib.Radix

variable {T I E : Type*} {sub : Nat → E → Option T} {m m' : T → I → E} {r t : T}

/-- The table that a path leads to from a table of level `n`. -/
def tableAt (sub : Nat → E → Option T) (m : T → I → E) : Nat → T → List I → Option T
  | _, t, [] => some t
  | n, t, i :: p => (sub n (m t i)).bind fun t' => tableAt sub m (n + 1) t' p

/-- Level, table and index of the first entry on a path that names no table. -/
def slot (sub : Nat → E → Option T) (m : T → I → E) : Nat → T → List I → Option (Nat × T × I)
  | _, _, [] => none
  | n, t, i :: p =>
    match sub n (m t i) with
    | some t' => slot sub m (n + 1) t' p
    | none => some (n, t, i)

/-- The entry a walk from the root ends at, with its level. -/
def lookup (sub : Nat → E → Option T) (m : T → I → E) (r : T) (p : List I) : Option (Nat × E) :=
  (slot sub m 0 r p).map fun s => (s.1, m s.2.1 s.2.2)

@[simp] theorem tableAt_nil (n : Nat) (t : T) : tableAt sub m n t [] = some t := rfl

theorem tableAt_append (n : Nat) (t : T) (p q : List I) : tableAt sub m n t (p ++ q) =
      (tableAt sub m n t p).bind fun t' => tableAt sub m (n + p.length) t' q := by
  induction p generalizing n t with
  | nil => simp
  | cons i p ih =>
    cases h : sub n (m t i) with
    | none => simp [tableAt, h]
    | some t' => simp [tableAt, h, ih, Nat.add_assoc, Nat.add_comm 1]

theorem tableAt_concat (n : Nat) (t : T) (p : List I) (i : I) : tableAt sub m n t (p ++ [i]) =
      (tableAt sub m n t p).bind fun t' => sub (n + p.length) (m t' i) := by
  rw [tableAt_append]
  simp [tableAt]

theorem slot_eq_some {n k i q} : slot sub m n r q = some (k, t, i) ↔ ∃ p rest, q = p ++ i :: rest ∧
      tableAt sub m n r p = some t ∧ k = n + p.length ∧ sub k (m t i) = none := by
  induction q generalizing n r with
  | nil => simp [slot]
  | cons j q ih =>
    cases h : sub n (m r j) with
    | none =>
      simp only [slot, h, Option.some.injEq, Prod.mk.injEq]
      constructor
      · rintro ⟨rfl, rfl, rfl⟩
        exact ⟨[], q, rfl, rfl, rfl, h⟩
      · rintro ⟨p, rest, hq, hp, rfl, hs⟩
        cases p with
        | nil => cases hq; cases hp; exact ⟨rfl, rfl, rfl⟩
        | cons i' p =>
          cases hq
          simp [tableAt, h] at hp
    | some r' =>
      simp only [slot, h, ih]
      constructor
      · rintro ⟨p, rest, rfl, hp, rfl, hs⟩
        refine ⟨j :: p, rest, rfl, ?_, by simp [Nat.add_assoc, Nat.add_comm 1], hs⟩
        simpa [tableAt, h] using hp
      · rintro ⟨p, rest, hq, hp, rfl, hs⟩
        cases p with
        | nil => cases hq; cases hp; simp [h] at hs
        | cons i' p =>
          cases hq
          refine ⟨p, rest, rfl, ?_, by simp [Nat.add_assoc, Nat.add_comm 1], hs⟩
          simpa [tableAt, h] using hp

theorem lookup_eq_some {k e q} : lookup sub m r q = some (k, e) ↔
    ∃ p i rest t, q = p ++ i :: rest ∧ tableAt sub m 0 r p = some t ∧ k = p.length ∧
      m t i = e ∧ sub k e = none := by
  simp only [lookup, Option.map_eq_some_iff, Prod.exists, slot_eq_some, Prod.mk.injEq, Nat.zero_add]
  constructor
  · rintro ⟨_, t, i, ⟨p, rest, hq, hp, rfl, hs⟩, rfl, rfl⟩
    exact ⟨p, i, rest, t, hq, hp, rfl, rfl, hs⟩
  · rintro ⟨p, i, rest, t, hq, hp, rfl, rfl, hs⟩
    exact ⟨_, t, i, ⟨p, rest, hq, hp, rfl, hs⟩, rfl, rfl⟩

/-- No table is reached on two paths, and all that are reached are in use. -/
structure Tree (sub : Nat → E → Option T) (m : T → I → E) (r : T) (used : Set T) : Prop where
  unique : ∀ {p q t}, tableAt sub m 0 r p = some t → tableAt sub m 0 r q = some t → p = q
  used : ∀ {p t}, tableAt sub m 0 r p = some t → t ∈ used

/-! ## Tables out of use -/

variable {used : Set T}

theorem Tree.tableAt_congr (h : Tree sub m r used) (heq : ∀ t ∈ used, m' t = m t) (p : List I) :
    tableAt sub m' 0 r p = tableAt sub m 0 r p := by
  induction p using List.reverseRecOn with
  | nil => rfl
  | append_singleton p i ih =>
    rw [tableAt_concat, tableAt_concat, ih]
    cases hp : tableAt sub m 0 r p with
    | none => rfl
    | some t => simp [heq t (h.used hp)]

theorem Tree.lookup_congr (h : Tree sub m r used) (heq : ∀ t ∈ used, m' t = m t) (q : List I) :
    lookup sub m' r q = lookup sub m r q := by
  ext ⟨k, e⟩
  simp only [lookup_eq_some, h.tableAt_congr heq]
  constructor <;> rintro ⟨p, i, rest, t, hq, hp, hk, he, hs⟩
  · exact ⟨p, i, rest, t, hq, hp, hk, heq t (h.used hp) ▸ he, hs⟩
  · exact ⟨p, i, rest, t, hq, hp, hk, (heq t (h.used hp)).symm ▸ he, hs⟩

theorem Tree.congr (h : Tree sub m r used) (heq : ∀ t ∈ used, m' t = m t) : Tree sub m' r used where
  unique hp hq := h.unique (h.tableAt_congr heq _ ▸ hp) (h.tableAt_congr heq _ ▸ hq)
  used hp := h.used (h.tableAt_congr heq _ ▸ hp)

theorem Tree.mono {used'} (h : Tree sub m r used) (hsub : used ⊆ used') : Tree sub m r used' :=
  ⟨h.unique, fun hp => hsub (h.used hp)⟩

/-! ## Stores -/

variable {p q : List I} {i j : I} {e : E} {t' : T}

/-- A walk that ends in the slot `i` of `t` goes through the slot's own path. -/
theorem Tree.slot_ne (h : Tree sub m r used) (hp : tableAt sub m 0 r p = some t)
    (hq : ¬ p ++ [i] <+: q) {p' rest} (hq' : q = p' ++ j :: rest)
    (hp' : tableAt sub m 0 r p' = some t') : ¬ (t' = t ∧ j = i) := by
  rintro ⟨rfl, rfl⟩
  cases h.unique hp hp'
  exact hq ⟨rest, by simp [hq']⟩

/-- A store that links a table out of use, with no tables below, into a slot that names none. -/
structure LinkStore (sub : Nat → E → Option T) (m : T → I → E) (r : T) (used : Set T) (p : List I)
    (t : T) (i : I) (e : E) (t' : T) : Prop where
  path : tableAt sub m 0 r p = some t
  free : sub p.length (m t i) = none
  link : sub p.length e = some t'
  fresh : t' ∉ used
  blank : ∀ j, sub (p.length + 1) (m t' j) = none

theorem LinkStore.ne (h : Tree sub m r used) (hs : LinkStore sub m r used p t i e t') : t' ≠ t := by
  rintro rfl
  exact hs.fresh (h.used hs.path)

theorem LinkStore.unreached (hs : LinkStore sub m r used p t i e t') (q : List I) :
    tableAt sub m 0 r (p ++ i :: q) = none := by
  rw [tableAt_append, hs.path]
  simp [tableAt, hs.free]

variable [DecidableEq T] [DecidableEq I]

def set (m : T → I → E) (t : T) (i : I) (e : E) : T → I → E :=
  fun t' i' => if t' = t ∧ i' = i then e else m t' i'

@[simp] theorem set_self (m : T → I → E) (t : T) (i : I) (e : E) : set m t i e t i = e := by
  simp [set]

theorem set_ne {t'} (h : ¬ (t' = t ∧ j = i)) : set m t i e t' j = m t' j := if_neg h

/-- A store of an entry that names no table over one that names none. -/
structure LeafStore (sub : Nat → E → Option T) (m : T → I → E) (r : T) (p : List I) (t : T) (i : I)
    (e : E) : Prop where
  path : tableAt sub m 0 r p = some t
  free : sub p.length (m t i) = none
  leaf : sub p.length e = none

section
variable (h : Tree sub m r used) (hs : LeafStore sub m r p t i e)
include h hs

theorem Tree.tableAt_set (q : List I) : tableAt sub (set m t i e) 0 r q = tableAt sub m 0 r q := by
  induction q using List.reverseRecOn with
  | nil => rfl
  | append_singleton q j ih =>
    rw [tableAt_concat, tableAt_concat, ih]
    cases hq : tableAt sub m 0 r q with
    | none => rfl
    | some t' =>
      by_cases hslot : t' = t ∧ j = i
      · obtain ⟨rfl, rfl⟩ := hslot
        cases h.unique hs.path hq
        simp [hs.free, hs.leaf]
      · simp [set_ne hslot]

theorem Tree.set_leaf : Tree sub (set m t i e) r used where
  unique hp hq := h.unique (h.tableAt_set hs _ ▸ hp) (h.tableAt_set hs _ ▸ hq)
  used hp := h.used (h.tableAt_set hs _ ▸ hp)

theorem Tree.lookup_set_self
    (rest : List I) : lookup sub (set m t i e) r (p ++ i :: rest) = some (p.length, e) :=
  lookup_eq_some.mpr ⟨p, i, rest, t, rfl, (h.tableAt_set hs p).trans hs.path, rfl, set_self .., hs.leaf⟩

/-- A walk that does not go through the slot ends as before. -/
theorem Tree.lookup_set_ne
    (hq : ¬ p ++ [i] <+: q) : lookup sub (set m t i e) r q = lookup sub m r q := by
  ext ⟨k, e'⟩
  simp only [lookup_eq_some, h.tableAt_set hs]
  constructor <;> rintro ⟨p', j, rest, t', hq', hp', hk, he, hsub⟩
  all_goals have hne := h.slot_ne hs.path hq hq' hp'
  · exact ⟨p', j, rest, t', hq', hp', hk, (set_ne hne).symm.trans he, hsub⟩
  · exact ⟨p', j, rest, t', hq', hp', hk, (set_ne hne).trans he, hsub⟩

end

section
variable (h : Tree sub m r used) (hs : LinkStore sub m r used p t i e t')
include h hs

theorem Tree.tableAt_link (q : List I) : tableAt sub (set m t i e) 0 r q =
      if q = p ++ [i] then some t' else tableAt sub m 0 r q := by
  induction q using List.reverseRecOn with
  | nil => simp
  | append_singleton q j ih =>
    rw [tableAt_concat, ih]
    by_cases hq : q = p ++ [i]
    · subst hq
      have hold : ¬ (t' = t ∧ j = i) := fun h' => hs.ne h h'.1
      simp [set_ne hold, hs.blank, hs.unreached]
    · rw [if_neg hq, tableAt_concat]
      cases hqt : tableAt sub m 0 r q with
      | none =>
        have hne : ¬ q ++ [j] = p ++ [i] := by
          intro heq
          cases (List.append_inj' heq rfl).1
          simp [hs.path] at hqt
        simp [hne]
      | some t₁ =>
        by_cases hslot : t₁ = t ∧ j = i
        · obtain ⟨rfl, rfl⟩ := hslot
          cases h.unique hs.path hqt
          simp [hs.link]
        · have hne : ¬ q ++ [j] = p ++ [i] := by
            intro heq
            obtain ⟨rfl, hj⟩ := List.append_inj' heq rfl
            rw [hs.path] at hqt
            exact hslot ⟨(Option.some.inj hqt).symm, by simpa using hj⟩
          simp [hne, set_ne hslot]

theorem Tree.link : Tree sub (set m t i e) r (insert t' used) where
  unique := by
    intro q₁ q₂ t₁ h₁ h₂
    rw [h.tableAt_link hs] at h₁ h₂
    split at h₁ <;> split at h₂
    · simp_all
    · cases h₁
      exact absurd (h.used h₂) hs.fresh
    · cases h₂
      exact absurd (h.used h₁) hs.fresh
    · exact h.unique h₁ h₂
  used := by
    intro q t₁ hq
    rw [h.tableAt_link hs] at hq
    split at hq
    · cases hq
      exact Set.mem_insert t' used
    · exact Set.mem_insert_of_mem _ (h.used hq)

theorem Tree.lookup_link_self (j : I) (rest : List I) :
    lookup sub (set m t i e) r (p ++ i :: j :: rest) = some (p.length + 1, m t' j) := by
  refine lookup_eq_some.mpr ⟨p ++ [i], j, rest, t', by simp, ?_, by simp, ?_, hs.blank j⟩
  · rw [h.tableAt_link hs, if_pos rfl]
  · exact set_ne fun h' => hs.ne h h'.1

theorem Tree.lookup_link_ne
    (hq : ¬ p ++ [i] <+: q) : lookup sub (set m t i e) r q = lookup sub m r q := by
  have hpath : ∀ {p' j rest}, q = p' ++ j :: rest → p' ≠ p ++ [i] := by
    rintro p' j rest rfl rfl
    exact hq ⟨j :: rest, rfl⟩
  ext ⟨k, e'⟩
  simp only [lookup_eq_some, h.tableAt_link hs]
  constructor <;> rintro ⟨p', j, rest, t₁, hq', hp', hk, he, hsub⟩
  · rw [if_neg (hpath hq')] at hp'
    have hne := h.slot_ne hs.path hq hq' hp'
    exact ⟨p', j, rest, t₁, hq', hp', hk, (set_ne hne).symm.trans he, hsub⟩
  · have hne := h.slot_ne hs.path hq hq' hp'
    refine ⟨p', j, rest, t₁, hq', ?_, hk, (set_ne hne).trans he, hsub⟩
    rwa [if_neg (hpath hq')]

end

end Rkboot.Lib.Radix
