import Rkboot.Aarch64.Mmu
import Rkboot.Lib.RadixTree
import Mathlib.Data.Nat.Bitwise
import Mathlib.Tactic.IntervalCases

/-! # The translation the tables define

The tables below `pagetables[0]` form a radix tree with four levels of nine
address bits. `find` is the block or page descriptor the walk of an address
ends at, `translate` the output address and attributes it gives, of which
`map_address` computes the first. -/
namespace Rkboot.Aarch64
open Lib Radix Nat

/-! ## Words -/

@[simp] theorem and_mask64 (x n : Nat) : x &&& mask64 n = x % 2 ^ n := by
  rw [mask64, one_shiftLeft, and_two_pow_sub_one_eq_mod]

theorem and_511 (x : Nat) : x &&& 0x1ff = x % 512 := and_two_pow_sub_one_eq_mod x 9

theorem and_3 (x : Nat) : x &&& 3 = x % 4 := and_two_pow_sub_one_eq_mod x 2

theorem and_fff (x : Nat) : x &&& 0xfff = x % 4096 := and_two_pow_sub_one_eq_mod x 12

/-- Keeping the bits from `k` to `k + n` on. -/
theorem and_field (x n k : Nat) : x &&& mask64 n <<< k = x / 2 ^ k % 2 ^ n * 2 ^ k := by
  apply eq_of_testBit_eq
  intro i
  rw [mask64, one_shiftLeft, testBit_and, testBit_shiftLeft,
    testBit_two_pow_sub_one, testBit_mul_two_pow, testBit_mod_two_pow,
    testBit_div_two_pow]
  by_cases hk : k ≤ i
  · simp [hk, Bool.and_comm]
  · simp [hk]

theorem extractAddress_eq (d : Nat) : extractAddress d = d / 4096 % 2 ^ 36 * 4096 :=
  and_field d 36 12

/-- The bits of a descriptor that are neither address nor type. -/
def attributes (d : Nat) : Nat := d &&& 0xffff000000000ffc

/-! ## Levels -/

/-- The number of bytes an entry of a level stands for. -/
def size (n : Nat) : Nat := 2 ^ (39 - 9 * n)

theorem size_pos (n : Nat) : 0 < size n := Nat.two_pow_pos _

theorem shift_eq {n} (h : n ≤ 3) : 2 ^ (multimapLevel n).shift = size n := by
  interval_cases n <;> rfl

/-- The position of an address in a table of level `n`. -/
def posOf (va n : Nat) : Fin 512 := ⟨va / size n % 512, mod_lt _ (by decide)⟩

def indices (va : Nat) : List (Fin 512) := [posOf va 0, posOf va 1, posOf va 2, posOf va 3]

/-! ## The walk as a radix tree -/

def Memory.tables (m : Memory) (f : Frames) : Nat → Fin 512 → Nat := fun t i => m.pte f t i

/-- The table an entry of level `n` names. -/
def Frames.subtable (f : Frames) (n e : Nat) : Option Nat :=
  if n < 3 ∧ e % 4 = 3 ∧ f.index e < f.numPagetables then some (f.index e) else none

/-- An entry of level `n` that maps: a block, or a page at the last level. -/
def IsLeaf (n e : Nat) : Prop := (n = 1 ∨ n = 2) ∧ e % 4 = 1 ∨ n = 3 ∧ e % 4 = 3

instance (n e : Nat) : Decidable (IsLeaf n e) := inferInstanceAs (Decidable (_ ∨ _))

/-- The descriptor that maps an address, with its level. -/
def find (f : Frames) (m : Memory) (va : Nat) : Option (Nat × Nat) :=
  (lookup f.subtable (m.tables f) 0 (indices va)).filter fun s => IsLeaf s.1 s.2

/-- The table of level `n` that the walk of an address goes through. -/
def tableOf (f : Frames) (m : Memory) (va n : Nat) : Option Nat :=
  tableAt f.subtable (m.tables f) 0 0 ((indices va).take n)

def outputAddress (n e va : Nat) : Nat := e % 2 ^ 48 / size n * size n + va % size n

/-- Output address and attributes of an address. -/
def translate (f : Frames) (m : Memory) (va : Nat) : Option (Nat × Nat) :=
  (find f m va).map fun s => (outputAddress s.1 s.2 va, attributes s.2)

theorem output_or {n k} (h : k + n = 48) (e va : Nat) :
    (e &&& mask64 n <<< k ||| va &&& mask64 k) = e % 2 ^ 48 / 2 ^ k * 2 ^ k + va % 2 ^ k := by
  rw [and_field, and_mask64, mul_comm, ← two_pow_add_eq_or_of_lt (mod_lt _ (Nat.two_pow_pos k)),
    mul_comm, ← h, pow_add, mod_mul_right_div_self]

/-- The descriptor found on the rest of a walk. -/
def findFrom (f : Frames) (m : Memory) (n t : Nat) (p : List (Fin 512)) : Option (Nat × Nat) :=
  ((slot f.subtable (m.tables f) n t p).map fun s => (s.1, m.tables f s.2.1 s.2.2)).filter
    fun s => IsLeaf s.1 s.2

theorem findFrom_cons (f : Frames) (m : Memory) (n t : Nat) (i : Fin 512) (p : List (Fin 512)) :
    findFrom f m n t (i :: p) = if n < 3 ∧ m.pte f t i % 4 = 3 then
        if f.numPagetables ≤ f.index (m.pte f t i) then none
        else findFrom f m (n + 1) (f.index (m.pte f t i)) p
      else if IsLeaf n (m.pte f t i) then some (n, m.pte f t i) else none := by
  have hread : m.tables f t i = m.pte f t i := rfl
  unfold findFrom
  rw [slot, hread, Frames.subtable]
  by_cases h : n < 3 ∧ m.pte f t i % 4 = 3
  · have hleaf : ¬ IsLeaf n (m.pte f t i) := by
      unfold IsLeaf
      omega
    by_cases hlt : f.index (m.pte f t i) < f.numPagetables
    · simp [h, hlt]
    · simp [h, hlt, hread, hleaf, not_lt.mp hlt]
  · rw [if_neg fun h' => h ⟨h'.1, h'.2.1⟩, if_neg h]
    by_cases hleaf : IsLeaf n (m.pte f t i) <;> simp [hread, hleaf]

/-- The code's walk computes the output address. -/
theorem mapAddress_eq (f : Frames) (m : Memory) (va : Nat) :
    mapAddress f m va = (translate f m va).map Prod.fst := by
  have hfind : find f m va = findFrom f m 0 0 (indices va) := rfl
  simp only [mapAddress, translate, hfind, indices, findFrom_cons, and_3, and_511,
    shiftRight_eq_div_pow, output_or, posOf, size]
  generalize m.pte f 0 (va / 2 ^ 39 % 512) = e₀
  by_cases h₀ : e₀ % 4 = 3
  case neg => simp [h₀, IsLeaf]
  by_cases hi₀ : f.numPagetables ≤ f.index e₀
  case pos => simp [h₀, hi₀]
  simp only [h₀, hi₀, Nat.reduceAdd, Nat.reduceMul, Nat.reduceSub, ne_eq, not_true_eq_false, if_false,
    Nat.reduceLT, and_self, if_true]
  generalize m.pte f (f.index e₀) (va / 2 ^ 30 % 512) = e₁
  by_cases h₁ : e₁ % 4 = 3
  case neg =>
    by_cases hb₁ : e₁ % 4 = 1 <;> simp [h₁, hb₁, IsLeaf, outputAddress, size]
  by_cases hi₁ : f.numPagetables ≤ f.index e₁
  case pos => simp [h₁, hi₁]
  simp only [h₁, hi₁, Nat.reduceEqDiff, not_true_eq_false, if_false, and_self, if_true]
  generalize m.pte f (f.index e₁) (va / 2 ^ 21 % 512) = e₂
  by_cases h₂ : e₂ % 4 = 3
  case neg =>
    by_cases hb₂ : e₂ % 4 = 1 <;> simp [h₂, hb₂, IsLeaf, outputAddress, size]
  by_cases hi₂ : f.numPagetables ≤ f.index e₂
  case pos => simp [h₂, hi₂]
  simp only [h₂, hi₂, Nat.reduceEqDiff, not_true_eq_false, if_false, and_self, if_true]
  generalize m.pte f (f.index e₂) (va / 2 ^ 12 % 512) = e₃
  by_cases h₃ : e₃ % 4 = 3 <;> simp [h₃, IsLeaf, outputAddress, size]

/-! ## Addresses and paths -/

theorem indices_take {n} (hn : n ≤ 3) (va : Nat) :
    (indices va).take (n + 1) = (indices va).take n ++ [posOf va n] := by
  interval_cases n <;> rfl

theorem indices_split {n} (hn : n ≤ 3) (va : Nat) :
    indices va = (indices va).take n ++ posOf va n :: (indices va).drop (n + 1) := by
  interval_cases n <;> rfl

theorem length_take {n} (hn : n ≤ 3) (va : Nat) : ((indices va).take n).length = n := by
  interval_cases n <;> rfl

/-- Two addresses share the slot of level `n` when they lie in one block of that level. -/
theorem take_eq_iff {n va va'} (hn : n ≤ 3) (hva : va < 2 ^ 48) (hva' : va' < 2 ^ 48) :
    (indices va).take (n + 1) = (indices va').take (n + 1) ↔ va / size n = va' / size n := by
  interval_cases n <;> simp [indices, posOf, size] <;> omega

theorem prefix_iff {n va va'} (hn : n ≤ 3) (hva : va < 2 ^ 48) (hva' : va' < 2 ^ 48) :
    (indices va).take n ++ [posOf va n] <+: indices va' ↔ va' / size n = va / size n := by
  rw [← indices_take hn, List.prefix_iff_eq_take, eq_comm, ← take_eq_iff hn hva' hva]
  have hlen : ((indices va).take (n + 1)).length = n + 1 := by interval_cases n <;> rfl
  rw [hlen]

/-! ## Stores into a page-table tree

`PageTree` is what the code relies on: the tables in use form a tree inside
the array, and every valid entry is a table, block or page descriptor of its
level. A store into a slot whose entry names no table changes the translation
of the slot's block only, and linking a new table changes none. -/
open List

variable {f : Frames} {m : Memory} {n t a e : Nat}

structure PageTree (f : Frames) (m : Memory) : Prop where
  aligned : f.pagetables % 4096 = 0
  bound : f.pagetables + 4096 * f.numPagetables ≤ 2 ^ 48
  /-- The counter of the tables handed out has 32 bits. -/
  count : f.numPagetables < 2 ^ 32
  root : 0 < m.nextPagetable
  next : m.nextPagetable ≤ f.numPagetables
  tree : Tree f.subtable (m.tables f) 0 {t | t < m.nextPagetable}
  valid : ∀ {p t i}, tableAt f.subtable (m.tables f) 0 0 p = some t →
    (m.tables f t i).testBit 0 → f.subtable p.length (m.tables f t i) ≠ none ∨
      IsLeaf p.length (m.tables f t i)

/-! ## Entries -/

theorem testBit_zero_iff_odd (e : Nat) : e.testBit 0 = true ↔ e % 2 = 1 := by
  simp [testBit_zero]

theorem IsLeaf.subtable (h : IsLeaf n e) : f.subtable n e = none := by
  refine if_neg fun hsub => ?_
  unfold IsLeaf at h
  omega

theorem subtable_of_even (n : Nat) (h : ¬ e.testBit 0) : f.subtable n e = none := by
  rw [testBit_zero_iff_odd] at h
  refine if_neg fun hsub => ?_
  omega

theorem not_isLeaf_of_even (h : ¬ e.testBit 0) : ¬ IsLeaf n e := by
  rw [testBit_zero_iff_odd] at h
  unfold IsLeaf
  omega

theorem subtable_eq_some : f.subtable n e = some t ↔
    n < 3 ∧ e % 4 = 3 ∧ f.index e = t ∧ t < f.numPagetables := by
  unfold Frames.subtable
  constructor
  · intro h
    split at h
    · rename_i hsub
      cases h
      exact ⟨hsub.1, hsub.2.1, rfl, hsub.2.2⟩
    · cases h
  · rintro ⟨hn, h3, rfl, hlt⟩
    exact if_pos ⟨hn, h3, hlt⟩

/-- A table descriptor holds the address of the table it names. -/
theorem PageTree.extractAddress_eq (h : PageTree f m) (hsub : f.subtable n e = some t) :
    extractAddress e = f.pagetables + 4096 * t := by
  obtain ⟨-, -, rfl, hlt⟩ := subtable_eq_some.mp hsub
  have haligned := h.aligned
  have hbound := h.bound
  rw [Aarch64.extractAddress_eq]
  simp only [Frames.index, and_mask64, shiftRight_eq_div_pow] at hlt ⊢
  omega

theorem or_three {b} (h : b % 4 = 0) : b ||| 3 = b + 3 := by
  obtain ⟨k, rfl⟩ := dvd_of_mod_eq_zero h
  exact (two_pow_add_eq_or_of_lt (i := 2) (by decide) k).symm

theorem PageTree.subtable_new (h : PageTree f m) (hn : n < 3) (ht : t < f.numPagetables) :
    f.subtable n (extractAddress (f.pagetables + 4096 * t) ||| 3) = some t := by
  have hbound := h.bound
  rw [Aarch64.extractAddress_eq, or_three (by omega)]
  refine subtable_eq_some.mpr ⟨hn, by omega, ?_, ht⟩
  simp only [Frames.index, and_mask64, shiftRight_eq_div_pow]
  omega

/-! ## Memory and tables -/

/-- The address of an entry. -/
def Frames.slot (f : Frames) (t : Nat) (i : Fin 512) : Nat := f.pagetables + 0x1000 * t + 8 * i

theorem tables_write (m : Memory) (t : Nat) (i : Fin 512) (e : Nat) :
    (m.write (f.slot t i) e).tables f = set (m.tables f) t i e := by
  funext t' i'
  by_cases hslot : t' = t ∧ i' = i
  · obtain ⟨rfl, rfl⟩ := hslot
    simp [Memory.tables, Memory.pte, Memory.write, Frames.slot]
  · have hne : f.slot t' i' ≠ f.slot t i := by
      intro heq
      unfold Frames.slot at heq
      exact hslot ⟨by omega, Fin.ext (by omega)⟩
    rw [set_ne hslot]
    exact Function.update_of_ne hne e m.word

theorem tables_clear (m : Memory) (t t' : Nat) (i : Fin 512) :
    (m.clear (f.pagetables + 4096 * t)).tables f t' i = if t' = t then 0 else m.tables f t' i := by
  simp only [Memory.tables, Memory.pte, Memory.clear]
  by_cases ht : t' = t
  · rw [if_pos (by omega), if_pos ht]
  · rw [if_neg (by omega), if_neg ht]

/-! ## Stores that link no table -/

section
variable (hn : n ≤ 3) (ht : tableOf f m a n = some t)
  (hfree : f.subtable n (m.tables f t (posOf a n)) = none) (he : IsLeaf n e ∨ ¬ e.testBit 0)
include hn ht hfree he

theorem leafStore_of :
    LeafStore f.subtable (m.tables f) 0 ((indices a).take n) t (posOf a n) e := by
  refine ⟨ht, ?_, ?_⟩ <;> rw [length_take hn]
  · exact hfree
  · rcases he with he | he
    · exact he.subtable
    · exact subtable_of_even n he

theorem PageTree.write_entry (h : PageTree f m) :
    PageTree f (m.write (f.slot t (posOf a n)) e) := by
  have hs := leafStore_of hn ht hfree he
  refine ⟨h.aligned, h.bound, h.count, h.root, h.next, ?_, ?_⟩
  · rw [tables_write]
    exact h.tree.set_leaf hs
  · intro p t' i hp hbit
    rw [tables_write] at hp hbit ⊢
    rw [h.tree.tableAt_set hs] at hp
    by_cases hslot : t' = t ∧ i = posOf a n
    · obtain ⟨rfl, rfl⟩ := hslot
      cases h.tree.unique hs.path hp
      rw [set_self] at hbit ⊢
      rw [length_take hn]
      exact Or.inr (he.resolve_right (absurd hbit))
    · rw [set_ne hslot] at hbit ⊢
      exact h.valid hp hbit

theorem PageTree.tableOf_write (h : PageTree f m)
    (va j : Nat) : tableOf f (m.write (f.slot t (posOf a n)) e) va j = tableOf f m va j := by
  unfold tableOf
  rw [tables_write]
  exact h.tree.tableAt_set (leafStore_of hn ht hfree he) _

/-- The translation changes for the block of the slot only. -/
theorem PageTree.find_write (h : PageTree f m) (ha : a < 2 ^ 48) {va} (hva : va < 2 ^ 48) :
    find f (m.write (f.slot t (posOf a n)) e) va =
      if va / size n = a / size n then (some (n, e)).filter fun s => IsLeaf s.1 s.2
      else find f m va := by
  have hs := leafStore_of hn ht hfree he
  simp only [find, tables_write]
  by_cases hblock : va / size n = a / size n
  · rw [if_pos hblock]
    obtain ⟨rest, hrest⟩ := (prefix_iff hn ha hva).mpr hblock
    rw [← hrest, append_assoc, singleton_append, h.tree.lookup_set_self hs, length_take hn]
  · rw [if_neg hblock, h.tree.lookup_set_ne hs (fun hp => hblock ((prefix_iff hn ha hva).mp hp))]

end

/-! ## A new table -/

/-- The memory after `alloc_page_table` and the store of the new table's descriptor. -/
def Memory.grow (m : Memory) (f : Frames) (t : Nat) (i : Fin 512) : Memory :=
  ({ m.clear (f.pagetables + 4096 * m.nextPagetable) with
    nextPagetable := m.nextPagetable + 1 } : Memory).write (f.slot t i)
      (extractAddress (f.pagetables + 4096 * m.nextPagetable) ||| 3)

theorem tables_cleared (t' : Nat) (ht' : t' < m.nextPagetable) :
    (m.clear (f.pagetables + 4096 * m.nextPagetable)).tables f t' = m.tables f t' := by
  funext i
  rw [tables_clear, if_neg (Nat.ne_of_lt ht')]

theorem tables_grow (m : Memory) (t : Nat) (i : Fin 512) : (m.grow f t i).tables f =
    set ((m.clear (f.pagetables + 4096 * m.nextPagetable)).tables f) t i
      (extractAddress (f.pagetables + 4096 * m.nextPagetable) ||| 3) :=
  tables_write _ t i _

theorem PageTree.linkStore (h : PageTree f m) (hn : n < 3) (ht : tableOf f m a n = some t)
    (hfree : ¬ (m.tables f t (posOf a n)).testBit 0) (hroom : m.nextPagetable < f.numPagetables) :
    LinkStore f.subtable ((m.clear (f.pagetables + 4096 * m.nextPagetable)).tables f) 0
      {t | t < m.nextPagetable} ((indices a).take n) t (posOf a n)
      (extractAddress (f.pagetables + 4096 * m.nextPagetable) ||| 3) m.nextPagetable := by
  have hlt : t < m.nextPagetable := h.tree.used ht
  refine ⟨(h.tree.tableAt_congr tables_cleared _).trans ht, ?_, ?_, Nat.lt_irrefl _, ?_⟩
  · rw [tables_cleared t hlt]
    exact subtable_of_even _ hfree
  · rw [length_take (le_of_lt hn)]
    exact h.subtable_new hn hroom
  · intro j
    rw [tables_clear, if_pos rfl]
    exact subtable_of_even _ (by decide)

section
variable (h : PageTree f m) (hn : n < 3) (ht : tableOf f m a n = some t)
  (hfree : ¬ (m.tables f t (posOf a n)).testBit 0) (hroom : m.nextPagetable < f.numPagetables)
include h hn ht hfree hroom

theorem PageTree.tableAt_grow (p : List (Fin 512)) :
    tableAt f.subtable ((m.grow f t (posOf a n)).tables f) 0 0 p =
      if p = (indices a).take (n + 1) then some m.nextPagetable
      else tableAt f.subtable (m.tables f) 0 0 p := by
  rw [tables_grow, (h.tree.congr tables_cleared).tableAt_link (h.linkStore hn ht hfree hroom),
    indices_take (le_of_lt hn), h.tree.tableAt_congr tables_cleared]

theorem PageTree.grow : PageTree f (m.grow f t (posOf a n)) := by
  have hs := h.linkStore hn ht hfree hroom
  refine ⟨h.aligned, h.bound, h.count, succ_pos _, hroom, ?_, ?_⟩
  · rw [tables_grow]
    refine ((h.tree.congr tables_cleared).link hs).mono ?_
    rintro t' (rfl | ht' : t' = _ ∨ t' < _)
    · exact lt_succ_self _
    · exact lt_succ_of_lt ht'
  · intro p t' i hp hbit
    rw [h.tableAt_grow hn ht hfree hroom] at hp
    rw [tables_grow] at hbit ⊢
    by_cases hslot : t' = t ∧ i = posOf a n
    · obtain ⟨rfl, rfl⟩ := hslot
      rw [set_self] at hbit ⊢
      split at hp
      · cases hp
        exact absurd (h.tree.used ht) (Nat.lt_irrefl _)
      · cases h.tree.unique ht hp
        rw [length_take (le_of_lt hn), h.subtable_new hn hroom]
        exact Or.inl (Option.some_ne_none _)
    · rw [set_ne hslot, tables_clear] at hbit ⊢
      split at hp
      · cases hp
        simp at hbit
      · have hlt : t' < m.nextPagetable := h.tree.used hp
        rw [if_neg (Nat.ne_of_lt hlt)] at hbit ⊢
        exact h.valid hp hbit

theorem PageTree.find_grow (ha : a < 2 ^ 48) {va} (hva : va < 2 ^ 48) :
    find f (m.grow f t (posOf a n)) va = find f m va := by
  have hs := h.linkStore hn ht hfree hroom
  have htree := h.tree.congr tables_cleared
  have hn' := le_of_lt hn
  simp only [find, tables_grow]
  by_cases hblock : va / size n = a / size n
  · obtain ⟨rest, hrest⟩ := (prefix_iff hn' ha hva).mpr hblock
    rw [← hrest, append_assoc, singleton_append]
    have hold : lookup f.subtable (m.tables f) 0 ((indices a).take n ++ posOf a n :: rest) =
        some (n, m.tables f t (posOf a n)) :=
      lookup_eq_some.mpr ⟨_, _, rest, t, rfl, ht, (length_take hn' a).symm, rfl,
        subtable_of_even n hfree⟩
    cases rest with
    | nil =>
      have hlen := congrArg List.length hrest
      simp [indices] at hlen
      omega
    | cons j rest =>
      have hnew : ¬ IsLeaf (n + 1) 0 := not_isLeaf_of_even (by decide)
      rw [htree.lookup_link_self hs, hold, tables_clear, if_pos rfl, length_take hn']
      simp [Option.filter_some, hnew, not_isLeaf_of_even hfree]
  · rw [htree.lookup_link_ne hs fun hp => hblock ((prefix_iff hn' ha hva).mp hp),
      h.tree.lookup_congr tables_cleared]

end

/-! ## The path to a descriptor -/

theorem find_path {va k e} (h : find f m va = some (k, e)) : k ≤ 3 ∧ IsLeaf k e ∧
    ∃ t, tableOf f m va k = some t ∧ m.tables f t (posOf va k) = e := by
  rw [find, Option.filter_eq_some_iff] at h
  obtain ⟨hlook, hleaf⟩ := h
  obtain ⟨p, i, rest, t, hq, hp, rfl, he, -⟩ := lookup_eq_some.mp hlook
  have hlen := congrArg List.length hq
  simp only [indices, length_append, length_cons, length_nil] at hlen
  have hk : p.length ≤ 3 := by omega
  have hp' : (indices va).take p.length = p := by
    rw [hq]
    exact take_left
  have hsplit := indices_split hk va
  rw [hp', hq] at hsplit
  have hi : i = posOf va p.length := (List.cons.inj (append_cancel_left hsplit)).1
  refine ⟨hk, of_decide_eq_true hleaf, t, ?_, ?_⟩
  · rw [tableOf, hp']
    exact hp
  · rw [← hi]
    exact he

/-! ## The empty tree -/

/-- The root table is empty and the only one handed out. -/
structure EmptyRoot (f : Frames) (m : Memory) : Prop where
  aligned : f.pagetables % 4096 = 0
  bound : f.pagetables + 4096 * f.numPagetables ≤ 2 ^ 48
  count : f.numPagetables < 2 ^ 32
  nonempty : 1 ≤ f.numPagetables
  next : m.nextPagetable = 1
  zero : ∀ i : Fin 512, m.tables f 0 i = 0

theorem EmptyRoot.tableAt (h : EmptyRoot f m) {p t}
    (hp : tableAt f.subtable (m.tables f) 0 0 p = some t) : p = [] ∧ t = 0 := by
  cases p with
  | nil => exact ⟨rfl, (Option.some.inj hp).symm⟩
  | cons i p =>
    rw [Radix.tableAt, h.zero i, subtable_of_even 0 (by decide)] at hp
    cases hp

theorem EmptyRoot.pageTree (h : EmptyRoot f m) : PageTree f m := by
  refine ⟨h.aligned, h.bound, h.count, by rw [h.next]; decide, by rw [h.next]; exact h.nonempty,
    ⟨?_, ?_⟩, ?_⟩
  · intro p q t hp hq
    rw [(h.tableAt hp).1, (h.tableAt hq).1]
  · intro p t hp
    rw [(h.tableAt hp).2]
    exact Nat.lt_of_lt_of_eq one_pos h.next.symm
  · intro p t i hp hbit
    rw [(h.tableAt hp).2, h.zero i] at hbit
    exact absurd hbit (by decide)

theorem EmptyRoot.find_eq_none (h : EmptyRoot f m) (va : Nat) : find f m va = none := by
  cases hfind : find f m va with
  | none => rfl
  | some s =>
    obtain ⟨-, hleaf, t, ht, he⟩ := find_path hfind
    rw [(h.tableAt ht).2, h.zero] at he
    rw [← he] at hleaf
    exact absurd hleaf (not_isLeaf_of_even (by decide))

theorem EmptyRoot.tableOf_succ (h : EmptyRoot f m) (va n : Nat) : tableOf f m va (n + 1) = none := by
  cases hp : tableOf f m va (n + 1) with
  | none => rfl
  | some t => exact absurd (h.tableAt hp).1 (cons_ne_nil _ _)

def smallFrames : Frames := ⟨0x10000, 8⟩

def smallMemory : Memory := ⟨fun _ => 0, 1⟩

theorem smallMemory_empty : EmptyRoot smallFrames smallMemory :=
  ⟨rfl, by decide, by decide, by decide, rfl, fun _ => rfl⟩

end Rkboot.Aarch64
