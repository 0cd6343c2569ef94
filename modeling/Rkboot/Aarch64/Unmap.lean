import Rkboot.Aarch64.Mappings

/-! # Unmapping a range

`unmap_one` finds the level at which the rest of a range was mapped from the
alignment of its first and last address, and clears the run of entries of
that level in one table. It agrees with the decomposition of the mapping when
the output addresses are aligned like the addresses at every level. -/
namespace Rkboot.Aarch64
open Lib Radix Nat

variable {f : Frames} {m : Memory} {n t x : Nat}

/-! ## The path to a descriptor -/

/-- The walk goes through a table at every level above the descriptor. -/
theorem tableOf_of_le {va k j} (h : tableOf f m va k = some t) (hj : j < k) (hk : k ≤ 3) :
    ∃ t' t'', tableOf f m va j = some t' ∧ tableOf f m va (j + 1) = some t'' ∧
      f.subtable j (m.tables f t' (posOf va j)) = some t'' := by
  have hsome : ∀ i ≤ k, ∃ t', tableOf f m va i = some t' := by
    intro i hi
    have hsplit : (indices va).take k = (indices va).take i ++ ((indices va).take k).drop i := by
      have hcat := List.take_append_drop i ((indices va).take k)
      rw [List.take_take, min_eq_left hi] at hcat
      exact hcat.symm
    rw [tableOf, hsplit, tableAt_append] at h
    cases hi' : tableAt f.subtable (m.tables f) 0 0 ((indices va).take i) with
    | none => simp [hi'] at h
    | some t' => exact ⟨t', hi'⟩
  obtain ⟨t', ht'⟩ := hsome j (le_of_lt hj)
  obtain ⟨t'', ht''⟩ := hsome (j + 1) hj
  refine ⟨t', t'', ht', ht'', ?_⟩
  have hj3 : j ≤ 3 := by omega
  rw [tableOf, indices_take hj3, tableAt_concat, length_take hj3] at ht''
  rw [tableOf] at ht'
  simpa [ht'] using ht''

/-! ## Clearing a run of entries -/

theorem clearEntries_word {pt template} {m' : Memory} (count i : Nat) :
    ∀ m, clearEntries pt template i count m = .ok m' →
      (∀ a, m.word a = 0 → m'.word a = 0) ∧ ∀ k < count, m'.word (pt + 8 * (i + k)) = 0 := by
  induction count generalizing i with
  | zero =>
    intro m h
    cases h
    exact ⟨fun _ => id, fun k hk => absurd hk (Nat.not_lt_zero k)⟩
  | succ count ih =>
    intro m h
    rw [clearEntries] at h
    split at h
    · cases h
    · obtain ⟨hzero, hrun⟩ := ih (i + 1) _ h
      have hwrite : ∀ a, m.word a = 0 → (m.write (pt + 8 * i) 0).word a = 0 := by
        intro a ha
        by_cases haddr : a = pt + 8 * i
        · simp [Memory.write, haddr]
        · simp [Memory.write, haddr, ha]
      refine ⟨fun a ha => hzero a (hwrite a ha), fun k hk => ?_⟩
      cases k with
      | zero => exact hzero _ (by simp [Memory.write])
      | succ k =>
        have hk' := hrun k (by omega)
        rwa [show i + 1 + k = i + (k + 1) by omega] at hk'

theorem checkCleared_eq {pt} (count i : Nat)
    (h : ∀ k < count, m.word (pt + 8 * (i + k)) = 0) : checkCleared pt m i count = .ok m := by
  induction count generalizing i with
  | zero => rfl
  | succ count ih =>
    have h0 : ¬ (m.word (pt + 8 * i)).testBit 0 := by
      rw [show pt + 8 * i = pt + 8 * (i + 0) from rfl, h 0 (succ_pos _)]
      decide
    rw [checkCleared, if_neg h0]
    refine ih (i + 1) fun k hk => ?_
    rw [show i + 1 + k = i + (k + 1) by omega]
    exact h (k + 1) (by omega)

/-- A range that is cleared in two parts. -/
theorem ite_none_append {α : Type} {lo mid hi va : Nat} (o : Option α) (hlo : lo ≤ mid) (hhi : mid ≤ hi) :
    (if mid ≤ va ∧ va < hi then none else if lo ≤ va ∧ va < mid then none else o) =
      if lo ≤ va ∧ va < hi then none else o := by
  by_cases hin : lo ≤ va ∧ va < hi
  · rw [if_pos hin]
    by_cases hlater : mid ≤ va
    · rw [if_pos (by omega)]
    · rw [if_neg (by omega), if_pos (by omega)]
  · rw [if_neg hin, if_neg (by omega), if_neg (by omega)]

/-- A run of blocks of one table is unmapped, whatever the tables are elsewhere. -/
theorem clearEntries_run (template : Nat) (hn : 1 ≤ n) (hn' : n ≤ 3) (count : Nat) :
    ∀ m x, PageTree f m → tableOf f m x n = some t → x % size n = 0 →
      x / size n % 512 + count ≤ 512 → x + count * size n ≤ 2 ^ 48 →
      (∀ k < count, ∃ e, find f m (x + k * size n) = some (n, e) ∧ e % 4 = template) →
      ∃ m', clearEntries (f.pagetables + 4096 * t) template (x / size n % 512) count m = .ok m' ∧
        PageTree f m' ∧ ∀ va < 2 ^ 48,
          find f m' va = if x ≤ va ∧ va < x + count * size n then none else find f m va := by
  induction count with
  | zero =>
    intro m x h _ _ _ _ _
    refine ⟨m, rfl, h, fun va _ => ?_⟩
    rw [if_neg (by omega)]
  | succ count ih =>
    intro m x h ht hx hpos hlt hfound
    have hsize := size_pos n
    have hmul : (count + 1) * size n = count * size n + size n := succ_mul count (size n)
    obtain ⟨e, he, hmod⟩ := hfound 0 (succ_pos _)
    rw [zero_mul, add_zero] at he
    obtain ⟨-, hleaf, t', ht', hentry⟩ := find_path he
    cases ht.symm.trans ht'
    have hfree : f.subtable n (m.tables f t (posOf x n)) = none := hentry.symm ▸ hleaf.subtable
    have heven : IsLeaf n 0 ∨ ¬ (0 : Nat).testBit 0 := Or.inr (by decide)
    have hword : m.word (f.pagetables + 4096 * t + 8 * (x / size n % 512)) = e := hentry
    have hxlt : x < 2 ^ 48 := by omega
    have hfind := fun va (hva : va < 2 ^ 48) => h.find_write hn' ht hfree heven hxlt hva
    have hempty : ¬ IsLeaf n 0 := not_isLeaf_of_even (by decide)
    have hnone : ((some (n, 0)).filter fun s => decide (IsLeaf s.1 s.2)) = none :=
      Option.filter_some_neg (decide_eq_false hempty)
    have hblock : ∀ va, va / size n = x / size n ↔ x ≤ va ∧ va < x + size n :=
      fun _ => div_size_iff hx
    simp only [hnone, hblock] at hfind
    have hslot : f.slot t (posOf x n) = f.pagetables + 4096 * t + 8 * (x / size n % 512) := rfl
    rw [hslot] at hfind
    have htree := h.write_entry hn' ht hfree heven
    rw [hslot] at htree
    rw [clearEntries, if_neg (by rw [hword, and_3, hmod]; simp)]
    rcases Nat.eq_zero_or_pos count with rfl | hcount
    · refine ⟨_, rfl, htree, fun va hva => ?_⟩
      rw [hfind va hva, zero_add, one_mul]
    · have hdiv : (x + size n) / size n = x / size n + 1 := add_div_right x hsize
      have hmod' : (x + size n) % size n = 0 := by rw [add_mod_right, hx]
      have hpos' : (x + size n) / size n % 512 = x / size n % 512 + 1 := by omega
      have hne : (x + size n) % size (n - 1) ≠ 0 := by
        rw [Ne, mod_size_pred hn hn' hmod']
        omega
      have htable : tableOf f (m.write (f.slot t (posOf x n)) 0) (x + size n) n = some t := by
        have hcoarse := div_size_next (by omega) hn' hx hne
        rw [h.tableOf_write hn' ht hfree heven, tableOf, take_congr (by omega) hcoarse (by omega)]
        exact ht
      have hrest : ∀ k < count, ∃ e, find f (m.write (f.slot t (posOf x n)) 0)
          (x + size n + k * size n) = some (n, e) ∧ e % 4 = template := by
        intro k hk
        obtain ⟨e', he', hmod⟩ := hfound (k + 1) (by omega)
        have haddr : x + (k + 1) * size n = x + size n + k * size n := by
          rw [succ_mul]
          omega
        have hle : k * size n + size n ≤ count * size n := by
          rw [← succ_mul]
          exact Nat.mul_le_mul_right (size n) hk
        refine ⟨e', ?_, hmod⟩
        rw [hslot, hfind _ (by omega), if_neg (by omega), ← haddr]
        exact he'
      obtain ⟨m', hclear, htree', hfind'⟩ := ih _ (x + size n) htree htable hmod'
        (by omega) (by omega) hrest
      rw [hpos'] at hclear
      refine ⟨m', hclear, htree', fun va hva => ?_⟩
      rw [hfind' va hva, hfind va hva, ite_none_append _ (by omega) (by omega), add_assoc,
        add_comm (size n), ← hmul]

/-! ## One call of unmap_one -/

theorem or_mask (a s : Nat) : a ||| mask64 s = a / 2 ^ s * 2 ^ s + (2 ^ s - 1) := by
  apply eq_of_testBit_eq
  intro i
  have hlt : 2 ^ s - 1 < 2 ^ s := sub_lt (Nat.two_pow_pos s) one_pos
  rw [mask64, one_shiftLeft, testBit_or, mul_comm, testBit_two_pow_mul_add _ hlt,
    testBit_two_pow_sub_one, testBit_div_two_pow]
  by_cases hi : i < s
  · simp [hi]
  · simp [hi, Nat.sub_add_cancel (not_lt.mp hi)]

/-- The entry of `pte_lvls` for a level. -/
structure PteLvl.Of (l : PteLvl) (n : Nat) : Prop where
  shift : 2 ^ l.shift = size n
  lastLevel : l.lastLevel = decide (n = 3)
  mappingAllowed : l.mappingAllowed = decide (1 ≤ n)

theorem PteLvl.Of.mask {l : PteLvl} (hl : l.Of n) : mask64 l.shift = size n - 1 := by
  rw [mask64, one_shiftLeft, hl.shift]

theorem PteLvl.Of.and_mask {l : PteLvl} (hl : l.Of n) (a : Nat) :
    a &&& (size n - 1) = a % size n := by
  rw [← hl.mask, and_mask64, hl.shift]

theorem PteLvl.Of.or_mask {l : PteLvl} (hl : l.Of n) (a : Nat) :
    a ||| (size n - 1) = a / size n * size n + (size n - 1) := by
  have heq := Aarch64.or_mask a l.shift
  rwa [hl.shift, hl.mask] at heq

theorem size_pred {n} (hn : 1 ≤ n) (hn' : n ≤ 3) : size (n - 1) = size n * 512 := by
  interval_cases n <;> rfl

/-- The number of the block behind the last one that ends before or at `last`. -/
theorem lastBlock_cases {S last} (qx : Nat) (hS : 0 < S) (hfit : qx * S + S ≤ last + 1)
    (hlast : last < 2 ^ 48) : ∃ Q, qx < Q ∧ Q * S ≤ last + 1 ∧ Q - 1 ≤ last / S ∧
      (last % S = S - 1 ∨ qx < last / S) ∧
      (if last % S = S - 1 then last else (last + 2 ^ 64 - S) % 2 ^ 64 / S * S + (S - 1)) =
        Q * S - 1 := by
  have hdiv := div_add_mod last S
  have hmod := mod_lt last hS
  have hmul : S * (last / S) = last / S * S := mul_comm _ _
  have hlt : ∀ k, k * S + S = (k + 1) * S := fun k => (succ_mul k S).symm
  by_cases hend : last % S = S - 1
  · have hQ := hlt (last / S)
    refine ⟨last / S + 1, ?_, by omega, le_rfl, Or.inl hend, ?_⟩
    · refine Nat.lt_succ_of_le (Nat.le_of_mul_le_mul_right (c := S) ?_ hS)
      omega
    · rw [if_pos hend]
      omega
  · have hqx : qx < last / S := by
      refine Nat.lt_of_mul_lt_mul_right (a := S) ?_
      by_contra hge
      omega
    refine ⟨last / S, hqx, by omega, sub_le _ _, Or.inr hqx, ?_⟩
    obtain ⟨p, hp⟩ : ∃ p, last / S = p + 1 := ⟨last / S - 1, by omega⟩
    have hQ := hlt p
    have hsub : (last + 2 ^ 64 - S) % 2 ^ 64 = last % S + p * S := by
      rw [hp] at hdiv hmul
      omega
    rw [if_neg hend, hsub, add_mul_div_right _ _ hS, div_eq_of_lt hmod, zero_add, hp]
    omega

/-- The run of blocks from `x` on that ends before or at `last` is unmapped. -/
theorem unmapOne_hit {l : PteLvl} {ls last} (hl : l.Of n) (hn : 1 ≤ n)
    (hn' : n ≤ 3) (h : PageTree f m) (ht : tableOf f m x n = some t) (hx : x % size n = 0)
    (hfit : x + size n ≤ last + 1) (htable : last / size (n - 1) = x / size (n - 1))
    (hlast : last < 2 ^ 48) (hblocks : ∀ y, x ≤ y → y % size n = 0 → y + size n ≤ last + 1 →
      ∃ e, find f m y = some (n, e)) :
    ∃ y m', unmapOne x (l :: ls) (f.pagetables + 4096 * t) last m = .ok (y - 1, m') ∧
      x < y ∧ y ≤ last + 1 ∧ y % size n = 0 ∧ PageTree f m' ∧ ∀ va < 2 ^ 48,
        find f m' va = if x ≤ va ∧ va < y then none else find f m va := by
  have hS := size_pos n
  have hxmul : x / size n * size n = x := Nat.div_mul_cancel (dvd_of_mod_eq_zero hx)
  rw [size_pred hn hn', ← Nat.div_div_eq_div_mul, ← Nat.div_div_eq_div_mul] at htable
  obtain ⟨Q, hqx, hQ, hQl, hcond, hlast'⟩ :=
    lastBlock_cases (x / size n) hS (by rw [hxmul]; exact hfit) hlast
  have hQmul : x + (Q - x / size n) * size n = Q * size n := by
    rw [Nat.sub_mul, hxmul]
    have hle := Nat.mul_le_mul_right (size n) (le_of_lt hqx)
    omega
  have hentry : (Q * size n - 1) / size n = Q - 1 := by
    obtain ⟨p, rfl⟩ : ∃ p, Q = p + 1 := ⟨Q - 1, by omega⟩
    have hsplit : (p + 1) * size n - 1 = size n - 1 + p * size n := by
      rw [succ_mul]
      omega
    rw [hsplit, add_mul_div_right _ _ hS, div_eq_of_lt (by omega)]
    omega
  have hcount : (Q - 1) % 512 + 1 - x / size n % 512 = Q - x / size n := by omega
  obtain ⟨m', hclear, htree', hfind'⟩ := clearEntries_run (if l.lastLevel then 3 else 1)
    hn hn' (Q - x / size n) m x h ht hx (by omega) (by omega) (fun k hk => by
      obtain ⟨e, he⟩ := hblocks (x + k * size n) (Nat.le_add_right _ _)
        (by rw [add_mul_mod_self_right, hx]) (by
          have hle := Nat.mul_le_mul_right (size n) (succ_le_of_lt hk)
          rw [succ_mul] at hle
          omega)
      refine ⟨e, he, ?_⟩
      obtain ⟨-, hleaf, -⟩ := find_path he
      rw [hl.lastLevel]
      unfold IsLeaf at hleaf
      by_cases h3 : n = 3
      · simp only [h3, decide_true, if_true]
        omega
      · simp only [h3, decide_false, Bool.false_eq_true, if_false]
        omega)
  have hcheck := checkCleared_eq _ _ (clearEntries_word _ _ m hclear).2
  refine ⟨Q * size n, m', ?_, ?_, hQ, mul_mod_left _ _, htree', ?_⟩
  · have hallowed : l.mappingAllowed = true := by rw [hl.mappingAllowed, decide_eq_true hn]
    have hpow : 2 ^ 9 = 512 := rfl
    simp only [unmapOne, hl.mask, hl.and_mask, hl.or_mask, shiftRight_eq_div_pow, hl.shift,
      one_shiftLeft, and_mask64, hlast', hentry, hpow, hcount, hclear]
    rw [if_pos ⟨hallowed, hx, hcond⟩]
    exact congrArg (· >>= fun m => (pure (Q * size n - 1, m) : Except Fail _)) hcheck
  · rw [← hxmul]
    exact (Nat.mul_lt_mul_right hS).mpr hqx
  · intro va hva
    rw [hfind' va hva, hQmul]

/-- Where the blocks of a level do not fit, the walk goes down and stops at the end of the block. -/
theorem unmapOne_miss {l : PteLvl} {ls last t'} (hl : l.Of n) (hn : n < 3) (h : PageTree f m)
    (hsub : f.subtable n (m.tables f t (posOf x n)) = some t')
    (hcond : ¬ (1 ≤ n ∧ x % size n = 0 ∧ (last % size n = size n - 1 ∨ x / size n < last / size n)))
    :
    unmapOne x (l :: ls) (f.pagetables + 4096 * t) last m = unmapOne x ls (f.pagetables + 4096 * t')
        (if x / size n < last / size n then x / size n * size n + (size n - 1) else last) m := by
  have hpow : 2 ^ 9 = 512 := rfl
  have hword : m.word (f.pagetables + 4096 * t + 8 * (x / size n % 512)) =
      m.tables f t (posOf x n) := rfl
  have h3 := (subtable_eq_some.mp hsub).2.1
  have hnot : ¬ l.lastLevel = true := by
    rw [hl.lastLevel]
    simp only [decide_eq_true_eq]
    omega
  have hallowed : ¬ (l.mappingAllowed = true ∧ x % size n = 0 ∧
      (last % size n = size n - 1 ∨ x / size n < last / size n)) := by
    rw [hl.mappingAllowed, decide_eq_true_eq]
    exact hcond
  simp only [unmapOne, hl.mask, hl.and_mask, hl.or_mask, shiftRight_eq_div_pow, hl.shift,
    and_mask64, hpow, hword, and_3, h3, h.extractAddress_eq hsub]
  rw [if_neg hallowed, if_neg hnot]
  rfl

/-! ## The rest of a range -/

/-- From `x` on, the tables hold a span whose output addresses are aligned as its addresses. -/
structure Remains (f : Frames) (s : Span) (x : Nat) (m : Memory) : Prop where
  tree : PageTree f m
  valid : s.Valid
  delta : ∀ j, 1 ≤ j → extractAddress s.desc % size j = s.start % size j
  low : s.start ≤ x
  high : x < s.stop
  boundary : ∀ j, s.Covers j x → x % size j = 0
  found : ∀ va, x ≤ va → va < s.stop → find f m va = some (s.level va, s.entry (s.level va) va)

/-- The last address of the walk at level `n`: no block of the level or below is cut. -/
structure Clipped (s : Span) (x n last : Nat) : Prop where
  low : x ≤ last
  high : last < s.stop
  table : n = 0 ∨ last / size (n - 1) = x / size (n - 1)
  whole : ∀ i, n ≤ i → i ≤ 3 → x / size i * size i + size i ≤ s.stop →
    x / size i * size i + size i ≤ last + 1

variable {s : Span}

theorem Clipped.down {last} (h : Clipped s x n last) (hn : n < 3) : Clipped s x (n + 1)
      (if x / size n < last / size n then x / size n * size n + (size n - 1) else last) := by
  have hpos := size_pos n
  have hlow := h.low
  have hhigh := h.high
  have hx := lt_div_mul_add (a := x) hpos
  have hblock : ∀ i, n + 1 ≤ i → i ≤ 3 →
      x / size i * size i + size i ≤ x / size n * size n + size n := by
    intro i hi hi'
    unfold size
    interval_cases i <;> interval_cases n <;> omega
  split
  · rename_i hlt
    have hle : (x / size n + 1) * size n ≤ last :=
      (Nat.le_div_iff_mul_le hpos).mp (succ_le_of_lt hlt)
    rw [succ_mul] at hle
    refine ⟨by omega, by omega, Or.inr ?_, fun i hi hi' hstop => ?_⟩
    · rw [Nat.add_sub_cancel, add_comm, add_mul_div_right _ _ hpos,
        div_eq_of_lt (by omega), zero_add]
    · have hi'' := hblock i hi hi'
      omega
  · rename_i hge
    have hle := Nat.div_le_div_right (c := size n) hlow
    exact ⟨hlow, hhigh, Or.inr (by rw [Nat.add_sub_cancel]; omega),
      fun i hi hi' hstop => h.whole i (by omega) hi' hstop⟩

/-- The walk from level `n` on unmaps the next run of blocks. -/
theorem Remains.unmapOne_from (h : Remains f s x m) (j : Nat) :
    ∀ n last t, n + j = s.level x → tableOf f m x n = some t → Clipped s x n last →
    ∃ y m', unmapOne x (pteLvls.drop n) (f.pagetables + 4096 * t) last m = .ok (y - 1, m') ∧
      x < y ∧ y ≤ s.stop ∧ PageTree f m' ∧ (∀ i, s.Covers i y → y % size i = 0) ∧
      ∀ va < 2 ^ 48, find f m' va = if x ≤ va ∧ va < y then none else find f m va := by
  have hlevel := h.valid.level_covers h.low h.high
  obtain ⟨h1, h3⟩ := hlevel.mappable
  have hdrop : ∀ n ≤ 3, ∃ l ls, pteLvls.drop n = l :: ls ∧ pteLvls.drop (n + 1) = ls ∧ l.Of n := by
    intro n hn
    interval_cases n <;> exact ⟨_, _, rfl, rfl, rfl, rfl, rfl⟩
  have hstop := h.valid.stop_le
  induction j with
  | zero =>
    intro n last t hn ht hclip
    obtain rfl : n = s.level x := hn
    obtain ⟨l, ls, hl, -, hof⟩ := hdrop _ h3
    have hx := h.boundary _ hlevel
    have hxmul := Nat.div_mul_cancel (dvd_of_mod_eq_zero hx)
    have hhigh := hclip.high
    have htable : last / size (s.level x - 1) = x / size (s.level x - 1) :=
      hclip.table.resolve_left (by omega)
    have hsame : ∀ va, x ≤ va → va ≤ last → ∀ i < s.level x, va / size i = x / size i := by
      intro va hlo hhi i hi
      refine div_size_coarser (n := s.level x - 1) (by omega) (by omega) ?_
      have hle := Nat.div_le_div_right (c := size (s.level x - 1)) hlo
      have hle' := Nat.div_le_div_right (c := size (s.level x - 1)) hhi
      omega
    have hfit : x + size (s.level x) ≤ last + 1 := by
      have hwhole := hclip.whole _ le_rfl h3 hlevel.high
      rwa [hxmul] at hwhole
    rw [hl]
    obtain ⟨y, m', hrun, hxy, hy, hmod, htree, hfind⟩ := unmapOne_hit hof h1 h3 h.tree ht hx hfit
      htable (by omega) (fun y hlo hmod hhi => by
        have hlow := h.low
        have hpos := size_pos (s.level x)
        have hfound := h.found y hlo (by omega)
        have hymul := Nat.div_mul_cancel (dvd_of_mod_eq_zero hmod)
        have hlev : s.level y = s.level x := by
          refine Span.level_eq ⟨⟨h1, h3⟩, by omega, by omega, h.delta _ h1⟩ fun i hi hcov => ?_
          exact Span.not_covers_of_lt_level hi (hcov.congr (hsame y hlo (by omega) i hi).symm)
        rw [hlev] at hfound
        exact ⟨_, hfound⟩)
    refine ⟨y, m', hrun, hxy, by omega, htree, fun i hcov => ?_, hfind⟩
    by_contra hne
    rcases lt_or_ge i (s.level x) with hi | hi
    · have hprev : y / size i = x / size i := by
        obtain ⟨z, rfl⟩ : ∃ z, y = z + 1 := ⟨y - 1, by omega⟩
        rw [succ_div_of_not_dvd fun hdvd => hne (mod_eq_zero_of_dvd hdvd)]
        exact hsame z (by omega) (by omega) i hi
      exact Span.not_covers_of_lt_level hi (hcov.congr hprev.symm)
    · exact hne (mod_size_coarser hi hcov.mappable.2 hmod)
  | succ j ih =>
    intro n last t hn ht hclip
    have hlt : n < s.level x := by omega
    obtain ⟨l, ls, hl, hl', hof⟩ := hdrop n (by omega)
    obtain ⟨-, -, t₁, ht₁, -⟩ := find_path (h.found x (le_refl x) h.high)
    obtain ⟨t', t'', ht', ht'', hsub⟩ := tableOf_of_le ht₁ hlt h3
    cases ht.symm.trans ht'
    have hcond : ¬ (1 ≤ n ∧ x % size n = 0 ∧
        (last % size n = size n - 1 ∨ x / size n < last / size n)) := by
      rintro ⟨hn1, hmod, hend⟩
      have hxmul := Nat.div_mul_cancel (dvd_of_mod_eq_zero hmod)
      have hlow := hclip.low
      have hhigh := hclip.high
      have hstart := h.low
      have hfit : x + size n ≤ last + 1 := by
        have hdm := div_add_mod last (size n)
        have hle := Nat.div_le_div_right (c := size n) hlow
        have hmulle := Nat.mul_le_mul_right (size n) hle
        have hcomm : size n * (last / size n) = last / size n * size n := mul_comm _ _
        rcases hend with hend | hend
        · omega
        · have hsucc := Nat.mul_le_mul_right (size n) (succ_le_of_lt hend)
          rw [succ_mul] at hsucc
          omega
      exact Span.not_covers_of_lt_level hlt ⟨⟨hn1, by omega⟩, by omega, by omega, h.delta n hn1⟩
    rw [hl, unmapOne_miss hof (by omega) h.tree hsub hcond, ← hl']
    exact ih (n + 1) _ t'' (by omega) ht'' (hclip.down (by omega))

/-! ## The whole range -/

theorem unmapLoop_mono {last fuel r} (k : Nat) :
    ∀ x m, unmapLoop f last fuel x m = some r → unmapLoop f last (fuel + k) x m = some r := by
  induction fuel with
  | zero => intro x m h; cases h
  | succ fuel ih =>
    intro x m h
    rw [succ_add, unmapLoop]
    rw [unmapLoop] at h
    split at h
    · exact h
    · split at h
      · rename_i hlt
        rw [if_pos hlt]
        exact ih _ _ h
      · rename_i hlt
        rw [if_neg hlt]
        exact h

/-- Unmapping the rest of a range ends without a failed assertion and leaves nothing of it. -/
theorem Remains.unmapLoop (h : Remains f s x m) : ∃ fuel m',
    unmapLoop f (s.stop - 1) fuel x m = some (.ok m') ∧ PageTree f m' ∧ ∀ va < 2 ^ 48,
      find f m' va = if x ≤ va ∧ va < s.stop then none else find f m va := by
  induction hd : s.stop - x using Nat.strong_induction_on generalizing x m with
  | _ d ih =>
    have hhigh := h.high
    have hlow := h.low
    have hclip : Clipped s x 0 (s.stop - 1) :=
      ⟨by omega, by omega, Or.inl rfl, fun i _ _ hstop => by omega⟩
    obtain ⟨y, m₁, hone, hxy, hy, htree, hboundary, hfind⟩ :=
      h.unmapOne_from _ 0 _ 0 (zero_add _) rfl hclip
    have hstep : ∀ fuel, Aarch64.unmapLoop f (s.stop - 1) (fuel + 1) x m =
        if y - 1 < s.stop - 1 then Aarch64.unmapLoop f (s.stop - 1) fuel (y - 1 + 1) m₁
        else some (.ok m₁) := by
      intro fuel
      rw [Aarch64.unmapLoop]
      have hone' : unmapOne x pteLvls f.pagetables (s.stop - 1) m = .ok (y - 1, m₁) := hone
      rw [hone']
    by_cases hlt : y < s.stop
    · have hstop := h.valid.stop_le
      have hrest : Remains f s y m₁ := by
        refine ⟨htree, h.valid, h.delta, by omega, hlt, hboundary, fun va hlo hhi => ?_⟩
        rw [hfind va (by omega), if_neg (by omega)]
        exact h.found va (by omega) hhi
      obtain ⟨fuel, m₂, hrun, htree₂, hfind₂⟩ := ih _ (by omega) hrest rfl
      refine ⟨fuel + 1, m₂, ?_, htree₂, fun va hva => ?_⟩
      · rw [hstep, if_pos (by omega), Nat.sub_add_cancel (by omega)]
        exact hrun
      · rw [hfind₂ va hva, hfind va hva]
        exact ite_none_append _ hxy.le hy
    · obtain rfl : y = s.stop := by omega
      refine ⟨1, m₁, ?_, htree, hfind⟩
      rw [hstep, if_neg (lt_irrefl _)]

/-! ## Histories of mapped and unmapped ranges

Ranges are mapped and unmapped one at a time, from an empty root table on.
Every state a history reaches translates the live ranges and nothing else,
and any live range can be unmapped from it. -/
open List

/-- The arguments of a call of `mmu_map_range`. -/
structure Range where
  first : Nat
  last : Nat
  paddr : Nat
  flags : Nat
  deriving DecidableEq, Repr

namespace Range

/-- Page-aligned, with an output range that is aligned to 1 GiB against it and below `2 ^ 48`. -/
structure Valid (r : Range) : Prop where
  first_aligned : r.first % 4096 = 0
  last_aligned : r.last % 4096 = 4095
  ordered : r.first < r.last
  below : r.last < 2 ^ 48
  delta : r.paddr % 2 ^ 30 = r.first % 2 ^ 30
  fits : r.paddr + (r.last - r.first) < 2 ^ 48

def Contains (r : Range) (va : Nat) : Prop := r.first ≤ va ∧ va ≤ r.last

/-- No address is in both. -/
def Disjoint (r r' : Range) : Prop := r.last < r'.first ∨ r'.last < r.first

/-- The attribute bits that the flags of a range select. -/
def flagBits (flags : Nat) : Nat := attributes (rangeDesc 0 flags)

def span (r : Range) : Span := ⟨r.first, r.last + 1, rangeDesc r.paddr r.flags⟩

end Range

/-! ## Descriptors of ranges -/

theorem rangeDesc_eq_or (paddr flags : Nat) :
    rangeDesc paddr flags = paddr ||| rangeDesc 0 flags := by
  simp only [rangeDesc, zero_or, Nat.or_assoc]

theorem rangeDesc_zero_lt (flags : Nat) : rangeDesc 0 flags < 2 ^ 12 := by
  have hattr : flags &&& 7 ≤ 7 := and_le_right
  have hflags : flags &&& 0x3e0 ≤ 0x3e0 := and_le_right
  have hshift : (flags &&& 7) <<< 2 < 2 ^ 12 := by
    omega
  refine or_lt_two_pow (or_lt_two_pow (or_lt_two_pow (by decide) ?_) ?_) (by decide)
  · exact or_lt_two_pow (by decide) hshift
  · omega

theorem rangeDesc_zero_mod (flags : Nat) : rangeDesc 0 flags % 4 = 3 := by
  have hshift : (flags &&& 7) <<< 2 % 2 ^ 2 = 0 := by
    rw [shiftLeft_eq, mul_mod_left]
  have hflags : (flags &&& 0x3e0) % 2 ^ 2 = 0 := by
    rw [and_mod_two_pow, show 0x3e0 % 2 ^ 2 = 0 from rfl, and_zero]
  have hmod : rangeDesc 0 flags % 2 ^ 2 = 3 := by
    simp only [rangeDesc, pgtabPage, or_mod_two_pow, hshift, hflags]
    rfl
  exact hmod

theorem rangeDesc_eq_add {paddr} (flags : Nat) (h : paddr % 4096 = 0) :
    rangeDesc paddr flags = paddr + rangeDesc 0 flags := by
  obtain ⟨k, rfl⟩ := dvd_of_mod_eq_zero h
  rw [rangeDesc_eq_or]
  exact (two_pow_add_eq_or_of_lt (i := 12) (rangeDesc_zero_lt flags) k).symm

theorem size_dvd {j} (h : 1 ≤ j) : size j ∣ 2 ^ 30 := pow_dvd_pow 2 (by omega)

namespace Range
variable {r r' : Range} {va : Nat}

theorem Valid.desc_eq (h : r.Valid) : r.span.desc = r.paddr + rangeDesc 0 r.flags := by
  have hfirst := h.first_aligned
  have hdelta := h.delta
  exact rangeDesc_eq_add r.flags (by omega)

theorem Valid.extractAddress_eq (h : r.Valid) : extractAddress r.span.desc = r.paddr := by
  have hlt := rangeDesc_zero_lt r.flags
  rw [h.desc_eq, Aarch64.extractAddress_eq]
  obtain ⟨hfirst, -, -, -, hdelta, hfits⟩ := h
  omega

theorem Valid.attributes_eq (h : r.Valid) : attributes r.span.desc = flagBits r.flags := by
  have hlt := rangeDesc_zero_lt r.flags
  rw [h.desc_eq, flagBits, Aarch64.attributes_eq, Aarch64.attributes_eq]
  obtain ⟨hfirst, -, -, -, hdelta, hfits⟩ := h
  omega

theorem Valid.span_valid (h : r.Valid) : r.span.Valid := by
  have hlt := rangeDesc_zero_lt r.flags
  have hmod := rangeDesc_zero_mod r.flags
  have hdesc := h.desc_eq
  obtain ⟨hfirst, hlast, hordered, hbelow, hdelta, hfits⟩ := h
  refine ⟨hfirst, ?_, ?_, ?_, ?_, ?_⟩ <;> simp only [span] at hdesc ⊢ <;> omega

theorem Valid.span_fits (h : r.Valid) : r.span.Fits := by
  have hfits := h.fits
  rw [Span.Fits, h.extractAddress_eq]
  simp only [span]
  omega

theorem Valid.span_delta (h : r.Valid) (j : Nat) (hj : 1 ≤ j) :
    extractAddress r.span.desc % size j = r.span.start % size j := by
  have hmod := congrArg (· % size j) h.delta
  simp only [mod_mod_of_dvd _ (size_dvd hj)] at hmod
  rw [h.extractAddress_eq]
  exact hmod

theorem contains_iff : r.Contains va ↔ r.span.start ≤ va ∧ va < r.span.stop := by
  simp only [Contains, span, Nat.lt_succ_iff]

theorem Disjoint.not_contains (h : r.Disjoint r') (hva : r.Contains va) : ¬ r'.Contains va := by
  unfold Disjoint at h
  unfold Contains at hva ⊢
  omega

theorem Disjoint.symm (h : r.Disjoint r') : r'.Disjoint r := Or.symm h

end Range

/-! ## States of a history -/

/-- The tables hold the live ranges and nothing else. -/
structure Live (f : Frames) (m : Memory) (live : List Range) : Prop where
  tree : PageTree f m
  valid : ∀ r ∈ live, r.Valid
  disjoint : live.Pairwise Range.Disjoint
  found : ∀ r ∈ live, ∀ va, r.Contains va →
    find f m va = some (r.span.level va, r.span.entry (r.span.level va) va)
  free : ∀ va < 2 ^ 48, (∀ r ∈ live, ¬ r.Contains va) → find f m va = none

variable {f : Frames} {m m' : Memory} {live : List Range} {r : Range}

theorem EmptyRoot.live_nil (h : EmptyRoot f m) : Live f m [] :=
  ⟨h.pageTree, by simp, .nil, by simp, fun va _ _ => h.find_eq_none va⟩

/-! ## Mapping a range -/

theorem Config.run_mono {c : Config} {fuel res} (k : Nat)
    (h : c.run f fuel = some res) : c.run f (fuel + k) = some res := by
  induction fuel generalizing c with
  | zero => cases h
  | succ fuel ih =>
    rw [succ_add, Config.run]
    rw [Config.run] at h
    cases hstep : c.step f with
    | goto c' =>
      rw [hstep] at h
      exact ih h
    | done map m =>
      rw [hstep] at h
      exact h
    | fail e =>
      rw [hstep] at h
      exact h

theorem mmuMapRange_mono {first last paddr flags fuel res} (k : Nat)
    (h : mmuMapRange f fuel first last paddr flags m = some res) :
    mmuMapRange f (fuel + k) first last paddr flags m = some res := by
  unfold mmuMapRange at h ⊢
  split at h
  · rename_i hle
    rwa [if_pos hle]
  · rename_i hle
    rw [if_neg hle]
    unfold mmuMultimap at h ⊢
    dsimp only at h ⊢
    split at h
    · rename_i halign
      rwa [if_pos halign]
    · rename_i halign
      rw [if_neg halign]
      exact Config.run_mono k h

/-- The state with one more range filled in. -/
theorem Live.cons (h : Live f m live) (hr : r.Valid) (hdis : ∀ x ∈ live, r.Disjoint x)
    (htree : PageTree f m')
    (hfound : ∀ va < 2 ^ 48, find f m' va = r.span.fill r.span.stop (find f m) va) :
    Live f m' (r :: live) := by
  have hvalid : ∀ x ∈ r :: live, x.Valid := by
    intro x hx
    rcases mem_cons.mp hx with rfl | hx
    · exact hr
    · exact h.valid x hx
  refine ⟨htree, hvalid, .cons hdis h.disjoint, ?_, ?_⟩
  · intro x hx va hva
    rw [hfound va (lt_of_le_of_lt hva.2 (hvalid x hx).below), Span.fill]
    rcases mem_cons.mp hx with rfl | hx
    · rw [if_pos (Range.contains_iff.mp hva)]
    · rw [if_neg fun hin => (hdis x hx).symm.not_contains hva (Range.contains_iff.mpr hin)]
      exact h.found x hx va hva
  · intro va hva hout
    rw [hfound va hva, Span.fill,
      if_neg fun hin => hout r mem_cons_self (Range.contains_iff.mpr hin)]
    exact h.free va hva fun x hx => hout x (mem_cons_of_mem r hx)

/-- Mapping a range that is disjoint from the live ones returns or stops with a diagnostic. -/
theorem Live.map (h : Live f m live) (hr : r.Valid) (hdis : ∀ x ∈ live, r.Disjoint x) :
    ∃ fuel res, mmuMapRange f fuel r.first r.last r.paddr r.flags m = some res ∧
      (res = .error .outOfPagetables ∨ res = .error .overlappingMapping ∨
        ∃ m', res = .ok ([], m') ∧ Live f m' (r :: live)) := by
  have hordered := hr.ordered
  have hbelow := hr.below
  let c : Call := ⟨f, m, [(r.first, rangeDesc r.paddr r.flags), (r.last + 1, 0)]⟩
  have hspans : c.spans = [r.span] := rfl
  have hc : c.Valid := by
    refine ⟨⟨by simp [c, spansOf], ?_, ?_⟩, h.tree, ?_⟩
    · intro s hs
      rw [← Call.spans, hspans, mem_singleton] at hs
      rw [hs]
      exact hr.span_valid
    · intro x hx
      cases hx
      simp
    · intro s hs va hlo hhi
      rw [hspans, mem_singleton] at hs
      cases hs
      have hva := Range.contains_iff.mpr ⟨hlo, hhi⟩
      have hlt := hva.2
      exact h.free va (by omega) fun x hx => (hdis x hx).not_contains hva
  have hexit : c.Exits fun res => res = .error .outOfPagetables ∨
      res = .error .overlappingMapping ∨ ∃ m', res = .ok ([], m') ∧ Live f m' (r :: live) := by
    refine ⟨fun _ _ _ _ => Or.inl rfl, fun _ => Or.inr (Or.inl rfl), ?_, ?_⟩
    · intro done s t rest map x n regs m₁ hsplit
      have hlen := congrArg List.length hsplit
      simp only [hspans, length_append, length_cons, length_nil] at hlen
      omega
    · intro m' hkept hfound
      exact Or.inr (Or.inr ⟨m', rfl, h.cons hr hdis hkept.tree hfound⟩)
  obtain ⟨fuel, res, hrun, hgood⟩ := hc.ends hexit
  refine ⟨fuel, res, ?_, hgood⟩
  have hlast : (r.last + 1) % 2 ^ 64 = r.last + 1 := by omega
  rw [mmuMapRange, if_neg (not_le.mpr hordered), hlast]
  exact hrun

/-! ## Unmapping a live range -/

theorem mmuUnmapRange_mono {first last fuel res} (k : Nat)
    (h : mmuUnmapRange f fuel first last m = some res) :
    mmuUnmapRange f (fuel + k) first last m = some res := by
  unfold mmuUnmapRange at h ⊢
  split at h
  · rename_i hle
    rwa [if_pos hle]
  · rename_i hle
    rw [if_neg hle]
    exact unmapLoop_mono k first m h

theorem Live.remains (h : Live f m live) (hr : r ∈ live) : Remains f r.span r.span.start m := by
  have hv := h.valid r hr
  refine ⟨h.tree, hv.span_valid, hv.span_delta, le_rfl, hv.span_valid.nonempty,
    fun j hcov => hcov.start_mod, fun va hlo hhi => ?_⟩
  exact h.found r hr va (Range.contains_iff.mpr ⟨hlo, hhi⟩)

/-- A live range is unmapped without a failed assertion. -/
theorem Live.unmap (h : Live f m live) (hr : r ∈ live) :
    ∃ fuel m', mmuUnmapRange f fuel r.first r.last m = some (.ok m') ∧
      Live f m' (live.erase r) := by
  have hv := h.valid r hr
  obtain ⟨fuel, m', hrun, htree, hfind⟩ := (h.remains hr).unmapLoop
  have hordered := hv.ordered
  have hother : ∀ x ∈ live.erase r, x ∈ live ∧ r.Disjoint x := by
    obtain ⟨l₁, l₂, -, hlive, herase⟩ := exists_erase_eq hr
    have hpair := h.disjoint
    rw [hlive, pairwise_append, pairwise_cons] at hpair
    intro x hx
    refine ⟨mem_of_mem_erase hx, ?_⟩
    rw [herase] at hx
    rcases mem_append.mp hx with hx | hx
    · exact (hpair.2.2 x hx r mem_cons_self).symm
    · exact hpair.2.1.1 x hx
  refine ⟨fuel, m', ?_, htree, ?_, ?_, ?_, ?_⟩
  · rw [mmuUnmapRange, if_neg (not_le.mpr hordered)]
    exact hrun
  · exact fun x hx => h.valid x (hother x hx).1
  · exact h.disjoint.sublist erase_sublist
  · intro x hx va hva
    have hlt := lt_of_le_of_lt hva.2 (h.valid x (hother x hx).1).below
    rw [hfind va hlt,
      if_neg fun hin => (hother x hx).2.symm.not_contains hva (Range.contains_iff.mpr hin)]
    exact h.found x (hother x hx).1 va hva
  · intro va hva hout
    rw [hfind va hva]
    by_cases hin : r.Contains va
    · rw [if_pos (Range.contains_iff.mp hin)]
    · rw [if_neg fun hin' => hin (Range.contains_iff.mpr hin')]
      refine h.free va hva fun x hx hxva => ?_
      by_cases hxr : x = r
      · exact hin (hxr ▸ hxva)
      · exact hout x ((mem_erase_of_ne hxr).mpr hx) hxva

/-! ## Histories -/

/-- The states that calls without a diagnostic lead to, with the ranges live in them. -/
inductive History (f : Frames) : Memory → List Range → Prop
  | empty {m : Memory} (h : EmptyRoot f m) : History f m []
  | map {m m' : Memory} {live : List Range} {r : Range} {fuel : Nat} {map : List Nat}
      (h : History f m live) (hr : r.Valid) (hdis : ∀ x ∈ live, r.Disjoint x)
      (hrun : mmuMapRange f fuel r.first r.last r.paddr r.flags m = some (.ok (map, m'))) :
      History f m' (r :: live)
  | unmap {m m' : Memory} {live : List Range} {r : Range} {fuel : Nat}
      (h : History f m live) (hr : r ∈ live)
      (hrun : mmuUnmapRange f fuel r.first r.last m = some (.ok m')) :
      History f m' (live.erase r)

theorem History.isLive (h : History f m live) : Live f m live := by
  induction h with
  | empty h => exact h.live_nil
  | map _ hr hdis hrun ih =>
    obtain ⟨fuel', res, hrun', hres⟩ := ih.map hr hdis
    have heq := (mmuMapRange_mono fuel' hrun).symm.trans
      (Nat.add_comm _ _ ▸ mmuMapRange_mono _ hrun')
    cases heq
    rcases hres with hres | hres | ⟨m', hres, hlive⟩ <;> cases hres
    exact hlive
  | unmap _ hr hrun ih =>
    obtain ⟨fuel', m₁, hrun', hlive⟩ := ih.unmap hr
    have heq := (mmuUnmapRange_mono fuel' hrun).symm.trans
      (Nat.add_comm _ _ ▸ mmuUnmapRange_mono _ hrun')
    cases heq
    exact hlive

/-- After every history the walk is defined on the live ranges only and gives their output
addresses and flags there, no live range fails to be unmapped, and a call that maps another range
returns or stops with one of two diagnostics. -/
theorem history_faithful (f : Frames) (m : Memory) (live : List Range) (h : History f m live) :
    (∀ r ∈ live, ∀ va, r.Contains va →
      translate f m va = some (r.paddr + (va - r.first), Range.flagBits r.flags)) ∧
    (∀ va < 2 ^ 48, (∀ r ∈ live, ¬ r.Contains va) → translate f m va = none) ∧
    (∀ r ∈ live, ∃ fuel m', mmuUnmapRange f fuel r.first r.last m = some (.ok m')) ∧
    ∀ r : Range, r.Valid → (∀ x ∈ live, r.Disjoint x) →
      ∃ fuel res, mmuMapRange f fuel r.first r.last r.paddr r.flags m = some res ∧
        (res = .error .outOfPagetables ∨ res = .error .overlappingMapping ∨
          ∃ m', res = .ok ([], m')) := by
  have hlive := h.isLive
  refine ⟨?_, ?_, ?_, ?_⟩
  · intro r hr va hva
    have hv := hlive.valid r hr
    obtain ⟨hlo, hhi⟩ := Range.contains_iff.mp hva
    have hcov := hv.span_valid.level_covers hlo hhi
    rw [translate, hlive.found r hr va hva, Option.map_some,
      hv.span_valid.outputAddress_entry hv.span_fits hcov,
      hv.span_valid.attributes_entry hv.span_fits hcov, hv.extractAddress_eq, hv.attributes_eq]
    rfl
  · intro va hva hout
    rw [translate, hlive.free va hva hout]
    rfl
  · intro r hr
    obtain ⟨fuel, m', hrun, -⟩ := hlive.unmap hr
    exact ⟨fuel, m', hrun⟩
  · intro r hr hdis
    obtain ⟨fuel, res, hrun, hres⟩ := hlive.map hr hdis
    refine ⟨fuel, res, hrun, ?_⟩
    rcases hres with hres | hres | ⟨m', hres, -⟩
    · exact Or.inl hres
    · exact Or.inr (Or.inl hres)
    · exact Or.inr (Or.inr ⟨m', hres⟩)

/-- One page at an output address 1 GiB above it. -/
def smallRange : Range := ⟨0x1000, 0x1fff, 0x40001000, 4⟩

def smallMapped : Memory :=
  memoryAfter (mmuMapRange smallFrames 20 0x1000 0x1fff 0x40001000 4 smallMemory)

/-- A block of 2 MiB. -/
def blockRange : Range := ⟨0x200000, 0x3fffff, 0x40200000, 1⟩

/-- A page and a block, of which the page is unmapped again. -/
theorem history_faithful_unmapped : ∃ m m', History smallFrames m [blockRange, smallRange] ∧
    History smallFrames m' [blockRange] ∧
    translate smallFrames m 0x1234 = some (0x40001234, 0x610) ∧
    translate smallFrames m' 0x1234 = none ∧
    translate smallFrames m' 0x234567 = some (0x40234567, 0x604) := by
  have hpage : smallRange.Valid := ⟨rfl, rfl, by decide, by decide, rfl, by decide⟩
  have hblock : blockRange.Valid := ⟨rfl, rfl, by decide, by decide, rfl, by decide⟩
  have hfirst : mmuMapRange smallFrames 20 smallRange.first smallRange.last smallRange.paddr
      smallRange.flags smallMemory = some (.ok ([], smallMapped)) := rfl
  have hsecond : mmuMapRange smallFrames 20 blockRange.first blockRange.last blockRange.paddr
      blockRange.flags smallMapped = some (.ok ([], _)) := rfl
  have hboth := History.map (.map (.empty smallMemory_empty) hpage (by simp) hfirst) hblock
    (fun x hx => mem_singleton.mp hx ▸ .inr (by decide)) hsecond
  obtain ⟨hin, -, hunmap, -⟩ := history_faithful smallFrames _ _ hboth
  obtain ⟨fuel, m', hunmap⟩ := hunmap smallRange (by simp)
  have hone : History smallFrames m' [blockRange] := .unmap hboth (by simp) hunmap
  obtain ⟨hin', hout, -⟩ := history_faithful smallFrames m' _ hone
  refine ⟨_, m', hboth, hone, ?_, hout 0x1234 (by decide) ?_, ?_⟩
  · exact (hin smallRange (by simp) 0x1234 ⟨by decide, by decide⟩).trans (by decide)
  · exact fun r hr hc => absurd (mem_singleton.mp hr ▸ hc).1 (by decide)
  · exact (hin' blockRange (by simp) 0x234567 ⟨by decide, by decide⟩).trans (by decide)

/-- An output address from `2 ^ 48` on runs into the attribute bits of the descriptor. -/
theorem highRange_not_faithful : ∃ m,
    mmuMapRange smallFrames 20 0x1000 0x1fff (2 ^ 48 + 0x1000) 4 smallMemory = some (.ok ([], m)) ∧
    (2 ^ 48 + 0x1000 - 0x1000) % 2 ^ 30 = 0 ∧
    translate smallFrames m 0x1000 = some (0x1000, 2 ^ 48 + 0x610) ∧
    translate smallFrames m 0x1000 ≠ some (2 ^ 48 + 0x1000, Range.flagBits 4) :=
  ⟨memoryAfter (mmuMapRange smallFrames 20 0x1000 0x1fff (2 ^ 48 + 0x1000) 4 smallMemory),
    rfl, rfl, by decide +kernel, by decide +kernel⟩

end Rkboot.Aarch64
