import Rkboot.Lib.Loop
import Mathlib.Data.Int.GCD
import Mathlib.Data.Nat.Prime.Basic
import Rkboot.Compression.ZstdDistribution
import Rkboot.Lib.Shares
import Mathlib.Algebra.Order.BigOperators.Group.Finset

/-! # Where `fse_build_table` writes

The positions of the symbols form a rotation by an odd number, which comes back to 0 only after
it has been everywhere. Behind the table nothing is written. -/
namespace Rkboot.Compression.Zstd
open Lib Function List Nat

/-! ## The rotation -/

/-- The `j`th position of the rotation, before those of the rare symbols are skipped. -/
def rotation (log j : Nat) : Nat := (5 <<< (log - 3) ||| 3) * j % 2 ^ log

theorem rotation_zero (log : Nat) : rotation log 0 = 0 := by rw [rotation, mul_zero, zero_mod]

theorem rotation_succ (log j : Nat) :
    (rotation log j + (5 <<< (log - 3) ||| 3)) &&& (1 <<< log - 1) = rotation log (j + 1) := by
  rw [one_shiftLeft, and_two_pow_sub_one_eq_mod, rotation, rotation, mod_add_mod, Nat.mul_add_one]

theorem step_coprime (log : Nat) : Nat.Coprime (5 <<< (log - 3) ||| 3) (2 ^ log) := by
  have hodd : (5 <<< (log - 3) ||| 3) % 2 = 1 := or_mod_two_eq_one.mpr (.inr rfl)
  exact Nat.Coprime.pow_right log (coprime_two_right.mpr (odd_iff.mpr hodd))

/-- Back at 0, and not at the start, it has been everywhere. -/
theorem rotation_covers {log j p} (hj : rotation log j = 0) (hpos : 0 < j) (hp : p < 2 ^ log) :
    ∃ k < j, rotation log k = p := by
  have hdvd : 2 ^ log ∣ j :=
    (step_coprime log).symm.dvd_of_dvd_mul_left (dvd_of_mod_eq_zero hj)
  obtain ⟨k, hk, he⟩ := exists_mul_mod_eq_of_coprime p (step_coprime log)
    (Nat.two_pow_pos log).ne'
  exact ⟨k, lt_of_lt_of_le hk (le_of_dvd hpos hdvd), he.trans (mod_eq_of_lt hp)⟩

theorem nextPos_lt {log limit fuel pos pos'} (h : nextPos log limit fuel pos = .ok pos') :
    pos' < 2 ^ log := by
  induction fuel generalizing pos with
  | zero => cases h
  | succ fuel ih =>
    rw [nextPos, one_shiftLeft, and_two_pow_sub_one_eq_mod] at h
    split at h
    · exact ih h
    · cases h
      exact mod_lt _ (Nat.two_pow_pos log)

/-! ## What is not written -/

section
variable {log numSym : Nat} {distribution : Nat → Nat} {t t' : Nat → Nat}

/-- The three loops of a build that returns. -/
theorem fseBuildTable_eq_ok (h : fseBuildTable log numSym distribution t = .ok t') :
    (5 ≤ log ∧ log ≤ 20 ∧ numSym ≤ 64) ∧ ∃ t₁ c t₂ counter,
      (List.range numSym).foldlM (placeRare log distribution) (t, 0) = .ok (t₁, c) ∧
      (List.range numSym).foldlM (spreadSym log distribution
        ((1 <<< log - 1 + 2 ^ 32 - c) % 2 ^ 32)) (t₁, 0) = .ok (t₂, 0) ∧
      (List.range (1 <<< log - c)).foldlM (fillEntry log numSym distribution) (t₂, fun _ => 0) =
        .ok (t', counter) := by
  rw [fseBuildTable] at h
  split at h
  · cases h
  rename_i hassert
  obtain ⟨⟨t₁, c⟩, hrare, h⟩ := except_bind_eq_ok h
  obtain ⟨⟨t₂, pos⟩, hspread, h⟩ := except_bind_eq_ok h
  dsimp only at h
  split at h
  · cases h
  rename_i hpos
  obtain ⟨⟨t₃, counter⟩, hfill, hlast⟩ := except_bind_eq_ok h
  cases hlast
  exact ⟨not_not.mp hassert, t₁, c, t₂, counter, hrare, not_not.mp hpos ▸ hspread, hfill⟩

theorem fillEntry_eq_ok {i a a'}
    (h : fillEntry log numSym distribution a i = .ok a') : ∃ v, a'.1 = update a.1 i v := by
  rw [fillEntry] at h
  dsimp only at h
  repeat' split at h
  all_goals cases h
  all_goals exact ⟨_, rfl⟩

/-- Nothing outside the built table is written. -/
theorem fseBuildTable_frame (hrun : fseBuildTable log numSym distribution t = .ok t') (i : Nat)
    (hi : 2 ^ log ≤ i) : t' i = t i := by
  obtain ⟨-, t₁, c, t₂, counter, hrare, hspread, hfill⟩ := fseBuildTable_eq_ok hrun
  have h₁ : t₁ i = t i := by
    refine foldlM_range_inv (fun _ (a : (Nat → Nat) × Nat) => a.1 i = t i) rfl ?_ hrare
    intro sym a a' _ ha hstep
    rw [placeRare] at hstep
    split at hstep
    · cases hstep
      exact ha
    split at hstep
    · cases hstep
    cases hstep
    exact (update_of_ne (by have := Nat.two_pow_pos log; omega) ..).trans ha
  have h₂ : t₂ i = t i := by
    refine (foldlM_range_inv (fun _ (a : (Nat → Nat) × Nat) => a.1 i = t i ∧ a.2 < 2 ^ log)
      ⟨h₁, Nat.two_pow_pos log⟩ ?_ hspread).1
    intro sym a a' _ ha hsym
    refine foldlM_range_inv (fun _ (a : (Nat → Nat) × Nat) => a.1 i = t i ∧ a.2 < 2 ^ log) ha ?_ hsym
    intro k a a' _ ha hstep
    obtain ⟨pos, hnext, hpure⟩ := except_bind_eq_ok hstep
    cases hpure
    exact ⟨(update_of_ne (by omega) ..).trans ha.1, nextPos_lt hnext⟩
  refine foldlM_range_inv (fun _ (a : (Nat → Nat) × (Nat → Nat)) => a.1 i = t i) h₂ ?_ hfill
  intro k a a' hk ha hstep
  obtain ⟨v, hv⟩ := fillEntry_eq_ok hstep
  rw [hv, update_of_ne (by omega), ha]

end

/-! ## What `fse_build_table` builds

The three loops one after the other: the rare symbols take entries from the end of the table, the
others are spread over the rest, and then each symbol's entries are given the shares of the next
state in the order of the table. -/

/-- The symbols before `n` that have less than one entry. -/
def rareBelow (d : Nat → Nat) (n : Nat) : Nat := (List.range n).countP fun s => d s = 0

/-- The other symbols before `n`, each as often as it has entries. -/
def spreadList (d : Nat → Nat) (n : Nat) : List Nat :=
  (List.range n).flatMap fun s => List.replicate (d s - 1) s

section
variable {d : Nat → Nat} {m n : Nat}

theorem rareBelow_succ (d : Nat → Nat) (n : Nat) :
    rareBelow d (n + 1) = rareBelow d n + if d n = 0 then 1 else 0 := by
  rw [rareBelow, range_succ, countP_append, rareBelow, countP_singleton]
  simp

theorem rareBelow_mono (h : m ≤ n) : rareBelow d m ≤ rareBelow d n := by
  induction h with
  | refl => exact le_rfl
  | step _ ih => exact le_trans ih (rareBelow_succ d _ ▸ Nat.le_add_right _ _)

theorem spreadList_succ (d : Nat → Nat) (n : Nat) :
    spreadList d (n + 1) = spreadList d n ++ List.replicate (d n - 1) n := by
  simp [spreadList, range_succ]

theorem spreadList_length_mono (h : m ≤ n) : (spreadList d m).length ≤ (spreadList d n).length := by
  induction h with
  | refl => exact le_rfl
  | step _ ih =>
    rw [succ_eq_add_one, spreadList_succ, length_append]
    exact le_trans ih (Nat.le_add_right _ _)

/-- Every entry that is given out goes to a rare symbol or is spread. -/
theorem given_eq (d : Nat → Nat) (n : Nat) : given d n = rareBelow d n + (spreadList d n).length := by
  induction n with
  | zero => rfl
  | succ n ih =>
    rw [given, Finset.sum_range_succ, rareBelow_succ, spreadList_succ, length_append,
      length_replicate]
    change given d n + fseSlots (d n) = _
    rw [ih, fseSlots]
    split <;> omega

theorem mem_spreadList {s} : s ∈ spreadList d n ↔ s < n ∧ 1 < d s := by
  simp only [spreadList, mem_flatMap, mem_range, mem_replicate]
  constructor
  · rintro ⟨s', hs', hne, rfl⟩
    exact ⟨hs', by omega⟩
  · rintro ⟨hs, hd⟩
    exact ⟨s, hs, by omega, rfl⟩

theorem count_spreadList {s} (hs : s < n) : (spreadList d n).count s = d s - 1 := by
  induction n with
  | zero => exact absurd hs (Nat.not_lt_zero s)
  | succ n ih =>
    rw [spreadList_succ, count_append, count_replicate]
    rcases Nat.lt_succ_iff_lt_or_eq.mp hs with hs | rfl
    · rw [ih hs]
      simp [ne_of_gt hs]
    · have hnone : s ∉ spreadList d s := fun h => lt_irrefl s (mem_spreadList.mp h).1
      rw [count_eq_zero_of_not_mem hnone]
      simp

end

/-- An entry of a table. -/
def fseEntryOf (bits sym base : Nat) : Nat := bits ||| sym <<< 5 ||| base <<< 11

theorem fseEntryOf_eq {bits sym base} (hbits : bits < 32) (hsym : sym < 64) :
    fseBits (fseEntryOf bits sym base) = bits ∧ fseSym (fseEntryOf bits sym base) = sym ∧
      fseBase (fseEntryOf bits sym base) = base := by
  have hlow : bits ||| sym <<< 5 = sym * 32 + bits := by
    rw [Nat.or_comm, ← shiftLeft_add_eq_or_of_lt (show bits < 2 ^ 5 from hbits), shiftLeft_eq]
  have hentry : fseEntryOf bits sym base = base * 2048 + (sym * 32 + bits) := by
    rw [fseEntryOf, hlow, Nat.or_comm,
      ← shiftLeft_add_eq_or_of_lt (show sym * 32 + bits < 2 ^ 11 by omega), shiftLeft_eq]
  rw [hentry, fseBits, fseSym, fseBase, shiftRight_eq_div_pow, shiftRight_eq_div_pow,
    and_two_pow_sub_one_eq_mod _ 5, and_two_pow_sub_one_eq_mod _ 6]
  omega

section
variable {log numSym m : Nat} {d : Nat → Nat}

/-- The entries of the rare symbols before `n`. -/
def RarePlaced (log : Nat) (d : Nat → Nat) (n : Nat) (t : Nat → Nat) : Prop :=
  ∀ s < n, d s = 0 → t (2 ^ log - 1 - rareBelow d s) = fseEntryOf log s 0

theorem placeRare_loop (t : Nat → Nat) (hd : rareBelow d numSym ≤ 2 ^ log) :
    ∃ t₁, (List.range numSym).foldlM (placeRare log d) (t, 0) = .ok (t₁, rareBelow d numSym) ∧
      RarePlaced log d numSym t₁ := by
  have hstep (n : Nat) (a : (Nat → Nat) × Nat) (hn : n < numSym)
      (ha : a.2 = rareBelow d n ∧ RarePlaced log d n a.1) :
      ∃ b, placeRare log d a n = .ok b ∧ b.2 = rareBelow d (n + 1) ∧ RarePlaced log d (n + 1) b.1 := by
    obtain ⟨hc, hplaced⟩ := ha
    have hsucc := rareBelow_succ d n
    have hle := rareBelow_mono (d := d) (show n + 1 ≤ numSym from hn)
    rw [placeRare]
    by_cases hrare : d n = 0
    · rw [if_pos hrare] at hsucc
      rw [if_neg (not_not.mpr hrare), one_shiftLeft, if_neg (by omega), hc]
      refine ⟨_, rfl, hsucc.symm, fun s hs hs0 => ?_⟩
      dsimp only
      rcases Nat.lt_succ_iff_lt_or_eq.mp hs with hs | rfl
      · have hbelow := rareBelow_mono (d := d) (show s + 1 ≤ n from hs)
        rw [rareBelow_succ, if_pos hs0] at hbelow
        rw [update_of_ne (by omega)]
        exact hplaced s hs hs0
      · rw [update_self, fseEntryOf, zero_shiftLeft, or_zero]
    · rw [if_neg hrare] at hsucc
      rw [if_pos hrare]
      refine ⟨_, rfl, hc.trans hsucc.symm, fun s hs hs0 => ?_⟩
      rcases Nat.lt_succ_iff_lt_or_eq.mp hs with hs | rfl
      · exact hplaced s hs hs0
      · exact absurd hs0 hrare
  obtain ⟨⟨t₁, c⟩, hrun, hc, hplaced⟩ := foldlM_range_ok (a := (t, 0))
    (fun n a => a.2 = rareBelow d n ∧ RarePlaced log d n a.1)
    ⟨rfl, fun s hs => absurd hs (Nat.not_lt_zero s)⟩ hstep
  exact ⟨t₁, hc ▸ hrun, hplaced⟩

/-! ## Spreading -/

/-- The entries below `m` in the order of the rotation, from its position `j` on. -/
def freeFrom (log m j : Nat) : List Nat :=
  ((List.range' j (2 ^ log - j)).map (rotation log)).filter (· < m)

theorem freeFrom_cons {j} (hj : j < 2 ^ log) : freeFrom log m j =
    if rotation log j < m then rotation log j :: freeFrom log m (j + 1) else freeFrom log m (j + 1) := by
  rw [freeFrom, show 2 ^ log - j = 2 ^ log - (j + 1) + 1 by omega, List.range'_succ, map_cons,
    filter_cons]
  simp [freeFrom]

theorem freeFrom_end (log m : Nat) : freeFrom log m (2 ^ log) = [] := by
  rw [freeFrom, Nat.sub_self]
  rfl

theorem rotation_end (log : Nat) : rotation log (2 ^ log) = 0 := mul_mod_left _ _

theorem rotation_perm (log : Nat) :
    ((List.range (2 ^ log)).map (rotation log)).Perm (List.range (2 ^ log)) := by
  refine ((subperm_of_subset nodup_range fun p hp => ?_).perm_of_length_le ?_).symm
  · obtain ⟨k, hk, he⟩ :=
      rotation_covers (rotation_end log) (Nat.two_pow_pos log) (mem_range.mp hp)
    exact mem_map.mpr ⟨k, mem_range.mpr hk, he⟩
  · simp

theorem filter_lt_range {n} (h : m ≤ n) : (List.range n).filter (· < m) = List.range m := by
  obtain ⟨k, rfl⟩ := Nat.exists_eq_add_of_le h
  rw [range_add, filter_append, filter_eq_self.mpr, filter_eq_nil_iff.mpr, append_nil]
  · simp
  · simp

/-- Every entry below `m` is come by once. -/
theorem freeFrom_perm (h : m ≤ 2 ^ log) : (freeFrom log m 0).Perm (List.range m) := by
  rw [freeFrom, Nat.sub_zero, ← range_eq_range', ← filter_lt_range h]
  exact (rotation_perm log).filter _

/-- The next free entry, or 0 behind the last one. -/
theorem nextPos_free (hm : 0 < m) {fuel j} (hj : j < 2 ^ log) (hfuel : 2 ^ log - j ≤ fuel) :
    ∃ k ≤ 2 ^ log, nextPos log (m - 1) fuel (rotation log j) = .ok (rotation log k) ∧
      freeFrom log m k = freeFrom log m (j + 1) ∧ rotation log k < m := by
  induction fuel generalizing j with
  | zero => omega
  | succ fuel ih =>
    rw [nextPos, rotation_succ]
    by_cases hlimit : m - 1 < rotation log (j + 1)
    · have hnext : j + 1 ≠ 2 ^ log := by
        intro hend
        rw [hend, rotation_end] at hlimit
        exact Nat.not_lt_zero _ hlimit
      obtain ⟨k, hk, hrun, hfree, hlt⟩ := ih (j := j + 1) (by omega) (by omega)
      refine ⟨k, hk, (if_pos hlimit).trans hrun, hfree.trans ?_, hlt⟩
      rw [freeFrom_cons (j := j + 1) (by omega), if_neg (by omega)]
    · exact ⟨j + 1, hj, if_neg hlimit, rfl, by omega⟩

/-- Where the spreading stands when the symbols of `placed` have got their entries. -/
structure Spreading (log m : Nat) (t₁ : Nat → Nat) (placed : List Nat) (a : (Nat → Nat) × Nat) :
    Prop where
  next : ∃ j ≤ 2 ^ log, a.2 = rotation log j ∧
    (freeFrom log m 0).drop placed.length = freeFrom log m j ∧
    (rotation log j < m ∨ rotation log j = 0)
  done : ((freeFrom log m 0).take placed.length).map a.1 = placed
  behind : ∀ i, m ≤ i → a.1 i = t₁ i

theorem Spreading.step {t₁} {placed : List Nat} {a}
    (h : Spreading log m t₁ placed a) (hm : m ≤ 2 ^ log) (hlt : placed.length < m) (sym : Nat) :
    ∃ pos, nextPos log (m - 1) (1 <<< log) a.2 = .ok pos ∧
      Spreading log m t₁ (placed ++ [sym]) (update a.1 a.2 sym, pos) := by
  obtain ⟨j, hj, hpos, hdrop, hfree⟩ := h.next
  have hjm : rotation log j < m := hfree.elim id fun h0 => by omega
  have hlength : (freeFrom log m 0).length = m := by
    rw [(freeFrom_perm hm).length_eq, length_range]
  have hjlt : j < 2 ^ log := by
    refine lt_of_le_of_ne hj fun hend => ?_
    rw [hend, freeFrom_end, drop_eq_nil_iff] at hdrop
    omega
  rw [freeFrom_cons hjlt, if_pos hjm] at hdrop
  have hget : (freeFrom log m 0)[placed.length]? = some (rotation log j) := by
    have h0 := congrArg (·[0]?) hdrop
    simpa using h0
  obtain ⟨k, hk, hrun, hnext, hkm⟩ := nextPos_free (zero_lt_of_lt hlt) hjlt
    (show 2 ^ log - j ≤ 1 <<< log by rw [one_shiftLeft]; omega)
  refine ⟨rotation log k, hpos ▸ hrun, ⟨k, hk, rfl, ?_, .inl hkm⟩, ?_, fun i hi => ?_⟩
  · rw [length_append, length_singleton, ← drop_drop, hdrop, hnext]
    rfl
  · -- what was written before is elsewhere
    have hnodup : (freeFrom log m 0).Nodup := (freeFrom_perm hm).nodup_iff.mpr nodup_range
    obtain ⟨hidx, hval⟩ := List.getElem?_eq_some_iff.mp hget
    have hnot : rotation log j ∉ (freeFrom log m 0).take placed.length := by
      intro hmem
      obtain ⟨i, hi, he⟩ := mem_take_iff_getElem.mp hmem
      have := hnodup.getElem_inj_iff.mp (he.trans hval.symm)
      omega
    rw [length_append, length_singleton, take_add_one, hget, map_append, hpos]
    congr 1
    · refine Eq.trans (map_congr_left fun x hx => ?_) h.done
      exact update_of_ne (fun he : x = rotation log j => hnot (he ▸ hx)) _ _
    · simp
  · dsimp only
    rw [update_of_ne (by omega)]
    exact h.behind i hi

theorem spread_loop (t₁ : Nat → Nat) (hm : m ≤ 2 ^ log) (hlength : (spreadList d numSym).length = m)
    {limit} (hlimit : 0 < m → limit = m - 1) :
    ∃ t₂, (List.range numSym).foldlM (spreadSym log d limit) (t₁, 0) = .ok (t₂, 0) ∧
      (freeFrom log m 0).map t₂ = spreadList d numSym ∧ ∀ i, m ≤ i → t₂ i = t₁ i := by
  have hfree : (freeFrom log m 0).length = m := by
    rw [(freeFrom_perm hm).length_eq, length_range]
  have hstep (n : Nat) (a : (Nat → Nat) × Nat) (hn : n < numSym)
      (ha : Spreading log m t₁ (spreadList d n) a) : ∃ b, spreadSym log d limit a n = .ok b ∧
        Spreading log m t₁ (spreadList d (n + 1)) b := by
    have hle := spreadList_length_mono (d := d) (show n + 1 ≤ numSym from hn)
    rw [spreadList_succ, length_append, length_replicate, hlength] at hle
    rw [spreadList_succ]
    refine foldlM_range_ok (fun i a => Spreading log m t₁ (spreadList d n ++ List.replicate i n) a)
      (by simpa using ha) fun i a hi ha => ?_
    have hlt : (spreadList d n ++ List.replicate i n).length < m := by
      rw [length_append, length_replicate]
      omega
    obtain ⟨pos, hnext, hspread⟩ := ha.step hm hlt n
    refine ⟨(update a.1 a.2 n, pos), ?_, ?_⟩
    · dsimp only
      rw [hlimit (by omega), hnext]
      rfl
    · rwa [replicate_succ', ← append_assoc]
  have hstart : Spreading log m t₁ (spreadList d 0) (t₁, 0) := by
    refine ⟨⟨0, Nat.zero_le _, (rotation_zero log).symm, rfl, .inr (rotation_zero log)⟩, rfl, ?_⟩
    exact fun i _ => rfl
  obtain ⟨⟨t₂, pos⟩, hrun, ⟨j, hj, hpos, hdrop, hcases⟩, hdone, hbehind⟩ :=
    foldlM_range_ok (fun n a => Spreading log m t₁ (spreadList d n) a) hstart hstep
  rw [hlength, drop_eq_nil_of_le (le_of_eq hfree)] at hdrop
  rw [hlength, take_of_length_le (le_of_eq hfree)] at hdone
  -- with nothing left the rotation has come round
  have hzero : pos = 0 := by
    rw [show pos = rotation log j from hpos]
    refine hcases.elim (fun hlt => ?_) id
    rcases lt_or_eq_of_le hj with hlt' | rfl
    · rw [freeFrom_cons hlt', if_pos hlt] at hdrop
      cases hdrop
    · exact rotation_end log
  exact ⟨t₂, hzero ▸ hrun, hdone, hbehind⟩

/-! ## Filling -/

theorem clog_eq_log2 {p} (hp : 0 < p) : Nat.clog 2 p =
    if p = 2 ^ Nat.log2 p then Nat.log2 p else Nat.log2 p + 1 := by
  have hlow : 2 ^ Nat.log2 p ≤ p := log2_self_le hp.ne'
  have hhigh : p < 2 ^ (Nat.log2 p + 1) := lt_log2_self
  split
  · rename_i heq
    conv_lhs => rw [heq]
    exact clog_pow 2 _ one_lt_two
  · refine le_antisymm (clog_le_of_le_pow (le_of_lt hhigh)) ?_
    exact (lt_clog_iff_pow_lt one_lt_two).mpr (by omega)

/-- The two branches of the code are the owners of two shares and of one. -/
theorem fill_share {p seen} (hp : 0 < p) (hlog : p ≤ 2 ^ log) (hseen : seen < p) :
    (if seen < truncCutoff p (Nat.log2 p) then log - Nat.log2 p else log - Nat.log2 p - 1) =
      shareBits log p seen ∧
    (if seen < truncCutoff p (Nat.log2 p) then seen + 1 <<< Nat.log2 p - truncCutoff p (Nat.log2 p)
      else seen - truncCutoff p (Nat.log2 p)) <<<
        (if seen < truncCutoff p (Nat.log2 p) then log - Nat.log2 p else log - Nat.log2 p - 1) =
      shareBase log p seen := by
  have hlow : 2 ^ Nat.log2 p ≤ p := log2_self_le hp.ne'
  have hsum := truncShort_add p
  have hwide := shareWide_add p
  have hclog := clog_eq_log2 hp
  have hle : Nat.clog 2 p ≤ log := clog_le_of_le_pow hlog
  rw [truncCutoff_eq, one_shiftLeft, shiftLeft_eq, shareBits, shareBase, shareUnit]
  generalize truncShort p = short at *
  by_cases hpow : p = 2 ^ Nat.log2 p
  · rw [if_pos hpow] at hclog
    rw [hclog] at hwide hle ⊢
    have hshort : seen < short := by omega
    have hnarrow : ¬seen < shareWide p := by omega
    rw [if_pos hshort, if_pos hshort, if_neg hnarrow, if_neg hnarrow]
    refine ⟨rfl, ?_⟩
    congr 1
    omega
  · rw [if_neg hpow] at hclog
    rw [hclog, Nat.pow_succ'] at hwide
    rw [hclog] at hle ⊢
    obtain rfl : short = shareWide p := by omega
    by_cases hshort : seen < shareWide p
    · rw [if_pos hshort, if_pos hshort, if_pos hshort, if_pos hshort]
      have hexp : log - Nat.log2 p = log - (Nat.log2 p + 1) + 1 := by omega
      refine ⟨hexp, ?_⟩
      rw [hexp, Nat.pow_succ', ← mul_assoc]
      congr 1
      omega
    · rw [if_neg hshort, if_neg hshort, if_neg hshort, if_neg hshort]
      exact ⟨by omega, by rw [Nat.sub_sub]⟩

/-- The entry that a symbol gets when it was seen `k` times before. -/
def shareEntry (log : Nat) (d : Nat → Nat) (sym k : Nat) : Nat :=
  fseEntryOf (shareBits log (fseSlots (d sym)) k) sym (shareBase log (fseSlots (d sym)) k)

theorem fillEntry_eq {i a} (hsym : a.1 i < numSym)
    (hd : 1 < d (a.1 i)) (hlog : d (a.1 i) - 1 ≤ 2 ^ log) (hseen : a.2 (a.1 i) < d (a.1 i) - 1) :
    fillEntry log numSym d a i =
      if shareBase log (fseSlots (d (a.1 i))) (a.2 (a.1 i)) < 2 ^ log - 1 then
        .ok (update a.1 i (shareEntry log d (a.1 i) (a.2 (a.1 i))),
          update a.2 (a.1 i) (a.2 (a.1 i) + 1)) else .error .assertion := by
  have hslots : fseSlots (d (a.1 i)) = d (a.1 i) - 1 := if_neg (by omega)
  obtain ⟨hbits, hbase⟩ := fill_share (by omega) hlog hseen
  rw [fillEntry]
  dsimp only
  unfold truncLength
  rw [if_neg (not_not.mpr ⟨hsym, hd⟩), hbase, hbits, one_shiftLeft, ite_not, shareEntry, hslots]
  rfl

/-- Where the filling stands behind the first `n` entries. -/
structure Filled (log : Nat) (d t₂ : Nat → Nat) (n : Nat) (a : (Nat → Nat) × (Nat → Nat)) : Prop where
  seen : ∀ s, a.2 s = occurs t₂ s n
  done : ∀ i < n, a.1 i = shareEntry log d (t₂ i) (rank t₂ i)
  raw : ∀ i, n ≤ i → a.1 i = t₂ i

section
variable {t₂ : Nat → Nat} (hsym : ∀ i < m, t₂ i < numSym ∧ 1 < d (t₂ i))
  (hlog : ∀ s < numSym, d s - 1 ≤ 2 ^ log) (hcount : ∀ s < numSym, occurs t₂ s m = d s - 1)
include hsym hlog hcount

theorem Filled.fillEntry_eq {n a} (h : Filled log d t₂ n a)
    (hn : n < m) : fillEntry log numSym d a n =
      if shareBase log (fseSlots (d (t₂ n))) (rank t₂ n) < 2 ^ log - 1 then
        .ok (update a.1 n (shareEntry log d (t₂ n) (rank t₂ n)), update a.2 (t₂ n) (rank t₂ n + 1))
      else .error .assertion := by
  obtain ⟨hlt, hd⟩ := hsym n hn
  have hraw := h.raw n (le_refl n)
  have hrank : rank t₂ n < d (t₂ n) - 1 := hcount _ hlt ▸ rank_lt hn rfl
  have hseen : a.2 (t₂ n) = rank t₂ n := h.seen _
  have heq : fillEntry log numSym d a n = _ := Zstd.fillEntry_eq (hraw ▸ hlt) (hraw ▸ hd)
    (hraw ▸ hlog _ hlt) (by rw [hraw, hseen]; exact hrank)
  rwa [hraw, hseen] at heq

/-- Filling goes on as long as no entry begins at the last state. -/
theorem fill_loop {n} (hn : n ≤ m)
    (hbase : ∀ i < n, shareBase log (fseSlots (d (t₂ i))) (rank t₂ i) < 2 ^ log - 1) :
    ∃ a, (List.range n).foldlM (fillEntry log numSym d) (t₂, fun _ => 0) = .ok a ∧
      Filled log d t₂ n a := by
  refine foldlM_range_ok (Filled log d t₂)
    ⟨fun s => rfl, fun i hi => absurd hi (Nat.not_lt_zero i), fun i _ => rfl⟩ fun i a hi h => ?_
  refine ⟨_, (h.fillEntry_eq hsym hlog hcount (lt_of_lt_of_le hi hn)).trans
    (if_pos (hbase i hi)), fun s => ?_, fun j hj => ?_, fun j hj => ?_⟩
  · dsimp only
    rw [occurs_succ]
    by_cases hs : s = t₂ i
    · rw [hs, update_self, if_pos rfl, rank]
    · rw [update_of_ne hs, if_neg (Ne.symm hs)]
      exact h.seen s
  · rcases Nat.lt_succ_iff_lt_or_eq.mp hj with hj | rfl
    · exact (update_of_ne (Nat.ne_of_lt hj) _ _).trans (h.done j hj)
    · exact update_self ..
  · exact (update_of_ne (by omega) _ _).trans (h.raw j (by omega))

end

end

/-! ## The table -/

/-- A table for a distribution: which symbol each entry belongs to, and where its states go. -/
structure DecodingTable (log numSym : Nat) (d t : Nat → Nat) : Prop where
  /-- Every entry belongs to a symbol. -/
  sym : ∀ i < 2 ^ log, fseSym (t i) < numSym
  /-- A symbol has as many entries as it is given. -/
  count : ∀ s < numSym, occurs (fun i => fseSym (t i)) s (2 ^ log) = fseSlots (d s)
  /-- Those with less than one have one each, from the end of the table on. -/
  rare : ∀ s < numSym, d s = 0 → fseSym (t (2 ^ log - 1 - rareBelow d s)) = s
  /-- The others follow each other in the rotation over the rest. -/
  spread : (freeFrom log (2 ^ log - rareBelow d numSym) 0).map (fun i => fseSym (t i)) =
    spreadList d numSym
  /-- The entries of a symbol have its shares of the states, in the order of the table. -/
  entry : ∀ i < 2 ^ log, t i = shareEntry log d (fseSym (t i)) (rank (fun i => fseSym (t i)) i)
  /-- From each symbol, every state is reached through one of its entries. -/
  partition : ∀ s < numSym, d s ≠ 1 → ∀ state < 2 ^ log, ∃! i, i < 2 ^ log ∧ fseSym (t i) = s ∧
    fseBase (t i) ≤ state ∧ state < fseBase (t i) + 2 ^ fseBits (t i)

section
variable {log numSym : Nat} {d t : Nat → Nat}

/-- The rare symbols are numbered without gaps. -/
theorem exists_rareBelow {n r} (hr : r < rareBelow d n) : ∃ s < n, d s = 0 ∧ rareBelow d s = r := by
  induction n with
  | zero => exact absurd hr (Nat.not_lt_zero r)
  | succ n ih =>
    rw [rareBelow_succ] at hr
    by_cases hlt : r < rareBelow d n
    · obtain ⟨s, hs, h⟩ := ih hlt
      exact ⟨s, lt_succ_of_lt hs, h⟩
    · split at hr
      · rename_i hd
        exact ⟨n, lt_succ_self n, hd, by omega⟩
      · exact absurd hr hlt

theorem rareBelow_lt {s} (hs : s < numSym) (hd : d s = 0) : rareBelow d s < rareBelow d numSym := by
  have hmono := rareBelow_mono (d := d) (show s + 1 ≤ numSym from hs)
  rw [rareBelow_succ, if_pos hd] at hmono
  exact hmono

/-- A distribution that gives out the whole table, to more than one symbol. -/
structure Distribution (log numSym : Nat) (d : Nat → Nat) : Prop where
  given : given d numSym = 2 ^ log
  two : ∃ a b, a < b ∧ b < numSym ∧ d a ≠ 1 ∧ d b ≠ 1

theorem fseSlots_le_given {s} (hs : s < numSym) : fseSlots (d s) ≤ given d numSym :=
  Finset.single_le_sum (f := fun i => fseSlots (d i)) (fun _ _ => Nat.zero_le _)
    (Finset.mem_range.mpr hs)

theorem fseSlots_pos {w} (hw : w ≠ 1) : 0 < fseSlots w := by
  unfold fseSlots
  split <;> omega

/-- No symbol has the whole table. -/
theorem Distribution.slots_lt (h : Distribution log numSym d) {s} (hs : s < numSym) :
    fseSlots (d s) < 2 ^ log := by
  obtain ⟨a, b, hab, hb, hda, hdb⟩ := h.two
  have hpair (x y : Nat) (hx : x < numSym) (hy : y < numSym) (hne : x ≠ y) :
      fseSlots (d x) + fseSlots (d y) ≤ 2 ^ log := by
    rw [← h.given, ← Finset.sum_pair (f := fun i => fseSlots (d i)) hne]
    refine Finset.sum_le_sum_of_subset fun i hi => ?_
    rw [Finset.mem_insert, Finset.mem_singleton] at hi
    rcases hi with rfl | rfl
    · exact Finset.mem_range.mpr hx
    · exact Finset.mem_range.mpr hy
  by_cases hsa : s = a
  · have hle := hpair s b hs hb (by omega)
    have hpos := fseSlots_pos hdb
    omega
  · have hle := hpair s a hs (by omega) hsa
    have hpos := fseSlots_pos hda
    omega

/-- What the loops leave: the symbols as they were spread, and the entries made from them. -/
structure Built (log numSym : Nat) (d raw t : Nat → Nat) : Prop where
  spread : (freeFrom log (2 ^ log - rareBelow d numSym) 0).map raw = spreadList d numSym
  filled : ∀ i < 2 ^ log - rareBelow d numSym, t i = shareEntry log d (raw i) (rank raw i)
  rare : RarePlaced log d numSym t

theorem occurs_of_spread {raw m s} (hm : m ≤ 2 ^ log)
    (hspread : (freeFrom log m 0).map raw = spreadList d numSym) (hs : s < numSym) :
    occurs raw s m = d s - 1 := by
  rw [occurs, ← ((freeFrom_perm hm).map raw).count_eq, hspread, count_spreadList hs]

theorem fseSlots_of_one_lt {w} (hw : 1 < w) : fseSlots w = w - 1 := if_neg (by omega)

theorem pred_le_given {s} (hs : s < numSym) (hgiven : given d numSym = 2 ^ log) :
    d s - 1 ≤ 2 ^ log := by
  have hle := fseSlots_le_given (d := d) hs
  unfold fseSlots at hle
  split at hle <;> omega

/-- The loops in front of the last one, and what they leave to it. -/
theorem fseBuildTable_spread (hlog : 5 ≤ log ∧ log ≤ 20) (hsym : numSym ≤ 64)
    (hgiven : given d numSym = 2 ^ log) (t : Nat → Nat) :
    ∃ raw, (freeFrom log (2 ^ log - rareBelow d numSym) 0).map raw = spreadList d numSym ∧
      RarePlaced log d numSym raw ∧ fseBuildTable log numSym d t =
        (List.range (2 ^ log - rareBelow d numSym)).foldlM (fillEntry log numSym d)
          (raw, fun _ => 0) >>= fun a => pure a.1 := by
  rw [given_eq] at hgiven
  obtain ⟨t₁, hrare, hplaced⟩ := placeRare_loop t (show rareBelow d numSym ≤ 2 ^ log by omega)
  have hm : 2 ^ log - rareBelow d numSym ≤ 2 ^ log := sub_le _ _
  have hpow : 2 ^ log ≤ 2 ^ 20 := Nat.pow_le_pow_right (by decide) hlog.2
  have hlimit : 0 < 2 ^ log - rareBelow d numSym →
      (1 <<< log - 1 + 2 ^ 32 - rareBelow d numSym) % 2 ^ 32 = 2 ^ log - rareBelow d numSym - 1 := by
    omega
  obtain ⟨raw, hspread, hmap, hbehind⟩ := spread_loop t₁ hm
    (show (spreadList d numSym).length = 2 ^ log - rareBelow d numSym by omega) hlimit
  refine ⟨raw, hmap, fun s hs hd => ?_, ?_⟩
  · have hbelow := rareBelow_lt hs hd
    rw [hbehind _ (by omega)]
    exact hplaced s hs hd
  · rw [fseBuildTable, if_neg (not_not.mpr ⟨hlog.1, hlog.2, hsym⟩)]
    dsimp only [bind, Except.bind, pure, Except.pure]
    rw [hrare]
    dsimp only
    rw [hspread]
    dsimp only
    rw [if_neg (not_not.mpr rfl), one_shiftLeft]

theorem mem_of_spread {raw : Nat → Nat} {m i} (hm : m ≤ 2 ^ log)
    (hspread : (freeFrom log m 0).map raw = spreadList d numSym) (hi : i < m) :
    raw i < numSym ∧ 1 < d (raw i) := by
  refine mem_spreadList.mp (hspread ▸ mem_map_of_mem ?_)
  exact (freeFrom_perm hm).mem_iff.mpr (mem_range.mpr hi)

theorem Built.mem {raw : Nat → Nat} (h : Built log numSym d raw t) {i}
    (hi : i < 2 ^ log - rareBelow d numSym) : raw i < numSym ∧ 1 < d (raw i) :=
  mem_of_spread (sub_le _ _) h.spread hi

theorem fseBuildTable_built (hlog : 5 ≤ log ∧ log ≤ 20) (hsym : numSym ≤ 64)
    (hd : Distribution log numSym d) (t : Nat → Nat) :
    ∃ raw t', fseBuildTable log numSym d t = .ok t' ∧ Built log numSym d raw t' := by
  obtain ⟨raw, hspread, hplaced, hrun⟩ := fseBuildTable_spread hlog hsym hd.given t
  have hm : 2 ^ log - rareBelow d numSym ≤ 2 ^ log := sub_le _ _
  have hbase (i : Nat) (hi : i < 2 ^ log - rareBelow d numSym) :
      shareBase log (fseSlots (d (raw i))) (rank raw i) < 2 ^ log - 1 := by
    obtain ⟨hlt, hone⟩ := mem_of_spread hm hspread hi
    refine shareBase_lt_pred ?_ (hd.slots_lt hlt)
    rw [fseSlots_of_one_lt hone, ← occurs_of_spread hm hspread hlt]
    exact rank_lt hi rfl
  obtain ⟨a, hfill, hfilled⟩ := fill_loop (fun i => mem_of_spread hm hspread)
    (fun s hs => pred_le_given hs hd.given) (fun s => occurs_of_spread hm hspread) le_rfl hbase
  refine ⟨raw, a.1, hrun.trans (by rw [hfill]; rfl), hspread, hfilled.done, fun s hs hs0 => ?_⟩
  have hbelow := rareBelow_lt hs hs0
  rw [hfilled.raw _ (by omega)]
  exact hplaced s hs hs0

/-- A distribution that has one symbol only. -/
theorem exists_certain (hlog : 5 ≤ log) (hgiven : given d numSym = 2 ^ log)
    (hone : ¬∃ a b, a < b ∧ b < numSym ∧ d a ≠ 1 ∧ d b ≠ 1) :
    ∃ s < numSym, d s = 2 ^ log + 1 ∧ ∀ s' < numSym, s' ≠ s → d s' = 1 := by
  have hpos := Nat.two_pow_pos log
  obtain ⟨s, hs, hne⟩ : ∃ s < numSym, d s ≠ 1 := by
    by_contra hnone
    push Not at hnone
    have hzero : given d numSym = 0 :=
      Finset.sum_eq_zero fun i hi => by rw [hnone i (Finset.mem_range.mp hi)]; rfl
    omega
  have hother (s' : Nat) (hs' : s' < numSym) (hss : s' ≠ s) : d s' = 1 := by
    by_contra hne'
    rcases Nat.lt_or_gt_of_ne hss with hlt | hgt
    · exact hone ⟨s', s, hlt, hs, hne', hne⟩
    · exact hone ⟨s, s', hgt, hs', hne, hne'⟩
  have hslots : given d numSym = fseSlots (d s) := by
    refine Finset.sum_eq_single_of_mem s (Finset.mem_range.mpr hs) fun i hi his => ?_
    rw [hother i (Finset.mem_range.mp hi) his]
    rfl
  refine ⟨s, hs, ?_, hother⟩
  have hpow : 2 ^ 5 ≤ 2 ^ log := Nat.pow_le_pow_right (by decide) hlog
  unfold fseSlots at hslots
  split at hslots <;> omega

/-- The last entry of a symbol that is certain would begin at the last state. -/
theorem shareBase_certain (log : Nat) : shareBase log (2 ^ log) (2 ^ log - 1) = 2 ^ log - 1 := by
  have hclog : Nat.clog 2 (2 ^ log) = log := clog_pow 2 log one_lt_two
  simp [shareBase, shareWide, shareUnit, hclog]

theorem fseBuildTable_certain (hlog : 5 ≤ log ∧ log ≤ 20) (hsym : numSym ≤ 64)
    (hgiven : given d numSym = 2 ^ log)
    (hone : ¬∃ a b, a < b ∧ b < numSym ∧ d a ≠ 1 ∧ d b ≠ 1) (t : Nat → Nat) :
    fseBuildTable log numSym d t = .error .assertion := by
  obtain ⟨s, hs, hds, hother⟩ := exists_certain hlog.1 hgiven hone
  obtain ⟨raw, hspread, -, hrun⟩ := fseBuildTable_spread hlog hsym hgiven t
  have hpos := Nat.two_pow_pos log
  have hrare : rareBelow d numSym = 0 := by
    refine countP_eq_zero.mpr fun s' hs' => ?_
    by_cases hss : s' = s
    · simp [hss, hds]
    · simp [hother s' (mem_range.mp hs') hss]
  rw [hrare, Nat.sub_zero] at hspread hrun
  have hmem (i : Nat) (hi : i < 2 ^ log) := mem_of_spread le_rfl hspread hi
  have hraw (i : Nat) (hi : i < 2 ^ log) : raw i = s := by
    by_contra hne
    obtain ⟨hlt, hgt⟩ := hmem i hi
    rw [hother _ hlt hne] at hgt
    exact lt_irrefl 1 hgt
  have hrank (i : Nat) (hi : i < 2 ^ log) : rank raw i = i := by
    rw [rank, occurs, map_congr_left (g := fun _ => s), hraw i hi]
    · simp
    · exact fun j hj => hraw j (lt_trans (mem_range.mp hj) hi)
  have hslots (i : Nat) (hi : i < 2 ^ log) : fseSlots (d (raw i)) = 2 ^ log := by
    rw [hraw i hi, hds, fseSlots_of_one_lt (by omega), Nat.add_sub_cancel]
  have hle (s' : Nat) (hs' : s' < numSym) := pred_le_given hs' hgiven
  have hcount (s' : Nat) (hs' : s' < numSym) := occurs_of_spread le_rfl hspread hs'
  -- all entries but the last one are filled
  obtain ⟨a, hfill, hfilled⟩ := fill_loop (n := 2 ^ log - 1) hmem hle hcount (sub_le _ _)
    (by
      intro i hi
      have hclog : Nat.clog 2 (2 ^ log) = log := clog_pow 2 log one_lt_two
      rw [hslots i (by omega), hrank i (by omega)]
      simpa [shareBase, shareWide, shareUnit, hclog] using hi)
  have hlast := hfilled.fillEntry_eq hmem hle hcount (show 2 ^ log - 1 < 2 ^ log by omega)
  rw [hslots _ (by omega), hrank _ (by omega), shareBase_certain, if_neg (lt_irrefl _)] at hlast
  rw [hrun, show 2 ^ log = 2 ^ log - 1 + 1 by omega, foldlM_range_succ, hfill]
  exact congrArg (· >>= fun a => pure a.1) hlast

theorem shareBits_lt (hlog : log ≤ 20) (count k : Nat) : shareBits log count k < 32 := by
  unfold shareBits
  split <;> omega

theorem shareEntry_eq (hlog : log ≤ 20) {s} (hs : s < 64) (k : Nat) :
    fseBits (shareEntry log d s k) = shareBits log (fseSlots (d s)) k ∧
      fseSym (shareEntry log d s k) = s ∧
      fseBase (shareEntry log d s k) = shareBase log (fseSlots (d s)) k :=
  fseEntryOf_eq (shareBits_lt hlog _ _) hs

theorem shareEntry_rare {s} (hd : d s = 0) : shareEntry log d s 0 = fseEntryOf log s 0 := by
  rw [shareEntry, hd]
  simp [fseSlots, shareBits, shareBase, shareWide]

namespace Built
variable {raw : Nat → Nat}

section
variable (h : Built log numSym d raw t) (hlog : log ≤ 20) (hsym : numSym ≤ 64)
include h hlog hsym

theorem sym_eq {i} (hi : i < 2 ^ log - rareBelow d numSym) : fseSym (t i) = raw i := by
  rw [h.filled i hi]
  exact (shareEntry_eq hlog (lt_of_lt_of_le (h.mem hi).1 hsym) _).2.1

theorem sym_rare {s}
    (hs : s < numSym) (hd : d s = 0) : fseSym (t (2 ^ log - 1 - rareBelow d s)) = s := by
  rw [h.rare s hs hd]
  exact (fseEntryOf_eq (by omega) (lt_of_lt_of_le hs hsym)).2.1

/-- The entries at the end of the table. -/
theorem exists_rare (hrare : rareBelow d numSym ≤ 2 ^ log) {i} (hi : i < 2 ^ log)
    (hge : 2 ^ log - rareBelow d numSym ≤ i) :
    ∃ s < numSym, d s = 0 ∧ i = 2 ^ log - 1 - rareBelow d s ∧ fseSym (t i) = s := by
  obtain ⟨s, hs, hd, hbelow⟩ :=
    exists_rareBelow (show 2 ^ log - 1 - i < rareBelow d numSym by omega)
  obtain rfl : i = 2 ^ log - 1 - rareBelow d s := by omega
  exact ⟨s, hs, hd, rfl, h.sym_rare hlog hsym hs hd⟩

/-- A rare symbol has no other entry. -/
theorem sym_rare_iff (hrare : rareBelow d numSym ≤ 2 ^ log) {s} (hs : s < numSym) (hd : d s = 0) {i}
    (hi : i < 2 ^ log) : fseSym (t i) = s ↔ i = 2 ^ log - 1 - rareBelow d s := by
  constructor
  · intro he
    rcases lt_or_ge i (2 ^ log - rareBelow d numSym) with hlt | hge
    · rw [h.sym_eq hlog hsym hlt] at he
      have hmem := (h.mem hlt).2
      rw [he, hd] at hmem
      exact absurd hmem (by decide)
    · obtain ⟨s', -, -, hpos, he'⟩ := h.exists_rare hlog hsym hrare hi hge
      rw [hpos, ← he', he]
  · rintro rfl
    exact h.sym_rare hlog hsym hs hd

theorem count (hrare : rareBelow d numSym ≤ 2 ^ log) {s} (hs : s < numSym) :
    occurs (fun i => fseSym (t i)) s (2 ^ log) = fseSlots (d s) := by
  by_cases hd : d s = 0
  · have hpos := Nat.two_pow_pos log
    rw [occurs_eq_one (i := 2 ^ log - 1 - rareBelow d s) (by omega)
      fun j hj => h.sym_rare_iff hlog hsym hrare hs hd hj, hd]
    rfl
  · rw [occurs_eq_of_ne (sub_le (2 ^ log) (rareBelow d numSym)),
      occurs_congr fun i hi => h.sym_eq hlog hsym hi, occurs_of_spread (sub_le _ _) h.spread hs,
      fseSlots, if_neg hd]
    intro i hge hi he
    obtain ⟨s', -, hd', -, he'⟩ := h.exists_rare hlog hsym hrare hi hge
    rw [← he', he] at hd'
    exact hd hd'

theorem entry (hrare : rareBelow d numSym ≤ 2 ^ log) {i} (hi : i < 2 ^ log) :
    t i = shareEntry log d (fseSym (t i)) (rank (fun i => fseSym (t i)) i) := by
  rcases lt_or_ge i (2 ^ log - rareBelow d numSym) with hlt | hge
  · have hrank : rank (fun i => fseSym (t i)) i = rank raw i := by
      rw [rank, h.sym_eq hlog hsym hlt, rank]
      exact occurs_congr fun j hj => h.sym_eq hlog hsym (lt_trans hj hlt)
    rw [hrank, h.sym_eq hlog hsym hlt]
    exact h.filled i hlt
  · obtain ⟨s, hs, hd, hpos, he⟩ := h.exists_rare hlog hsym hrare hi hge
    have hrank : rank (fun i => fseSym (t i)) i = 0 := by
      rw [rank, occurs_eq_of_ne (Nat.zero_le i)]
      · rfl
      · intro j _ hji hj
        rw [he] at hj
        have := (h.sym_rare_iff hlog hsym hrare hs hd (lt_trans hji hi)).mp hj
        omega
    rw [hrank, he, shareEntry_rare hd, hpos]
    exact h.rare s hs hd

/-- The shares of a symbol are reached through its entries. -/
theorem partition (hgiven : given d numSym = 2 ^ log) {s state} (hs : s < numSym) (hd : d s ≠ 1)
    (hstate : state < 2 ^ log) : ∃! i, i < 2 ^ log ∧ fseSym (t i) = s ∧
      fseBase (t i) ≤ state ∧ state < fseBase (t i) + 2 ^ fseBits (t i) := by
  have hrare : rareBelow d numSym ≤ 2 ^ log := by
    rw [given_eq] at hgiven
    omega
  have hcount := h.count hlog hsym hrare hs
  have hentry (i : Nat) (hi : i < 2 ^ log) (he : fseSym (t i) = s) :
      fseBits (t i) = shareBits log (fseSlots (d s)) (rank (fun i => fseSym (t i)) i) ∧
      fseBase (t i) = shareBase log (fseSlots (d s)) (rank (fun i => fseSym (t i)) i) := by
    have heq := h.entry hlog hsym hrare hi
    obtain ⟨hbits, -, hbase⟩ := shareEntry_eq (d := d) hlog (lt_of_lt_of_le hs hsym)
      (rank (fun i => fseSym (t i)) i)
    rw [he] at heq
    exact ⟨(congrArg fseBits heq).trans hbits, (congrArg fseBase heq).trans hbase⟩
  obtain ⟨k, ⟨hk, hshare⟩, hunique⟩ := exists_unique_share (fseSlots_pos hd)
    (hgiven ▸ fseSlots_le_given hs) hstate
  obtain ⟨i, hi, he, rfl⟩ := exists_rank (hcount.symm ▸ hk)
  obtain ⟨hbits, hbase⟩ := hentry i hi he
  refine ⟨i, ⟨hi, he, by rw [hbits, hbase]; exact hshare⟩, ?_⟩
  rintro j ⟨hj, hje, hjshare⟩
  obtain ⟨hjbits, hjbase⟩ := hentry j hj hje
  rw [hjbits, hjbase] at hjshare
  exact rank_inj hje he (hunique _ ⟨hcount ▸ rank_lt hj hje, hjshare⟩)

theorem table (hgiven : given d numSym = 2 ^ log) : DecodingTable log numSym d t := by
  have hrare : rareBelow d numSym ≤ 2 ^ log := by
    rw [given_eq] at hgiven
    omega
  refine ⟨fun i hi => ?_, fun s => h.count hlog hsym hrare, fun s => h.sym_rare hlog hsym, ?_,
    fun i => h.entry hlog hsym hrare, fun s hs hd state => h.partition hlog hsym hgiven hs hd⟩
  · rcases lt_or_ge i (2 ^ log - rareBelow d numSym) with hlt | hge
    · rw [h.sym_eq hlog hsym hlt]
      exact (h.mem hlt).1
    · obtain ⟨s, hs, -, -, he⟩ := h.exists_rare hlog hsym hrare hi hge
      exact he ▸ hs
  · rw [← h.spread]
    refine map_congr_left fun i hi => h.sym_eq hlog hsym ?_
    exact mem_range.mp ((freeFrom_perm (sub_le _ _)).mem_iff.mp hi)

end

end Built

/-! ## States -/

/-- An entry leads to a state. -/
def Leads (entry state : Nat) : Prop :=
  fseBase entry ≤ state ∧ state < fseBase entry + 2 ^ fseBits entry

/-- The bits that lead from an entry to a state. -/
def leadBits (entry state : Nat) : List Bool := highBits (state - fseBase entry) (fseBits entry)

/-- What an entry leads to is inside the table. -/
theorem DecodingTable.end_le (h : DecodingTable log numSym d t) (hlog : log ≤ 20) (hsym : numSym ≤ 64)
    (hgiven : given d numSym = 2 ^ log) {i} (hi : i < 2 ^ log) :
    fseBase (t i) + 2 ^ fseBits (t i) ≤ 2 ^ log := by
  have hs := h.sym i hi
  obtain ⟨hbits, -, hbase⟩ := shareEntry_eq (d := d) hlog (lt_of_lt_of_le hs hsym)
    (rank (fun i => fseSym (t i)) i)
  rw [h.entry i hi, hbits, hbase]
  refine share_end_le ?_ (hgiven ▸ fseSlots_le_given hs)
  rw [← h.count _ hs]
  exact rank_lt hi rfl

/-- There is one table for a distribution. -/
theorem DecodingTable.unique {t' : Nat → Nat} (h : DecodingTable log numSym d t)
    (h' : DecodingTable log numSym d t') {i} (hi : i < 2 ^ log) : t i = t' i := by
  -- the symbols first, in the rotation and from the end
  have hsym {j : Nat} (hj : j < 2 ^ log) : fseSym (t j) = fseSym (t' j) := by
    rcases lt_or_ge j (2 ^ log - rareBelow d numSym) with hlt | hge
    · refine map_inj_left.mp (h.spread.trans h'.spread.symm) j ?_
      exact (freeFrom_perm (sub_le _ _)).mem_iff.mpr (mem_range.mpr hlt)
    · obtain ⟨s, hs, hs0, hbelow⟩ :=
        exists_rareBelow (show 2 ^ log - 1 - j < rareBelow d numSym by omega)
      have hj' : j = 2 ^ log - 1 - rareBelow d s := by omega
      rw [hj', h.rare s hs hs0, h'.rare s hs hs0]
  have hrank : rank (fun i => fseSym (t i)) i = rank (fun i => fseSym (t' i)) i := by
    rw [rank, rank, hsym hi]
    exact occurs_congr fun j hj => hsym (lt_trans hj hi)
  rw [h.entry i hi, h'.entry i hi, hrank, hsym hi]

/-- A table that is built at all is a decoding table. -/
theorem fseBuildTable_table (hlog : 5 ≤ log ∧ log ≤ 20) (hsym : numSym ≤ 64)
    (hgiven : given d numSym = 2 ^ log) {t₀} (h : fseBuildTable log numSym d t₀ = .ok t) :
    DecodingTable log numSym d t := by
  by_cases htwo : ∃ a b, a < b ∧ b < numSym ∧ d a ≠ 1 ∧ d b ≠ 1
  · obtain ⟨raw, t', hrun, hbuilt⟩ := fseBuildTable_built hlog hsym ⟨hgiven, htwo⟩ t₀
    rw [hrun] at h
    cases h
    exact hbuilt.table hlog.2 hsym hgiven
  · rw [fseBuildTable_certain hlog hsym hgiven htwo] at h
    cases h

/-- Building the same table again changes nothing. -/
theorem fseBuildTable_again (hgiven : given d numSym = 2 ^ log) {t₀}
    (h : fseBuildTable log numSym d t₀ = .ok t) : fseBuildTable log numSym d t = .ok t := by
  obtain ⟨⟨hlog, hlog', hsym⟩, -⟩ := fseBuildTable_eq_ok h
  have htable := fseBuildTable_table ⟨hlog, hlog'⟩ hsym hgiven h
  by_cases htwo : ∃ a b, a < b ∧ b < numSym ∧ d a ≠ 1 ∧ d b ≠ 1
  · obtain ⟨raw, t', hrun, hbuilt⟩ := fseBuildTable_built ⟨hlog, hlog'⟩ hsym ⟨hgiven, htwo⟩ t
    rw [hrun]
    refine congrArg Except.ok (funext fun i => ?_)
    rcases lt_or_ge i (2 ^ log) with hi | hi
    · exact (hbuilt.table hlog' hsym hgiven).unique htable hi
    · exact fseBuildTable_frame hrun i hi
  · rw [fseBuildTable_certain ⟨hlog, hlog'⟩ hsym hgiven htwo] at h
    cases h

end

/-- Whatever the array held before, the table for a distribution is built in it. -/
theorem fse_table_built {log numSym : Nat} {d : Nat → Nat} (hlog : 5 ≤ log ∧ log ≤ 20)
    (hsym : numSym ≤ 64) (hd : Distribution log numSym d) :
    ∃ e, DecodingTable log numSym d e ∧ ∀ t, ∃ t', fseBuildTable log numSym d t = .ok t' ∧
      ∀ i < 2 ^ log, t' i = e i := by
  obtain ⟨raw, e, -, hbuilt⟩ := fseBuildTable_built hlog hsym hd fun _ => 0
  have htable := hbuilt.table hlog.2 hsym hd.given
  refine ⟨e, htable, fun t => ?_⟩
  obtain ⟨raw', t', hrun, hbuilt'⟩ := fseBuildTable_built hlog hsym hd t
  exact ⟨t', hrun, fun i hi => (hbuilt'.table hlog.2 hsym hd.given).unique htable hi⟩

/-- One symbol with all but one of 32 entries, and one with less than one. -/
theorem fse_table_built_rare :
    ∃ e, DecodingTable 5 2 (fun s => if s = 0 then 32 else 0) e ∧
      ∀ t, ∃ t', fseBuildTable 5 2 (fun s => if s = 0 then 32 else 0) t = .ok t' ∧
        ∀ i < 2 ^ 5, t' i = e i :=
  fse_table_built (by decide) (by decide) ⟨by decide, 0, 1, by decide, by decide, by decide, by decide⟩

end Rkboot.Compression.Zstd
