import Rkboot.Compression.ZstdTables
import Rkboot.Lib.Bits
import Mathlib.Algebra.BigOperators.Intervals

/-! # FSE distributions

What `fse_decode_distribution` stores for a description it accepts adds up, and where a description
lets it store behind the array of its caller. -/
namespace Rkboot.Compression.Zstd
open Lib Finset Nat

/-- The entries of the table that a stored weight stands for. -/
def fseSlots (w : Nat) : Nat := if w = 0 then 1 else w - 1

/-! ## Repeat flags -/

/-- A repeat flag and the symbol it stands behind. -/
structure RepeatFlag where
  sym : Nat
  rep : Nat

/-- It names the symbol behind the last one, which passes the check of the decoder. -/
def RepeatFlag.Past (maxSym : Nat) (f : RepeatFlag) : Prop := 0 < f.rep ∧ f.sym + f.rep = maxSym

section
variable (inp : Nat → UInt8) (stop maxSym : Nat)

/-- The flags behind a probability of 0 in the input, and where they end. -/
def zeroFlags : Nat → DistBits → Nat → List RepeatFlag × Option (DistBits × Nat)
  | 0, _, _ => ([], none)
  | fuel + 1, b, sym =>
    match b.want inp stop 2 2 with
    | none => ([], none)
    | some b =>
      let rep := b.bits &&& 3
      if maxSym < sym + rep then ([], none)
      else if rep = 3 then
        let (flags, next) := zeroFlags fuel (b.skip 2) (sym + rep)
        (⟨sym, rep⟩ :: flags, next)
      else ([⟨sym, rep⟩], some (b.skip 2, sym + rep))

/-- The flags of all probabilities. -/
def probFlags : Nat → DistBits → Nat → Nat → List RepeatFlag
  | 0, _, _, _ => []
  | fuel + 1, b, left, sym =>
    if maxSym ≤ sym then []
    else match readProb inp stop b left with
    | none => []
    | some (val, b) =>
      if val = 1 then
        let (flags, next) := zeroFlags inp stop maxSym (maxSym + 1) b sym
        flags ++ match next with
          | none => []
          | some (b, sym) => probFlags fuel b left (sym + 1)
      else
        let left := left - fseSlots val
        if left = 0 then [] else probFlags fuel b left (sym + 1)

/-- The repeat flags of a description. -/
def distFlags (start : Nat) : List RepeatFlag :=
  if stop - start < 1 then []
  else
    let first := (inp start).toNat
    probFlags inp stop maxSym (maxSym + 1) ⟨start + 1, first >>> 4, 4⟩ (1 <<< ((first &&& 15) + 5)) 0

end

section
variable {inp : Nat → UInt8} {stop maxSym : Nat}

theorem truncCutoff_eq (n : Nat) : truncCutoff n (Nat.log2 n) = truncShort n := by
  rw [truncCutoff, truncShort, shiftLeft_eq, pow_succ, mul_comm]

/-- A probability is at most what is left. -/
theorem readProb_le {b b' left val}
    (h : readProb inp stop b left = some (val, b')) : val ≤ left + 1 := by
  have hlow (x : Nat) : x &&& (1 <<< Nat.log2 (left + 2) - 1) < 2 ^ Nat.log2 (left + 2) := by
    rw [one_shiftLeft, and_two_pow_sub_one_eq_mod]
    exact mod_lt _ (Nat.two_pow_pos _)
  unfold readProb truncLength at h
  obtain ⟨b₁, -, h⟩ := Option.bind_eq_some_iff.mp h
  have hvalue := trunc_value_lt (Nat.succ_ne_zero (left + 1)) (hlow b₁.bits)
  dsimp only at h
  rw [truncCutoff_eq] at h
  split at h
  · obtain ⟨b₂, -, h⟩ := Option.bind_eq_some_iff.mp h
    cases h
    rw [one_shiftLeft] at hvalue ⊢
    split
    · exact Nat.lt_succ_iff.mp hvalue
    · exact Nat.lt_succ_iff.mp (lt_of_le_of_lt (Nat.le_add_right _ _) hvalue)
  · cases h
    exact Nat.lt_succ_iff.mp (lt_of_le_of_lt (Nat.le_add_right _ _) hvalue)

/-- The symbols that repeat flags stand for. -/
def ones (lo hi : Nat) (weights : Nat → Nat) : Nat → Nat :=
  fun i => if lo < i ∧ i ≤ hi then 1 else weights i

theorem ones_ones {lo mid hi} (hlo : lo ≤ mid) (hhi : mid ≤ hi) (weights : Nat → Nat) :
    ones mid hi (ones lo mid weights) = ones lo hi weights := by
  funext i
  simp only [ones]
  grind

/-- A chain of repeat flags stops behind the array at a flag that names the symbol behind the last
one, and otherwise stays inside it. -/
theorem zeroRepeats_cases {fuel sym} (b : DistBits) (weights : Nat → Nat) (hsym : sym < maxSym)
    (hfuel : maxSym - sym < fuel) :
    (zeroRepeats inp stop maxSym maxSym fuel b sym weights = .error .bounds ∧
      ∃ f ∈ (zeroFlags inp stop maxSym fuel b sym).1, f.Past maxSym) ∨
    zeroRepeats inp stop maxSym maxSym fuel b sym weights =
      .ok ((zeroFlags inp stop maxSym fuel b sym).2.map fun (b, last) =>
        (b, last, ones sym last weights)) ∧
    (∀ f ∈ (zeroFlags inp stop maxSym fuel b sym).1, ¬f.Past maxSym) ∧
    ∀ b' last, (zeroFlags inp stop maxSym fuel b sym).2 = some (b', last) →
      sym ≤ last ∧ last < maxSym := by
  induction fuel generalizing b sym weights with
  | zero => exact absurd hfuel (Nat.not_lt_zero _)
  | succ fuel ih =>
    unfold zeroRepeats zeroFlags
    cases hwant : b.want inp stop 2 2 with
    | none => exact .inr ⟨rfl, nofun, nofun⟩
    | some b₁ =>
      dsimp only
      generalize b₁.bits &&& 3 = rep
      by_cases hover : maxSym < sym + rep
      · rw [if_pos hover, if_pos hover]
        exact .inr ⟨rfl, nofun, nofun⟩
      rw [if_neg hover, if_neg hover]
      by_cases hpast : 0 < rep ∧ maxSym ≤ sym + rep
      · -- the first flag stands in front whether others follow or not
        rw [if_pos hpast]
        refine .inl ⟨rfl, ⟨sym, rep⟩, ?_, hpast.1, le_antisymm (not_lt.mp hover) hpast.2⟩
        split
        · exact List.mem_cons_self
        · exact List.mem_singleton_self _
      have hfirst : ¬RepeatFlag.Past maxSym ⟨sym, rep⟩ := fun h => hpast ⟨h.1, le_of_eq h.2.symm⟩
      have hlast : sym + rep < maxSym := by omega
      rw [if_neg hpast]
      by_cases hmore : rep = 3
      · rw [if_pos hmore, if_pos hmore]
        rcases ih (b₁.skip 2) (ones sym (sym + rep) weights) hlast (by omega) with
          ⟨hrun, f, hf, hfpast⟩ | ⟨hrun, hflags, hbound⟩
        · exact .inl ⟨hrun, f, List.mem_cons_of_mem _ hf, hfpast⟩
        · refine .inr ⟨hrun.trans ?_, List.forall_mem_cons.mpr ⟨hfirst, hflags⟩, fun b' last h => ?_⟩
          · congr 1
            refine Option.map_congr fun x hx => ?_
            obtain ⟨b', last⟩ := x
            obtain ⟨hle, -⟩ := hbound b' last hx
            dsimp only
            rw [ones_ones (Nat.le_add_right _ _) hle]
          · obtain ⟨hle, hlt⟩ := hbound b' last h
            exact ⟨le_trans (Nat.le_add_right _ _) hle, hlt⟩
      · rw [if_neg hmore, if_neg hmore]
        refine .inr ⟨rfl, List.forall_mem_singleton.mpr hfirst, fun b' last h => ?_⟩
        cases h
        exact ⟨Nat.le_add_right _ _, hlast⟩

/-! ## The loop over the symbols -/

/-- The entries given out to the first `n` symbols. -/
def given (weights : Nat → Nat) (n : Nat) : Nat := ∑ i ∈ range n, fseSlots (weights i)

theorem given_update (weights : Nat → Nat) (sym val : Nat) :
    given (Function.update weights sym val) (sym + 1) = given weights sym + fseSlots val := by
  rw [given, sum_range_succ, Function.update_self]
  congr 1
  refine sum_congr rfl fun i hi => ?_
  rw [Function.update_of_ne (Nat.ne_of_lt (mem_range.mp hi))]

/-- Symbols that are not there take nothing. -/
theorem given_extend {w w' : Nat → Nat} {n m} (hnm : n ≤ m) (hsame : ∀ i < n, w' i = w i)
    (hone : ∀ i, n ≤ i → i < m → w' i = 1) : given w' m = given w n := by
  have hsub : range n ⊆ range m := range_subset_range.mpr hnm
  rw [given, ← sum_subset hsub, given]
  · exact sum_congr rfl fun i hi => by rw [hsame i (mem_range.mp hi)]
  · intro i hi hni
    rw [hone i (not_lt.mp (mt mem_range.mpr hni)) (mem_range.mp hi)]
    rfl

theorem given_ones {sym last} (hle : sym ≤ last) (weights : Nat → Nat) :
    given (ones sym last weights) (last + 1) = given weights (sym + 1) := by
  refine given_extend (succ_le_succ hle) (fun i hi => ?_) fun i hlo hhi => ?_
  · exact if_neg fun h => absurd hi (not_lt.mpr h.1)
  · exact if_pos ⟨hlo, Nat.lt_succ_iff.mp hhi⟩

/-- What the entries of a probability leave, as the code computes it. -/
theorem sub_fseSlots (left val : Nat) :
    left - (if val = 0 then 1 else val - 1) = left - fseSlots val := rfl

theorem fseSlots_le {left val} (hleft : 0 < left) (hval : val ≤ left + 1) :
    fseSlots val ≤ left := by
  unfold fseSlots
  split <;> omega

/-- What a chain of repeat flags has stored, in an array of any size. -/
theorem zeroRepeats_stores {size fuel sym last b b' weights w}
    (h : zeroRepeats inp stop size maxSym fuel b sym weights = .ok (some (b', last, w))) :
    sym ≤ last ∧ w = ones sym last weights := by
  induction fuel generalizing b sym weights with
  | zero => cases h
  | succ fuel ih =>
    unfold zeroRepeats at h
    cases hwant : b.want inp stop 2 2 with
    | none =>
      rw [hwant] at h
      cases h
    | some b₁ =>
      rw [hwant] at h
      dsimp only at h
      generalize b₁.bits &&& 3 = rep at h
      split at h
      · cases h
      split at h
      · cases h
      split at h
      · obtain ⟨hle, hw⟩ := ih h
        have hsym : sym ≤ sym + rep := Nat.le_add_right _ _
        exact ⟨le_trans hsym hle, hw.trans (ones_ones hsym hle weights)⟩
      · cases h
        exact ⟨Nat.le_add_right _ _, rfl⟩

/-- The weights that are accepted give out all entries. -/
theorem distLoop_given {size fuel left sym total ptr b weights w}
    (hleft : 0 < left) (hgiven : given weights sym + left = total)
    (h : distLoop inp stop size maxSym fuel b left sym weights = .ok (some (ptr, w))) :
    given w maxSym = total := by
  induction fuel generalizing b left sym weights with
  | zero => cases h
  | succ fuel ih =>
    unfold distLoop at h
    by_cases hsym : maxSym ≤ sym
    · rw [if_pos hsym] at h
      cases h
    rw [if_neg hsym] at h
    cases hprob : readProb inp stop b left with
    | none =>
      rw [hprob] at h
      cases h
    | some x =>
      obtain ⟨val, b₁⟩ := x
      have hslots := fseSlots_le hleft (readProb_le hprob)
      have hupdate := given_update weights sym val
      rw [hprob] at h
      dsimp only at h
      by_cases hone : val = 1
      · rw [if_pos hone] at h
        obtain ⟨r, hrun, h⟩ := except_bind_eq_ok h
        match r, h with
        | some (b₂, last, w₂), h =>
          obtain ⟨hle, rfl⟩ := zeroRepeats_stores hrun
          refine ih hleft ?_ h
          rw [given_ones hle, hupdate, hone]
          exact hgiven
      · rw [if_neg hone] at h
        split at h
        · cases h
        rw [sub_fseSlots] at h
        by_cases hdone : left - fseSlots val = 0
        · rw [if_pos hdone] at h
          cases h
          rw [given_extend (w := Function.update weights sym val) (n := sym + 1) (by omega)
            (fun i hi => if_neg (by omega)) fun i hlo hhi => if_pos (by omega), hupdate]
          omega
        · rw [if_neg hdone] at h
          exact ih (by omega) (by omega) h

theorem distLoop_cases {fuel left sym} (b : DistBits) (weights : Nat → Nat)
    (hleft : 0 < left) (hfuel : maxSym - sym < fuel) :
    (distLoop inp stop maxSym maxSym fuel b left sym weights = .error .bounds ∧
      ∃ f ∈ probFlags inp stop maxSym fuel b left sym, f.Past maxSym) ∨
    (∃ r, distLoop inp stop maxSym maxSym fuel b left sym weights = .ok r) ∧
      ∀ f ∈ probFlags inp stop maxSym fuel b left sym, ¬f.Past maxSym := by
  induction fuel generalizing b left sym weights with
  | zero => exact absurd hfuel (Nat.not_lt_zero _)
  | succ fuel ih =>
    unfold distLoop probFlags
    by_cases hsym : maxSym ≤ sym
    · rw [if_pos hsym, if_pos hsym]
      exact .inr ⟨⟨none, rfl⟩, nofun⟩
    rw [if_neg hsym, if_neg hsym]
    cases hprob : readProb inp stop b left with
    | none => exact .inr ⟨⟨none, rfl⟩, nofun⟩
    | some x =>
      obtain ⟨val, b₁⟩ := x
      have hval := readProb_le hprob
      dsimp only
      by_cases hone : val = 1
      · rw [if_pos hone, if_pos hone]
        rcases zeroRepeats_cases b₁ (Function.update weights sym val) (not_le.mp hsym)
          (show maxSym - sym < maxSym + 1 by omega) with ⟨hrun, f, hf, hpast⟩ | ⟨hrun, hflags, hbound⟩
        · rw [hrun]
          exact .inl ⟨rfl, f, List.mem_append_left _ hf, hpast⟩
        · rw [hrun]
          cases hnext : (zeroFlags inp stop maxSym (maxSym + 1) b₁ sym).2 with
          | none => exact .inr ⟨⟨none, rfl⟩, List.forall_mem_append.mpr ⟨hflags, nofun⟩⟩
          | some x =>
            obtain ⟨b₂, last⟩ := x
            obtain ⟨hle, hlt⟩ := hbound b₂ last hnext
            rcases ih b₂ (ones sym last (Function.update weights sym val)) hleft
              (show maxSym - (last + 1) < fuel by omega) with ⟨hrest, f, hf, hpast⟩ | ⟨hrest, hmore⟩
            · exact .inl ⟨hrest, f, List.mem_append_right _ hf, hpast⟩
            · exact .inr ⟨hrest, List.forall_mem_append.mpr ⟨hflags, hmore⟩⟩
      · rw [if_neg hone, if_neg hone, if_neg (by omega), sub_fseSlots]
        by_cases hdone : left - fseSlots val = 0
        · rw [if_pos hdone, if_pos hdone]
          exact .inr ⟨⟨_, rfl⟩, nofun⟩
        · rw [if_neg hdone, if_neg hdone]
          exact ih b₁ _ (by omega) (by omega)

end

theorem fseDecodeDistribution_given {inp stop start size maxSym log ptr w}
    (h : fseDecodeDistribution inp stop start size maxSym = .ok (some (log, some (ptr, w)))) :
    given w maxSym = 2 ^ log ∧ 5 ≤ log ∧ log ≤ 20 := by
  unfold fseDecodeDistribution at h
  split at h
  · cases h
  obtain ⟨rest, hrun, h⟩ := except_bind_eq_ok h
  cases h
  have hfield : (inp start).toNat &&& 15 < 2 ^ 4 := and_lt_two_pow _ (by decide)
  refine ⟨?_, Nat.le_add_left _ _, by omega⟩
  rw [← one_shiftLeft]
  refine distLoop_given ?_ (zero_add _) hrun
  rw [one_shiftLeft]
  exact Nat.two_pow_pos _

/-- A description is decoded inside an array of one entry for each symbol, and what is accepted
adds up. -/
def DecodesInside (inp : Nat → UInt8) (stop start maxSym : Nat) : Prop :=
  ∃ r, fseDecodeDistribution inp stop start maxSym maxSym = .ok r ∧
    ∀ log ptr w, r = some (log, some (ptr, w)) → given w maxSym = 2 ^ log

theorem decodesInside_iff (inp : Nat → UInt8) (stop start maxSym : Nat) :
    DecodesInside inp stop start maxSym ↔ ∀ f ∈ distFlags inp stop maxSym start, ¬f.Past maxSym := by
  unfold DecodesInside fseDecodeDistribution distFlags
  by_cases hempty : stop - start < 1
  · rw [if_pos hempty, if_pos hempty]
    exact ⟨fun _ => nofun, fun _ => ⟨none, rfl, nofun⟩⟩
  rw [if_neg hempty, if_neg hempty]
  dsimp only
  generalize ((inp start).toNat &&& 15) + 5 = log
  have hleft : 0 < 1 <<< log := by
    rw [one_shiftLeft]
    exact Nat.two_pow_pos log
  rcases distLoop_cases _ (fun _ => 0) hleft (show maxSym - 0 < maxSym + 1 by omega) with
    ⟨hrun, f, hf, hpast⟩ | ⟨⟨r, hrun⟩, hflags⟩
  · rw [hrun]
    exact ⟨fun ⟨_, h, _⟩ => (nomatch h), fun hflags => absurd hpast (hflags f hf)⟩
  · rw [hrun]
    refine ⟨fun _ => hflags, fun _ => ⟨_, rfl, ?_⟩⟩
    rintro log' ptr w h
    cases h
    rw [← one_shiftLeft]
    exact distLoop_given hleft (zero_add _) hrun

/-- A Huffman tree's weights, of 12 symbols: probability 0 for the first one and for the four times
three that follow it. -/
theorem distribution_overrun :
    ¬DecodesInside (fun i => [0x10, 0xfe, 0x01].getD i 0) 3 0 12 := by
  rintro ⟨r, hrun, -⟩
  cases hrun

end Rkboot.Compression.Zstd
