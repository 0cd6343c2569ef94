import Rkboot.Compression.ZstdFseTable

/-! # Huffman weights

Both ways to describe a Huffman tree give at most 255 weights of at most 15 each, and the sum that
goes with them has not wrapped. -/
namespace Rkboot.Compression.Zstd
open Lib Function Finset Nat

/-- What a weight adds to the sum. -/
def weightShare (w : Nat) : Nat := 1 <<< w >>> 1

theorem weightShare_zero : weightShare 0 = 0 := rfl

theorem weightShare_succ (w : Nat) : weightShare (w + 1) = 2 ^ w := by
  rw [weightShare, one_shiftLeft, shiftRight_one, pow_succ, Nat.mul_div_cancel _ two_pos]

theorem weightShare_le {w} (hw : w ≤ 15) : weightShare w ≤ 2 ^ 14 := by
  cases w with
  | zero => exact Nat.zero_le _
  | succ w =>
    rw [weightShare_succ]
    exact Nat.pow_le_pow_right two_pos (le_of_succ_le_succ hw)

/-- Weights as they are read. -/
structure Weights.Sound (ws : Weights) : Prop where
  num_le : ws.num ≤ 255
  weight_le : ∀ i < ws.num, ws.weight i ≤ 15
  sum_eq : ws.sum = ∑ i ∈ range ws.num, weightShare (ws.weight i)

namespace Weights.Sound

theorem empty : Sound ⟨0, 0, fun _ => 0⟩ := ⟨Nat.zero_le _, fun i hi => absurd hi (Nat.not_lt_zero i), rfl⟩

theorem sum_le {ws : Weights} (h : ws.Sound) : ws.sum ≤ 255 * 2 ^ 14 := by
  have hle := sum_le_card_nsmul (range ws.num) (fun i => weightShare (ws.weight i)) (2 ^ 14)
    fun i hi => weightShare_le (h.weight_le i (mem_range.mp hi))
  rw [card_range, ← h.sum_eq] at hle
  exact le_trans hle (Nat.mul_le_mul_right (2 ^ 14) h.num_le)

theorem add {ws : Weights} (h : ws.Sound) {w} (hnum : ws.num < 255) (hw : w ≤ 15) :
    ∃ ws', ws.add w = .ok ws' ∧ ws'.Sound ∧ ws'.num = ws.num + 1 := by
  have hsum := h.sum_le
  have hshare := weightShare_le hw
  refine ⟨_, if_neg (by omega), ⟨hnum, fun i hi => ?_, ?_⟩, rfl⟩
  · change update ws.weight ws.num w i ≤ 15
    rcases Nat.lt_succ_iff_lt_or_eq.mp hi with hi | rfl
    · rw [update_of_ne (Nat.ne_of_lt hi)]
      exact h.weight_le i hi
    · rwa [update_self]
  · change (ws.sum + weightShare w) % 2 ^ 32 =
      ∑ i ∈ range (ws.num + 1), weightShare (update ws.weight ws.num w i)
    rw [sum_range_succ, update_self, mod_eq_of_lt (by omega), h.sum_eq]
    congr 1
    refine sum_congr rfl fun i hi => ?_
    rw [update_of_ne (Nat.ne_of_lt (mem_range.mp hi))]

end Weights.Sound

theorem directHuffWeights_ok (inp : Nat → UInt8) (start : Nat) {num} (hnum : num ≤ 255) :
    ∃ ws, directHuffWeights inp start num = .ok ws ∧ ws.Sound ∧ ws.num = num := by
  refine foldlM_range_ok (fun n (ws : Weights) => ws.Sound ∧ ws.num = n) ⟨.empty, rfl⟩ ?_
  rintro i ws hi ⟨hsound, rfl⟩
  refine hsound.add (lt_of_lt_of_le hi hnum) ?_
  have hbyte := (inp (start + ws.num / 2)).toNat_lt
  split
  · omega
  · exact and_le_right

/-! ## Weights with a table of their own -/

/-- An entry for a weight that leads to entries of the table. -/
structure WeightEntry (log e : Nat) : Prop where
  sym : fseSym e ≤ 15
  end_le : fseBase e + 2 ^ fseBits e ≤ 2 ^ log

section
variable {inp : Nat → UInt8} {log : Nat} {t : Nat → Nat}

theorem take_lt (b : RevBits) (n : Nat) : (b.take n).1 < 2 ^ n := by
  rw [RevBits.take, one_shiftLeft, and_two_pow_sub_one_eq_mod]
  exact mod_lt _ (Nat.two_pow_pos n)

section
variable (hlog : log ≤ 6) (ht : ∀ i < 2 ^ log, WeightEntry log (t i))
include hlog ht

theorem updateEntry_ok {e} (he : WeightEntry log e) (b : RevBits) :
    ∃ e' b', updateEntry t e b = .ok (e', b') ∧ WeightEntry log e' := by
  have hlt := take_lt b (fseBits e)
  have hend := he.end_le
  have hpow : 2 ^ log ≤ 2 ^ 6 := Nat.pow_le_pow_right two_pos hlog
  have hentry : fseEntry t ((b.take (fseBits e)).1 + fseBase e) =
    .ok (t ((b.take (fseBits e)).1 + fseBase e)) := if_pos (by omega)
  refine ⟨_, (b.take (fseBits e)).2, ?_, ht ((b.take (fseBits e)).1 + fseBase e) (by omega)⟩
  rw [updateEntry]
  dsimp only
  rw [hentry]
  rfl

/-- Pairs are read until there are too many or the bits get short. -/
theorem pairLoop_ok (inp : Nat → UInt8) (start fuel : Nat)
    {b even odd} {ws : Weights} (heven : WeightEntry log even)
    (hodd : WeightEntry log odd) (hws : ws.Sound) (hnum : ws.num < 254) (hfuel : 256 ≤ 2 * fuel + ws.num) :
    ∃ r, pairLoop inp start t fuel b even odd ws = .ok r ∧ ∀ b' even' odd' ws',
      r = some (b', even', odd', ws') →
        WeightEntry log even' ∧ WeightEntry log odd' ∧ ws'.Sound ∧ ws'.num < 254 := by
  induction fuel generalizing b even odd ws with
  | zero => omega
  | succ fuel ih =>
    rw [pairLoop]
    split
    · refine ⟨_, rfl, ?_⟩
      rintro b' even' odd' ws' ⟨⟩
      exact ⟨heven, hodd, hws, hnum⟩
    · obtain ⟨ws₁, hadd₁, hws₁, hnum₁⟩ := hws.add (by omega) heven.sym
      obtain ⟨ws₂, hadd₂, hws₂, hnum₂⟩ := hws₁.add (by omega) hodd.sym
      rw [hadd₁]
      dsimp only [bind, Except.bind]
      rw [hadd₂]
      dsimp only
      split
      · exact ⟨none, rfl, fun _ _ _ _ h => nomatch h⟩
      · obtain ⟨even', b₁, hupdate₁, heven'⟩ := updateEntry_ok hlog ht heven (b.fill inp start 4)
        obtain ⟨odd', b₂, hupdate₂, hodd'⟩ := updateEntry_ok hlog ht hodd b₁
        rw [hupdate₁]
        dsimp only
        rw [hupdate₂]
        exact ih heven' hodd' hws₂ (by omega) (by omega)

/-- Single weights are read until there are too many or no bits are left. -/
theorem singleLoop_ok {fuel b this other} {ws : Weights} (hthis : WeightEntry log this)
    (hother : WeightEntry log other) (hws : ws.Sound) (hnum : ws.num ≤ 254)
    (hfuel : 255 ≤ fuel + ws.num) :
    ∃ r, singleLoop t fuel b this other ws = .ok r ∧ ∀ ws', r = some ws' → ws'.Sound := by
  induction fuel generalizing b this other ws with
  | zero => omega
  | succ fuel ih =>
    rw [singleLoop]
    split
    · exact ⟨none, rfl, fun _ h => nomatch h⟩
    · obtain ⟨ws₁, hadd₁, hws₁, hnum₁⟩ := hws.add (by omega) hthis.sym
      rw [hadd₁]
      dsimp only [bind, Except.bind]
      split
      · obtain ⟨ws₂, hadd₂, hws₂, -⟩ := hws₁.add (by omega) hother.sym
        rw [hadd₂]
        refine ⟨_, rfl, ?_⟩
        rintro ws' ⟨⟩
        exact hws₂
      · obtain ⟨this', b₁, hupdate, hthis'⟩ := updateEntry_ok hlog ht hthis b
        rw [hupdate]
        exact ih hother hthis' hws₁ (by omega) (by omega)

/-- The stream is read, and neither of its assertions fails. -/
theorem weightStream_ok (inp : Nat → UInt8) (start ptr header : Nat) :
    ∃ r, weightStream inp start ptr header log t = .ok r ∧ ∀ ws, r = some ws → ws.Sound := by
  have hnone : ∃ r : Option Weights, (.ok none : Except Fault _) = .ok r ∧ ∀ ws, r = some ws → ws.Sound :=
    ⟨none, rfl, fun _ h => nomatch h⟩
  unfold weightStream
  dsimp only [bind, Except.bind, pure, Except.pure]
  split
  · exact hnone
  split
  · exact hnone
  rename_i hbits
  split
  · exact hnone
  -- a byte more is enough for both states
  have hlog2 : 8 ≤ Nat.log2 ((inp (start + header - 1)).toNat <<< 8 ||| (inp (start + header - 2)).toNat) :=
    (le_log2 (by omega)).mpr (not_lt.mp hbits)
  rw [if_neg]
  swap
  · rintro ⟨hlt, hge⟩
    rw [if_pos hlt] at hge
    exact hge (show 2 * log < Nat.log2 _ + 8 by omega)
  set b : RevBits := ⟨start + header - 2,
    (inp (start + header - 1)).toNat <<< 8 ||| (inp (start + header - 2)).toNat, _⟩
  generalize (if b.numBits < 2 * log then b.push inp else b) = first
  rw [one_shiftLeft, if_neg (not_not.mpr ⟨take_lt _ _, take_lt _ _⟩)]
  obtain ⟨r, hpairs, hr⟩ := pairLoop_ok hlog ht inp ptr 128
    (b := ((first.take log).2.take log).2) (ht _ (take_lt first log))
    (ht _ (take_lt (first.take log).2 log)) .empty (by decide) (by decide)
  rw [hpairs]
  match r with
  | none => exact hnone
  | some (b, even, odd, ws) =>
    obtain ⟨heven, hodd, hws, hnum⟩ := hr b even odd ws rfl
    exact singleLoop_ok hlog ht heven hodd hws (by omega) (by omega)

end

theorem weightEntry_of_table {d} (hlog : log ≤ 20) (hgiven : given d 12 = 2 ^ log)
    (h : DecodingTable log 12 d t) {i} (hi : i < 2 ^ log) : WeightEntry log (t i) :=
  ⟨le_trans (le_of_lt (h.sym i hi)) (by decide), h.end_le hlog (by decide) hgiven hi⟩

theorem fseHuffWeights_sound {start stop header} {ws : Weights}
    (h : fseHuffWeights inp start stop header = .ok (some ws)) : ws.Sound := by
  obtain ⟨r, hdist, h⟩ := except_bind_eq_ok h
  match r with
  | none => cases h
  | some (_, none) => cases h
  | some (log, some (ptr, d)) =>
    obtain ⟨hgiven, hlog⟩ := fseDecodeDistribution_given hdist
    dsimp only at h
    split at h
    · cases h
    rename_i hlog6
    obtain ⟨t, hbuild, h⟩ := except_bind_eq_ok h
    split at h
    · cases h
    have htable := fseBuildTable_table hlog (by decide) hgiven hbuild
    obtain ⟨r, hstream, hsound⟩ := weightStream_ok (not_lt.mp hlog6)
      (fun i => weightEntry_of_table hlog.2 hgiven htable) inp start ptr header
    rw [hstream] at h
    cases h
    exact hsound ws rfl

end
end Rkboot.Compression.Zstd
