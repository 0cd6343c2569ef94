import Mathlib.Data.Nat.Log
import Mathlib.Algebra.Ring.Nat
import Mathlib.Tactic.Common

/-! # Shares of a power of two

The numbers below `2 ^ log` are given to `count` owners as intervals whose lengths are powers of two.
With `2 ^ m` the smallest power of two that is at least `count`, a single share is `2 ^ (log - m)`
numbers; the first `2 ^ m - count` owners have two shares and the others one. The intervals of those
with a single share come first. -/
namespace Rkboot.Lib
open Nat

section
variable (log count k : Nat)

def shareUnit : Nat := 2 ^ (log - Nat.clog 2 count)

/-- How many owners have two shares. -/
def shareWide : Nat := 2 ^ Nat.clog 2 count - count

/-- The length of an interval, as an exponent. -/
def shareBits : Nat :=
  if k < shareWide count then log - Nat.clog 2 count + 1 else log - Nat.clog 2 count

def shareBase : Nat :=
  if k < shareWide count then (count - shareWide count + 2 * k) * shareUnit log count
  else (k - shareWide count) * shareUnit log count

end

section
variable {log count k y : Nat}

theorem shareUnit_pos (log count : Nat) : 0 < shareUnit log count := Nat.two_pow_pos _

theorem two_pow_shareBits : 2 ^ shareBits log count k =
    if k < shareWide count then 2 * shareUnit log count else shareUnit log count := by
  unfold shareBits shareUnit
  split
  · rw [Nat.pow_succ']
  · rfl

theorem shareWide_add (count : Nat) : shareWide count + count = 2 ^ Nat.clog 2 count :=
  Nat.sub_add_cancel (Nat.le_pow_clog Nat.one_lt_two count)

theorem shareWide_lt (hcount : 0 < count) : shareWide count < count := by
  have hadd := shareWide_add count
  rcases lt_or_ge 1 count with hlt | hle
  · have hpred := Nat.pow_pred_clog_lt_self Nat.one_lt_two hlt
    have hpos := Nat.clog_pos Nat.one_lt_two hlt
    have hpow : 2 ^ Nat.clog 2 count = 2 * 2 ^ (Nat.clog 2 count).pred := by
      rw [← Nat.pow_succ', succ_pred_eq_of_pos hpos]
    omega
  · obtain rfl : count = 1 := by omega
    simpa using hadd

/-- All shares together. -/
theorem shares_total (hle : count ≤ 2 ^ log) :
    (shareWide count + count) * shareUnit log count = 2 ^ log := by
  have hclog : Nat.clog 2 count ≤ log := Nat.clog_le_of_le_pow hle
  rw [shareWide_add, shareUnit, ← Nat.pow_add, Nat.add_sub_cancel' hclog]

/-- The interval of an owner in whole shares. -/
theorem mem_share_iff : shareBase log count k ≤ y ∧ y < shareBase log count k + 2 ^ shareBits log count k ↔
    if k < shareWide count then count - shareWide count + 2 * k ≤ y / shareUnit log count ∧
        y / shareUnit log count < count - shareWide count + 2 * k + 2
    else y / shareUnit log count = k - shareWide count := by
  have hpos := shareUnit_pos log count
  rw [two_pow_shareBits]
  unfold shareBase
  split
  · rw [← Nat.add_mul, Nat.le_div_iff_mul_le hpos, Nat.div_lt_iff_lt_mul hpos]
  · rw [Nat.div_eq_iff hpos]
    omega

/-- Every number has one owner. -/
theorem exists_unique_share (hcount : 0 < count) (hle : count ≤ 2 ^ log) (hy : y < 2 ^ log) :
    ∃! k, k < count ∧ shareBase log count k ≤ y ∧
      y < shareBase log count k + 2 ^ shareBits log count k := by
  have hwide := shareWide_lt hcount
  have hshare : y / shareUnit log count < shareWide count + count := by
    rw [Nat.div_lt_iff_lt_mul (shareUnit_pos log count), shares_total hle]
    exact hy
  simp only [mem_share_iff]
  generalize y / shareUnit log count = s at hshare
  generalize shareWide count = w at hwide hshare
  by_cases hsingle : s < count - w
  · refine ⟨s + w, ⟨by omega, ?_⟩, fun k hk => ?_⟩
    · rw [if_neg (by omega)]
      omega
    · obtain ⟨hlt, hk⟩ := hk
      split at hk <;> omega
  · refine ⟨(s - (count - w)) / 2, ⟨by omega, ?_⟩, fun k hk => ?_⟩
    · rw [if_pos (by omega)]
      omega
    · obtain ⟨hlt, hk⟩ := hk
      split at hk <;> omega

/-- Every interval is inside. -/
theorem share_end_le (hk : k < count) (hle : count ≤ 2 ^ log) :
    shareBase log count k + 2 ^ shareBits log count k ≤ 2 ^ log := by
  rw [← shares_total hle, two_pow_shareBits, shareBase]
  split
  · rw [← Nat.add_mul]
    exact Nat.mul_le_mul_right _ (by omega)
  · rw [← succ_mul]
    exact Nat.mul_le_mul_right _ (by omega)

/-- No interval begins at the last number, if there are fewer owners than numbers. -/
theorem shareBase_lt_pred (hk : k < count) (hlt : count < 2 ^ log) :
    shareBase log count k < 2 ^ log - 1 := by
  have hpos := shareUnit_pos log count
  have htotal := shares_total (le_of_lt hlt)
  unfold shareBase
  rcases lt_or_ge 1 (shareUnit log count) with hunit | hunit
  · -- a whole share follows the base
    have hend (s : Nat) (hs : s + 1 ≤ shareWide count + count) :
        s * shareUnit log count < 2 ^ log - 1 := by
      have hle := Nat.mul_le_mul_right (shareUnit log count) hs
      rw [htotal, succ_mul] at hle
      omega
    split
    · exact hend _ (by omega)
    · exact hend _ (by omega)
  · obtain hone : shareUnit log count = 1 := by omega
    rw [hone, Nat.mul_one] at htotal
    rw [hone, Nat.mul_one, Nat.mul_one]
    split <;> omega

end
end Rkboot.Lib
