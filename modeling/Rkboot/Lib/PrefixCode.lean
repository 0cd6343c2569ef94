import Rkboot.Lib.Bits
import Mathlib.Algebra.BigOperators.Ring.Finset
import Mathlib.Algebra.Order.BigOperators.Group.Finset

/-! # Canonical prefix codes

A code for the symbols below `n` is given by their lengths, 0 for a symbol
without one. Codes are handed out in the order of length, then symbol; with
codes of at most `M` bits each takes the interval `[start, start + 2^(M - len))`
of the `M`-bit strings that begin with it. The intervals are disjoint, which is
what makes the code prefix-free, as long as they fit below `2^M`. -/
namespace Rkboot.Lib.PrefixCode
open Nat List Finset

section
variable (M n : Nat) (len : Nat → Nat)

/-- The size of all intervals. -/
def kraft : Nat := ∑ t ∈ Finset.range n with 0 < len t, 2 ^ (M - len t)

/-- The symbols that get their codes before symbol `s` among the codes of length `l`. -/
def before (l s : Nat) : Finset Nat :=
  {t ∈ Finset.range n | 0 < len t ∧ (len t < l ∨ len t = l ∧ t < s)}

/-- The size of the intervals given out before symbol `s` among the codes of length `l`. -/
def startAt (l s : Nat) : Nat := ∑ t ∈ before n len l s, 2 ^ (M - len t)

def start (s : Nat) : Nat := startAt M n len (len s) s

/-- How many codes have length `b`. -/
def count (b : Nat) : Nat := (Finset.filter (fun t => 0 < len t ∧ len t = b) (Finset.range n)).card

/-- The first code of length `b` (`next_code` of RFC 1951). -/
def firstCode : Nat → Nat
  | 0 => 0
  | b + 1 => (firstCode b + count n len b) * 2

/-- The code of a symbol: consecutive numbers for the symbols of one length. -/
def code (s : Nat) : Nat :=
  firstCode n len (len s) + (Finset.filter (fun t => len t = len s) (Finset.range s)).card

end

/-- A code's bits in the order of the stream, the most significant first. -/
def codeBits (c l : Nat) : List Bool := (List.range l).map fun i => c.testBit (l - 1 - i)

@[simp] theorem codeBits_length (c l : Nat) : (codeBits c l).length = l := by simp [codeBits]

theorem ofBits_codeBits (c l : Nat) : ofBits (codeBits c l) = rev l c := rfl

section
variable {M n : Nat} {len : Nat → Nat}

theorem before_succ {l s} (hl : 0 < l) (hs : s < n) : before n len l (s + 1) =
      if len s = l then insert s (before n len l s) else before n len l s := by
  split
  · ext t
    simp only [before, Finset.mem_filter, Finset.mem_range, mem_insert]
    by_cases hts : t = s
    · subst hts
      omega
    · omega
  · refine Finset.filter_congr fun t _ => ?_
    by_cases hts : t = s
    · subst hts
      omega
    · omega

theorem notMem_before_self (l s : Nat) : ¬ (len s = l ∧ s ∈ before n len l s) := by
  simp only [before, Finset.mem_filter]
  omega

theorem card_before_succ {l s} (hl : 0 < l) (hs : s < n) :
    (before n len l (s + 1)).card = (before n len l s).card + if len s = l then 1 else 0 := by
  rw [before_succ hl hs]
  split
  · next h => rw [card_insert_of_notMem fun hm => notMem_before_self l s ⟨h, hm⟩]
  · rfl

theorem startAt_succ {l s} (hl : 0 < l) (hs : s < n) :
    startAt M n len l (s + 1) = startAt M n len l s + if len s = l then 2 ^ (M - l) else 0 := by
  rw [startAt, before_succ hl hs]
  split
  · next h =>
    rw [sum_insert fun hm => notMem_before_self l s ⟨h, hm⟩, h, add_comm, startAt]
  · rfl

theorem before_next (l : Nat) : before n len l n = before n len (l + 1) 0 := by
  refine Finset.filter_congr fun t ht => ?_
  have := Finset.mem_range.mp ht
  omega

theorem before_one_zero : before n len 1 0 = ∅ := filter_false_of_mem fun t _ => by omega

theorem before_top (h : ∀ t < n, len t ≤ M) :
    before n len (M + 1) 0 = {t ∈ Finset.range n | 0 < len t} := by
  refine Finset.filter_congr fun t ht => ?_
  have := h t (Finset.mem_range.mp ht)
  omega

theorem startAt_next (l : Nat) : startAt M n len l n = startAt M n len (l + 1) 0 := by
  rw [startAt, before_next, startAt]

theorem startAt_one_zero : startAt M n len 1 0 = 0 := by
  rw [startAt, before_one_zero, sum_empty]

theorem startAt_top (h : ∀ t < n, len t ≤ M) : startAt M n len (M + 1) 0 = kraft M n len := by
  rw [startAt, before_top h, kraft]

theorem startAt_le_kraft (l s : Nat) : startAt M n len l s ≤ kraft M n len := by
  apply sum_le_sum_of_subset
  intro t
  simp only [before, Finset.mem_filter, Finset.mem_range]
  omega

/-- A single code of one bit leaves half of the strings unused. -/
theorem kraft_single {s} (hs : s < n) (h : ∀ u < n, len u = if u = s then 1 else 0) :
    kraft M n len ≤ 2 ^ M := by
  have hset : (Finset.filter (fun t => 0 < len t) (Finset.range n)) = {s} := by
    ext t
    rw [Finset.mem_filter, Finset.mem_range, Finset.mem_singleton]
    constructor
    · rintro ⟨ht, h0⟩
      rw [h t ht] at h0
      by_contra hne
      rw [if_neg hne] at h0
      exact absurd h0 (lt_irrefl 0)
    · rintro rfl
      exact ⟨hs, by rw [h t hs, if_pos rfl]; exact one_pos⟩
  rw [kraft, hset, Finset.sum_singleton]
  exact Nat.pow_le_pow_right (by decide) (sub_le _ _)

theorem dvd_startAt (l s : Nat) : 2 ^ (M - l) ∣ startAt M n len l s := by
  apply Finset.dvd_sum
  intro t ht
  simp only [before, Finset.mem_filter] at ht
  exact pow_dvd_pow 2 (by omega)

/-- The interval of an earlier code ends before that of a later one. -/
theorem start_add_le {s t} (hs : s < n) (h0 : 0 < len s)
    (hlt : len s < len t ∨ len s = len t ∧ s < t) :
    start M n len s + 2 ^ (M - len s) ≤ start M n len t := by
  have hstep := @startAt_succ M n len _ s h0 hs
  rw [if_pos rfl] at hstep
  rw [start, ← hstep, start]
  apply sum_le_sum_of_subset
  intro u
  simp only [before, Finset.mem_filter, Finset.mem_range]
  omega

theorem start_add_le_kraft {s} (hs : s < n) (h0 : 0 < len s) :
    start M n len s + 2 ^ (M - len s) ≤ kraft M n len := by
  have hstep := @startAt_succ M n len _ s h0 hs
  rw [if_pos rfl] at hstep
  rw [start, ← hstep]
  exact startAt_le_kraft _ _

theorem start_lt {s} (hs : s < n) (h0 : 0 < len s) (hk : kraft M n len ≤ 2 ^ M) :
    start M n len s < 2 ^ M := by
  have := start_add_le_kraft (M := M) hs h0
  have := Nat.two_pow_pos (M - len s)
  omega

theorem rev_start_lt {s} (hM : len s ≤ M) : rev M (start M n len s) < 2 ^ len s := by
  obtain ⟨c, hc⟩ := @dvd_startAt M n len (len s) s
  rw [start, hc, mul_comm, ← shiftLeft_eq, rev_shiftLeft hM]
  exact rev_lt _ _

/-- A string that begins with the codes of two symbols begins with one code. -/
theorem prefix_free {s t X} (hk : kraft M n len ≤ 2 ^ M) (hM : ∀ u < n, len u ≤ M) (hs : s < n)
    (hs0 : 0 < len s) (ht : t < n) (ht0 : 0 < len t) (hxs : X % 2 ^ len s = rev M (start M n len s))
    (hxt : X % 2 ^ len t = rev M (start M n len t)) : s = t := by
  rw [mod_eq_rev_iff (hM s hs) (start_lt hs hs0 hk) (dvd_startAt _ _)] at hxs
  rw [mod_eq_rev_iff (hM t ht) (start_lt ht ht0 hk) (dvd_startAt _ _)] at hxt
  by_contra hne
  rcases (by omega : (len s < len t ∨ len s = len t ∧ s < t) ∨
      (len t < len s ∨ len t = len s ∧ t < s)) with h | h
  · have := start_add_le (M := M) hs hs0 h
    omega
  · have := start_add_le (M := M) ht ht0 h
    omega

/-! ## The codes of RFC 1951 -/

theorem firstCode_mul {b} (hb : 0 < b) (hbM : b ≤ M) :
    firstCode n len b * 2 ^ (M - b) = startAt M n len b 0 := by
  induction b with
  | zero => omega
  | succ b ih =>
    have hcount : startAt M n len (b + 1) 0 =
        startAt M n len b 0 + count n len b * 2 ^ (M - b) := by
      have hconst : ∑ t ∈ Finset.range n with 0 < len t ∧ len t = b, 2 ^ (M - len t) =
          count n len b * 2 ^ (M - b) := Finset.sum_const_nat fun t ht => by
        rw [(Finset.mem_filter.mp ht).2.2]
      rw [← hconst, startAt, startAt, ← sum_union]
      · refine sum_congr (Finset.ext fun t => ?_) fun _ _ => rfl
        simp only [before, Finset.mem_filter, Finset.mem_range, mem_union]
        omega
      · rw [Finset.disjoint_left]
        intro t
        simp only [before, Finset.mem_filter]
        omega
    have hpow : 2 * 2 ^ (M - (b + 1)) = 2 ^ (M - b) := by
      rw [← Nat.pow_succ', show (M - (b + 1)).succ = M - b by omega]
    rw [firstCode, mul_assoc, hpow, add_mul, hcount]
    rcases Nat.eq_zero_or_pos b with rfl | hb'
    · simp [firstCode, startAt, before]
    · rw [ih hb' (by omega)]

/-- The code of a symbol is the start of its interval. -/
theorem code_mul {s} (hs : s ≤ n) (h0 : 0 < len s) (hM : len s ≤ M) :
    code n len s * 2 ^ (M - len s) = start M n len s := by
  have hrank : ∀ k ≤ s, startAt M n len (len s) k = startAt M n len (len s) 0 +
      (Finset.filter (fun t => len t = len s) (Finset.range k)).card * 2 ^ (M - len s) := by
    intro k hk
    induction k with
    | zero => simp
    | succ k ih =>
      rw [startAt_succ h0 (by omega), ih (by omega), range_add_one, filter_insert]
      split
      · rw [card_insert_of_notMem (by simp), add_mul, one_mul, add_assoc]
      · rw [add_zero]
  rw [code, add_mul, firstCode_mul h0 hM, start, hrank s le_rfl]

/-- The bits of a code are its interval's start, reversed. -/
theorem ofBits_code {s} (hs : s ≤ n) (h0 : 0 < len s) (hM : len s ≤ M) :
    ofBits (codeBits (code n len s) (len s)) = rev M (start M n len s) := by
  rw [ofBits_codeBits, ← code_mul hs h0 hM, ← shiftLeft_eq, rev_shiftLeft hM]

/-! ## Only the symbols of the alphabet count -/

variable {len' : Nat → Nat}

theorem kraft_congr (h : ∀ t < n, len t = len' t) : kraft M n len = kraft M n len' := by
  unfold kraft
  rw [Finset.filter_congr fun t ht => by rw [h t (Finset.mem_range.mp ht)]]
  exact sum_congr rfl fun t ht => by
    rw [h t (Finset.mem_range.mp (Finset.mem_filter.mp ht).1)]

theorem firstCode_congr (h : ∀ t < n, len t = len' t) (b : Nat) :
    firstCode n len b = firstCode n len' b := by
  induction b with
  | zero => rfl
  | succ b ih =>
    have hcount : count n len b = count n len' b := by
      unfold count
      rw [Finset.filter_congr fun t ht => by rw [h t (Finset.mem_range.mp ht)]]
    rw [firstCode, firstCode, ih, hcount]

theorem code_congr (h : ∀ t < n, len t = len' t) {s} (hs : s < n) :
    code n len s = code n len' s := by
  unfold code
  rw [h s hs, firstCode_congr h, Finset.filter_congr fun t ht => by
    rw [h t (lt_trans (Finset.mem_range.mp ht) hs)]]

end

/-! ## Encoded strings -/

section
variable {α : Type} {Coded : α → Prop} {code : α → List Bool} {xs ys : List α} {r r' : List Bool}

/-- What begins with the codes of two symbols begins with one code. -/
def Free (Coded : α → Prop) (code : α → List Bool) : Prop :=
  ∀ s t bits, Coded s → Coded t → code s <+: bits → code t <+: bits → s = t

theorem Free.cons_inj (h : Free Coded code) {x y} (hx : Coded x) (hy : Coded y)
    (heq : (x :: xs).flatMap code ++ r = (y :: ys).flatMap code ++ r') :
    x = y ∧ xs.flatMap code ++ r = ys.flatMap code ++ r' := by
  rw [flatMap_cons, flatMap_cons, append_assoc, append_assoc] at heq
  obtain rfl := h x y _ hx hy ⟨_, rfl⟩ ⟨_, heq.symm⟩
  exact ⟨rfl, append_cancel_left heq⟩

/-- A string of symbols can be read back from its code. -/
theorem Free.inj (h : Free Coded code) (hxs : ∀ s ∈ xs, Coded s) (hys : ∀ s ∈ ys, Coded s)
    (hlength : xs.length = ys.length) (heq : xs.flatMap code ++ r = ys.flatMap code ++ r') :
    xs = ys ∧ r = r' := by
  induction xs generalizing ys with
  | nil =>
    obtain rfl := eq_nil_of_length_eq_zero hlength.symm
    exact ⟨rfl, heq⟩
  | cons x xs ih =>
    cases ys with
    | nil => cases hlength
    | cons y ys =>
      obtain ⟨rfl, htail⟩ := h.cons_inj (hxs x (by simp)) (hys y (by simp)) heq
      obtain ⟨rfl, hr⟩ := ih (fun s hs => hxs s (by simp [hs])) (fun s hs => hys s (by simp [hs]))
        (Nat.succ.inj hlength) htail
      exact ⟨rfl, hr⟩

/-- Where a string goes on, a code does. -/
theorem Free.next (h : Free Coded code) (hxs : ∀ s ∈ xs, Coded s) (hys : ∀ s ∈ ys, Coded s)
    (hlength : xs.length < ys.length) (heq : xs.flatMap code ++ r = ys.flatMap code ++ r') :
    ∃ s, Coded s ∧ code s <+: r := by
  induction xs generalizing ys with
  | nil =>
    cases ys with
    | nil => cases hlength
    | cons y ys =>
      refine ⟨y, hys y (by simp), ys.flatMap code ++ r', ?_⟩
      rw [← append_assoc, ← flatMap_cons, ← heq]
      rfl
  | cons x xs ih =>
    cases ys with
    | nil => cases hlength
    | cons y ys =>
      obtain ⟨rfl, htail⟩ := h.cons_inj (hxs x (by simp)) (hys y (by simp)) heq
      exact ih (fun s hs => hxs s (by simp [hs])) (fun s hs => hys s (by simp [hs]))
        (lt_of_succ_lt_succ hlength) htail

end
end Rkboot.Lib.PrefixCode
