import Rkboot.Compression.Inflate
import Rkboot.Lib.PrefixCode
import Rkboot.Lib.Loop

/-! # The Huffman tables of the gzip decompressor

`construct_codes` gives out the canonical codes in reversed bit order, and stops
at its assertion exactly for over-subscribed lengths. A table that
`construct_dectable` builds from them finds a symbol from any bits that start
with its code. -/
namespace Rkboot.Compression.Inflate
open Lib PrefixCode Nat List Finset

variable {pos K i l s code len v idx sym t k size suffix j bits : Nat}

/-! ## Codes -/

theorem rev15_testBit (hpos : pos < 15) (K : Nat) :
    (rev 15 K).testBit pos = K.testBit (14 - pos) := by
  rw [rev_testBit, decide_eq_true hpos, Bool.true_and]

theorem rev15_xor (hpos : pos < 15) (K : Nat) :
    rev 15 K ^^^ 1 <<< pos = rev 15 (K ^^^ 2 ^ (14 - pos)) := by
  rw [one_shiftLeft, ← rev_xor_two_pow hpos]

/-- Where the bit is not set there is no carry. -/
theorem rev15_or (hpos : pos < 15) (hK : K < 2 ^ 15) (hb : K.testBit (14 - pos) = false) :
    K + 2 ^ (14 - pos) < 2 ^ 15 ∧ rev 15 K ||| 1 <<< pos = rev 15 (K + 2 ^ (14 - pos)) := by
  have hor := or_two_pow_eq_add hb
  constructor
  · rw [← hor]
    exact or_lt_two_pow hK (Nat.pow_lt_pow_right (by decide) (by omega))
  · rw [← hor, ← xor_two_pow_of_not_testBit hb, ← rev15_xor hpos, one_shiftLeft,
      xor_two_pow_of_not_testBit ((rev15_testBit hpos K).trans hb)]

/-- Clearing the lowest bit of a left-aligned code leaves a code that is one bit shorter. -/
theorem dvd_xor_of_testBit (hdvd : 2 ^ i ∣ K) (hb : K.testBit i = true) :
    2 ^ (i + 1) ∣ K ^^^ 2 ^ i := by
  obtain ⟨c, rfl⟩ := hdvd
  have hodd : c % 2 = 1 := by
    rw [testBit_two_pow_mul] at hb
    simpa using hb
  refine ⟨c / 2, ?_⟩
  have hsplit : 2 ^ i * c = 2 ^ (i + 1) * (c / 2) + 2 ^ i := by
    conv_lhs => rw [show c = 2 * (c / 2) + 1 by omega]
    ring
  have := xor_two_pow_add hb
  omega

/-- The carry of `construct_codes` runs through the reversed bits; read left-aligned, the code
grows by the size of its interval, and behind the last code there is no next one. -/
theorem increment_rev {pos K} (hpos : pos < 15) (hK : K < 2 ^ 15) (hdvd : 2 ^ (14 - pos) ∣ K) :
    increment pos (rev 15 K) =
      if K + 2 ^ (14 - pos) < 2 ^ 15 then some (rev 15 (K + 2 ^ (14 - pos))) else none := by
  induction pos generalizing K with
  | zero =>
    rw [increment, rev15_testBit hpos]
    cases hb : K.testBit (14 - 0) with
    | true =>
      have hadd := xor_two_pow_add hb
      rw [if_pos rfl, if_neg]
      omega
    | false =>
      obtain ⟨hlt, hrev⟩ := rev15_or hpos hK hb
      rw [if_neg (by decide), if_pos hlt, hrev]
  | succ pos ih =>
    rw [increment, rev15_testBit hpos]
    cases hb : K.testBit (14 - (pos + 1)) with
    | true =>
      -- the bit is cleared and the carry goes one position on
      have hadd := xor_two_pow_add hb
      have hdvd' := dvd_xor_of_testBit hdvd hb
      have hsucc : 14 - (pos + 1) + 1 = 14 - pos := by omega
      rw [hsucc] at hdvd'
      have hpow : 2 ^ (14 - pos) = 2 * 2 ^ (14 - (pos + 1)) := by rw [← hsucc, Nat.pow_succ']
      rw [if_pos rfl, rev15_xor hpos, ih (by omega) (by omega) hdvd',
        show (K ^^^ 2 ^ (14 - (pos + 1))) + 2 ^ (14 - pos) = K + 2 ^ (14 - (pos + 1)) by omega]
    | false =>
      obtain ⟨hlt, hrev⟩ := rev15_or hpos hK hb
      rw [if_neg (by decide), if_pos hlt, hrev]

theorem add_le_of_dvd {d a b : Nat} (ha : d ∣ a) (hb : d ∣ b) (h : a < b) : a + d ≤ b := by
  obtain ⟨x, rfl⟩ := ha
  obtain ⟨y, rfl⟩ := hb
  exact Nat.mul_le_mul_left _ (Nat.lt_of_mul_lt_mul_left h)

/-! The state of the loops at length `l` and symbol `s`. -/

section
variable {n : Nat} {lengths : Nat → Nat}

structure Allocated (n : Nat) (lengths codes0 : Nat → Nat) (l s : Nat) (a : Alloc) : Prop where
  code : a.code = if startAt 15 n lengths l s < 2 ^ 15 then some (rev 15 (startAt 15 n lengths l s))
    else none
  count : startAt 15 n lengths l s ≤ 2 ^ 15 → a.allocated = (before n lengths l s).card
  lost : 2 ^ 15 < startAt 15 n lengths l s → a.allocated < (before n lengths l s).card
  given : ∀ t ∈ before n lengths l s, start 15 n lengths t < 2 ^ 15 →
    a.codes t = rev 15 (start 15 n lengths t)
  rest : ∀ t, t ∉ before n lengths l s → a.codes t = codes0 t

theorem allocSym_none {a : Alloc} (h : a.code = none) (s : Nat) : allocSym lengths l a s = a := by
  rw [allocSym, h]

theorem allocSym_ne (h : lengths s ≠ l) (a : Alloc) : allocSym lengths l a s = a := by
  unfold allocSym
  split
  · rfl
  · exact if_pos h

theorem allocSym_eq {a : Alloc} (h : lengths s = l) (hc : a.code = some code) :
    allocSym lengths l a s =
      ⟨increment (l - 1) code, Function.update a.codes s code, a.allocated + 1⟩ := by
  rw [allocSym, hc]
  exact if_neg (not_not.mpr h)

theorem allocSym_allocated {codes0 : Nat → Nat} {a : Alloc} (hl : 0 < l) (hl15 : l ≤ 15)
    (hs : s < n) (h : Allocated n lengths codes0 l s a) :
    Allocated n lengths codes0 l (s + 1) (allocSym lengths l a s) := by
  obtain ⟨hcode, hcount, hover, hgiven, hrest⟩ := h
  have hstart := @startAt_succ 15 n lengths l s hl hs
  have hcard := @card_before_succ n lengths l s hl hs
  have hset := @before_succ n lengths l s hl hs
  by_cases hlen : lengths s = l
  · rw [if_pos hlen] at hstart hcard hset
    by_cases hlt : startAt 15 n lengths l s < 2 ^ 15
    · rw [allocSym_eq hlen (hcode.trans (if_pos hlt))]
      have hdvd := @dvd_startAt 15 n lengths l s
      have hinc := @increment_rev (l - 1) _ (by omega) hlt
        (by rwa [show 14 - (l - 1) = 15 - l by omega])
      rw [show 14 - (l - 1) = 15 - l by omega, ← hstart] at hinc
      have hle : startAt 15 n lengths l (s + 1) ≤ 2 ^ 15 := by
        rw [hstart]
        exact add_le_of_dvd hdvd (pow_dvd_pow 2 (by omega)) hlt
      refine ⟨hinc, fun _ => ?_, fun h => by omega, ?_, ?_⟩ <;> dsimp only
      · rw [hcard, hcount (by omega)]
      · intro t ht hlt'
        rw [hset, mem_insert] at ht
        by_cases hts : t = s
        · subst hts
          rw [Function.update_self, start, hlen]
        · rw [Function.update_of_ne hts]
          exact hgiven t (ht.resolve_left hts) hlt'
      · intro t ht
        rw [hset, mem_insert, not_or] at ht
        rw [Function.update_of_ne ht.1]
        exact hrest t ht.2
    · -- behind `goto end`: the symbol gets no code
      have hpos := Nat.two_pow_pos (15 - l)
      have hnone := hcode.trans (if_neg hlt)
      rw [allocSym_none hnone]
      refine ⟨by rw [hnone, if_neg (by omega)], fun h => by omega, fun _ => ?_, ?_, ?_⟩
      · rw [hcard]
        rcases lt_or_ge (2 ^ 15) (startAt 15 n lengths l s) with h | h
        · omega
        · rw [hcount h]
          exact lt_succ_self _
      · intro t ht hlt'
        rw [hset, mem_insert] at ht
        rcases ht with rfl | ht
        · rw [start, hlen] at hlt'
          exact absurd hlt' hlt
        · exact hgiven t ht hlt'
      · intro t ht
        rw [hset, mem_insert, not_or] at ht
        exact hrest t ht.2
  · rw [if_neg hlen] at hstart hcard hset
    rw [allocSym_ne hlen]
    constructor <;> simp only [hset, hstart, add_zero] <;> assumption

theorem Allocated.next {codes0 l a}
    (h : Allocated n lengths codes0 l n a) : Allocated n lengths codes0 (l + 1) 0 a := by
  obtain ⟨hcode, hcount, hover, hgiven, hrest⟩ := h
  rw [startAt_next, before_next] at *
  exact ⟨hcode, hcount, hover, hgiven, hrest⟩

theorem allocated_start (codes0 : Nat → Nat) :
    Allocated n lengths codes0 1 0 ⟨some 0, codes0, 0⟩ := by
  constructor <;> simp only [startAt_one_zero, before_one_zero]
  · rfl
  · exact fun _ => rfl
  · exact fun h => absurd h (by decide)
  · exact fun t ht => absurd ht (notMem_empty t)
  · exact fun _ _ => trivial

theorem activeSyms_eq_card (n : Nat) (lengths : Nat → Nat) :
    activeSyms n lengths = (Finset.filter (fun t => 0 < lengths t) (Finset.range n)).card := by
  rw [activeSyms, countP_range_eq_card]
  congr 1
  exact Finset.filter_congr fun t _ => by simp [pos_iff_ne_zero]

theorem constructCodes_eq (codes : Nat → Nat) :
    ∃ a, Allocated n lengths (clearUnused n lengths codes) 16 0 a ∧ constructCodes n lengths codes =
        if activeSyms n lengths = a.allocated then .ok a.codes else .error .assertion := by
  refine ⟨_, ?_, rfl⟩
  refine @foldl_range'_inv _ _ 1 15 _ (Allocated n lengths (clearUnused n lengths codes) · 0 ·)
    (allocated_start _) fun l a hl hl15 ha => Allocated.next ?_
  exact foldl_range_inv (Allocated n lengths (clearUnused n lengths codes) l · ·) ha
    fun s a hs h => allocSym_allocated hl (by omega) hs h

/-- Lengths that are not over-subscribed get the canonical codes. -/
theorem constructCodes_ok (hlen : ∀ t < n, lengths t ≤ 15) (hk : kraft 15 n lengths ≤ 2 ^ 15)
    (codes : Nat → Nat) : ∃ codes', constructCodes n lengths codes = .ok codes' ∧
      ∀ s < n, 0 < lengths s → codes' s = rev 15 (start 15 n lengths s) := by
  obtain ⟨a, ha, he⟩ := @constructCodes_eq n lengths codes
  have htop : before n lengths 16 0 = _ := before_top hlen
  have hstart : startAt 15 n lengths 16 0 = _ := startAt_top hlen
  rw [activeSyms_eq_card, ← htop, ← ha.count (by rwa [hstart]), if_pos rfl] at he
  refine ⟨a.codes, he, fun s hs h0 => ha.given s ?_ (start_lt hs h0 hk)⟩
  rw [htop, Finset.mem_filter, Finset.mem_range]
  exact ⟨hs, h0⟩

/-- Over-subscribed lengths do not get past the assertion. -/
theorem constructCodes_over (hlen : ∀ t < n, lengths t ≤ 15)
    (hk : 2 ^ 15 < kraft 15 n lengths) (codes : Nat → Nat) :
    constructCodes n lengths codes = .error .assertion := by
  obtain ⟨a, ha, he⟩ := @constructCodes_eq n lengths codes
  have htop : before n lengths 16 0 = _ := before_top hlen
  have hstart : startAt 15 n lengths 16 0 = _ := startAt_top hlen
  have hover := ha.lost (by rwa [hstart])
  rw [activeSyms_eq_card, ← htop, if_neg (by omega)] at he
  exact he

end

/-! ## The 11-bit table -/

/-- The value a symbol stores at an index of the table. -/
def Enters (lengths codes : Nat → Nat) (sym idx v : Nat) : Prop :=
  (0 < lengths sym ∧ lengths sym ≤ 11 ∧ idx % 2 ^ lengths sym = codes sym ∧
    v = (lengths sym ||| sym <<< 4)) ∨
  (12 ≤ lengths sym ∧ idx = codes sym % 2 ^ 11 ∧ v = 12)

section
variable {n : Nat} {lengths codes : Nat → Nat}

theorem fill_apply (hlen : len ≤ 11) (hcode : code < 2 ^ len) (hidx : idx < 2048) (t : Nat → Nat) :
    (List.range (2048 >>> len)).foldl (fun t i => Function.update t (i <<< len ||| code) v) t idx =
      if idx % 2 ^ len = code then v else t idx := by
  have hinv := @foldl_range_inv _ (fun t i => Function.update t (i <<< len ||| code) v)
    (2048 >>> len) t
    (fun k t' => t' idx = if idx / 2 ^ len < k ∧ idx % 2 ^ len = code then v else t idx)
    (by simp) (by
      intro i t' _ ih
      have hadd : i <<< len ||| code = i * 2 ^ len + code := by
        rw [← shiftLeft_add_eq_or_of_lt hcode, shiftLeft_eq]
      have hiff : idx = i * 2 ^ len + code ↔ idx / 2 ^ len = i ∧ idx % 2 ^ len = code := by
        constructor
        · rintro rfl
          rw [add_comm, add_mul_div_right _ _ (Nat.two_pow_pos len),
            div_eq_of_lt hcode, add_mul_mod_self_right, mod_eq_of_lt hcode]
          simp
        · rintro ⟨rfl, rfl⟩
          rw [mul_comm, div_add_mod]
      rw [Function.update_apply, hadd, ih]
      by_cases h : idx = i * 2 ^ len + code
      · rw [if_pos h, if_pos]
        exact ⟨by omega, (hiff.mp h).2⟩
      · rw [if_neg h]
        congr 1
        exact propext ⟨fun h' => ⟨by omega, h'.2⟩, fun h' => ⟨by omega, h'.2⟩⟩)
  rw [hinv]
  have hlt : idx / 2 ^ len < 2048 >>> len := by
    rw [shiftRight_eq_div_pow]
    have : 2 ^ len ∣ 2048 := pow_dvd_pow 2 hlen
    exact div_lt_div_of_lt_of_dvd this hidx
  simp [hlt]

theorem enterSym_apply (hcode : 0 < lengths sym → codes sym < 2 ^ lengths sym) (hidx : idx < 2048)
    (t : Nat → Nat) : (∀ v, Enters lengths codes sym idx v → enterSym lengths codes t sym idx = v) ∧
    ((∀ v, ¬ Enters lengths codes sym idx v) → enterSym lengths codes t sym idx = t idx) := by
  unfold enterSym Enters
  by_cases h0 : lengths sym = 0
  · rw [if_pos h0]
    exact ⟨fun v h => by omega, fun _ => rfl⟩
  rw [if_neg h0]
  by_cases h11 : lengths sym ≤ 11
  · rw [if_pos h11, fill_apply h11 (hcode (by omega)) hidx]
    constructor
    · rintro v (⟨_, _, hm, rfl⟩ | ⟨h, _⟩)
      · rw [if_pos hm]
      · omega
    · intro h
      rw [if_neg fun hm => h _ (.inl ⟨by omega, h11, hm, rfl⟩)]
  · rw [if_neg h11, show codes sym &&& 0x7ff = codes sym % 2 ^ 11 from
      and_two_pow_sub_one_eq_mod _ 11, Function.update_apply]
    constructor
    · rintro v (⟨_, h, _⟩ | ⟨_, hi, rfl⟩)
      · omega
      · rw [if_pos hi]
    · intro h
      rw [if_neg fun hi => h _ (.inr ⟨by omega, hi, rfl⟩)]

/-- An index of the table holds what the symbols that store there agree on, or the filler. -/
theorem dectable_apply (hcode : ∀ s < n, 0 < lengths s → codes s < 2 ^ lengths s)
    (hidx : idx < 2048) : (∀ v s, s < n → Enters lengths codes s idx v →
      (∀ t w, t < n → Enters lengths codes t idx w → w = v) →
      (List.range n).foldl (enterSym lengths codes) (fun _ => 10) idx = v) ∧
    ((∀ s v, s < n → ¬ Enters lengths codes s idx v) →
      (List.range n).foldl (enterSym lengths codes) (fun _ => 10) idx = 10) := by
  have hinv := @foldl_range_inv _ (enterSym lengths codes) n (fun _ => 10)
    (fun k t => (∀ v s, s < k → Enters lengths codes s idx v →
        (∀ t w, t < k → Enters lengths codes t idx w → w = v) → t idx = v) ∧
      ((∀ s v, s < k → ¬ Enters lengths codes s idx v) → t idx = 10))
    ⟨fun _ _ h => by omega, fun _ => rfl⟩ (by
      intro k t hk ⟨ih1, ih2⟩
      obtain ⟨he, hn⟩ := enterSym_apply (hcode k hk) hidx t
      by_cases hex : ∃ w, Enters lengths codes k idx w
      · obtain ⟨w, hw⟩ := hex
        exact ⟨fun v s _ _ hall => by rw [he w hw, hall k w (by omega) hw],
          fun h => absurd hw (h k w (by omega))⟩
      · rw [not_exists] at hex
        rw [hn hex]
        refine ⟨fun v s hs hv hall => ?_, fun h => ih2 fun s v hs => h s v (by omega)⟩
        have hsk : s ≠ k := fun h => hex v (h ▸ hv)
        exact ih1 v s (by omega) hv fun t w ht => hall t w (by omega))
  exact hinv

/-! ## Overlength symbols -/

theorem overlengthCount_succ (k len : Nat) : overlengthCount lengths (k + 1) len =
      overlengthCount lengths k len + if lengths k = len then 1 else 0 := by
  simp only [overlengthCount, range_succ, countP_append, countP_singleton, decide_eq_true_eq]

theorem overlengthCount_mono {j k} (h : j ≤ k) (len : Nat) :
    overlengthCount lengths j len ≤ overlengthCount lengths k len := by
  induction h with
  | refl => exact le_rfl
  | step _ ih =>
    rw [overlengthCount_succ]
    omega

/-- Every number below the count is the rank of a symbol. -/
theorem exists_rank {k len i} (h : i < overlengthCount lengths k len) :
    ∃ t < k, lengths t = len ∧ overlengthCount lengths t len = i := by
  induction k with
  | zero => exact absurd h (Nat.not_lt_zero _)
  | succ k ih =>
    rw [overlengthCount_succ] at h
    by_cases hi : i < overlengthCount lengths k len
    · obtain ⟨t, ht, h⟩ := ih hi
      exact ⟨t, by omega, h⟩
    · split at h
      · next hk => exact ⟨k, by omega, hk, by omega⟩
      · omega

theorem rank_lt (hs : lengths s = len) (h : s < t) :
    overlengthCount lengths s len < overlengthCount lengths t len := by
  have hstep := @overlengthCount_succ lengths s len
  have hmono := @overlengthCount_mono lengths (s + 1) t h len
  rw [if_pos hs] at hstep
  omega

theorem overlengthOffset_mono {i j} (h : i ≤ j) :
    overlengthOffset lengths n i ≤ overlengthOffset lengths n j := by
  induction h with
  | refl => exact le_rfl
  | step _ ih =>
    rw [overlengthOffset]
    omega

theorem overlengthOffset_four_le (n : Nat) : overlengthOffset lengths n 4 ≤ n := by
  simp only [overlengthOffset]
  induction n with
  | zero => simp [overlengthCount]
  | succ n ih =>
    simp only [overlengthCount_succ]
    split_ifs <;> omega

/-- Where a symbol with a long code is listed. -/
def place (n : Nat) (lengths : Nat → Nat) (sym : Nat) : Nat :=
  overlengthOffset lengths n (lengths sym - 12) + overlengthCount lengths sym (lengths sym)

theorem place_lt (hs : s < n) (h12 : 12 ≤ lengths s) :
    place n lengths s < overlengthOffset lengths n (lengths s - 11) := by
  rw [place, show lengths s - 11 = lengths s - 12 + 1 by omega, overlengthOffset,
    show 12 + (lengths s - 12) = lengths s by omega]
  exact Nat.add_lt_add_left (rank_lt rfl hs) _

theorem place_ne (ht : t < n) (hst : s < t) (hs12 : 12 ≤ lengths s)
    (ht12 : 12 ≤ lengths t) : place n lengths s ≠ place n lengths t := by
  rcases lt_trichotomy (lengths s) (lengths t) with h | h | h
  · have hlt := place_lt (by omega : s < n) hs12
    have hle := @overlengthOffset_mono n lengths (lengths s - 11) (lengths t - 12) (by omega)
    simp only [place] at *
    omega
  · have hrank := rank_lt h hst
    simp only [place, h] at *
    omega
  · have hlt := place_lt ht ht12
    have hle := @overlengthOffset_mono n lengths (lengths t - 11) (lengths s - 12) (by omega)
    simp only [place] at *
    omega

/-- The second pass in front of symbol `k`. -/
def Placed (n : Nat) (lengths codes : Nat → Nat) (k : Nat) (t : (Nat → Nat) × (Nat → Nat)) : Prop :=
  (∀ j, t.1 j = overlengthCount lengths k (12 + j)) ∧
  ∀ s, s < k → 12 ≤ lengths s → t.2 (place n lengths s) = s ||| codes s <<< 9

theorem placeSym_placed {t} (hk : k < n) (h : Placed n lengths codes k t) :
    ∃ t', placeSym lengths codes (overlengthOffset lengths n) t k = .ok t' ∧
      Placed n lengths codes (k + 1) t' := by
  obtain ⟨count, overlength⟩ := t
  obtain ⟨hcount, hlist⟩ := h
  by_cases h12 : lengths k < 12
  · refine ⟨_, if_pos h12, fun j => ?_, fun s hs hs12 => ?_⟩
    · rw [hcount, overlengthCount_succ, if_neg (by omega), add_zero]
    · have : s ≠ k := fun h => absurd (h ▸ hs12) (by omega)
      exact hlist s (by omega) hs12
  · rw [not_lt] at h12
    have hidx : count (lengths k - 12) + overlengthOffset lengths n (lengths k - 12) =
        place n lengths k := by
      rw [show count (lengths k - 12) = _ from hcount _, place, add_comm,
        show 12 + (lengths k - 12) = lengths k by omega]
    refine ⟨(Function.update count (lengths k - 12) (count (lengths k - 12) + 1),
      Function.update overlength (place n lengths k) (k ||| codes k <<< 9)), ?_, fun j => ?_,
      fun s hs hs12 => ?_⟩
    · rw [placeSym, if_neg (by omega)]
      rw [hidx, if_pos (place_lt hk h12)]
    · dsimp only at hcount ⊢
      rw [Function.update_apply, overlengthCount_succ, hcount j]
      by_cases hj : j = lengths k - 12
      · rw [if_pos hj, if_pos (by omega), hcount, ← hj]
      · rw [if_neg hj, if_neg (by omega), add_zero]
    · dsimp only at hlist ⊢
      by_cases hsk : s = k
      · rw [hsk, Function.update_self]
      · rw [Function.update_of_ne (place_ne hk (by omega) hs12 h12)]
        exact hlist s (by omega) hs12

/-- A table as `construct_dectable` leaves it. -/
structure Built (n : Nat) (lengths codes : Nat → Nat) (t : HuffTable) : Prop where
  dectable : t.dectable = (List.range n).foldl (enterSym lengths codes) fun _ => 10
  oloff : t.oloff = overlengthOffset lengths n
  listed : ∀ s, s < n → 12 ≤ lengths s → t.overlength (place n lengths s) = s ||| codes s <<< 9

theorem constructDectable_ok (hlen : ∀ s < n, lengths s ≤ 15) (overlength : Nat → Nat) :
    ∃ t, constructDectable n lengths codes overlength = .ok t ∧ Built n lengths codes t := by
  obtain ⟨⟨count, overlength'⟩, hfold, hcount, hlist⟩ := @foldlM_range_ok _ _
    (placeSym lengths codes (overlengthOffset lengths n)) n (fun _ => 0, overlength)
    (Placed n lengths codes) ⟨fun _ => rfl, fun _ h => by omega⟩ fun _ _ hk h => placeSym_placed hk h
  have hany : ¬ ((List.range n).any fun sym => decide (15 < lengths sym)) = true := by
    simpa using hlen
  have hall : ((List.range 4).all fun i => overlengthOffset lengths n i + count i ==
      overlengthOffset lengths n (i + 1)) = true := by
    simp only [all_eq_true, beq_iff_eq]
    exact fun i _ => by rw [show count i = _ from hcount i, overlengthOffset]
  refine ⟨⟨_, _, overlength'⟩, ?_, rfl, rfl, hlist⟩
  rw [constructDectable, if_neg hany]
  dsimp only [bind, Except.bind, pure, Except.pure]
  rw [hfold]
  dsimp only
  rw [if_pos hall]

end

/-! ## Decoding a symbol -/

theorem search_none {overlength : Nat → Nat} (hsize : i + k ≤ size)
    (h : ∀ j, i ≤ j → j < i + k → overlength j >>> 9 ≠ suffix) :
    search overlength size suffix k i = .ok none := by
  induction k generalizing i with
  | zero => rfl
  | succ k ih =>
    rw [search, if_neg (by omega), if_neg (h i (by omega) (by omega))]
    exact ih (by omega) fun j h1 h2 => h j (by omega) (by omega)

theorem search_some {overlength : Nat → Nat} (hsize : i + k ≤ size)
    (hi : i ≤ j) (hj : j < i + k) (hsuffix : overlength j >>> 9 = suffix)
    (h : ∀ j, i ≤ j → j < i + k → overlength j >>> 9 = suffix → overlength j &&& 0x1ff = sym) :
    search overlength size suffix k i = .ok (some sym) := by
  induction k generalizing i with
  | zero => omega
  | succ k ih =>
    rw [search, if_neg (by omega)]
    by_cases he : overlength i >>> 9 = suffix
    · rw [if_pos he, h i (by omega) (by omega) he]
    · rw [if_neg he]
      have hne : i ≠ j := fun hij => he (hij ▸ hsuffix)
      exact ih (by omega) (by omega) (by omega) fun j h1 h2 => h j (by omega) (by omega)

/-- A table that maps bits to symbols by the canonical code of the lengths. -/
structure Decodes (n : Nat) (lengths : Nat → Nat) (t : HuffTable) : Prop where
  len : ∀ s, s < n → lengths s ≤ 15
  kraft : kraft 15 n lengths ≤ 2 ^ 15
  built : ∃ codes, (∀ s, s < n → 0 < lengths s → codes s = rev 15 (start 15 n lengths s)) ∧
    Built n lengths codes t

section
variable {n : Nat} {lengths : Nat → Nat} {t : HuffTable}

theorem Enters.eq {codes : Nat → Nat} {u w} (hlen : ∀ s < n, lengths s ≤ 15)
    (hk : PrefixCode.kraft 15 n lengths ≤ 2 ^ 15)
    (hcodes : ∀ s < n, 0 < lengths s → codes s = rev 15 (start 15 n lengths s))
    (hs : s < n) (hu : u < n) (hv : Enters lengths codes s idx v)
    (hw : Enters lengths codes u idx w) : w = v := by
  -- a short code cannot be the beginning of another code
  have key : ∀ s u, s < n → u < n → 0 < lengths s → lengths s ≤ 11 → 12 ≤ lengths u →
      idx % 2 ^ lengths s = codes s → idx = codes u % 2 ^ 11 → False := by
    intro s u hs hu hs0 hs11 hu12 hms hmu
    have hX : codes u % 2 ^ lengths s = codes s := by
      rw [← hms, hmu, mod_mod_of_dvd _ (pow_dvd_pow 2 hs11)]
    rw [hcodes s hs hs0] at hX
    have hXu : codes u % 2 ^ lengths u = rev 15 (start 15 n lengths u) := by
      rw [hcodes u hu (by omega)]
      exact mod_eq_of_lt (rev_start_lt (hlen u hu))
    have := prefix_free hk hlen hs hs0 hu (by omega) hX hXu
    subst this
    omega
  rcases hv with ⟨hs0, hs11, hms, rfl⟩ | ⟨hs12, hms, rfl⟩ <;>
    rcases hw with ⟨hu0, hu11, hmu, rfl⟩ | ⟨hu12, hmu, rfl⟩
  · rw [hcodes s hs hs0] at hms
    rw [hcodes u hu hu0] at hmu
    rw [prefix_free hk hlen hs hs0 hu hu0 hms hmu]
  · exact absurd (key s u hs hu hs0 hs11 hu12 hms hmu) id
  · exact absurd (key u s hu hs hu0 hu11 hs12 hmu hms) id
  · rfl

theorem entry_and (h : len ≤ 15) : (len ||| sym <<< 4) &&& 0xf = len := by
  rw [Nat.or_comm, ← shiftLeft_add_eq_or_of_lt (by omega : len < 2 ^ 4), shiftLeft_eq,
    show (0xf : Nat) = 2 ^ 4 - 1 from rfl, and_two_pow_sub_one_eq_mod]
  omega

theorem entry_shiftRight (h : len ≤ 15) : (len ||| sym <<< 4) >>> 4 = sym := by
  rw [Nat.or_comm, ← shiftLeft_add_eq_or_of_lt (by omega : len < 2 ^ 4), shiftLeft_eq,
    shiftRight_eq_div_pow]
  omega

theorem listed_and (h : sym < 512) : (sym ||| code <<< 9) &&& 0x1ff = sym := by
  rw [Nat.or_comm, ← shiftLeft_add_eq_or_of_lt (by omega : sym < 2 ^ 9), shiftLeft_eq,
    show (0x1ff : Nat) = 2 ^ 9 - 1 from rfl, and_two_pow_sub_one_eq_mod]
  omega

theorem listed_shiftRight (h : sym < 512) : (sym ||| code <<< 9) >>> 9 = code := by
  rw [Nat.or_comm, ← shiftLeft_add_eq_or_of_lt (by omega : sym < 2 ^ 9), shiftLeft_eq,
    shiftRight_eq_div_pow]
  omega

/-- What stands in the slice of one length. -/
theorem Built.slice {codes : Nat → Nat} (h : Built n lengths codes t) (h12 : 12 ≤ len)
    (hlo : t.oloff (len - 12) ≤ j) (hhi : j < t.oloff (len - 11)) :
    ∃ u < n, lengths u = len ∧ t.overlength j = u ||| codes u <<< 9 := by
  rw [h.oloff] at hlo hhi
  rw [show len - 11 = len - 12 + 1 by omega, overlengthOffset,
    show 12 + (len - 12) = len by omega] at hhi
  obtain ⟨u, hu, hlen, hrank⟩ := @exists_rank lengths n len (j - overlengthOffset lengths n (len - 12))
    (by omega)
  refine ⟨u, hu, hlen, ?_⟩
  rw [← h.listed u hu (by omega), place, hlen, hrank, add_sub_of_le hlo]

/-- An entry in the slice of a length that matches the bits is that of a symbol with this code. -/
theorem Decodes.slice (h : Decodes n lengths t) (hn : n ≤ 512) (h12 : 12 ≤ len)
    (hlo : t.oloff (len - 12) ≤ j) (hhi : j < t.oloff (len - 11))
    (hj : t.overlength j >>> 9 = bits % 2 ^ len) :
    ∃ u < n, lengths u = len ∧ bits % 2 ^ lengths u = rev 15 (start 15 n lengths u) ∧
      t.overlength j &&& 0x1ff = u := by
  obtain ⟨-, -, codes, hcodes, hb⟩ := h
  obtain ⟨u, hu, hul, he⟩ := hb.slice h12 hlo hhi
  rw [he, listed_shiftRight (by omega), hcodes u hu (by omega), ← hul] at hj
  exact ⟨u, hu, hul, hj.symm, by rw [he, listed_and (by omega)]⟩

theorem Decodes.slice_le (h : Decodes n lengths t) (h15 : len ≤ 15) :
    t.oloff (len - 12) + (t.oloff (len - 11) - t.oloff (len - 12)) = t.oloff (len - 11) ∧
      t.oloff (len - 11) ≤ n := by
  obtain ⟨-, -, codes, -, hb⟩ := h
  have hmono := @overlengthOffset_mono n lengths (len - 12) (len - 11) (by omega)
  have htop := @overlengthOffset_mono n lengths (len - 11) 4 (by omega)
  have hfour := @overlengthOffset_four_le lengths n
  rw [← hb.oloff] at hmono htop hfour
  omega

theorem overlengthSym_ok (h : Decodes n lengths t) (hn : n ≤ 512) {numBits}
    (hsize : n ≤ size) (hs : s < n) (hbits : bits % 2 ^ lengths s = rev 15 (start 15 n lengths s))
    (hnum : lengths s ≤ numBits) {fuel} (hfuel : len + fuel = 16) (h12 : 12 ≤ len)
    (hle : len ≤ lengths s) :
    overlengthSym t size bits numBits fuel len = .ok (some (s, lengths s)) := by
  have hlen15 := h.len s hs
  induction fuel generalizing len with
  | zero => omega
  | succ fuel ih =>
    obtain ⟨hslice, htop⟩ := h.slice_le (by omega : len ≤ 15)
    -- an entry of the slice that matches the bits is that of `s`
    have huniq : ∀ j, t.oloff (len - 12) ≤ j → j < t.oloff (len - 11) →
        t.overlength j >>> 9 = bits % 2 ^ len → lengths s = len ∧ t.overlength j &&& 0x1ff = s := by
      intro j hlo hhi hj
      obtain ⟨u, hu, hul, hcode, he⟩ := h.slice hn h12 hlo hhi hj
      have hsu := prefix_free h.kraft h.len hs (by omega) hu (by omega) hbits hcode
      rw [he, hsu]
      exact ⟨hul, rfl⟩
    rw [overlengthSym, if_neg (by omega), one_shiftLeft, and_two_pow_sub_one_eq_mod]
    by_cases hls : lengths s = len
    · obtain ⟨-, -, codes, hcodes, hb⟩ := h
      have hplace := place_lt hs (by omega : 12 ≤ lengths s)
      have hlisted := hb.listed s hs (by omega)
      rw [← hb.oloff, hls] at hplace
      have hlo : t.oloff (len - 12) ≤ place n lengths s := by
        rw [place, ← hb.oloff, hls]
        exact Nat.le_add_right _ _
      rw [search_some (by omega) hlo (by omega) (by
        rw [hlisted, listed_shiftRight (by omega), hcodes s hs (by omega), ← hls, hbits])
        (fun j h1 h2 h3 => (huniq j h1 (by omega) h3).2)]
      rw [hls]
      rfl
    · rw [search_none (by omega) fun j h1 h2 h3 => hls (huniq j h1 (by omega) h3).1]
      exact ih (by omega) (by omega) (by omega)

/-- What some symbol enters at an index stands there. -/
theorem Decodes.dectable_eq (h : Decodes n lengths t) (hs : s < n) (h0 : 0 < lengths s)
    (hbits : bits % 2 ^ lengths s = rev 15 (start 15 n lengths s)) :
    t.dectable (bits &&& 0x7ff) = if lengths s ≤ 11 then (lengths s ||| s <<< 4) else 12 := by
  obtain ⟨hlen, hk, codes, hcodes, hb⟩ := h
  have hcode : ∀ u < n, 0 < lengths u → codes u < 2 ^ lengths u := fun u hu hu0 => by
    rw [hcodes u hu hu0]
    exact rev_start_lt (hlen u hu)
  have hentry : ∀ v, Enters lengths codes s (bits % 2 ^ 11) v → t.dectable (bits &&& 0x7ff) = v := by
    intro v hv
    rw [show bits &&& 0x7ff = bits % 2 ^ 11 from and_two_pow_sub_one_eq_mod _ 11, hb.dectable]
    exact (dectable_apply hcode (mod_lt _ (by decide))).1 v s hs hv
      fun u w hu hw => Enters.eq hlen hk hcodes hs hu hv hw
  rcases lt_or_ge 11 (lengths s) with hlong | hshort
  · rw [if_neg (by omega)]
    refine hentry 12 (.inr ⟨by omega, ?_, rfl⟩)
    rw [hcodes s hs h0, ← hbits, mod_mod_of_dvd _ (pow_dvd_pow 2 (by omega))]
  · rw [if_pos hshort]
    refine hentry _ (.inl ⟨h0, hshort, ?_, rfl⟩)
    rw [mod_mod_of_dvd _ (pow_dvd_pow 2 hshort), hbits, hcodes s hs h0]

/-- An entry is the filler, stands for a code the index begins with, or is that of long codes. -/
theorem Decodes.dectable_cases (h : Decodes n lengths t) (bits : Nat) :
    t.dectable (bits &&& 0x7ff) = 10 ∨ (∃ s < n, 0 < lengths s ∧ lengths s ≤ 11 ∧
      bits % 2 ^ lengths s = rev 15 (start 15 n lengths s) ∧
      t.dectable (bits &&& 0x7ff) = (lengths s ||| s <<< 4)) ∨
    t.dectable (bits &&& 0x7ff) = 12 ∧ ∃ s < n, 12 ≤ lengths s := by
  obtain ⟨hlen, hk, codes, hcodes, hb⟩ := id h
  have hcode : ∀ u < n, 0 < lengths u → codes u < 2 ^ lengths u := fun u hu hu0 => by
    rw [hcodes u hu hu0]
    exact rev_start_lt (hlen u hu)
  have happly := dectable_apply hcode (mod_lt bits (by decide : 0 < 2048))
  rw [show bits &&& 0x7ff = bits % 2 ^ 11 from and_two_pow_sub_one_eq_mod _ 11, hb.dectable]
  by_cases hex : ∃ s v, s < n ∧ Enters lengths codes s (bits % 2 ^ 11) v
  · obtain ⟨s, v, hs, hv⟩ := hex
    have hentry := happly.1 v s hs hv fun u w hu hw => Enters.eq hlen hk hcodes hs hu hv hw
    rcases hv with ⟨h0, h11, hm, rfl⟩ | ⟨h12, -, rfl⟩
    · refine .inr (.inl ⟨s, hs, h0, h11, ?_, hentry⟩)
      rw [← hcodes s hs h0, ← hm, mod_mod_of_dvd _ (pow_dvd_pow 2 h11)]
    · exact .inr (.inr ⟨hentry, s, hs, h12⟩)
  · exact .inl (happly.2 fun s v hs hv => hex ⟨s, v, hs, hv⟩)

/-- Bits that begin with the code of a symbol are decoded to it. -/
theorem decodeSym_ok (h : Decodes n lengths t) (hn : n ≤ 512) {b : BitBuf}
    (hsize : n ≤ size) (hs : s < n) (h0 : 0 < lengths s)
    (hbits : b.bits % 2 ^ lengths s = rev 15 (start 15 n lengths s))
    (hnum : lengths s ≤ b.numBits) : decodeSym t size b = .ok (some (s, lengths s)) := by
  rw [decodeSym, h.dectable_eq hs h0 hbits]
  rcases lt_or_ge 11 (lengths s) with hlong | hshort
  · rw [if_neg (by omega : ¬ lengths s ≤ 11), if_pos (by decide)]
    exact overlengthSym_ok h hn hsize hs hbits hnum rfl (by omega) hlong
  · rw [if_pos hshort, entry_and (by omega), entry_shiftRight (by omega), if_neg (by omega),
      if_neg (by omega)]

/-- Lengths that are not over-subscribed give a decoding table. -/
theorem construct_decodes (hlen : ∀ s < n, lengths s ≤ 15)
    (hk : PrefixCode.kraft 15 n lengths ≤ 2 ^ 15) (codes overlength : Nat → Nat) :
    ∃ codes' t, constructCodes n lengths codes = .ok codes' ∧
      constructDectable n lengths codes' overlength = .ok t ∧ Decodes n lengths t := by
  obtain ⟨codes', hc, hcodes⟩ := constructCodes_ok hlen hk codes
  obtain ⟨t, ht, hb⟩ := @constructDectable_ok n lengths codes' hlen overlength
  exact ⟨codes', t, hc, ht, hlen, hk, codes', hcodes, hb⟩

/-- Lengths that are not over-subscribed get past all assertions: each symbol has its canonical code with
the bits reversed, bits that begin with a code are looked up to its symbol, and a symbol with a long
code is listed among those of its length. -/
theorem construct_canonical (hn : n ≤ 286) (hlen : ∀ s, s < n → lengths s ≤ 15)
    (hk : PrefixCode.kraft 15 n lengths ≤ 2 ^ 15) (codes overlength : Nat → Nat) :
    ∃ codes' t, constructCodes n lengths codes = .ok codes' ∧
      constructDectable n lengths codes' overlength = .ok t ∧
      ∀ s, s < n → 0 < lengths s → codes' s = rev (lengths s) (PrefixCode.code n lengths s) ∧
        (∀ b : BitBuf, lengths s ≤ b.numBits → b.bits % 2 ^ lengths s = codes' s →
          ∀ size, n ≤ size → decodeSym t size b = .ok (some (s, lengths s))) ∧
        (12 ≤ lengths s → ∃ j, t.oloff (lengths s - 12) ≤ j ∧ j < t.oloff (lengths s - 11) ∧
          t.overlength j = s ||| codes' s <<< 9) := by
  obtain ⟨codes', hc, hcodes⟩ := constructCodes_ok hlen hk codes
  obtain ⟨t, ht, hb⟩ := @constructDectable_ok n lengths codes' hlen overlength
  refine ⟨codes', t, hc, ht, fun s hs h0 => ?_⟩
  have hcode := hcodes s hs h0
  refine ⟨hcode.trans (ofBits_code hs.le h0 (hlen s hs)).symm, fun b hnum hbits size hsize => ?_,
    fun h12 => ⟨place n lengths s, ?_, ?_, hb.listed s hs h12⟩⟩
  · exact decodeSym_ok ⟨hlen, hk, codes', hcodes, hb⟩ (by omega) hsize hs h0 (hbits.trans hcode) hnum
  · rw [hb.oloff]
    exact Nat.le_add_right _ _
  · rw [hb.oloff]
    exact place_lt hs h12

theorem construct_canonical_three : ∃ codes' t,
    constructCodes 3 (fun s => [1, 2, 12].getD s 0) (fun _ => 0) = .ok codes' ∧
      constructDectable 3 (fun s => [1, 2, 12].getD s 0) codes' (fun _ => 0) = .ok t ∧
      decodeSym t 3 ⟨0, 0x5003, 15⟩ = .ok (some (2, 12)) := by
  have hkraft : PrefixCode.kraft 15 3 (fun s => [1, 2, 12].getD s 0) ≤ 2 ^ 15 := by decide
  obtain ⟨codes', t, hc, ht, h⟩ := construct_canonical (by decide) (by decide) hkraft (fun _ => 0) fun _ => 0
  obtain ⟨hcode, hlook, -⟩ := h 2 (by decide) (by decide)
  refine ⟨codes', t, hc, ht, hlook _ (by decide) ?_ 3 le_rfl⟩
  rw [hcode]
  decide

end

end Rkboot.Compression.Inflate
