import Rkboot.Lib.Word
import Mathlib.Data.List.Basic

/-! # Bit strings and bit streams

A bit string is read from its first bit on; as a number its first bit is the
least significant one (`ofBits`). A byte range is a bit stream whose bytes are
read from their least significant bit on, and the whole of it is the number
`leWord`, so that what follows bit `p` is a right shift by `p`. -/
namespace Rkboot.Lib
open Nat List

def ofBits : List Bool → Nat
  | [] => 0
  | b :: bs => b.toNat + 2 * ofBits bs

@[simp] theorem ofBits_nil : ofBits [] = 0 := rfl

theorem ofBits_lt (bs : List Bool) : ofBits bs < 2 ^ bs.length := by
  induction bs with
  | nil => simp
  | cons b bs ih =>
    rw [ofBits, length_cons, pow_succ]
    have := b.toNat_lt
    omega

theorem ofBits_testBit (bs : List Bool) (i : Nat) : (ofBits bs).testBit i = bs.getD i false := by
  induction bs generalizing i with
  | nil => simp
  | cons b bs ih =>
    rw [ofBits]
    cases i with
    | zero => cases b <;> simp [testBit_zero]
    | succ i =>
      rw [testBit_succ, show (b.toNat + 2 * ofBits bs) / 2 = ofBits bs by
        have := b.toNat_lt; omega, ih]
      rfl

theorem ofBits_append (a b : List Bool) : ofBits (a ++ b) = ofBits a + 2 ^ a.length * ofBits b := by
  induction a with
  | nil => simp
  | cons x a ih =>
    rw [cons_append, ofBits, ih, ofBits, length_cons, pow_succ]
    ring

/-- A number in two digits of different bases. -/
theorem mod_mul_eq_iff {X a b A B : Nat} (hA : A < a) :
    X % (a * b) = A + a * B ↔ X % a = A ∧ X / a % b = B := by
  have hpos : 0 < a := Nat.zero_lt_of_lt hA
  rw [mod_mul]
  constructor
  · intro h
    have hlow := congrArg (· % a) h
    have hhigh := congrArg (· / a) h
    simp only [add_mul_mod_self_left, mod_mod, mod_eq_of_lt hA] at hlow
    simp only [add_mul_div_left _ _ hpos, div_eq_of_lt hA, div_eq_of_lt (mod_lt X hpos), zero_add]
      at hhigh
    exact ⟨hlow, hhigh⟩
  · rintro ⟨rfl, rfl⟩
    rfl

/-- The bit string of the low `n` bits, the least significant first. -/
def lowBits (v n : Nat) : List Bool := (List.range n).map v.testBit

@[simp] theorem lowBits_length (v n : Nat) : (lowBits v n).length = n := by simp [lowBits]

theorem ofBits_map_range (f : Nat → Bool) (n i : Nat) :
    (ofBits ((List.range n).map f)).testBit i = (decide (i < n) && f i) := by
  rw [ofBits_testBit, getD_eq_getElem?_getD]
  by_cases h : i < n <;> simp [h]

theorem ofBits_lowBits (v n : Nat) : ofBits (lowBits v n) = v % 2 ^ n := by
  apply eq_of_testBit_eq
  intro i
  rw [lowBits, ofBits_map_range, testBit_mod_two_pow]

/-! ## Streams -/

/-- From bit `p` on, the number `S` holds the bits `bs`. -/
def HasBits (S p : Nat) (bs : List Bool) : Prop := (S >>> p) % 2 ^ bs.length = ofBits bs

theorem hasBits_append {S p} {a : List Bool} {b} :
    HasBits S p (a ++ b) ↔ HasBits S p a ∧ HasBits S (p + a.length) b := by
  simp only [HasBits, length_append, ofBits_append, shiftRight_add, pow_add]
  rw [mod_mul_eq_iff (ofBits_lt a), shiftRight_eq_div_pow (S >>> p)]

theorem HasBits.testBit {S : Nat} {p} {bs : List Bool} (h : HasBits S p bs) {i}
    (hi : i < bs.length) : S.testBit (p + i) = bs.getD i false := by
  rw [← ofBits_testBit, ← h, testBit_mod_two_pow, decide_eq_true hi, Bool.true_and,
    testBit_shiftRight]

/-- The bits of the bytes from `start` on. -/
def inputBits (inp : Nat → UInt8) (start n : Nat) : List Bool :=
  (List.range (8 * n)).map fun i => (inp (start + i / 8)).toNat.testBit (i % 8)

@[simp] theorem inputBits_length (inp : Nat → UInt8) (start n : Nat) :
    (inputBits inp start n).length = 8 * n := by simp [inputBits]

theorem leWord_testBit (f : Nat → UInt8) (a n i : Nat) :
    (leWord f a n).testBit i = (decide (i < 8 * n) && (f (a + i / 8)).toNat.testBit (i % 8)) := by
  induction n generalizing a i with
  | zero => simp [leWord]
  | succ n ih =>
    rw [leWord, testBit_or, testBit_shiftLeft, ih]
    by_cases h : i < 8
    · simp [div_eq_of_lt h, mod_eq_of_lt h, show ¬ 8 ≤ i by omega, show i < 8 * (n + 1) by omega]
    · have hz : (f a).toNat.testBit i = false :=
        testBit_lt_two_pow (lt_of_lt_of_le (f a).toNat_lt
          (Nat.pow_le_pow_right (by decide) (by omega : 8 ≤ i)))
      have hdiv : a + 1 + (i - 8) / 8 = a + i / 8 := by omega
      rw [hz, Bool.false_or, decide_eq_true (by omega : i ≥ 8), Bool.true_and, hdiv,
        show (i - 8) % 8 = i % 8 by omega]
      congr 1
      exact decide_eq_decide.mpr (by omega)

theorem leWord_eq_ofBits (inp : Nat → UInt8) (start n : Nat) :
    leWord inp start n = ofBits (inputBits inp start n) := by
  apply eq_of_testBit_eq
  intro i
  rw [leWord_testBit, inputBits, ofBits_map_range]

/-- A byte range spelled out in bits, as a number. -/
theorem hasBits_of_inputBits {inp start n} {a : List Bool} {b c}
    (h : inputBits inp start n = a ++ b ++ c) : HasBits (leWord inp start n) a.length b := by
  have hall : HasBits (leWord inp start n) 0 (a ++ b ++ c) := by
    rw [HasBits, shiftRight_zero, leWord_eq_ofBits, h]
    exact mod_eq_of_lt (ofBits_lt _)
  rw [append_assoc, hasBits_append, hasBits_append, zero_add] at hall
  exact hall.2.1

/-! ## Reversal -/

/-- The low `n` bits of `v` in reverse order. -/
def rev (n v : Nat) : Nat := ofBits ((List.range n).map fun i => v.testBit (n - 1 - i))

theorem rev_testBit (n v i : Nat) :
    (rev n v).testBit i = (decide (i < n) && v.testBit (n - 1 - i)) := ofBits_map_range _ _ _

theorem rev_lt (n v : Nat) : rev n v < 2 ^ n := by
  have := ofBits_lt ((List.range n).map fun i => v.testBit (n - 1 - i))
  simpa [rev] using this

theorem rev_rev {n v} (h : v < 2 ^ n) : rev n (rev n v) = v := by
  apply eq_of_testBit_eq
  intro i
  rw [rev_testBit, rev_testBit]
  by_cases hi : i < n
  · simp [hi, show n - 1 - i < n by omega, show n - 1 - (n - 1 - i) = i by omega]
  · have hz : v.testBit i = false :=
      testBit_lt_two_pow (lt_of_lt_of_le h (Nat.pow_le_pow_right (by decide) (by omega)))
    simp [hi, hz]

theorem rev_mod (n v : Nat) : rev n (v % 2 ^ n) = rev n v := by
  apply eq_of_testBit_eq
  intro i
  rw [rev_testBit, rev_testBit, testBit_mod_two_pow]
  by_cases hi : i < n
  · simp [hi, show n - 1 - i < n by omega]
  · simp [hi]

/-- Reversing a left-aligned code gives the reversed code. -/
theorem rev_shiftLeft {n l v} (hl : l ≤ n) : rev n (v <<< (n - l)) = rev l v := by
  apply eq_of_testBit_eq
  intro i
  rw [rev_testBit, rev_testBit, testBit_shiftLeft]
  by_cases hi : i < l
  · simp [hi, show i < n by omega, show n - l ≤ n - 1 - i by omega,
      show n - 1 - i - (n - l) = l - 1 - i by omega]
  · by_cases hn : i < n
    · simp [hi, hn, show ¬ n - l ≤ n - 1 - i by omega]
    · simp [hi, hn]

/-- The low `l` bits of `X` are those of a reversed left-aligned `K` exactly when `X`, reversed,
lies in the interval of the strings that start with `K`. -/
theorem mod_eq_rev_iff {n l K X} (hl : l ≤ n) (hK : K < 2 ^ n) (hdvd : 2 ^ (n - l) ∣ K) :
    X % 2 ^ l = rev n K ↔ K ≤ rev n X ∧ rev n X < K + 2 ^ (n - l) := by
  obtain ⟨c, rfl⟩ := hdvd
  have hpos := Nat.two_pow_pos (n - l)
  have hc : c < 2 ^ l := by
    rw [show n = n - l + l by omega, pow_add, Nat.add_sub_cancel] at hK
    exact Nat.lt_of_mul_lt_mul_left hK
  have hrev : rev n (2 ^ (n - l) * c) = rev l c := by
    rw [mul_comm, ← shiftLeft_eq, rev_shiftLeft hl]
  have hdiv : rev n X / 2 ^ (n - l) = rev l X := by
    apply eq_of_testBit_eq
    intro i
    rw [← shiftRight_eq_div_pow, testBit_shiftRight, rev_testBit, rev_testBit]
    by_cases hi : i < l
    · simp [hi, show n - l + i < n by omega, show n - 1 - (n - l + i) = l - 1 - i by omega]
    · simp [hi, show ¬ n - l + i < n by omega]
  have hiff : (2 ^ (n - l) * c ≤ rev n X ∧ rev n X < 2 ^ (n - l) * c + 2 ^ (n - l)) ↔
      rev n X / 2 ^ (n - l) = c := by
    rw [Nat.div_eq_iff hpos, mul_comm c]
    omega
  rw [hiff, hrev, hdiv]
  constructor
  · intro h
    rw [← rev_mod, h, rev_rev hc]
  · intro h
    rw [← h, ← rev_mod l X, rev_rev (mod_lt _ (Nat.two_pow_pos l))]

/-! ## Single bits -/

/-- Adding a power of two sets a bit that was not set. -/
theorem or_two_pow_eq_add {v : Nat} {i} (h : v.testBit i = false) : v ||| 2 ^ i = v + 2 ^ i := by
  have hlow : v % 2 ^ i < 2 ^ i := mod_lt _ (Nat.two_pow_pos i)
  have hv : v = (v >>> (i + 1)) <<< (i + 1) + v % 2 ^ i := by
    have hdiv := div_add_mod' v (2 ^ (i + 1))
    have hbit : v / 2 ^ i % 2 = 0 := by simpa [testBit_eq_decide_div_mod_eq] using h
    rw [mod_pow_succ, hbit] at hdiv
    simpa [shiftRight_eq_div_pow, shiftLeft_eq] using hdiv.symm
  have hor : v % 2 ^ i ||| 2 ^ i = v % 2 ^ i + 2 ^ i := by
    have hadd := shiftLeft_add_eq_or_of_lt hlow 1
    rw [one_shiftLeft] at hadd
    rw [Nat.or_comm, ← hadd, add_comm]
  have hlt : v % 2 ^ i + 2 ^ i < 2 ^ (i + 1) := by rw [pow_succ]; omega
  conv_lhs => rw [hv, shiftLeft_add_eq_or_of_lt (by omega), Nat.or_assoc, hor,
    ← shiftLeft_add_eq_or_of_lt hlt, ← add_assoc, ← hv]

theorem xor_two_pow_of_not_testBit {v : Nat} {i} (h : v.testBit i = false) :
    v ^^^ 2 ^ i = v ||| 2 ^ i := by
  apply eq_of_testBit_eq
  intro j
  by_cases hij : i = j
  · subst hij
    simp [h]
  · simp [hij]

/-- Clearing a bit that is set takes a power of two away. -/
theorem xor_two_pow_add {v : Nat} {i} (h : v.testBit i = true) : (v ^^^ 2 ^ i) + 2 ^ i = v := by
  have hbit : (v ^^^ 2 ^ i).testBit i = false := by
    simp [testBit_xor, h]
  rw [← or_two_pow_eq_add hbit, ← xor_two_pow_of_not_testBit hbit, Nat.xor_assoc, Nat.xor_self,
    xor_zero]

theorem rev_xor_two_pow {n v i} (hi : i < n) :
    rev n (v ^^^ 2 ^ (n - 1 - i)) = rev n v ^^^ 2 ^ i := by
  apply eq_of_testBit_eq
  intro j
  rw [rev_testBit, testBit_xor, testBit_xor, rev_testBit, testBit_two_pow, testBit_two_pow]
  by_cases hj : j < n
  · simp only [hj, decide_true, Bool.true_and]
    congr 1
    exact decide_eq_decide.mpr (by omega)
  · simp [hj, show ¬ i = j by omega]

/-! ## Truncated binary

A number below `n` in one of two lengths: with `2 ^ k` the largest power of two up to `n`, the
first `2 ^ (k + 1) - n` numbers take `k` bits and the others `k + 1`. The bits of a number stand
with the least significant one first, so the short and the long codes are told apart by their first
`k` bits. -/

/-- How many numbers have a short code. -/
def truncShort (n : Nat) : Nat := 2 ^ (Nat.log2 n + 1) - n

def truncBits (n v : Nat) : List Bool :=
  if v < truncShort n then lowBits v (Nat.log2 n)
  else lowBits (if v < 2 ^ Nat.log2 n then v else v + truncShort n) (Nat.log2 n + 1)

section
variable {n : Nat}

theorem truncShort_add (n : Nat) : truncShort n + n = 2 * 2 ^ Nat.log2 n := by
  have hlt : n < 2 ^ (Nat.log2 n + 1) := lt_log2_self
  rw [truncShort, Nat.sub_add_cancel (le_of_lt hlt), pow_succ, mul_comm]

theorem truncShort_le (hn : n ≠ 0) : truncShort n ≤ 2 ^ Nat.log2 n := by
  have hle : 2 ^ Nat.log2 n ≤ n := log2_self_le hn
  have hsum := truncShort_add n
  omega

/-- What the first bits, and the one behind them of a long code, can stand for. -/
theorem trunc_value_lt (hn : n ≠ 0) {low} (hlow : low < 2 ^ Nat.log2 n) :
    low + (2 ^ Nat.log2 n - truncShort n) < n := by
  have hle := truncShort_le hn
  have hsum := truncShort_add n
  omega

theorem lowBits_succ (v k : Nat) : lowBits v (k + 1) = lowBits v k ++ [v.testBit k] := by
  simp [lowBits, range_succ]

theorem lowBits_mod (v k : Nat) : lowBits (v % 2 ^ k) k = lowBits v k := by
  refine map_congr_left fun i hi => ?_
  rw [testBit_mod_two_pow, decide_eq_true (mem_range.mp hi), Bool.true_and]

/-- A code is its first bits, and one more exactly if they are not those of a short code. -/
theorem truncBits_eq {v} (hv : v < n) : ∃ low hi, low < 2 ^ Nat.log2 n ∧
    truncBits n v = lowBits low (Nat.log2 n) ++ (if truncShort n ≤ low then [hi] else []) ∧
    v = low + (if truncShort n ≤ low ∧ hi = true then 2 ^ Nat.log2 n - truncShort n else 0) := by
  have hn : n ≠ 0 := Nat.ne_zero_of_lt hv
  have hle := truncShort_le hn
  have hsum := truncShort_add n
  unfold truncBits
  generalize truncShort n = u at *
  generalize Nat.log2 n = k at *
  by_cases hshort : v < u
  · refine ⟨v, false, lt_of_lt_of_le hshort hle, ?_, ?_⟩
    · rw [if_pos hshort, if_neg (not_le.mpr hshort), append_nil]
    · simp
  · have hlong : u ≤ v := not_lt.mp hshort
    rw [if_neg hshort, lowBits_succ]
    by_cases hk : v < 2 ^ k
    · refine ⟨v, false, hk, ?_, ?_⟩
      · rw [if_pos hk, if_pos hlong, testBit_lt_two_pow hk]
      · simp
    · -- the high bit is set and the rest starts again at the last short code
      have hsplit : v + u = 2 ^ k + (v + u - 2 ^ k) := by omega
      have hlow : v + u - 2 ^ k < 2 ^ k := by omega
      refine ⟨v + u - 2 ^ k, true, hlow, ?_, ?_⟩
      · rw [if_neg hk, if_pos (by omega : u ≤ v + u - 2 ^ k), ← lowBits_mod]
        have hmod : (v + u) % 2 ^ k = v + u - 2 ^ k := by
          rw [hsplit, add_mod_left, mod_eq_of_lt (by omega)]
          omega
        have hbit : (v + u).testBit k = true := by
          rw [hsplit, testBit_two_pow_add_eq, testBit_lt_two_pow (by omega)]
          rfl
        rw [hmod, hbit]
      · rw [if_pos ⟨by omega, rfl⟩]
        omega

end

/-! ## Bit fields

Values at ranges of bits, or-ed into one word. Where the ranges do not overlap the word has each
value at its range, and nothing else. -/

/-- Clearing the low `k` bits rounds down to a multiple of `2 ^ k`. -/
theorem and_high_bits {x k w} (hx : x < 2 ^ w) (hk : k ≤ w) :
    x &&& (2 ^ w - 2 ^ k) = x / 2 ^ k * 2 ^ k := by
  have hmask : 2 ^ w - 2 ^ k = (2 ^ (w - k) - 1) <<< k := by
    rw [shiftLeft_eq, Nat.sub_mul, ← pow_add, Nat.sub_add_cancel hk, one_mul]
  rw [hmask, ← shiftRight_eq_div_pow, ← shiftLeft_eq]
  refine eq_of_testBit_eq fun i => ?_
  by_cases hi : k ≤ i
  · rcases lt_or_ge i w with hiw | hiw
    · simp [hi, show i - k < w - k by omega]
    · have hzero : x.testBit i = false :=
        testBit_lt_two_pow (lt_of_lt_of_le hx (Nat.pow_le_pow_right (by decide) hiw))
      simp [hi, hzero]
  · simp [hi]

/-- A value at a range of bits. -/
structure BitField where
  offset : Nat
  size : Nat
  value : Nat

/-- The range of the field has the bit. -/
def BitField.Has (f : BitField) (i : Nat) : Prop := f.offset ≤ i ∧ i < f.offset + f.size

def packWord (fs : List BitField) : Nat := fs.foldr (fun f w => f.value <<< f.offset ||| w) 0

section
variable {fs : List BitField} {f : BitField} {i : Nat}

theorem packWord_testBit : (packWord fs).testBit i = true ↔
    ∃ f ∈ fs, f.offset ≤ i ∧ f.value.testBit (i - f.offset) = true := by
  induction fs with
  | nil => simp [packWord]
  | cons f fs ih =>
    rw [packWord, foldr_cons, ← packWord, testBit_or, testBit_shiftLeft, Bool.or_eq_true,
      Bool.and_eq_true, decide_eq_true_eq, ih]
    simp

theorem BitField.has_of_testBit (hfits : f.value < 2 ^ f.size) (hle : f.offset ≤ i)
    (h : f.value.testBit (i - f.offset) = true) : f.Has i := by
  refine ⟨hle, ?_⟩
  by_contra hlt
  have hzero := testBit_lt_two_pow (lt_of_lt_of_le hfits
    (Nat.pow_le_pow_right (by decide) (show f.size ≤ i - f.offset by omega)))
  rw [hzero] at h
  cases h

/-- Every bit that is set belongs to a field. -/
theorem packWord_has (hfits : ∀ f ∈ fs, f.value < 2 ^ f.size) (h : (packWord fs).testBit i = true) :
    ∃ f ∈ fs, f.Has i := by
  obtain ⟨f, hf, hle, hbit⟩ := packWord_testBit.mp h
  exact ⟨f, hf, f.has_of_testBit (hfits f hf) hle hbit⟩

/-- Ranges one behind the other have no bit in common. -/
theorem BitField.has_unique {g : BitField}
    (hdisjoint : fs.Pairwise fun f g => f.offset + f.size ≤ g.offset)
    (hf : f ∈ fs) (hg : g ∈ fs) (hfi : f.Has i) (hgi : g.Has i) : f = g := by
  induction fs with
  | nil => cases hf
  | cons x fs ih =>
    obtain ⟨hx, htail⟩ := pairwise_cons.mp hdisjoint
    rcases mem_cons.mp hf with rfl | hf' <;> rcases mem_cons.mp hg with rfl | hg'
    · rfl
    · exact absurd (le_trans (hx g hg') hgi.1) (not_le.mpr hfi.2)
    · exact absurd (le_trans (hx f hf') hfi.1) (not_le.mpr hgi.2)
    · exact ih htail hf' hg'

/-- The word has the value of a field at its range. -/
theorem packWord_field (hdisjoint : fs.Pairwise fun f g => f.offset + f.size ≤ g.offset)
    (hfits : ∀ f ∈ fs, f.value < 2 ^ f.size) (hf : f ∈ fs) :
    packWord fs / 2 ^ f.offset % 2 ^ f.size = f.value := by
  refine eq_of_testBit_eq fun i => ?_
  rw [testBit_mod_two_pow, testBit_div_two_pow]
  rcases lt_or_ge i f.size with hi | hi
  · have hbit : (packWord fs).testBit (i + f.offset) = true ↔ f.value.testBit i = true := by
      rw [packWord_testBit]
      constructor
      · rintro ⟨g, hg, hle, hbit⟩
        have hhas := g.has_of_testBit (hfits g hg) hle hbit
        obtain rfl := BitField.has_unique hdisjoint hf hg ⟨by omega, by omega⟩ hhas
        rwa [Nat.add_sub_cancel] at hbit
      · intro hbit
        exact ⟨f, hf, Nat.le_add_left _ _, by rwa [Nat.add_sub_cancel]⟩
    rw [decide_eq_true hi, Bool.true_and]
    exact Bool.eq_iff_iff.mpr hbit
  · rw [decide_eq_false (not_lt.mpr hi), Bool.false_and]
    exact (testBit_lt_two_pow (lt_of_lt_of_le (hfits f hf)
      (Nat.pow_le_pow_right (by decide) hi))).symm

end
/-! ## Bit streams that are read backwards

Such a stream is written from its last bit on, ends with a set bit and zeros up to a whole byte,
and is read from its last byte down: first what is below the highest bit that is set, then the
bytes before it, each from its most significant bit. A reader holds some bits in a container and
has a pointer to the bytes it has not fetched yet. -/

/-! ## Numbers, the most significant bit first -/

def bigNat (bits : List Bool) : Nat := ofBits bits.reverse

theorem bigNat_lt (bits : List Bool) : bigNat bits < 2 ^ bits.length := by
  have hlt := ofBits_lt bits.reverse
  rwa [length_reverse] at hlt

theorem bigNat_append (a b : List Bool) : bigNat (a ++ b) = bigNat a * 2 ^ b.length + bigNat b := by
  rw [bigNat, reverse_append, ofBits_append, length_reverse, add_comm, mul_comm]
  rfl

theorem ofBits_inj {a b : List Bool} (hlength : a.length = b.length) (h : ofBits a = ofBits b) :
    a = b := by
  refine ext_getElem hlength fun i ha hb => ?_
  have hbit := congrArg (Nat.testBit · i) h
  simpa [ofBits_testBit, getD_eq_getElem?_getD, ha, hb] using hbit

theorem bigNat_inj {a b : List Bool} (hlength : a.length = b.length) (h : bigNat a = bigNat b) :
    a = b :=
  reverse_inj.mp (ofBits_inj (by simpa using hlength) h)

/-- The first bits of a string. -/
theorem bigNat_take (bits : List Bool) (l : Nat) :
    bigNat (bits.take l) = bigNat bits >>> (bits.length - l) := by
  have happend := bigNat_append (bits.take l) (bits.drop l)
  rw [take_append_drop, length_drop] at happend
  have hlt := bigNat_lt (bits.drop l)
  rw [length_drop] at hlt
  rw [happend, shiftRight_eq_div_pow, mul_comm, mul_add_div (Nat.two_pow_pos _),
    div_eq_of_lt hlt, add_zero]

/-- The low `n` bits of a number. -/
def highBits (v n : Nat) : List Bool := (lowBits v n).reverse

@[simp] theorem highBits_length (v n : Nat) : (highBits v n).length = n := by simp [highBits]

theorem bigNat_highBits (v n : Nat) : bigNat (highBits v n) = v % 2 ^ n := by
  rw [bigNat, highBits, reverse_reverse, ofBits_lowBits]

/-! ## The end of a stream -/

/-- The bits of a stream in the order of its bytes. -/
def sealBits (bits : List Bool) : List Bool :=
  bits.reverse ++ true :: List.replicate (7 - bits.length % 8) false

theorem sealBits_inj {a b} (h : sealBits a = sealBits b) : a = b := by
  have hopen : ∀ c, (sealBits c).reverse.dropWhile (! ·) = true :: c := fun c => by
    simp [sealBits, dropWhile_append_of_pos]
  exact (cons.inj ((hopen a).symm.trans (h ▸ hopen b))).2

theorem inputBits_succ (inp : Nat → UInt8) (start n : Nat) :
    inputBits inp start (n + 1) = inputBits inp start n ++ lowBits (inp (start + n)).toNat 8 := by
  rw [inputBits, mul_succ, range_add, map_append, map_map]
  congr 1
  refine map_congr_left fun i hi => ?_
  have hlt := mem_range.mp hi
  dsimp only [Function.comp]
  rw [show (8 * n + i) / 8 = n by omega, show (8 * n + i) % 8 = i by omega]

/-- The highest bit of a number that is set, and zeros above it. -/
theorem lowBits_top {v n} (hv : v ≠ 0) (hn : v < 2 ^ (n + 1)) :
    lowBits v (n + 1) = lowBits v (Nat.log2 v) ++ true :: List.replicate (n - Nat.log2 v) false := by
  have hlog : Nat.log2 v < n + 1 := (log2_lt hv).mpr hn
  refine ofBits_inj (by simp; omega) ?_
  rw [ofBits_lowBits, mod_eq_of_lt hn, ofBits_append, ofBits_lowBits, ofBits, lowBits_length]
  have hzeros : ∀ k, ofBits (List.replicate k false) = 0 := by
    intro k
    induction k with
    | zero => rfl
    | succ k ih => rw [replicate_succ, ofBits, ih]; rfl
  have hquot : v / 2 ^ Nat.log2 v = 1 := by
    have hle := log2_self_le hv
    have hlt := lt_log2_self (n := v)
    exact Nat.div_eq_of_lt_le (by omega) (by omega)
  have hdiv := div_add_mod v (2 ^ Nat.log2 v)
  rw [hquot] at hdiv
  rw [hzeros, Bool.toNat_true]
  omega

/-- The bits that are left when these are held and the bytes below `ptr` are not fetched yet. -/
def unread (inp : Nat → UInt8) (start ptr : Nat) (held : List Bool) : List Bool :=
  held ++ (inputBits inp start (ptr - start)).reverse

section
variable {inp : Nat → UInt8} {start ptr : Nat} {held f rest : List Bool}

@[simp] theorem unread_length :
    (unread inp start ptr held).length = held.length + 8 * (ptr - start) := by simp [unread]

/-- One byte more is held. -/
theorem unread_push (h : start < ptr) : unread inp start ptr held =
    unread inp start (ptr - 1) (held ++ highBits (inp (ptr - 1)).toNat 8) := by
  rw [unread, show ptr - start = ptr - 1 - start + 1 by omega, inputBits_succ, reverse_append,
    show start + (ptr - 1 - start) = ptr - 1 by omega, unread, append_assoc]
  rfl

/-- A stream whose last byte is not 0 is what is below the highest bit of it that is set. -/
theorem inputBits_eq_sealBits {n} (hlast : (inp (start + n)).toNat ≠ 0) :
    inputBits inp start (n + 1) = sealBits (unread inp start (start + n)
      (highBits (inp (start + n)).toNat (Nat.log2 (inp (start + n)).toNat))) := by
  have hbyte := (inp (start + n)).toNat_lt
  have hlog : Nat.log2 (inp (start + n)).toNat < 8 := (log2_lt hlast).mpr hbyte
  rw [inputBits_succ, lowBits_top hlast hbyte, sealBits, unread_length, highBits_length, unread,
    Nat.add_sub_cancel_left, reverse_append, reverse_reverse, highBits, reverse_reverse,
    append_assoc, add_mul_mod_self_left, mod_eq_of_lt hlog]

theorem inputBits_eq_sealBits_iff {n bits} :
    inputBits inp start n = sealBits bits ↔ ∃ k, n = k + 1 ∧ (inp (start + k)).toNat ≠ 0 ∧
      bits = unread inp start (start + k)
        (highBits (inp (start + k)).toNat (Nat.log2 (inp (start + k)).toNat)) := by
  constructor
  · intro h
    have hlength := congrArg List.length h
    rw [inputBits_length, sealBits, length_append, length_cons, length_replicate,
      length_reverse] at hlength
    obtain ⟨k, rfl⟩ : ∃ k, n = k + 1 := ⟨n - 1, by omega⟩
    have hlast : (inp (start + k)).toNat ≠ 0 := by
      -- the set bit is one of the last byte
      intro hzero
      have hbit := congrArg (·.getD bits.length false) h
      rw [← ofBits_testBit, ← leWord_eq_ofBits, leWord_testBit, show bits.length / 8 = k by omega,
        hzero, zero_testBit, Bool.and_false, sealBits, getD_append_right _ _ _ _ (by simp),
        length_reverse, Nat.sub_self] at hbit
      cases hbit
    refine ⟨k, rfl, hlast, ?_⟩
    rw [inputBits_eq_sealBits hlast] at h
    exact (sealBits_inj h).symm
  · rintro ⟨k, rfl, hlast, rfl⟩
    exact inputBits_eq_sealBits hlast

end

/-! ## Containers -/

theorem exists_append_length {l : List Bool} {n} (h : n ≤ l.length) :
    ∃ f rest, l = f ++ rest ∧ f.length = n :=
  ⟨l.take n, l.drop n, (take_append_drop n l).symm, length_take_of_le h⟩

/-- The lowest bits of the container are those held. -/
def HeldLow (held : List Bool) (bits : Nat) : Prop := bits % 2 ^ held.length = bigNat held

section
variable {held f : List Bool} {bits : Nat}

theorem heldLow_highBits (v n : Nat) : HeldLow (highBits v n) v := by
  rw [HeldLow, highBits_length, bigNat_highBits]

/-- A byte is shifted in, and all bits still fit. -/
theorem HeldLow.push (h : HeldLow held bits) {byte w} (hbyte : byte < 2 ^ 8)
    (hw : held.length + 8 ≤ w) :
    HeldLow (held ++ highBits byte 8) ((bits <<< 8 ||| byte) % 2 ^ w) := by
  have hsplit : bits * 2 ^ 8 + byte = 2 ^ (held.length + 8) * (bits / 2 ^ held.length) +
      (bits % 2 ^ held.length * 2 ^ 8 + byte) := by
    conv_lhs => rw [← div_add_mod bits (2 ^ held.length)]
    ring
  rw [HeldLow, length_append, highBits_length, mod_mod_of_dvd _ (pow_dvd_pow 2 hw),
    bigNat_append, bigNat_highBits, highBits_length, mod_eq_of_lt hbyte, ← h,
    ← shiftLeft_add_eq_or_of_lt hbyte, shiftLeft_eq, hsplit, mul_add_mod,
    mod_eq_of_lt]
  rw [pow_add]
  omega

/-- Reading the first of the bits held leaves the others. -/
theorem HeldLow.take (h : HeldLow (f ++ held) bits) :
    (bits >>> held.length) % 2 ^ f.length = bigNat f ∧ HeldLow held bits := by
  rw [HeldLow, length_append, bigNat_append, add_comm f.length, pow_add, mul_comm (bigNat f), add_comm,
    mod_mul_eq_iff (bigNat_lt held)] at h
  rw [shiftRight_eq_div_pow]
  exact h.symm

/-- The first bits held, by a shift to the others and a mask. -/
theorem HeldLow.masked {shift} (h : HeldLow (f ++ held) bits) (hshift : shift = held.length) :
    bits >>> shift &&& (1 <<< f.length - 1) = bigNat f := by
  rw [hshift, one_shiftLeft, and_two_pow_sub_one_eq_mod, h.take.1]

/-- Bits above those held do not matter. -/
theorem HeldLow.of_mod {w} (h : HeldLow held (bits % 2 ^ w)) (hw : held.length ≤ w) :
    HeldLow held bits := by
  rw [HeldLow, mod_mod_of_dvd _ (pow_dvd_pow 2 hw)] at h
  exact h

end

/-! ## Bits that are held in memory -/

theorem leWord_push (inp : Nat → UInt8) (a n : Nat) :
    leWord inp a n = (leWord inp (a + 1) n <<< 8 ||| (inp a).toNat) % 2 ^ (8 * n) := by
  have hmod := leWord_mod inp a n 1
  rw [leWord, Nat.or_comm] at hmod
  exact hmod.symm

/-- The bits held by a reader are the low bits of the eight bytes behind its pointer. -/
structure InMemory (inp : Nat → UInt8) (start ptr : Nat) (held : List Bool) : Prop where
  start_le : start ≤ ptr
  length_le : held.length ≤ 64
  low : HeldLow held (leWord inp ptr 8)

section
variable {inp : Nat → UInt8} {start ptr : Nat} {held : List Bool}

theorem InMemory.push (h : InMemory inp start ptr held) (hptr : start < ptr) (hlength : held.length ≤ 56) :
    InMemory inp start (ptr - 1) (held ++ highBits (inp (ptr - 1)).toNat 8) := by
  refine ⟨by omega, by rw [length_append, highBits_length]; omega, ?_⟩
  rw [leWord_push, Nat.sub_add_cancel (by omega)]
  exact h.low.push (inp (ptr - 1)).toNat_lt (by omega)

/-- The pointer goes back over some bytes. -/
theorem InMemory.pushes (h : InMemory inp start ptr held) {k} (hk : k ≤ ptr - start)
    (hlength : held.length + 8 * k ≤ 64) :
    ∃ held', held'.length = held.length + 8 * k ∧ InMemory inp start (ptr - k) held' ∧
      unread inp start (ptr - k) held' = unread inp start ptr held := by
  induction k with
  | zero => exact ⟨held, rfl, h, rfl⟩
  | succ k ih =>
    obtain ⟨held', hlength', hheld, hunread⟩ := ih (by omega) (by omega)
    have hpush := hheld.push (by omega) (by omega)
    refine ⟨_, ?_, hpush, ?_⟩
    · rw [length_append, highBits_length]
      omega
    · rw [← hunread, unread_push (show start < ptr - k by omega), Nat.sub_sub]

end
end Rkboot.Lib
