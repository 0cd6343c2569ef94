import Rkboot.Compression.ZstdWeights
import Mathlib.Data.Nat.Factorization.Basic

/-! # Huffman tables

`zstd_decode_tree_description` completes the weights, sorts the symbols in place and gives each of
them a run of the table. The runs are those of the canonical code. -/
namespace Rkboot.Compression.Zstd
open Lib Function List Nat

/-! ## Sorting in place -/

/-- `weights` and `order`. -/
abbrev SortArrays := (Nat → Nat) × (Nat → Nat)

/-- `do { .. } while (--j);`: larger weights move up, and where the loop stops. -/
def shiftDown (w : Nat) : Nat → SortArrays → SortArrays × Nat
  | 0, a => (a, 0)
  | j + 1, a =>
    if a.1 j ≤ w then (a, j + 1)
    else shiftDown w j (update a.1 (j + 1) (a.1 j), update a.2 (j + 1) (a.2 j))

/-- One turn of the sort. -/
def sortStep (a : SortArrays) (i : Nat) : SortArrays :=
  let w := a.1 i
  let (a, j) := shiftDown w i a
  (update a.1 j w, update a.2 j i)

/-- The arrays below `n`, from the last entry on. -/
def downFrom (a : SortArrays) : Nat → List (Nat × Nat)
  | 0 => []
  | n + 1 => (a.1 n, a.2 n) :: downFrom a n

theorem downFrom_congr {a b n} (h : ∀ i < n, a.1 i = b.1 i ∧ a.2 i = b.2 i) :
    downFrom a n = downFrom b n := by
  induction n with
  | zero => rfl
  | succ n ih =>
    obtain ⟨hfst, hsnd⟩ := h n (lt_succ_self n)
    rw [downFrom, downFrom, hfst, hsnd, ih fun i hi => h i (lt_succ_of_lt hi)]

theorem downFrom_update_of_le {a n k} (h : n ≤ k) (v v' : Nat) :
    downFrom (update a.1 k v, update a.2 k v') n = downFrom a n := by
  refine downFrom_congr fun i hi => ⟨?_, ?_⟩ <;> exact update_of_ne (by omega) _ _

theorem downFrom_eq (a : SortArrays) (n : Nat) :
    (downFrom a n).reverse = (List.range n).map fun i => (a.1 i, a.2 i) := by
  induction n with
  | zero => rfl
  | succ n ih => rw [downFrom, reverse_cons, ih, range_succ, map_append]; rfl

/-- Moving the larger weights up and storing at the gap is an insertion. -/
theorem shiftDown_insert (w i j : Nat) (a : SortArrays) :
    downFrom (update (shiftDown w j a).1.1 (shiftDown w j a).2 w,
        update (shiftDown w j a).1.2 (shiftDown w j a).2 i) (j + 1) =
      insertWeight (w, i) (downFrom a j) ∧ (shiftDown w j a).2 ≤ j ∧
    ∀ k, j < k → (shiftDown w j a).1.1 k = a.1 k ∧ (shiftDown w j a).1.2 k = a.2 k := by
  induction j generalizing a with
  | zero => exact ⟨by simp [shiftDown, downFrom, insertWeight], le_refl 0, fun k _ => ⟨rfl, rfl⟩⟩
  | succ j ih =>
    unfold shiftDown
    by_cases hle : a.1 j ≤ w
    · rw [if_pos hle]
      refine ⟨?_, le_rfl, fun k _ => ⟨rfl, rfl⟩⟩
      rw [downFrom, downFrom_update_of_le le_rfl]
      dsimp only
      rw [update_self, update_self, downFrom, insertWeight, if_pos hle]
    · rw [if_neg hle]
      obtain ⟨hinsert, hpos, habove⟩ := ih (update a.1 (j + 1) (a.1 j), update a.2 (j + 1) (a.2 j))
      refine ⟨?_, le_succ_of_le hpos, fun k hk => ?_⟩
      · obtain ⟨hfst, hsnd⟩ := habove (j + 1) (lt_succ_self j)
        rw [downFrom, hinsert, downFrom_update_of_le (le_succ j)]
        dsimp only
        rw [update_of_ne (by omega), update_of_ne (by omega), hfst, hsnd]
        dsimp only
        rw [update_self, update_self, downFrom, insertWeight, if_neg hle]
      · obtain ⟨hfst, hsnd⟩ := habove k (by omega)
        rw [hfst, hsnd]
        exact ⟨update_of_ne (by omega) _ _, update_of_ne (by omega) _ _⟩

/-- The arrays after `n` turns. -/
def sortInPlace (weight : Nat → Nat) (n : Nat) : SortArrays :=
  (List.range n).foldl sortStep (weight, fun _ => 0)

/-- Every turn inserts a symbol into the order of those before it. -/
theorem sortInPlace_down (weight : Nat → Nat) (n : Nat) : downFrom (sortInPlace weight n) n =
        (List.range n).foldl (fun l i => insertWeight (weight i, i) l) [] ∧
      ∀ k, n ≤ k → (sortInPlace weight n).1 k = weight k := by
  unfold sortInPlace
  induction n with
  | zero => exact ⟨rfl, fun k _ => rfl⟩
  | succ n ih =>
    obtain ⟨hlist, hrest⟩ := ih
    rw [range_succ, foldl_append, foldl_append, ← hlist]
    generalize (List.range n).foldl sortStep (weight, fun _ => 0) = a at *
    obtain ⟨hinsert, hpos, habove⟩ := shiftDown_insert (a.1 n) n n a
    simp only [foldl_cons, foldl_nil, sortStep]
    refine ⟨?_, fun k hk => ?_⟩
    · rw [hinsert, hrest n (le_refl n)]
    · rw [update_of_ne (by omega), (habove k (by omega)).1, hrest k (by omega)]

/-! ## The order of the symbols -/

/-- By weight, then by value. -/
def Before (x y : Nat × Nat) : Prop := x.1 < y.1 ∨ x.1 = y.1 ∧ x.2 < y.2

theorem insertWeight_perm (x : Nat × Nat) (l : List (Nat × Nat)) :
    (insertWeight x l).Perm (x :: l) := by
  fun_induction insertWeight x l with
  | case1 => rfl
  | case2 => rfl
  | case3 y ys h ih => exact (ih.cons y).trans (.swap x y ys)

/-- A symbol behind all others that were inserted. -/
theorem insertWeight_sorted {x} {l : List (Nat × Nat)}
    (hl : l.Pairwise fun a b => Before b a) (hx : ∀ y ∈ l, y.2 < x.2) :
    (insertWeight x l).Pairwise fun a b => Before b a := by
  fun_induction insertWeight x l with
  | case1 => exact pairwise_singleton _ _
  | case2 y ys hle =>
    refine pairwise_cons.mpr ⟨fun z hz => ?_, hl⟩
    have hzx := hx z hz
    rcases mem_cons.mp hz with rfl | hz
    · rcases lt_or_eq_of_le hle with hlt | heq
      · exact .inl hlt
      · exact .inr ⟨heq, hzx⟩
    · rcases (pairwise_cons.mp hl).1 z hz with hlt | ⟨heq, -⟩
      · exact .inl (lt_of_lt_of_le hlt hle)
      · rcases lt_or_eq_of_le (heq ▸ hle) with hlt' | heq'
        · exact .inl hlt'
        · exact .inr ⟨heq', hzx⟩
  | case3 y ys hlt ih =>
    obtain ⟨hy, hys⟩ := pairwise_cons.mp hl
    refine pairwise_cons.mpr ⟨fun z hz => ?_, ih hys fun z hz => hx z (mem_cons_of_mem _ hz)⟩
    rcases mem_cons.mp ((insertWeight_perm x ys).mem_iff.mp hz) with rfl | hz
    · exact .inl (not_le.mp hlt)
    · exact hy z hz

theorem sortWeights_spec (weight : Nat → Nat) :
    (sortWeights weight).Perm ((List.range 256).map fun i => (weight i, i)) ∧
      (sortWeights weight).Pairwise Before := by
  have hloop := foldl_range_inv (f := fun l i => insertWeight (weight i, i) l) (n := 256) (a := [])
    (fun n l => l.Perm ((List.range n).map fun i => (weight i, i)) ∧
      l.Pairwise fun a b => Before b a) ⟨.refl _, .nil⟩ (by
    rintro n l - ⟨hperm, hsorted⟩
    refine ⟨?_, insertWeight_sorted hsorted fun y hy => ?_⟩
    · rw [range_succ, map_append]
      exact ((insertWeight_perm _ l).trans (hperm.cons _)).trans (perm_append_singleton ..).symm
    · obtain ⟨i, hi, rfl⟩ := mem_map.mp (hperm.mem_iff.mp hy)
      exact mem_range.mp hi)
  exact ⟨(reverse_perm _).trans hloop.1, pairwise_reverse.mpr hloop.2⟩

/-- The sort in place leaves the weights with their symbols by weight, then by value. -/
theorem weights_sorted_in_place (weight : Nat → Nat) :
    ((List.range 256).map fun i => ((sortInPlace weight 256).1 i, (sortInPlace weight 256).2 i)) =
        sortWeights weight ∧
      (sortWeights weight).Perm ((List.range 256).map fun i => (weight i, i)) ∧
      (sortWeights weight).Pairwise Before := by
  refine ⟨?_, sortWeights_spec weight⟩
  rw [sortWeights, ← (sortInPlace_down weight 256).1, downFrom_eq]

/-! ## The implied weight -/

/-- A weight that completes the others to a power of two. -/
structure Completes (sum last maxbits : Nat) : Prop where
  sum_pos : 0 < sum
  last_pos : 0 < last
  eq : sum + weightShare last = 2 ^ maxbits

theorem ctz_eq {n : Nat} {k} (hk : k < 32) (h : n.testBit k = true) (hlow : ∀ j < k, n.testBit j = false) :
    ctz n = k := by
  have hfind : (List.range 32).find? (fun i => n.testBit i) = some k :=
    List.find?_range_eq_some.mpr ⟨h, mem_range.mpr hk, fun j hj => by simp [hlow j hj]⟩
  rw [ctz, hfind]
  rfl

theorem ctz_two_pow_mul {k m} (hk : k < 32) (hm : Odd m) : ctz (2 ^ k * m) = k := by
  refine ctz_eq hk ?_ fun j hj => ?_
  · rw [testBit_two_pow_mul, Nat.sub_self, testBit_zero, odd_iff.mp hm]
    simp
  · rw [testBit_two_pow_mul, decide_eq_false (by omega), Bool.false_and]

/-- The lowest bit of a number is what an odd multiple of a power of two is a multiple of. -/
theorem exists_ctz {n} (hn : 0 < n) (hlt : n < 2 ^ 32) :
    ∃ m, Odd m ∧ n = 2 ^ ctz n * m ∧ ctz n < 32 := by
  obtain ⟨k, m, hm, rfl⟩ := exists_eq_two_pow_mul_odd hn.ne'
  have hk : k < 32 := by
    refine (Nat.pow_lt_pow_iff_right one_lt_two).mp (lt_of_le_of_lt ?_ hlt)
    exact Nat.le_mul_of_pos_right _ hm.pos
  exact ⟨m, hm, by rw [ctz_two_pow_mul hk hm], by rwa [ctz_two_pow_mul hk hm]⟩

/-- Only the lowest bit completes a sum. -/
theorem Completes.last_eq {sum last maxbits} (h : Completes sum last maxbits)
    (hlt : sum < 2 ^ 32) : last = ctz sum + 1 := by
  obtain ⟨l, rfl⟩ := Nat.exists_eq_add_of_lt h.last_pos
  have heq := h.eq
  have hpos := h.sum_pos
  rw [zero_add, weightShare_succ] at heq
  have hl : l < maxbits := (Nat.pow_lt_pow_iff_right one_lt_two).mp (by omega)
  obtain ⟨e, rfl⟩ := Nat.exists_eq_add_of_lt hl
  -- the sum is `2 ^ l` times a number of ones
  have hsum : sum = 2 ^ l * (2 * (2 ^ e - 1) + 1) := by
    have he := Nat.two_pow_pos e
    have hpow : 2 ^ (l + e + 1) = 2 ^ l * (2 * (2 ^ e - 1) + 1) + 2 ^ l :=
      calc 2 ^ (l + e + 1) = 2 ^ l * (2 * 2 ^ e) := by
            rw [add_assoc, pow_add, Nat.pow_succ']
        _ = 2 ^ l * (2 * (2 ^ e - 1) + 1 + 1) := by
            congr 1
            omega
        _ = 2 ^ l * (2 * (2 ^ e - 1) + 1) + 2 ^ l := mul_succ _ _
    omega
  have hl32 : l < 32 := by
    refine (Nat.pow_lt_pow_iff_right one_lt_two).mp (lt_of_le_of_lt ?_ hlt)
    rw [hsum]
    exact Nat.le_mul_of_pos_right _ (succ_pos _)
  rw [hsum, ctz_two_pow_mul hl32 ⟨2 ^ e - 1, rfl⟩, zero_add]

theorem Completes.unique {sum last maxbits last' maxbits'} (h : Completes sum last maxbits)
    (h' : Completes sum last' maxbits') (hlt : sum < 2 ^ 32) : last = last' ∧ maxbits = maxbits' := by
  have hlast : last = last' := (h.last_eq hlt).trans (h'.last_eq hlt).symm
  refine ⟨hlast, Nat.pow_right_injective (le_refl 2) ?_⟩
  change 2 ^ maxbits = 2 ^ maxbits'
  rw [← h.eq, ← h'.eq, hlast]

/-- It is the next power of two. -/
theorem Completes.bounds {sum last maxbits} (h : Completes sum last maxbits) (hlt : sum < 2 ^ 32) :
    sum < 2 ^ maxbits ∧ 2 ^ maxbits ≤ 2 * sum := by
  obtain ⟨m, hm, hsum, -⟩ := exists_ctz h.sum_pos hlt
  have heq := h.eq
  rw [h.last_eq hlt, weightShare_succ] at heq
  have hle : 2 ^ ctz sum ≤ sum := by
    conv_rhs => rw [hsum]
    exact Nat.le_mul_of_pos_right _ hm.pos
  have hpos := Nat.two_pow_pos (ctz sum)
  omega

/-- The loop that looks for the depth of the tree. -/
theorem maxBits_spec {sum} (fuel bits : Nat) (hfuel : sum ≤ 2 ^ (bits + fuel)) :
    sum ≤ 2 ^ maxBits sum fuel bits ∧ ∀ b, bits ≤ b → sum ≤ 2 ^ b → maxBits sum fuel bits ≤ b := by
  induction fuel generalizing bits with
  | zero => exact ⟨hfuel, fun b hb _ => hb⟩
  | succ fuel ih =>
    rw [maxBits, one_shiftLeft]
    by_cases hlt : 2 ^ bits < sum
    · rw [if_pos hlt]
      obtain ⟨hsum, hmin⟩ := ih (bits + 1) (by rwa [add_right_comm])
      refine ⟨hsum, fun b hb hle => hmin b ?_ hle⟩
      refine lt_of_le_of_ne hb fun heq => ?_
      rw [← heq] at hle
      exact absurd hle (not_le.mpr hlt)
    · rw [if_neg hlt]
      exact ⟨not_lt.mp hlt, fun b hb _ => hb⟩

/-- The check of `zstd_decode_tree_description` finds out whether there is such a weight. -/
theorem completes_iff {sum maxbits} (hpos : 0 < sum) (hlt : sum < 2 ^ 31) :
    (∃ last, Completes sum last maxbits) ↔
      sum + weightShare (ctz sum + 1) = 2 ^ maxBits (sum + weightShare (ctz sum + 1)) 32 (ctz sum + 1) ∧
      maxBits (sum + weightShare (ctz sum + 1)) 32 (ctz sum + 1) = maxbits := by
  have hlt32 : sum < 2 ^ 32 := by omega
  obtain ⟨m, hm, hsum, hctz⟩ := exists_ctz hpos hlt32
  have hle : 2 ^ ctz sum ≤ sum := by
    conv_rhs => rw [hsum]
    exact Nat.le_mul_of_pos_right _ hm.pos
  have hbound : sum + 2 ^ ctz sum ≤ 2 ^ (ctz sum + 1 + 32) :=
    le_trans (show sum + 2 ^ ctz sum ≤ 2 ^ 32 by omega)
      (Nat.pow_le_pow_right two_pos (by omega))
  rw [weightShare_succ]
  obtain ⟨hsumle, hmin⟩ := maxBits_spec 32 (ctz sum + 1) hbound
  constructor
  · rintro ⟨last, h⟩
    have heq := h.eq
    rw [h.last_eq hlt32, weightShare_succ] at heq
    have hbits : ctz sum + 1 ≤ maxbits := by
      refine (Nat.pow_le_pow_iff_right one_lt_two).mp ?_
      omega
    have hmax : maxBits (sum + 2 ^ ctz sum) 32 (ctz sum + 1) = maxbits := by
      refine le_antisymm (hmin maxbits hbits (le_of_eq heq)) ?_
      exact (Nat.pow_le_pow_iff_right one_lt_two).mp (heq ▸ hsumle)
    exact ⟨by rw [hmax, heq], hmax⟩
  · rintro ⟨heq, rfl⟩
    exact ⟨ctz sum + 1, hpos, succ_pos _, by rw [weightShare_succ]; exact heq⟩

/-! ## Codes -/

/-- The length of the code of a symbol of weight `w`. -/
def codeLen (maxbits w : Nat) : Nat := maxbits + 1 - w

/-- The entries of a symbol. -/
def codeRun (maxbits : Nat) (x : Nat × Nat) : List (UInt8 × Nat) :=
  if x.1 = 0 then []
  else List.replicate (2 ^ (11 - codeLen maxbits x.1)) (UInt8.ofNat x.2, codeLen maxbits x.1)

/-- What the weights of some symbols add to the sum. -/
def shares (xs : List (Nat × Nat)) : Nat := (xs.map fun x => weightShare x.1).sum

theorem shares_cons (x : Nat × Nat) (xs : List (Nat × Nat)) :
    shares (x :: xs) = weightShare x.1 + shares xs := rfl

section
variable {maxbits : Nat} {x : Nat × Nat} {xs : List (Nat × Nat)}

theorem codeRun_length (hmax : maxbits ≤ 11) (hx : x.1 ≤ maxbits) :
    (codeRun maxbits x).length = 2 ^ (11 - maxbits) * weightShare x.1 := by
  rw [codeRun]
  cases hw : x.1 with
  | zero => rfl
  | succ w =>
    rw [if_neg (Nat.succ_ne_zero w), length_replicate, weightShare_succ, ← pow_add, codeLen]
    congr 1
    omega

theorem weightShare_dvd {v w} (hv : v ≠ 0) (h : v ≤ w) : weightShare v ∣ weightShare w := by
  obtain ⟨v, rfl⟩ := exists_eq_succ_of_ne_zero hv
  obtain ⟨w, rfl⟩ := exists_eq_succ_of_ne_zero (Nat.ne_zero_of_lt h)
  rw [succ_eq_add_one, succ_eq_add_one, weightShare_succ, weightShare_succ]
  exact pow_dvd_pow 2 (le_of_succ_le_succ h)

/-- A run begins at a multiple of its length: what follows up to the end of the table consists of
runs that are no shorter. -/
theorem run_aligned {code} (hmax : maxbits ≤ 11) (hx : x.1 ≠ 0) (hle : x.1 ≤ maxbits)
    (hsorted : ∀ y ∈ xs, x.1 ≤ y.1) (htotal : code + 2 ^ (11 - maxbits) * shares (x :: xs) = 2048) :
    2 ^ (11 - codeLen maxbits x.1) ∣ code := by
  have hlength : 2 ^ (11 - codeLen maxbits x.1) = 2 ^ (11 - maxbits) * weightShare x.1 := by
    rw [← codeRun_length hmax hle, codeRun, if_neg hx, length_replicate]
  have hrest : weightShare x.1 ∣ shares (x :: xs) := by
    refine dvd_sum fun v hv => ?_
    obtain ⟨y, hy, rfl⟩ := mem_map.mp hv
    rcases mem_cons.mp hy with rfl | hy
    · exact dvd_refl _
    · exact weightShare_dvd hx (hsorted y hy)
  have hbehind : 2 ^ (11 - codeLen maxbits x.1) ∣ 2 ^ (11 - maxbits) * shares (x :: xs) :=
    hlength ▸ Nat.mul_dvd_mul_left _ hrest
  refine (Nat.dvd_add_iff_left hbehind).mpr ?_
  rw [htotal]
  exact pow_dvd_pow 2 (sub_le 11 _)

/-- The loop over the sorted symbols fills the rest of the table with their runs. -/
theorem enterCodes (hmax : maxbits ≤ 11) (code : Nat) (table : Nat → UInt8 × Nat)
    (hsorted : xs.Pairwise fun a b => a.1 ≤ b.1) (hle : ∀ y ∈ xs, y.1 ≤ maxbits)
    (htotal : code + 2 ^ (11 - maxbits) * shares xs = 2048) :
    ∃ table', xs.foldlM (enterCode maxbits) (code, table) = .ok (2048, table') ∧
      (∀ i < code, table' i = table i) ∧
      ∀ j v, (xs.flatMap (codeRun maxbits))[j]? = some v → table' (code + j) = v := by
  induction xs generalizing code table with
  | nil =>
    refine ⟨table, ?_, fun i _ => rfl, fun j v h => ?_⟩
    · rw [← htotal]
      rfl
    · cases h
  | cons x xs ih =>
    obtain ⟨hx, hxs⟩ := pairwise_cons.mp hsorted
    have hxle := hle x mem_cons_self
    have htail (y : Nat × Nat) (hy : y ∈ xs) := hle y (mem_cons_of_mem _ hy)
    by_cases hzero : x.1 = 0
    · have hrun : codeRun maxbits x = [] := if_pos hzero
      rw [shares_cons, hzero, weightShare_zero, zero_add] at htotal
      rw [flatMap_cons, hrun, nil_append, foldlM_cons, enterCode, if_pos hzero]
      exact ih code table hxs htail htotal
    · have haligned := run_aligned hmax hzero hxle hx htotal
      have hlength := codeRun_length hmax hxle
      have hrun : codeRun maxbits x = List.replicate (2 ^ (11 - codeLen maxbits x.1))
        (UInt8.ofNat x.2, codeLen maxbits x.1) := if_neg hzero
      rw [hrun, length_replicate] at hlength
      rw [shares_cons, mul_add, ← hlength, ← add_assoc] at htotal
      obtain ⟨table', hfold, hbelow, hruns⟩ := ih (code + 2 ^ (11 - codeLen maxbits x.1))
        (fun i => if code ≤ i ∧ i < code + 2 ^ (11 - codeLen maxbits x.1) then
          (UInt8.ofNat x.2, codeLen maxbits x.1) else table i) hxs htail htotal
      refine ⟨table', ?_, fun i hi => ?_, fun j v hj => ?_⟩
      · rw [foldlM_cons, enterCode, if_neg hzero]
        dsimp only
        rw [one_shiftLeft, ← codeLen, if_neg]
        · exact hfold
        · rintro (hmod | hover)
          · exact hmod (mod_eq_zero_of_dvd haligned)
          · change 2048 < code + 2 ^ (11 - codeLen maxbits x.1) at hover
            omega
      · exact (hbelow i (by omega)).trans (if_neg (by omega))
      · rw [flatMap_cons, hrun] at hj
        rcases lt_or_ge j (2 ^ (11 - codeLen maxbits x.1)) with hlt | hge
        · rw [List.getElem?_append_left (by simpa using hlt), List.getElem?_replicate, if_pos hlt] at hj
          cases hj
          exact (hbelow (code + j) (by omega)).trans (if_pos (by omega))
        · rw [List.getElem?_append_right (by simpa using hge), length_replicate] at hj
          have h := hruns _ v hj
          rwa [show code + 2 ^ (11 - codeLen maxbits x.1) + (j - 2 ^ (11 - codeLen maxbits x.1)) =
            code + j by omega] at h

theorem runs_length (hmax : maxbits ≤ 11) (hle : ∀ y ∈ xs, y.1 ≤ maxbits) :
    (xs.flatMap (codeRun maxbits)).length = 2 ^ (11 - maxbits) * shares xs := by
  induction xs with
  | nil => rfl
  | cons x xs ih =>
    rw [flatMap_cons, length_append, codeRun_length hmax (hle x mem_cons_self),
      ih fun y hy => hle y (mem_cons_of_mem _ hy), shares_cons, mul_add]

/-- Symbols of weight 0 have no entries. -/
theorem runs_filter (xs : List (Nat × Nat)) :
    (xs.filter fun x => x.1 ≠ 0).flatMap (codeRun maxbits) = xs.flatMap (codeRun maxbits) := by
  induction xs with
  | nil => rfl
  | cons x xs ih =>
    by_cases hx : x.1 = 0
    · have hrun : codeRun maxbits x = [] := if_pos hx
      rw [filter_cons_of_neg (by simp [hx]), ih, flatMap_cons, hrun, nil_append]
    · rw [filter_cons_of_pos (by simp [hx]), flatMap_cons, flatMap_cons, ih]

end

/-- The 2048 entries are those of the canonical code: the symbols of nonzero weight, by weight and
value, have contiguous runs one after the other, each beginning at a multiple of its length. -/
structure CanonicalCode (weight : Nat → Nat) (maxbits : Nat) (table : Nat → UInt8 × Nat)
    (order : List (Nat × Nat)) : Prop where
  mem : ∀ w s, (w, s) ∈ order ↔ s < 256 ∧ w = weight s ∧ w ≠ 0
  sorted : order.Pairwise Before
  runs : (List.range 2048).map table = order.flatMap (codeRun maxbits)
  aligned : ∀ front x rest, order = front ++ x :: rest →
    2 ^ (11 - codeLen maxbits x.1) ∣ (front.flatMap (codeRun maxbits)).length

section
variable {weight : Nat → Nat} {maxbits : Nat}

theorem mem_sortWeights {w s} : (w, s) ∈ sortWeights weight ↔ s < 256 ∧ w = weight s := by
  rw [(sortWeights_spec weight).1.mem_iff, mem_map]
  constructor
  · rintro ⟨i, hi, ⟨⟩⟩
    exact ⟨mem_range.mp hi, rfl⟩
  · rintro ⟨hs, rfl⟩
    exact ⟨s, mem_range.mpr hs, rfl⟩

theorem shares_sortWeights (weight : Nat → Nat) :
    shares (sortWeights weight) = ∑ i ∈ Finset.range 256, weightShare (weight i) := by
  have hrange (n : Nat) : ((List.range n).map fun i => weightShare (weight i)).sum =
      ∑ i ∈ Finset.range n, weightShare (weight i) := by
    induction n with
    | zero => rfl
    | succ n ih => rw [range_succ, map_append, List.sum_append, ih, Finset.sum_range_succ]; rfl
  rw [← hrange, shares, ((sortWeights_spec weight).1.map fun x => weightShare x.1).sum_eq, map_map]
  rfl

theorem Before.fst_le {x y} (h : Before x y) : x.1 ≤ y.1 := by
  rcases h with hlt | ⟨heq, -⟩
  · exact le_of_lt hlt
  · exact le_of_eq heq

/-- The loop over the sorted symbols makes the canonical code of weights that add up. -/
theorem canonicalCode_of_sum (hmax : maxbits ≤ 11) (hle : ∀ s < 256, weight s ≤ maxbits)
    (hsum : ∑ i ∈ Finset.range 256, weightShare (weight i) = 2 ^ maxbits)
    (table : Nat → UInt8 × Nat) :
    ∃ table' order, (sortWeights weight).foldlM (enterCode maxbits) (0, table) = .ok (2048, table') ∧
      CanonicalCode weight maxbits table' order := by
  have hsorted := (sortWeights_spec weight).2
  have hbound (x : Nat × Nat) (hx : x ∈ sortWeights weight) : x.1 ≤ maxbits := by
    obtain ⟨hs, heq⟩ := mem_sortWeights.mp hx
    exact heq ▸ hle x.2 hs
  have htotal : 2 ^ (11 - maxbits) * shares (sortWeights weight) = 2048 := by
    rw [shares_sortWeights, hsum, ← Nat.pow_add, Nat.sub_add_cancel hmax]
  obtain ⟨table', hfold, -, hruns⟩ := enterCodes hmax 0 table
    (hsorted.imp Before.fst_le) hbound (by rw [zero_add, htotal])
  have hlength : ((sortWeights weight).flatMap (codeRun maxbits)).length = 2048 := by
    rw [runs_length hmax hbound, htotal]
  refine ⟨table', (sortWeights weight).filter fun x => x.1 ≠ 0, hfold, fun w s => ?_,
    hsorted.filter _, ?_, fun front x rest horder => ?_⟩
  · rw [mem_filter, mem_sortWeights, and_assoc]
    simp
  · rw [runs_filter]
    refine ext_getElem (by rw [length_map, length_range, hlength]) fun j hj hj' => ?_
    have hentry := hruns j _ (List.getElem?_eq_getElem hj')
    rw [zero_add] at hentry
    rw [getElem_map, getElem_range]
    exact hentry
  · have hmem (y : Nat × Nat) (hy : y ∈ front ++ x :: rest) : y ∈ sortWeights weight ∧ y.1 ≠ 0 := by
      simpa [← horder] using hy
    have hpairwise : (front ++ x :: rest).Pairwise Before := horder ▸ hsorted.filter _
    have hx := hmem x (by simp)
    have hrest : ∀ y ∈ rest, x.1 ≤ y.1 :=
      fun y hy => ((pairwise_cons.mp (pairwise_append.mp hpairwise).2.1).1 y hy).fst_le
    refine run_aligned hmax hx.2 (hbound x hx.1) hrest ?_
    rw [← runs_length hmax fun y hy => hbound y (hmem y (mem_append_right _ hy)).1,
      ← length_append, ← flatMap_append, ← horder, runs_filter, hlength]

end

/-! ## Trees -/

/-- The weights with the implied one behind them. -/
def Weights.completed (ws : Weights) (last i : Nat) : Nat :=
  if i = ws.num then last else if ws.num < i then 0 else ws.weight i

section
variable {ws : Weights} {last maxbits : Nat}

theorem Weights.completed_of_lt {i} (hi : i < ws.num) : ws.completed last i = ws.weight i := by
  rw [completed, if_neg (Nat.ne_of_lt hi), if_neg (lt_asymm hi)]

theorem Weights.completed_num : ws.completed last ws.num = last := if_pos rfl

theorem Weights.completed_of_gt {i} (hi : ws.num < i) : ws.completed last i = 0 := by
  rw [completed, if_neg (ne_of_gt hi), if_pos hi]

theorem Weights.Sound.completed_sum (h : ws.Sound) (last : Nat) :
    ∑ i ∈ Finset.range 256, weightShare (ws.completed last i) = ws.sum + weightShare last := by
  have hsub : Finset.range (ws.num + 1) ⊆ Finset.range 256 :=
    Finset.range_subset_range.mpr (succ_le_succ h.num_le)
  rw [← Finset.sum_subset hsub, Finset.sum_range_succ, h.sum_eq, completed_num]
  · congr 1
    exact Finset.sum_congr rfl fun i hi => by rw [completed_of_lt (Finset.mem_range.mp hi)]
  · intro i _ hi
    rw [completed_of_gt, weightShare_zero]
    simpa using hi

/-- No weight stands for the whole table. -/
theorem Weights.Sound.completed_le (h : ws.Sound) (hlast : Completes ws.sum last maxbits) (i : Nat) :
    ws.completed last i ≤ maxbits := by
  have hpos := hlast.sum_pos
  have heq := hlast.eq
  have hshare : 0 < weightShare last := by
    obtain ⟨l, rfl⟩ := Nat.exists_eq_add_of_lt hlast.last_pos
    rw [zero_add, weightShare_succ]
    exact Nat.two_pow_pos l
  have hlt : weightShare (ws.completed last i) < 2 ^ maxbits := by
    rcases lt_trichotomy i ws.num with hi | rfl | hi
    · have hle : weightShare (ws.weight i) ≤ ws.sum := by
        rw [h.sum_eq]
        exact Finset.single_le_sum (f := fun i => weightShare (ws.weight i)) (fun _ _ => Nat.zero_le _)
          (Finset.mem_range.mpr hi)
      rw [completed_of_lt hi]
      omega
    · rw [completed_num]
      omega
    · rw [completed_of_gt hi, weightShare_zero]
      exact Nat.two_pow_pos maxbits
  cases hw : ws.completed last i with
  | zero => exact Nat.zero_le _
  | succ w =>
    rw [hw, weightShare_succ] at hlt
    exact (Nat.pow_lt_pow_iff_right one_lt_two).mp hlt

/-- The codes entered for all weights. -/
def treeOf (weight : Nat → Nat) (maxbits : Nat) (tables : DecTables) :
    Except Fault (Option DecTables) := do
  let (code, table) ← (sortWeights weight).foldlM (enterCode maxbits) (0, tables.huffTable)
  if code ≠ 2048 then throw .assertion
  pure (some { tables with huffDepth := maxbits, huffTable := table })

/-- The sum does not wrap, and the implied weight can be shifted by. -/
theorem buildTree_eq (h : ws.Sound) (hpos : 0 < ws.sum) {sum}
    (hsum : sum = ws.sum + weightShare (ctz ws.sum + 1)) (tables : DecTables) :
    buildTree ws tables = if sum ≠ 2 ^ maxBits sum 32 (ctz ws.sum + 1) then .ok none
      else if 11 < maxBits sum 32 (ctz ws.sum + 1) then .ok none
      else treeOf (ws.completed (ctz ws.sum + 1)) (maxBits sum 32 (ctz ws.sum + 1)) tables := by
  have hle := h.sum_le
  obtain ⟨m, hm, heq, -⟩ := exists_ctz hpos (by omega)
  have hpow : 2 ^ ctz ws.sum ≤ ws.sum := by
    conv_rhs => rw [heq]
    exact Nat.le_mul_of_pos_right _ hm.pos
  have hctz : ctz ws.sum < 22 := (Nat.pow_lt_pow_iff_right one_lt_two).mp (by omega)
  have hmod : (ws.sum + 1 <<< (ctz ws.sum + 1) >>> 1) % 2 ^ 32 = sum := by
    rw [hsum]
    refine mod_eq_of_lt ?_
    change ws.sum + weightShare (ctz ws.sum + 1) < 2 ^ 32
    rw [weightShare_succ]
    omega
  rw [buildTree, if_neg hpos.ne']
  dsimp only
  rw [if_neg (by omega), hmod, one_shiftLeft]
  rfl

theorem buildTree_completed (h : ws.Sound) (hlast : Completes ws.sum last maxbits) (hmax : maxbits ≤ 11)
    (tables : DecTables) : ∃ table order,
      buildTree ws tables = .ok (some { tables with huffDepth := maxbits, huffTable := table }) ∧
      CanonicalCode (ws.completed last) maxbits table order := by
  have hle := h.sum_le
  obtain ⟨heq, hbits⟩ := (completes_iff hlast.sum_pos (by omega)).mp ⟨last, hlast⟩
  obtain ⟨table, order, hfold, hcode⟩ := canonicalCode_of_sum hmax (fun s _ => h.completed_le hlast s)
    (by rw [h.completed_sum, hlast.eq]) tables.huffTable
  refine ⟨table, order, ?_, hcode⟩
  rw [buildTree_eq h hlast.sum_pos rfl, if_neg (not_not.mpr heq), hbits,
    if_neg (not_lt.mpr hmax), ← hlast.last_eq (by omega), treeOf, hfold]
  rfl

theorem buildTree_rejected (h : ws.Sound)
    (hlast : ∀ last maxbits, Completes ws.sum last maxbits → 11 < maxbits) (tables : DecTables) :
    buildTree ws tables = .ok none := by
  rcases Nat.eq_zero_or_pos ws.sum with hzero | hpos
  · rw [buildTree, if_pos hzero]
  · rw [buildTree_eq h hpos rfl]
    split
    · rfl
    · rename_i heq
      have hle := h.sum_le
      obtain ⟨last, hlast'⟩ := (completes_iff hpos (by omega)).mpr ⟨not_not.mp heq, rfl⟩
      rw [if_pos (hlast last _ hlast')]

end

section
variable {inp : Nat → UInt8} {start stop ptr : Nat} {ws : Weights}

/-- The weights that a description gives, and where it ends. -/
inductive TreeWeights (inp : Nat → UInt8) (start stop : Nat) : Weights → Nat → Prop where
  | compressed {ws : Weights} : start < stop → (inp start).toNat < 128 →
      fseHuffWeights inp (start + 1) stop (inp start).toNat = .ok (some ws) →
      TreeWeights inp start stop ws (start + 1 + (inp start).toNat)
  | direct {ws : Weights} : start < stop → ¬ (inp start).toNat < 128 →
      ¬ stop - (start + 1) < ((inp start).toNat - 127 + 1) / 2 →
      directHuffWeights inp (start + 1) ((inp start).toNat - 127) = .ok ws →
      TreeWeights inp start stop ws (start + 1 + ((inp start).toNat - 127 + 1) / 2)

theorem TreeWeights.sound (h : TreeWeights inp start stop ws ptr) : ws.Sound := by
  cases h with
  | compressed _ _ hweights => exact fseHuffWeights_sound hweights
  | direct _ _ _ hweights =>
    have hbyte := (inp start).toNat_lt
    obtain ⟨ws', hrun, hsound, -⟩ := directHuffWeights_ok inp (start + 1)
      (show (inp start).toNat - 127 ≤ 255 by omega)
    rw [hrun] at hweights
    cases hweights
    exact hsound

/-- What becomes of a description whose weights are known. -/
def treeResult (ptr : Nat) (tables : DecTables) : Option DecTables → Option Nat × DecTables
  | none => (none, tables)
  | some tables => (some ptr, tables)

theorem TreeWeights.decode_eq (h : TreeWeights inp start stop ws ptr) {tables r}
    (hbuild : buildTree ws tables = .ok r) :
    zstdDecodeTreeDescription inp start stop tables = .ok (treeResult ptr tables r) := by
  have hresult : (buildTree ws tables >>= fun r : Option DecTables =>
      match r with
      | none => pure (none, tables)
      | some tables => pure (some ptr, tables)) = .ok (treeResult ptr tables r) := by
    rw [hbuild]
    cases r <;> rfl
  cases h with
  | compressed hstart hheader hweights =>
    rw [zstdDecodeTreeDescription, if_neg (by omega)]
    rw [if_pos hheader, hweights]
    exact hresult
  | direct hstart hheader hlength hweights =>
    rw [zstdDecodeTreeDescription, if_neg (by omega)]
    rw [if_neg hheader, if_neg hlength, hweights]
    exact hresult

/-- Nothing is accepted without weights. -/
theorem exists_treeWeights {tables tables'}
    (h : zstdDecodeTreeDescription inp start stop tables = .ok (some ptr, tables')) :
    ∃ ws, TreeWeights inp start stop ws ptr := by
  have hlast {ws : Weights} {last : Nat} (h : (buildTree ws tables >>= fun r : Option DecTables =>
      match r with
      | none => pure (none, tables)
      | some tables => pure (some last, tables)) = .ok (some ptr, tables')) : last = ptr := by
    obtain ⟨r, -, h⟩ := except_bind_eq_ok h
    cases r <;> cases h
    rfl
  rw [zstdDecodeTreeDescription] at h
  split at h
  · cases h
  rename_i hstart
  dsimp only at h
  split at h
  · rename_i hheader
    obtain ⟨_ | ws, hweights, h⟩ := except_bind_eq_ok h
    · cases h
    obtain rfl := hlast h
    exact ⟨ws, .compressed (by omega) hheader hweights⟩
  · rename_i hheader
    split at h
    · cases h
    rename_i hlength
    obtain ⟨ws, hweights, h⟩ := except_bind_eq_ok h
    obtain rfl := hlast h
    exact ⟨ws, .direct (by omega) hheader hlength hweights⟩

end

/-- A tree description is accepted if a last weight completes its weights and the tree is at most 11
deep, and the table is then that of the canonical code; otherwise it is rejected. -/
theorem huffman_table_canonical (inp : Nat → UInt8) (start stop : Nat) (tables : DecTables) :
    (∀ ptr tables', zstdDecodeTreeDescription inp start stop tables = .ok (some ptr, tables') →
      ∃ ws, TreeWeights inp start stop ws ptr) ∧
    ∀ ws ptr, TreeWeights inp start stop ws ptr → ws.num ≤ 255 ∧
      ws.sum = ∑ i ∈ Finset.range ws.num, weightShare (ws.weight i) ∧
      ((∃ last maxbits table order,
          Completes ws.sum last maxbits ∧ ws.sum < 2 ^ maxbits ∧ 2 ^ maxbits ≤ 2 * ws.sum ∧
          (∀ last' maxbits', Completes ws.sum last' maxbits' → last' = last ∧ maxbits' = maxbits) ∧
          maxbits ≤ 11 ∧ CanonicalCode (ws.completed last) maxbits table order ∧
          zstdDecodeTreeDescription inp start stop tables =
            .ok (some ptr, { tables with huffDepth := maxbits, huffTable := table })) ∨
        (∀ last maxbits, Completes ws.sum last maxbits → 11 < maxbits) ∧
          zstdDecodeTreeDescription inp start stop tables = .ok (none, tables)) := by
  refine ⟨fun ptr tables' => exists_treeWeights, fun ws ptr h => ?_⟩
  have hsound := h.sound
  have hlt : ws.sum < 2 ^ 32 := lt_of_le_of_lt hsound.sum_le (by decide)
  refine ⟨hsound.num_le, hsound.sum_eq, ?_⟩
  by_cases hlast : ∃ last maxbits, Completes ws.sum last maxbits ∧ maxbits ≤ 11
  · obtain ⟨last, maxbits, hlast, hmax⟩ := hlast
    obtain ⟨table, order, hbuild, hcode⟩ := buildTree_completed hsound hlast hmax tables
    obtain ⟨hbelow, habove⟩ := hlast.bounds hlt
    exact .inl ⟨last, maxbits, table, order, hlast, hbelow, habove,
      fun last' maxbits' h' => h'.unique hlast hlt, hmax, hcode, h.decode_eq hbuild⟩
  · have hdeep (last maxbits : Nat) (h : Completes ws.sum last maxbits) : 11 < maxbits := by
      by_contra hmax
      exact hlast ⟨last, maxbits, h, not_lt.mp hmax⟩
    exact .inr ⟨hdeep, h.decode_eq (buildTree_rejected hsound hdeep tables)⟩

end Rkboot.Compression.Zstd
