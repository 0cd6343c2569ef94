import Rkboot.Compression.ZstdDistribution
import Mathlib.Algebra.Order.BigOperators.Group.List

/-! # The format of FSE distributions

A description is the accuracy, then the probabilities in truncated binary for as long as entries are
left, with two-bit flags that count the zeros behind a zero. `fse_decode_distribution` reads back
what was described and stops behind the last byte of it. -/
namespace Rkboot.Compression.Zstd
open Lib List Nat

variable {n left maxSym total : Nat} {probs : List ℤ}

/-! ## The format -/

/-- The flags for `n` more zeros: three at a time, then what remains. -/
def runBits (n : Nat) : List Bool :=
  (List.replicate (n / 3) (lowBits 3 2)).flatten ++ lowBits (n % 3) 2

/-- Probabilities, of which -1 stands for less than one entry, when `left` entries are left. -/
def encodeProbs (left : Nat) : List Int → List Bool
  | [] => []
  | prob :: probs =>
    if left = 0 then []
    else truncBits (left + 2) (prob + 1).toNat ++
      if prob = 0 then
        runBits (probs.takeWhile (· = 0)).length ++ encodeProbs left (probs.dropWhile (· = 0))
      else encodeProbs (left - prob.natAbs) probs
termination_by probs => probs.length
decreasing_by
  · exact lt_succ_of_le (dropWhile_suffix _).length_le
  · exact lt_succ_self _

def encodeDistribution (log : Nat) (probs : List Int) : List Bool :=
  lowBits (log - 5) 4 ++ encodeProbs (2 ^ log) probs

/-- Probabilities that give out `total` entries. -/
structure Normalised (total : Nat) (probs : List Int) : Prop where
  ge : ∀ prob ∈ probs, -1 ≤ prob
  sum : (probs.map Int.natAbs).sum = total

/-! ## Reading bits -/

section
variable {inp : Nat → UInt8} {start stop len p : Nat} {b : DistBits} {bs cs : List Bool}

/-- The reader stands in front of bit `p`. -/
structure DistBits.At (inp : Nat → UInt8) (start p : Nat) (b : DistBits) : Prop where
  le : start ≤ b.ptr
  pos : p + b.numBits = 8 * (b.ptr - start)
  bits : b.bits = leWord inp start (b.ptr - start) >>> p

/-- The first `len` bytes have these bits at bit `p`. -/
structure Ahead (inp : Nat → UInt8) (start len p : Nat) (bs : List Bool) : Prop where
  bits : HasBits (leWord inp start len) p bs
  le : p + bs.length ≤ 8 * len

theorem ahead_append : Ahead inp start len p (bs ++ cs) ↔
    Ahead inp start len p bs ∧ Ahead inp start len (p + bs.length) cs := by
  constructor
  · rintro ⟨hbits, hle⟩
    obtain ⟨hb, hc⟩ := hasBits_append.mp hbits
    rw [length_append] at hle
    exact ⟨⟨hb, by omega⟩, ⟨hc, by omega⟩⟩
  · rintro ⟨⟨hb, -⟩, hc, hle⟩
    refine ⟨hasBits_append.mpr ⟨hb, hc⟩, ?_⟩
    rw [length_append]
    omega

/-- One more byte. -/
theorem DistBits.At.push (h : b.At inp start p) : DistBits.At inp start p
      ⟨b.ptr + 1, b.bits ||| (inp b.ptr).toNat <<< b.numBits, b.numBits + 8⟩ where
  le := le_succ_of_le h.le
  pos := by
    have hle := h.le
    have hpos := h.pos
    dsimp only
    omega
  bits := by
    have hle := h.le
    have hpos := h.pos
    have hword : leWord inp start (b.ptr + 1 - start) =
        leWord inp start (b.ptr - start) ||| (inp b.ptr).toNat <<< (8 * (b.ptr - start)) := by
      rw [show b.ptr + 1 - start = (b.ptr - start) + 1 by omega, leWord_append,
        show start + (b.ptr - start) = b.ptr by omega]
      simp [leWord]
    rw [hword, shiftRight_or_distrib, ← h.bits, ← hpos, add_comm p,
      shiftLeft_add, shiftLeft_shiftRight]

/-- Bytes are fetched as far as they are needed. -/
theorem DistBits.At.want (n fuel : Nat) (h : b.At inp start p) (hlazy : b.numBits < n + 8)
    (hfuel : n ≤ b.numBits + 8 * fuel) (hin : p + n ≤ 8 * len) (hstop : start + len ≤ stop) :
    ∃ b', b.want inp stop n fuel = some b' ∧ b'.At inp start p ∧ n ≤ b'.numBits ∧
      b'.numBits < n + 8 := by
  induction fuel generalizing b with
  | zero => exact ⟨b, rfl, h, hfuel, hlazy⟩
  | succ fuel ih =>
    rw [DistBits.want]
    by_cases henough : n ≤ b.numBits
    · exact ⟨b, if_pos henough, h, henough, hlazy⟩
    · have hpos := h.pos
      rw [if_neg henough, if_pos (by omega)]
      refine ih h.push ?_ ?_
      · exact Nat.add_lt_add_right (not_le.mp henough) 8
      · dsimp only
        omega

theorem DistBits.At.skip (h : b.At inp start p) (hn : n ≤ b.numBits) :
    (b.skip n).At inp start (p + n) where
  le := h.le
  pos := by
    have hpos := h.pos
    change p + n + (b.numBits - n) = 8 * (b.ptr - start)
    omega
  bits := by
    change b.bits >>> n = leWord inp start (b.ptr - start) >>> (p + n)
    rw [h.bits, shiftRight_add]

/-- The bits in the container are those of the input. -/
theorem DistBits.At.mod_eq (h : b.At inp start p) (hbs : Ahead inp start len p bs)
    (hn : bs.length ≤ b.numBits) : b.bits % 2 ^ bs.length = ofBits bs := by
  rw [← hbs.bits, h.bits]
  apply eq_of_testBit_eq
  intro i
  rw [testBit_mod_two_pow, testBit_mod_two_pow]
  by_cases hi : i < bs.length
  · have hpos := h.pos
    have hle := hbs.le
    rw [testBit_shiftRight, testBit_shiftRight, leWord_testBit, leWord_testBit,
      decide_eq_true (show p + i < 8 * (b.ptr - start) by omega),
      decide_eq_true (show p + i < 8 * len by omega)]
  · rw [decide_eq_false hi, Bool.false_and, Bool.false_and]

/-- Reading a field. -/
theorem DistBits.At.read (h : b.At inp start p) (hlazy : b.numBits < 8)
    (hbs : Ahead inp start len p bs) (hstop : start + len ≤ stop) :
    ∃ b', b.want inp stop bs.length bs.length = some b' ∧ b'.bits % 2 ^ bs.length = ofBits bs ∧
      (b'.skip bs.length).At inp start (p + bs.length) ∧ (b'.skip bs.length).numBits < 8 := by
  obtain ⟨b', hwant, hat, henough, hlazy'⟩ :=
    h.want bs.length bs.length (by omega) (by omega) hbs.le hstop
  exact ⟨b', hwant, hat.mod_eq hbs henough, hat.skip henough, Nat.sub_lt_left_of_lt_add henough hlazy'⟩

end

/-! ## Reading back -/

section
variable {inp : Nat → UInt8} {start stop len p : Nat} {b : DistBits}

/-- A probability is read back. -/
theorem readProb_trunc {v} (h : b.At inp start p) (hlazy : b.numBits < 8)
    (hv : v < left + 2) (hbits : Ahead inp start len p (truncBits (left + 2) v))
    (hstop : start + len ≤ stop) : ∃ b', readProb inp stop b left = some (v, b') ∧
      b'.At inp start (p + (truncBits (left + 2) v).length) ∧ b'.numBits < 8 := by
  obtain ⟨low, hi, hlow, hcode, hvalue⟩ := truncBits_eq hv
  rw [hcode] at hbits ⊢
  obtain ⟨hfirst, hsecond⟩ := ahead_append.mp hbits
  obtain ⟨b₁, hwant, hmod, hat, hlazy₁⟩ := h.read hlazy hfirst hstop
  rw [lowBits_length] at hwant hmod hat hlazy₁ hsecond
  rw [ofBits_lowBits, mod_eq_of_lt hlow] at hmod
  have hval : b₁.bits &&& (1 <<< Nat.log2 (left + 2) - 1) = low := by
    rw [one_shiftLeft, and_two_pow_sub_one_eq_mod]
    exact hmod
  unfold readProb truncLength
  dsimp only
  rw [hwant, Option.bind_eq_bind, Option.bind_some, hval, truncCutoff_eq]
  by_cases hlong : truncShort (left + 2) ≤ low
  · rw [if_pos hlong] at hsecond ⊢
    rw [if_pos hlong]
    obtain ⟨b₂, hwant₂, hmod₂, hat₂, hlazy₂⟩ := hat.read hlazy₁ hsecond hstop
    have hbit : b₂.bits.testBit 0 = hi := by
      rw [testBit_zero, show b₂.bits % 2 = hi.toNat from hmod₂]
      cases hi <;> rfl
    rw [show DistBits.want inp stop 1 1 _ = some b₂ from hwant₂, Option.bind_some, hbit]
    refine ⟨b₂.skip 1, ?_, ?_, hlazy₂⟩
    · rw [hvalue, one_shiftLeft]
      simp only [hlong, true_and]
    · rw [length_append, lowBits_length, ← add_assoc]
      exact hat₂
  · rw [if_neg hlong, if_neg hlong, append_nil, lowBits_length]
    refine ⟨_, ?_, hat, hlazy₁⟩
    rw [hvalue, if_neg fun h => hlong h.1]
    rfl

theorem read_flag {rep} (h : b.At inp start p) (hlazy : b.numBits < 8) (hrep : rep < 4)
    (hbits : Ahead inp start len p (lowBits rep 2)) (hstop : start + len ≤ stop) :
    ∃ b', b.want inp stop 2 2 = some b' ∧ b'.bits &&& 3 = rep ∧
      (b'.skip 2).At inp start (p + 2) ∧ (b'.skip 2).numBits < 8 := by
  obtain ⟨b', hwant, hmod, hat, hlazy'⟩ := h.read hlazy hbits hstop
  rw [ofBits_lowBits, mod_eq_of_lt (show rep < 2 ^ 2 from hrep)] at hmod
  exact ⟨b', hwant, (and_two_pow_sub_one_eq_mod _ 2).trans hmod, hat, hlazy'⟩

/-- A run of zeros is read back. -/
theorem zeroRepeats_runs {q r} (fuel sym : Nat) (weights : Nat → Nat) (h : b.At inp start p)
    (hlazy : b.numBits < 8) (hr : r < 3) (hsym : sym + (3 * q + r) < maxSym) (hfuel : q < fuel)
    (hbits : Ahead inp start len p ((List.replicate q (lowBits 3 2)).flatten ++ lowBits r 2))
    (hstop : start + len ≤ stop) : ∃ b', zeroRepeats inp stop maxSym maxSym fuel b sym weights =
        .ok (some (b', sym + (3 * q + r), ones sym (sym + (3 * q + r)) weights)) ∧
      b'.At inp start (p + (2 * q + 2)) ∧ b'.numBits < 8 := by
  induction q generalizing b p fuel sym weights with
  | zero =>
    obtain ⟨fuel, rfl⟩ := exists_eq_succ_of_ne_zero (Nat.ne_zero_of_lt hfuel)
    obtain ⟨b', hwant, hrep, hat, hlazy'⟩ := read_flag h hlazy (by omega) hbits hstop
    refine ⟨b'.skip 2, ?_, hat, hlazy'⟩
    rw [zeroRepeats, hwant]
    dsimp only
    rw [hrep, if_neg (by omega), if_neg (by omega), if_neg (by omega), mul_zero, zero_add]
    rfl
  | succ q ih =>
    obtain ⟨fuel, rfl⟩ := exists_eq_succ_of_ne_zero (Nat.ne_zero_of_lt hfuel)
    rw [replicate_succ, flatten_cons, append_assoc] at hbits
    obtain ⟨hflag, hrest⟩ := ahead_append.mp hbits
    obtain ⟨b₁, hwant, hrep, hat, hlazy₁⟩ := read_flag h hlazy (by omega) hflag hstop
    obtain ⟨b', hrun, hat', hlazy'⟩ := ih fuel (sym + 3) (ones sym (sym + 3) weights) hat hlazy₁
      (by omega) (lt_of_succ_lt_succ hfuel) hrest
    refine ⟨b', ?_, by rw [show p + (2 * (q + 1) + 2) = p + 2 + (2 * q + 2) by omega]; exact hat',
      hlazy'⟩
    rw [zeroRepeats, hwant]
    dsimp only
    rw [hrep, if_neg (by omega), if_neg (by omega), if_pos rfl]
    refine hrun.trans ?_
    rw [ones_ones (by omega) (by omega), show sym + 3 + (3 * q + r) = sym + (3 * (q + 1) + r) by omega]

/-- A list is its leading zeros and what follows them. -/
theorem takeWhile_zero_append (probs : List Int) :
    probs = List.replicate (probs.takeWhile (· = 0)).length 0 ++ probs.dropWhile (· = 0) := by
  conv_lhs => rw [← takeWhile_append_dropWhile (p := (· = 0)) (l := probs)]
  congr 1
  refine eq_replicate_of_mem fun x hx => ?_
  simpa using all_eq_true.mp all_takeWhile x hx

theorem Normalised.tail {prob : Int}
    (h : Normalised total (prob :: probs)) : Normalised (total - prob.natAbs) probs where
  ge x hx := h.ge x (mem_cons_of_mem _ hx)
  sum := by
    have hsum := h.sum
    rw [map_cons, sum_cons] at hsum
    omega

theorem Normalised.drop_zeros
    (h : Normalised total (List.replicate n 0 ++ probs)) : Normalised total probs where
  ge x hx := h.ge x (mem_append_right _ hx)
  sum := by
    have hsum := h.sum
    simpa using hsum

theorem Normalised.le {prob : Int}
    (h : Normalised total (prob :: probs)) : prob.natAbs ≤ total := by
  have hsum := h.sum
  rw [map_cons, sum_cons] at hsum
  omega

theorem runBits_length (n : Nat) : (runBits n).length = 2 * (n / 3) + 2 := by
  simp [runBits, mul_comm]

/-- The weights of the symbols from `sym` on. -/
def Holds (maxSym sym : Nat) (probs : List Int) (weights w : Nat → Nat) : Prop :=
  (∀ i < sym, w i = weights i) ∧ ∀ i, sym + i < maxSym → w (sym + i) = (probs.getD i 0 + 1).toNat

/-- A symbol and the zeros behind it are in front of what follows them. -/
theorem Holds.zeros {sym rest weights w}
    (h : Holds maxSym (sym + n + 1) rest (ones sym (sym + n) (Function.update weights sym 1)) w) :
    Holds maxSym sym (0 :: (List.replicate n 0 ++ rest)) weights w := by
  obtain ⟨hbefore, hrest⟩ := h
  refine ⟨fun i hi => ?_, fun i hi => ?_⟩
  · rw [hbefore i (by omega), ones, if_neg (by omega), Function.update_of_ne (by omega)]
  · rcases lt_or_ge n i with hn | hn
    · obtain ⟨j, rfl⟩ := Nat.exists_eq_add_of_lt hn
      rw [show sym + (n + j + 1) = sym + n + 1 + j by omega, hrest j (by omega), getD_cons_succ,
        getD_append_right _ _ _ _ (by simp)]
      simp
    · rw [hbefore (sym + i) (by omega), ones]
      cases i with
      | zero => simp
      | succ i =>
        have hin : i < (List.replicate n (0 : Int)).length := by simpa using hn
        rw [if_pos (by omega), getD_cons_succ, getD_append _ _ _ _ hin,
          getD_eq_getElem _ _ hin, getElem_replicate]
        rfl

theorem Holds.cons {maxSym sym prob probs weights w}
    (h : Holds maxSym (sym + 1) probs (Function.update weights sym (prob + 1).toNat) w) :
    Holds maxSym sym (prob :: probs) weights w := by
  obtain ⟨hbefore, hrest⟩ := h
  refine ⟨fun i hi => ?_, fun i hi => ?_⟩
  · rw [hbefore i (by omega), Function.update_of_ne (by omega)]
  · cases i with
    | zero =>
      rw [hbefore (sym + 0) (lt_succ_self _), add_zero, Function.update_self]
      rfl
    | succ i =>
      rw [getD_cons_succ, ← hrest i (by omega)]
      congr 1
      omega

theorem Normalised.getD_zero (h : Normalised 0 probs) (i : Nat) : probs.getD i 0 = 0 := by
  rw [getD_eq_getElem?_getD]
  cases hi : probs[i]? with
  | none => rfl
  | some prob =>
    have hle : prob.natAbs ≤ (probs.map Int.natAbs).sum :=
      le_sum_of_mem (mem_map_of_mem (mem_of_getElem? hi))
    rw [h.sum] at hle
    exact Int.natAbs_eq_zero.mp (le_zero.mp hle)

theorem distLoop_encoded (fuel sym : Nat) (weights : Nat → Nat)
    (hprobs : Normalised left probs) (hleft : 0 < left) (hlen : sym + probs.length ≤ maxSym)
    (hfuel : probs.length < fuel) (h : b.At inp start p) (hlazy : b.numBits < 8)
    (hbits : Ahead inp start len p (encodeProbs left probs)) (hstop : start + len ≤ stop) :
    ∃ (b' : DistBits) (w : Nat → Nat),
      distLoop inp stop maxSym maxSym fuel b left sym weights = .ok (some (b'.ptr, w)) ∧
      b'.At inp start (p + (encodeProbs left probs).length) ∧ b'.numBits < 8 ∧
      Holds maxSym sym probs weights w := by
  -- one probability, with the zeros behind it, at a time
  induction left, probs using encodeProbs.induct generalizing fuel b p sym weights with
  | case1 left => exact absurd hprobs.sum (Nat.ne_of_lt hleft)
  | case2 prob probs => exact absurd hleft (lt_irrefl 0)
  | case3 left prob probs hne ihzero ihrest =>
    obtain ⟨fuel, rfl⟩ := exists_eq_succ_of_ne_zero (Nat.ne_zero_of_lt hfuel)
    have hge := hprobs.ge prob mem_cons_self
    have hle := hprobs.le
    rw [encodeProbs, if_neg hne] at hbits ⊢
    rw [length_cons] at hlen hfuel
    obtain ⟨hfirst, hmore⟩ := ahead_append.mp hbits
    obtain ⟨b₁, hprob, hat, hlazy₁⟩ :=
      readProb_trunc h hlazy (show (prob + 1).toNat < left + 2 by omega) hfirst hstop
    rw [distLoop, if_neg (by omega), hprob, length_append, ← add_assoc]
    dsimp only
    by_cases hzero : prob = 0
    · subst hzero
      rw [if_pos rfl] at hmore ⊢
      have hsplit := takeWhile_zero_append probs
      generalize hn : (probs.takeWhile (· = 0)).length = n at *
      generalize hrest : probs.dropWhile (· = 0) = rest at *
      subst hsplit
      rw [length_append, length_replicate] at hlen hfuel
      obtain ⟨hrun, htail⟩ := ahead_append.mp hmore
      obtain ⟨b₂, hrepeats, hat₂, hlazy₂⟩ := zeroRepeats_runs (maxSym + 1) sym
        (Function.update weights sym 1) hat hlazy₁ (mod_lt n (by decide))
        (show sym + (3 * (n / 3) + n % 3) < maxSym by omega) (by omega) hrun hstop
      rw [div_add_mod] at hrepeats
      rw [← runBits_length] at hat₂
      obtain ⟨b', w, hloop, hat', hlazy', hholds⟩ := ihzero fuel (sym + n + 1)
        (ones sym (sym + n) (Function.update weights sym 1)) hprobs.tail.drop_zeros hleft (by omega)
        (by omega) hat₂ hlazy₂ htail
      refine ⟨b', w, ?_, ?_, hlazy', hholds.zeros⟩
      · rw [show (0 + 1 : Int).toNat = 1 from rfl, hrepeats]
        exact hloop
      · rw [length_append, ← add_assoc]
        exact hat'
    · rw [if_neg hzero] at hmore ⊢
      have hslots : (if (prob + 1).toNat = 0 then 1 else (prob + 1).toNat - 1) = prob.natAbs := by
        split <;> omega
      rw [if_neg (by omega), if_neg (by omega), hslots]
      by_cases hdone : left - prob.natAbs = 0
      · have hnone := hprobs.tail
        rw [hdone] at hnone hmore ⊢
        have hnil : encodeProbs 0 probs = [] := by
          cases probs with
          | nil => rw [encodeProbs]
          | cons => rw [encodeProbs, if_pos rfl]
        rw [if_pos rfl, hnil]
        refine ⟨b₁, _, rfl, hat, hlazy₁, .cons ⟨fun i hi => if_neg (by omega), fun i hi => ?_⟩⟩
        rw [hnone.getD_zero]
        exact if_pos (by omega)
      · rw [if_neg hdone]
        obtain ⟨b', w, hloop, hat', hlazy', hholds⟩ := ihrest fuel (sym + 1)
          (Function.update weights sym (prob + 1).toNat) hprobs.tail (pos_of_ne_zero hdone)
          (by omega) (by omega) hat hlazy₁ hmore
        exact ⟨b', w, hloop, hat', hlazy', hholds.cons⟩

end

/-- The bits of a description, filled up to whole bytes, and whatever follows them. -/
theorem fseDecodeDistribution_encoded {inp : Nat → UInt8} {start stop len log maxSym : Nat}
    {probs : List Int} {padding : List Bool} (hlog : 5 ≤ log ∧ log ≤ 20)
    (hprobs : Normalised (2 ^ log) probs) (hlen : probs.length ≤ maxSym)
    (hbits : inputBits inp start len = encodeDistribution log probs ++ padding)
    (hpadding : padding.length < 8) (hstop : start + len ≤ stop) :
    ∃ w, fseDecodeDistribution inp stop start maxSym maxSym =
        .ok (some (log, some (start + len, w))) ∧
      ∀ s < maxSym, w s = (probs.getD s 0 + 1).toNat := by
  have hlength := congrArg List.length hbits
  rw [inputBits_length, length_append] at hlength
  have hahead : Ahead inp start len 0 (encodeDistribution log probs) :=
    ⟨hasBits_of_inputBits (a := []) hbits, by omega⟩
  rw [encodeDistribution] at hahead hlength
  obtain ⟨hfield, hcodes⟩ := ahead_append.mp hahead
  rw [length_append, lowBits_length] at hlength
  -- the first byte, of which the accuracy takes half
  have hstart : DistBits.At inp start 0 ⟨start, 0, 0⟩ := by
    refine ⟨le_rfl, ?_, ?_⟩ <;> simp [leWord]
  have hfirst := hstart.push
  have haccuracy := hfirst.mod_eq hfield (by simp)
  have hskip := hfirst.skip (n := 4) (show 4 ≤ 8 by decide)
  simp only [shiftLeft_zero, zero_or, zero_add, DistBits.skip] at haccuracy hskip
  rw [lowBits_length, ofBits_lowBits, mod_eq_of_lt (show log - 5 < 2 ^ 4 by omega)] at haccuracy
  have hlogField : ((inp start).toNat &&& 15) + 5 = log := by
    rw [and_two_pow_sub_one_eq_mod _ 4, haccuracy]
    omega
  obtain ⟨b, w, hloop, hat, hlazy, -, hholds⟩ := distLoop_encoded
    (maxSym + 1) 0 (fun _ => 0) hprobs (Nat.two_pow_pos log)
    (show 0 + probs.length ≤ maxSym by omega) (by omega)
    hskip (show 4 < 8 by decide) hcodes hstop
  have hend : b.ptr = start + len := by
    have hpos := hat.pos
    omega
  refine ⟨w, ?_, fun s hs => ?_⟩
  · unfold fseDecodeDistribution
    rw [if_neg (by omega)]
    dsimp only
    rw [hlogField, one_shiftLeft]
    rw [hloop, hend]
    rfl
  · have h := hholds s (by omega)
    rwa [zero_add] at h

/-- Two symbols of 16 entries each with one between them that is not there. -/
theorem fseDecodeDistribution_halves :
    ∃ w, fseDecodeDistribution (fun i => [0x10, 0x83, 0x0f, 0xff].getD i 0) 4 0 4 4 =
        .ok (some (5, some (0 + 3, w))) ∧
      ∀ s < 4, w s = (([16, 0, 16] : List Int).getD s 0 + 1).toNat := by
  have hprobs : encodeProbs 32 [16, 0, 16] =
      truncBits 34 17 ++ (truncBits 18 1 ++ (runBits 0 ++ truncBits 18 17)) := by
    simp [encodeProbs]
  have hbits : inputBits (fun i => [0x10, 0x83, 0x0f, 0xff].getD i 0) 0 3 =
      encodeDistribution 5 [16, 0, 16] ++ [false, false, false, false] := by
    rw [encodeDistribution, show 2 ^ 5 = 32 from rfl, hprobs]
    decide
  exact fseDecodeDistribution_encoded (by decide) ⟨by decide, by decide⟩ (by decide) hbits (by decide)
    (by decide)

end Rkboot.Compression.Zstd
