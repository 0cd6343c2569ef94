import Rkboot.Lib.Lz77
import Rkboot.Lib.PrefixCode

/-! # Blocks of RFC 1951

How a list of LZ77 tokens is written as bits: a token is a literal/length symbol,
a match has behind it the extra bits of its length, a distance symbol and the
extra bits of its distance. The two alphabets' codes are parameters. -/
namespace Rkboot.Compression.Deflate
open Lib Lz77 List
open PrefixCode (codeBits code)

/-! ## Lengths and distances -/

/-- The least lengths of the symbols 257 to 285. -/
def lengthBases : List Nat :=
  [3, 4, 5, 6, 7, 8, 9, 10, 11, 13, 15, 17, 19, 23, 27, 31, 35, 43, 51, 59, 67, 83, 99, 115, 131, 163,
    195, 227, 258]

def lengthExtras : List Nat :=
  [0, 0, 0, 0, 0, 0, 0, 0, 1, 1, 1, 1, 2, 2, 2, 2, 3, 3, 3, 3, 4, 4, 4, 4, 5, 5, 5, 5, 0]

/-- The least distances of the distance symbols. -/
def distBases : List Nat :=
  [1, 2, 3, 4, 5, 7, 9, 13, 17, 25, 33, 49, 65, 97, 129, 193, 257, 385, 513, 769, 1025, 1537, 2049,
    3073, 4097, 6145, 8193, 12289, 16385, 24577]

def distExtras : List Nat :=
  [0, 0, 0, 0, 1, 1, 2, 2, 3, 3, 4, 4, 5, 5, 6, 6, 7, 7, 8, 8, 9, 9, 10, 10, 11, 11, 12, 12, 13, 13]

/-- The last base that is not above the value; length 258 has a symbol of its own. -/
def baseIndex (bases : List Nat) (v : Nat) : Nat := bases.tail.findIdx (v < ·)

/-- Bases that follow each other, each as far from the next as its extra bits count; the last
one may be closer. -/
def Contiguous (bases extras : List Nat) : Prop :=
  ∀ i, i + 1 < bases.length → bases.getD (i + 1) 0 ≤ bases.getD i 0 + 2 ^ extras.getD i 0

instance (bases extras : List Nat) : Decidable (Contiguous bases extras) :=
  decidable_of_iff (∀ i, i < bases.length - 1 → _)
    (forall_congr' fun i => by rw [show i < bases.length - 1 ↔ i + 1 < bases.length by omega])

theorem baseIndex_lt {bases : List Nat} (h : 0 < bases.length) (v : Nat) :
    baseIndex bases v < bases.length := by
  have := @List.findIdx_le_length _ (fun b => decide (v < b)) bases.tail
  rw [length_tail] at this
  unfold baseIndex
  omega

theorem base_le {bases : List Nat} {v} (h0 : bases.getD 0 0 ≤ v) :
    bases.getD (baseIndex bases v) 0 ≤ v := by
  cases hk : baseIndex bases v with
  | zero => exact h0
  | succ k =>
    have hlt : k < bases.tail.findIdx (v < ·) := by
      unfold baseIndex at hk
      omega
    have := not_of_lt_findIdx hlt
    have hk' : k < bases.tail.length := lt_of_lt_of_le hlt findIdx_le_length
    rw [length_tail] at hk'
    rw [getD_eq_getElem _ _ (by omega)]
    simpa [getElem_tail] using this

/-- A value is its base plus a number that fits the extra bits. -/
theorem sub_base_lt {bases extras : List Nat} (hc : Contiguous bases extras) {v}
    (hi : baseIndex bases v + 1 < bases.length) :
    v - bases.getD (baseIndex bases v) 0 < 2 ^ extras.getD (baseIndex bases v) 0 := by
  have hlt : bases.tail.findIdx (v < ·) < bases.tail.length := by
    rw [length_tail]
    unfold baseIndex at hi
    omega
  have hnext := findIdx_getElem (w := hlt)
  have hstep := hc _ hi
  rw [getD_eq_getElem _ _ hi] at hstep
  have hget : v < bases[baseIndex bases v + 1] := by simpa [getElem_tail, baseIndex] using hnext
  have := Nat.two_pow_pos (extras.getD (baseIndex bases v) 0)
  omega

/-- With ascending bases the index says which bases are not above the value. -/
theorem le_baseIndex_iff {bases : List Nat} (hb : bases.Pairwise (· ≤ ·)) {v i} (hi : 0 < i)
    (hlt : i < bases.length) : i ≤ baseIndex bases v ↔ bases.getD i 0 ≤ v := by
  obtain ⟨i, rfl⟩ : ∃ k, i = k + 1 := ⟨i - 1, by omega⟩
  rw [getD_eq_getElem _ _ hlt, baseIndex]
  constructor
  · intro h
    have := not_of_lt_findIdx (by omega : i < bases.tail.findIdx (v < ·))
    simpa [getElem_tail] using this
  · intro h
    by_contra hc
    have hlt' : bases.tail.findIdx (v < ·) < bases.tail.length := by
      rw [length_tail]
      omega
    have hfound := findIdx_getElem (w := hlt')
    simp only [getElem_tail, decide_eq_true_eq] at hfound
    rcases lt_or_eq_of_le (by omega : bases.tail.findIdx (v < ·) ≤ i) with hlt | heq
    · have hle := (pairwise_iff_getElem.mp hb) (bases.tail.findIdx (v < ·) + 1) (i + 1)
        (by omega) (by omega) (by omega)
      omega
    · simp only [heq] at hfound
      omega

theorem lengthBases_contiguous : Contiguous lengthBases lengthExtras := by decide
theorem distBases_contiguous : Contiguous distBases distExtras := by decide
theorem lengthBases_sorted : lengthBases.Pairwise (· ≤ ·) := by decide
theorem distBases_sorted : distBases.Pairwise (· ≤ ·) := by decide

/-! ## Tokens -/

/-- The bits of the symbols of the two alphabets. -/
structure Codes where
  lit : Nat → List Bool
  dist : Nat → List Bool

/-- The literal/length symbol of a token. -/
def symbol : Token → Nat
  | .lit b => b.toNat
  | .copy length _ => 257 + baseIndex lengthBases length

def distSymbol (dist : Nat) : Nat := baseIndex distBases dist

/-- The bits behind the literal/length symbol: extra bits, distance symbol, extra bits. -/
def tail (c : Codes) : Token → List Bool
  | .lit _ => []
  | .copy length dist =>
    lowBits (length - lengthBases.getD (baseIndex lengthBases length) 0)
      (lengthExtras.getD (baseIndex lengthBases length) 0) ++
    (c.dist (distSymbol dist) ++
      lowBits (dist - distBases.getD (distSymbol dist) 0) (distExtras.getD (distSymbol dist) 0))

def encode (c : Codes) (t : Token) : List Bool := c.lit (symbol t) ++ tail c t

/-- The tokens and the end of the block. -/
def encodeBlock (c : Codes) : List Token → List Bool
  | [] => c.lit 256
  | t :: ts => encode c t ++ encodeBlock c ts

/-- The lengths and distances the format has. -/
def InRange : Token → Prop
  | .lit _ => True
  | .copy length dist => 3 ≤ length ∧ length ≤ 258 ∧ 1 ≤ dist ∧ dist ≤ 32768

instance : DecidablePred InRange
  | .lit _ => .isTrue trivial
  | .copy _ _ => inferInstanceAs (Decidable (_ ∧ _))

theorem InRange.size_pos {t : Token} (h : InRange t) : 0 < t.size := by
  cases t with
  | lit b => exact one_pos
  | copy length dist => exact lt_of_lt_of_le (by decide) h.1

theorem length_le_size {ts : List Token} (h : ∀ t ∈ ts, InRange t) : ts.length ≤ size ts := by
  induction ts with
  | nil => exact le_rfl
  | cons t ts ih =>
    rw [size_cons, length_cons]
    have := (h t mem_cons_self).size_pos
    have := ih fun u hu => h u (mem_cons_of_mem _ hu)
    omega

theorem symbol_lt (t : Token) : symbol t < 286 := by
  cases t with
  | lit b => exact lt_trans b.toNat_lt (by decide)
  | copy length dist =>
    have := @baseIndex_lt lengthBases (by decide) length
    have hlen : lengthBases.length = 29 := rfl
    rw [symbol]
    omega

theorem distSymbol_lt (dist : Nat) : distSymbol dist < 30 := baseIndex_lt (by decide) _

/-- The distance symbol and its extra bits give the distance. -/
theorem dist_sub_lt {dist} (h : dist ≤ 32768) :
    dist - distBases.getD (distSymbol dist) 0 < 2 ^ distExtras.getD (distSymbol dist) 0 := by
  rcases lt_or_ge (distSymbol dist) 29 with hlt | hge
  · exact sub_base_lt distBases_contiguous (Nat.succ_lt_succ hlt)
  · have heq : distSymbol dist = 29 := le_antisymm (Nat.le_of_lt_succ (distSymbol_lt dist)) hge
    rw [heq]
    show dist - 24577 < 8192
    omega

/-- A length below 258 is its symbol's base and the extra bits. -/
theorem length_sub_lt {length} (h : length ≤ 258) :
    length - lengthBases.getD (baseIndex lengthBases length) 0 <
      2 ^ lengthExtras.getD (baseIndex lengthBases length) 0 := by
  have hlt := @baseIndex_lt lengthBases (by decide) length
  have hlen : lengthBases.length = 29 := rfl
  rcases lt_or_ge (baseIndex lengthBases length) 28 with h28 | h28
  · exact sub_base_lt lengthBases_contiguous (by omega)
  · rw [show baseIndex lengthBases length = 28 by omega]
    show length - 258 < 1
    omega

/-- Only length 258 has symbol 285. -/
theorem baseIndex_length_eq {length} (h3 : 3 ≤ length) (h : length ≤ 258) :
    baseIndex lengthBases length = 28 ↔ length = 258 := by
  constructor
  · intro he
    have := @base_le lengthBases length h3
    rw [he] at this
    exact le_antisymm h this
  · rintro rfl
    rfl

/-! ## Canonical codes -/

/-- The codes that code lengths stand for. -/
def canonical (litLengths distLengths : Nat → Nat) : Codes where
  lit s := codeBits (code 286 litLengths s) (litLengths s)
  dist s := codeBits (code 30 distLengths s) (distLengths s)

/-- The symbols of a token have codes. -/
def Coded (litLengths distLengths : Nat → Nat) : Token → Prop
  | .lit b => 0 < litLengths b.toNat
  | .copy length dist =>
    0 < litLengths (symbol (.copy length dist)) ∧ 0 < distLengths (distSymbol dist)

instance (litLengths distLengths : Nat → Nat) : DecidablePred (Coded litLengths distLengths)
  | .lit _ => inferInstanceAs (Decidable (_ < _))
  | .copy _ _ => inferInstanceAs (Decidable (_ ∧ _))

/-! ## Fixed codes -/

def fixedLitBits (s : Nat) : List Bool :=
  if s < 144 then codeBits (0x30 + s) 8
  else if s < 256 then codeBits (0x190 + (s - 144)) 9
  else if s < 280 then codeBits (s - 256) 7
  else codeBits (0xc0 + (s - 280)) 8

def fixedDistBits (s : Nat) : List Bool := codeBits s 5

/-- The codes of a block of type 1. -/
def fixed : Codes := ⟨fixedLitBits, fixedDistBits⟩

/-! ## Dynamic headers -/

/-- A symbol of a run-length coding of code lengths, with its extra bits. -/
inductive LengthOp where
  | len (v : Nat)
  | repeat16 (n : Nat)
  | zeros17 (n : Nat)
  | zeros18 (n : Nat)
  deriving DecidableEq, Repr

namespace LengthOp

def symbol : LengthOp → Nat
  | .len v => v
  | .repeat16 _ => 16
  | .zeros17 _ => 17
  | .zeros18 _ => 18

def extra : LengthOp → List Bool
  | .len _ => []
  | .repeat16 n => lowBits (n - 3) 2
  | .zeros17 n => lowBits (n - 3) 3
  | .zeros18 n => lowBits (n - 11) 7

def InRange : LengthOp → Prop
  | .len v => v ≤ 15
  | .repeat16 n => 3 ≤ n ∧ n ≤ 6
  | .zeros17 n => 3 ≤ n ∧ n ≤ 10
  | .zeros18 n => 11 ≤ n ∧ n ≤ 138

instance : DecidablePred InRange
  | .len _ => inferInstanceAs (Decidable (_ ≤ _))
  | .repeat16 _ => inferInstanceAs (Decidable (_ ∧ _))
  | .zeros17 _ => inferInstanceAs (Decidable (_ ∧ _))
  | .zeros18 _ => inferInstanceAs (Decidable (_ ∧ _))

/-- The lengths so far, and those the symbol adds. -/
def apply (ls : List Nat) : LengthOp → List Nat
  | .len v => ls ++ [v]
  | .repeat16 n => ls ++ List.replicate n (ls.getLastD 0)
  | .zeros17 n => ls ++ List.replicate n 0
  | .zeros18 n => ls ++ List.replicate n 0

/-- The first symbol repeats no length that is not there. -/
def Starts : List LengthOp → Prop
  | .repeat16 _ :: _ => False
  | _ => True

instance : DecidablePred Starts
  | .repeat16 _ :: _ => .isFalse id
  | [] => .isTrue trivial
  | .len _ :: _ => .isTrue trivial
  | .zeros17 _ :: _ => .isTrue trivial
  | .zeros18 _ :: _ => .isTrue trivial

theorem symbol_lt {op : LengthOp} (h : op.InRange) : op.symbol < 19 := by
  cases op <;> simp only [InRange, symbol] at * <;> omega

/-- How many lengths a symbol adds. -/
def count : LengthOp → Nat
  | .len _ => 1
  | .repeat16 n => n
  | .zeros17 n => n
  | .zeros18 n => n

theorem count_pos {op : LengthOp} (h : op.InRange) : 0 < op.count := by
  cases op <;> simp only [InRange, count] at * <;> omega

@[simp] theorem apply_length (ls : List Nat) (op : LengthOp) :
    (op.apply ls).length = ls.length + op.count := by
  cases op <;> simp [apply, count]

theorem length_le_foldl (ls : List Nat) (ops : List LengthOp) :
    ls.length ≤ (ops.foldl apply ls).length := by
  induction ops generalizing ls with
  | nil => exact le_rfl
  | cons op ops ih =>
    have := ih (op.apply ls)
    rw [apply_length] at this
    exact le_trans (Nat.le_add_right _ _) this

/-- What a symbol adds does not depend on what is in front of the last length. -/
theorem apply_append {ls rs} {op : LengthOp} (h : rs ≠ [] ∨ Starts [op]) :
    op.apply (ls ++ rs) = ls ++ op.apply rs := by
  cases op with
  | repeat16 n =>
    have hne : rs ≠ [] := h.resolve_right id
    have hlast : (ls ++ rs).getLastD 0 = rs.getLastD 0 := by
      rw [getLastD_eq_getLast?, getLastD_eq_getLast?, List.getLast?_append,
        List.getLast?_eq_some_getLast hne, Option.some_or]
    rw [apply, apply, hlast, append_assoc]
  | _ => simp [apply]

theorem foldl_le {ls} {ops : List LengthOp} (hls : ∀ v ∈ ls, v ≤ 15)
    (hops : ∀ op ∈ ops, op.InRange) : ∀ v ∈ ops.foldl apply ls, v ≤ 15 := by
  induction ops generalizing ls with
  | nil => exact hls
  | cons op ops ih =>
    refine ih (fun v hv => ?_) fun o ho => hops o (mem_cons_of_mem _ ho)
    have hop := hops op mem_cons_self
    cases op with
    | len w =>
      rcases mem_append.mp hv with h | h
      · exact hls v h
      · rw [mem_singleton.mp h]
        exact hop
    | repeat16 n =>
      rcases mem_append.mp hv with h | h
      · exact hls v h
      · rw [(mem_replicate.mp h).2]
        cases hl : ls.getLast? with
        | none => simp [getLastD_eq_getLast?, hl]
        | some w =>
          rw [getLastD_eq_getLast?, hl]
          exact hls w (mem_of_getLast? hl)
    | _ =>
      rcases mem_append.mp hv with h | h
      · exact hls v h
      · rw [(mem_replicate.mp h).2]
        exact Nat.zero_le _

/-- Lengths in front of a coding that starts on its own are not looked at. -/
theorem foldl_append {ls rs} {ops : List LengthOp} (hops : ∀ op ∈ ops, op.InRange)
    (h : rs ≠ [] ∨ Starts ops) : ops.foldl apply (ls ++ rs) = ls ++ ops.foldl apply rs := by
  induction ops generalizing rs with
  | nil => rfl
  | cons op ops ih =>
    have hop : rs ≠ [] ∨ Starts [op] := h.imp_right fun hs => by cases op <;> exact hs
    have hne : op.apply rs ≠ [] := by
      rw [← length_pos_iff, apply_length]
      have := count_pos (hops op mem_cons_self)
      omega
    rw [foldl_cons, foldl_cons, apply_append hop,
      ih (fun o ho => hops o (mem_cons_of_mem _ ho)) (.inl hne)]

end LengthOp

/-- The sequence of code lengths that a run-length coding stands for. -/
def lengthsOf (ops : List LengthOp) : List Nat := ops.foldl LengthOp.apply []

theorem lengthsOf_append {as bs} (hbs : ∀ op ∈ bs, op.InRange)
    (h : LengthOp.Starts bs) : lengthsOf (as ++ bs) = lengthsOf as ++ lengthsOf bs := by
  rw [lengthsOf, foldl_append]
  have := @LengthOp.foldl_append (lengthsOf as) [] bs hbs (.inr h)
  rwa [append_nil] at this

theorem lengthsOf_getD_le {ops} (hops : ∀ op ∈ ops, op.InRange) (i : Nat) :
    (lengthsOf ops).getD i 0 ≤ 15 := by
  rcases lt_or_ge i (lengthsOf ops).length with h | h
  · rw [getD_eq_getElem _ _ h]
    exact LengthOp.foldl_le (fun _ h => absurd h not_mem_nil) hops _ (getElem_mem h)
  · rw [getD_eq_default _ _ h]
    exact Nat.zero_le _

/-- The order in which the lengths of the code length code are sent. -/
def codeLengthOrder : List Nat := [16, 17, 18, 0, 8, 7, 9, 6, 10, 5, 11, 4, 12, 3, 13, 2, 14, 1, 15]

/-- The bits of run-length coded lengths under a code length code. -/
def encodeLengths (codeLengths : Nat → Nat) (ops : List LengthOp) : List Bool :=
  ops.flatMap fun op => codeBits (code 19 codeLengths op.symbol)
    (codeLengths op.symbol) ++ op.extra

theorem encodeLengths_append (codeLengths : Nat → Nat) (as bs : List LengthOp) :
    encodeLengths codeLengths (as ++ bs) =
      encodeLengths codeLengths as ++ encodeLengths codeLengths bs := flatMap_append

theorem encodeLengths_congr {l l' : Nat → Nat} {ops} (h : ∀ s < 19, l s = l' s)
    (hops : ∀ op ∈ ops, op.InRange) : encodeLengths l ops = encodeLengths l' ops := by
  rw [encodeLengths, encodeLengths, flatMap_def, flatMap_def]
  congr 1
  refine map_congr_left fun op hop => ?_
  have hlt := LengthOp.symbol_lt (hops op hop)
  rw [h _ hlt, PrefixCode.code_congr h hlt]

/-- Every symbol takes a bit. -/
theorem length_le_encodeLengths {codeLengths : Nat → Nat} {ops : List LengthOp}
    (h : ∀ op ∈ ops, 0 < codeLengths op.symbol) :
    ops.length ≤ (encodeLengths codeLengths ops).length := by
  induction ops with
  | nil => exact Nat.zero_le _
  | cons op ops ih =>
    have := h op mem_cons_self
    have := ih fun o ho => h o (mem_cons_of_mem _ ho)
    rw [encodeLengths, flatMap_cons, length_append, length_append,
      PrefixCode.codeBits_length, length_cons]
    rw [encodeLengths] at this
    omega

/-- The header of a block of type 2 with `hclen` code length code lengths. -/
def encodeHeader (last : Bool) (hlit hdist hclen : Nat) (codeLengths : Nat → Nat)
    (ops : List LengthOp) : List Bool :=
  [last, false, true] ++ lowBits (hlit - 257) 5 ++ lowBits (hdist - 1) 5 ++ lowBits (hclen - 4) 4 ++
    (codeLengthOrder.take hclen).flatMap (fun s => lowBits (codeLengths s) 3) ++
    encodeLengths codeLengths ops

end Rkboot.Compression.Deflate
