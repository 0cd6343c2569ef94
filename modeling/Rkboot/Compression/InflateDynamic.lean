import Rkboot.Compression.InflateBlock

/-! # Dynamic block headers of the gzip decompressor

`block_start` reads the run-length coded lengths in two halves. A header in
which no symbol belongs to both halves, and the second does not start with a
repetition, is read back to the lengths it encodes. -/
namespace Rkboot.Compression.Inflate
open Lib Deflate List Nat
open Function (update update_apply)
open PrefixCode (codeBits code ofBits_code codeBits_length kraft kraft_congr)

/-! ## Symbols with extra bits -/

section
variable {inp : Nat → UInt8} {start stop : Nat}

/-- Bytes are taken in as long as the `n` bits are not there. -/
theorem fillBits_ok {want : BitBuf → Nat} {p n fuel} {b : BitBuf} (h : b.Holds inp start stop p)
    (hwant : ∀ b : BitBuf, b.Holds inp start stop p → (b.numBits < want b ↔ b.numBits < n))
    (hn : n ≤ 25) (hleft : p + n ≤ 8 * (stop - start)) (hfuel : n ≤ b.numBits + 8 * fuel) :
    ∃ b', fillBits inp stop want fuel b = some b' ∧ b'.Holds inp start stop p ∧ n ≤ b'.numBits := by
  induction fuel generalizing b with
  | zero => exact ⟨b, rfl, h, by omega⟩
  | succ fuel ih =>
    rw [fillBits]
    by_cases hlt : b.numBits < n
    · have hpos := h.pos
      have hptr : b.ptr < stop := by omega
      rw [if_pos ((hwant b h).mpr hlt), if_neg (by omega)]
      refine ih (h.push (by omega) hptr) ?_
      simp only [BitBuf.push]
      omega
    · rw [if_neg fun hc => hlt ((hwant b h).mp hc)]
      exact ⟨b, rfl, h, by omega⟩

variable {lengths : Nat → Nat} {t : HuffTable}

/-- With too few bits for a symbol its table entry asks for more, with enough it does not. -/
theorem entry_want (h : Decodes 19 lengths t) (h7 : ∀ s < 19, lengths s ≤ 7) {p s}
    (hs : s < 19) (h0 : 0 < lengths s) (hbits : HasBits (leWord inp start (stop - start)) p
      (codeBits (code 19 lengths s) (lengths s))) {b : BitBuf} (hb : b.Holds inp start stop p) :
    b.numBits < (t.dectable (b.bits &&& 0x7ff) &&& 0xf) ↔ b.numBits < lengths s := by
  have hs7 := h7 s hs
  have hcode : ofBits (codeBits (code 19 lengths s) (lengths s)) =
      rev 15 (PrefixCode.start 15 19 lengths s) :=
    ofBits_code (by omega) h0 (by omega)
  rcases lt_or_ge b.numBits (lengths s) with hlt | hge
  · refine iff_of_true ?_ hlt
    rcases h.dectable_cases b.bits with he | ⟨u, hu, hu0, -, hmod, he⟩ | ⟨-, u, hu, hu12⟩
    · rw [he]
      exact lt_of_lt_of_le hlt (le_trans hs7 (by decide))
    · rw [he, entry_and (le_trans (h7 u hu) (by decide))]
      by_contra hc
      -- all bits of the other code are there, so it is the code in the stream
      have hstream : (leWord inp start (stop - start) >>> p) % 2 ^ lengths u =
          rev 15 (PrefixCode.start 15 19 lengths u) := by
        rw [← hmod, hb.bits, mod_mod_of_dvd _ (pow_dvd_pow 2 (by omega))]
      have hown : (leWord inp start (stop - start) >>> p) % 2 ^ lengths s =
          rev 15 (PrefixCode.start 15 19 lengths s) := by
        rw [← hcode, ← hbits, codeBits_length]
      have := PrefixCode.prefix_free h.kraft h.len hu hu0 hs h0 hstream hown
      subst this
      omega
    · have := h7 u hu
      omega
  · refine iff_of_false ?_ (by omega)
    have hmod := hb.bits_mod hbits (by rwa [codeBits_length])
    rw [codeBits_length, hcode] at hmod
    rw [h.dectable_eq hs h0 hmod, if_pos (by omega), entry_and (by omega)]
    omega

/-- The number `huff_with_extra` makes of a symbol and its extra bits. -/
def opValue : LengthOp → Nat
  | .len v => v
  | .repeat16 n => 16 + (n - 3)
  | .zeros17 n => 20 + (n - 3)
  | .zeros18 n => 28 + (n - 11)

/-- The extra bits of a run, as `huff_with_extra` looks them up. -/
theorem extra_eq {op : LengthOp} (h : op.InRange) (h16 : 16 ≤ op.symbol) :
    ∃ e, op.extra = lowBits e (clengthExtra.getD (op.symbol - 16) 0) ∧
      e < 2 ^ clengthExtra.getD (op.symbol - 16) 0 ∧
      opValue op = 16 + clengthBase.getD (op.symbol - 16) 0 + e := by
  cases op with
  | len v =>
    simp only [LengthOp.InRange, LengthOp.symbol] at h h16
    omega
  | repeat16 n | zeros17 n =>
    simp only [LengthOp.InRange] at h
    exact ⟨n - 3, rfl, by simp [clengthExtra, LengthOp.symbol]; omega, rfl⟩
  | zeros18 n =>
    simp only [LengthOp.InRange] at h
    exact ⟨n - 11, rfl, by simp [clengthExtra, LengthOp.symbol]; omega, rfl⟩

theorem huffWithExtra_ok (h : Decodes 19 lengths t) (h7 : ∀ s < 19, lengths s ≤ 7)
    {op : LengthOp} {p} {b : BitBuf} (hop : op.InRange) (h0 : 0 < lengths op.symbol)
    (hbits : HasBits (leWord inp start (stop - start)) p
      (codeBits (code 19 lengths op.symbol) (lengths op.symbol) ++ op.extra))
    (hleft : p + (lengths op.symbol + op.extra.length) ≤ 8 * (stop - start))
    (hb : b.Holds inp start stop p) :
    ∃ b', huffWithExtra inp stop t.dectable 16 clengthExtra clengthBase b =
        .ok (.ok (opValue op, b')) ∧
      b'.Holds inp start stop (p + (lengths op.symbol + op.extra.length)) := by
  have hs := LengthOp.symbol_lt hop
  have hs7 := h7 _ hs
  rw [hasBits_append, codeBits_length] at hbits
  obtain ⟨b1, hf1, hh1, hnum1⟩ := @fillBits_ok inp start stop _ p (lengths op.symbol) 3 b hb
    (fun b hb => entry_want h h7 hs h0 hbits.1 hb) (by omega) (by omega) (by omega)
  have hmod := hh1.bits_mod hbits.1 (by rwa [codeBits_length])
  rw [codeBits_length, ofBits_code (by omega) h0 (h.len _ hs)] at hmod
  have hentry := (h.dectable_eq hs h0 hmod).trans (if_pos (by omega))
  have hskip := hh1.skip hnum1
  rw [huffWithExtra, hf1]
  dsimp only
  rw [hentry, entry_and (by omega), entry_shiftRight (by omega), if_neg (by omega)]
  by_cases h16 : op.symbol < 16
  · rw [if_pos h16]
    cases op with
    | len v => exact ⟨_, rfl, by simpa [LengthOp.extra] using hskip⟩
    | _ => exact absurd h16 (by simp [LengthOp.symbol])
  · obtain ⟨e, hextra, he, hvalue⟩ := extra_eq hop (by omega)
    have hlen : op.extra.length = clengthExtra.getD (op.symbol - 16) 0 := by
      rw [hextra, lowBits_length]
    have hk : clengthExtra.getD (op.symbol - 16) 0 ≤ 7 := by
      have : ∀ i < 3, clengthExtra.getD i 0 ≤ 7 := by decide
      exact this _ (by omega)
    obtain ⟨b2, hf2, hh2, hnum2⟩ := @fillBits_ok inp start stop
      (fun _ => clengthExtra.getD (op.symbol - 16) 0) _ _ 2 _ hskip (fun _ _ => Iff.rfl) (by omega)
      (by omega) (by omega)
    have hlow : HasBits (leWord inp start (stop - start)) (p + lengths op.symbol)
        (lowBits e (clengthExtra.getD (op.symbol - 16) 0)) := hextra ▸ hbits.2
    rw [if_neg h16, if_neg (by simp only [clengthExtra, length_cons, length_nil]; omega), hf2]
    dsimp only
    rw [hh2.extra hlow hnum2 he, ← hvalue, hlen, ← add_assoc]
    exact ⟨_, rfl, hh2.skip hnum2⟩

end

/-! ## Lengths -/

/-- An array of lengths begins with those of a list. -/
def Agrees (l : Nat → Nat) (ls : List Nat) : Prop := ∀ i, i < ls.length → l i = ls.getD i 0

theorem repeatLast_apply {sym} (h0 : 0 < sym) (l : Nat → Nat) (rep i : Nat) :
    repeatLast l sym rep i = if sym ≤ i ∧ i < sym + rep then l (sym - 1) else l i := by
  have hinv := @foldl_range'_inv _ (fun l s => update l s (l (s - 1))) sym rep l
    (fun k l' => ∀ i, l' i = if sym ≤ i ∧ i < k then l (sym - 1) else l i)
    (fun i => by rw [if_neg (by omega)]) (by
      intro k l' hk _ ih i
      rw [update_apply, ih (k - 1), ih i]
      by_cases hi : i = k
      · rw [if_pos hi]
        by_cases hks : sym = k
        · rw [if_neg (by omega), if_pos (by omega), hks]
        · rw [if_pos (by omega), if_pos (by omega)]
      · rw [if_neg hi]
        congr 1
        exact propext (by omega))
  exact hinv i

theorem fillZero_apply (l : Nat → Nat) (sym rep i : Nat) :
    fillZero l sym rep i = if sym ≤ i ∧ i < sym + rep then 0 else l i := by
  have hinv := @foldl_range'_inv _ (fun l s => update l s 0) sym rep l
    (fun k l' => ∀ i, l' i = if sym ≤ i ∧ i < k then 0 else l i)
    (fun i => by rw [if_neg (by omega)]) (by
      intro k l' hk _ ih i
      rw [update_apply, ih i]
      by_cases hi : i = k
      · rw [if_pos hi, if_pos (by omega)]
      · rw [if_neg hi]
        congr 1
        exact propext (by omega))
  exact hinv i

theorem Agrees.append {l} {l' : Nat → Nat} {ls : List Nat} {n v} (h : Agrees l ls)
    (hl : ∀ i, l' i = if ls.length ≤ i ∧ i < ls.length + n then v else l i) :
    Agrees l' (ls ++ List.replicate n v) := by
  intro i hi
  rw [length_append, length_replicate] at hi
  rw [hl]
  by_cases hlt : i < ls.length
  · rw [if_neg (by omega), h i hlt, getD_append _ _ _ _ hlt]
  · rw [if_pos (by omega), getD_append_right _ _ _ _ (by omega), getD_replicate _ (by omega)]

theorem Agrees.last {l} {ls : List Nat} (h : Agrees l ls) (h0 : ls ≠ []) :
    l (ls.length - 1) = ls.getLastD 0 := by
  have hpos := length_pos_iff.mpr h0
  rw [h _ (by omega), getLastD_eq_getLast?, List.getLast?_eq_getElem?, getD_eq_getElem?_getD]

/-- One turn of `decode_lengths`: it stores what the symbol adds and goes on behind it. -/
theorem decodeLengths_step {inp start stop p num} {lengths : Nat → Nat}
    {t : HuffTable} {op : LengthOp} {ls : List Nat} {b : BitBuf} {l : Nat → Nat}
    (h : Decodes 19 lengths t) (h7 : ∀ s < 19, lengths s ≤ 7) (hop : op.InRange)
    (h0 : 0 < lengths op.symbol) (hstart : ls ≠ [] ∨ LengthOp.Starts [op])
    (hnum : ls.length + op.count ≤ num) (hagree : Agrees l ls) (hb : b.Holds inp start stop p)
    (hbits : HasBits (leWord inp start (stop - start)) p
      (codeBits (code 19 lengths op.symbol) (lengths op.symbol) ++ op.extra))
    (hleft : p + (lengths op.symbol + op.extra.length) ≤ 8 * (stop - start)) (fuel : Nat) :
    ∃ b' l', decodeLengths inp stop t.dectable num (fuel + 1) ls.length b l =
        decodeLengths inp stop t.dectable num fuel (ls.length + op.count) b' l' ∧
      b'.Holds inp start stop (p + (lengths op.symbol + op.extra.length)) ∧ Agrees l' (op.apply ls) := by
  obtain ⟨b', hr, hh⟩ := huffWithExtra_ok h h7 hop h0 hbits hleft hb
  have hpos := LengthOp.count_pos hop
  rw [decodeLengths, if_neg (by omega), hr]
  dsimp only [bind, Except.bind]
  cases op with
  | len v =>
    simp only [LengthOp.InRange] at hop
    have hl : ∀ i, update l ls.length v i =
        if ls.length ≤ i ∧ i < ls.length + 1 then v else l i := by
      intro i
      rw [update_apply]
      congr 1
      exact propext (by omega)
    exact ⟨b', update l ls.length v, if_pos (by simp only [opValue]; omega), hh, hagree.append hl⟩
  | repeat16 n =>
    simp only [LengthOp.InRange, LengthOp.count] at hop hnum
    have hne : ls ≠ [] := hstart.resolve_right id
    have hlen := length_pos_iff.mpr hne
    have hl := fun i => repeatLast_apply hlen l n i
    rw [hagree.last hne] at hl
    refine ⟨b', repeatLast l ls.length n, ?_, hh, hagree.append hl⟩
    have hv : opValue (.repeat16 n) = n + 13 := (by omega : 16 + (n - 3) = n + 13)
    rw [hv, if_neg (by omega), if_pos (by omega), show n + 13 - 16 + 3 = n by omega,
      if_neg (by omega), if_neg (by omega)]
    rfl
  | zeros17 n =>
    simp only [LengthOp.InRange, LengthOp.count] at hop hnum
    refine ⟨b', fillZero l ls.length n, ?_, hh, hagree.append fun i => fillZero_apply l ls.length n i⟩
    have hv : opValue (.zeros17 n) = n + 17 := (by omega : 20 + (n - 3) = n + 17)
    rw [hv, if_neg (by omega), if_neg (by omega), show n + 17 - 20 + 3 = n by omega, if_neg (by omega)]
    rfl
  | zeros18 n =>
    simp only [LengthOp.InRange, LengthOp.count] at hop hnum
    refine ⟨b', fillZero l ls.length n, ?_, hh, hagree.append fun i => fillZero_apply l ls.length n i⟩
    have hv : opValue (.zeros18 n) = n + 17 := (by omega : 28 + (n - 11) = n + 17)
    rw [hv, if_neg (by omega), if_neg (by omega), show n + 17 - 20 + 3 = n by omega, if_neg (by omega)]
    rfl

theorem decodeLengths_ok {inp start stop p num fuel} {lengths : Nat → Nat} {t : HuffTable}
    {ops : List LengthOp} {ls : List Nat} {b : BitBuf} {l : Nat → Nat} (h : Decodes 19 lengths t)
    (h7 : ∀ s < 19, lengths s ≤ 7) (hops : ∀ op ∈ ops, op.InRange ∧ 0 < lengths op.symbol)
    (hstart : ls ≠ [] ∨ LengthOp.Starts ops) (hlen : (ops.foldl LengthOp.apply ls).length = num)
    (hfuel : num ≤ fuel + ls.length) (hagree : Agrees l ls) (hb : b.Holds inp start stop p)
    (hbits : HasBits (leWord inp start (stop - start)) p (encodeLengths lengths ops))
    (hleft : p + (encodeLengths lengths ops).length ≤ 8 * (stop - start)) :
    ∃ l' b', decodeLengths inp stop t.dectable num fuel ls.length b l = .ok (l', .ok b') ∧
      b'.Holds inp start stop (p + (encodeLengths lengths ops).length) ∧
      Agrees l' (ops.foldl LengthOp.apply ls) := by
  induction ops generalizing p fuel ls b l with
  | nil =>
    refine ⟨l, b, ?_, hb, hagree⟩
    cases fuel with
    | zero => rfl
    | succ fuel => rw [decodeLengths, if_pos (show num ≤ ls.length from hlen.ge)]
  | cons op ops ih =>
    obtain ⟨hop, h0⟩ := hops op mem_cons_self
    have hpos := LengthOp.count_pos hop
    have hle := LengthOp.length_le_foldl (op.apply ls) ops
    rw [foldl_cons] at hlen
    rw [hlen, LengthOp.apply_length] at hle
    obtain ⟨fuel, rfl⟩ : ∃ k, fuel = k + 1 := ⟨fuel - 1, by omega⟩
    have hsplit : encodeLengths lengths (op :: ops) =
        (codeBits (code 19 lengths op.symbol) (lengths op.symbol) ++
          op.extra) ++ encodeLengths lengths ops := flatMap_cons
    rw [hsplit, hasBits_append] at hbits
    rw [hsplit] at hleft ⊢
    simp only [length_append, codeBits_length] at hbits hleft ⊢
    have hstart' : ls ≠ [] ∨ LengthOp.Starts [op] := hstart.imp_right fun hs => by
      cases op <;> exact hs
    obtain ⟨b1, l1, hr1, hh1, ha1⟩ := decodeLengths_step h h7 hop h0 hstart' hle hagree hb hbits.1
      (by omega) fuel
    have hne : op.apply ls ≠ [] := by
      rw [← length_pos_iff, LengthOp.apply_length]
      omega
    obtain ⟨l2, b2, hr2, hh2, ha2⟩ := ih (fun o ho => hops o (mem_cons_of_mem _ ho))
      (.inl hne) hlen (by rw [LengthOp.apply_length]; omega : num ≤ fuel + (op.apply ls).length)
      ha1 hh1 hbits.2 (by omega)
    refine ⟨l2, b2, ?_, by rwa [← add_assoc], ha2⟩
    rw [hr1, ← LengthOp.apply_length, hr2]

/-! ## The code length code -/

theorem codeLengthOrder_take : ∀ n, n < 20 →
    codeLengthOrder.take n = (List.range' 0 n).map hclenOrder := by
  decide

theorem exists_hclenOrder : ∀ s < 19, ∃ j < 19, hclenOrder j = s := by decide

section
variable {unaligned : Bool} {inp : Nat → UInt8} {start stop : Nat} {codeLengths : Nat → Nat}

theorem orderBits_length (codeLengths : Nat → Nat) (i n : Nat) :
    ((List.range' i n).flatMap fun j => lowBits (codeLengths (hclenOrder j)) 3).length = 3 * n := by
  simp [length_flatMap, mul_comm]

theorem readCodeLengths_ok {n i p} {b : BitBuf} {l : Nat → Nat}
    (h7 : ∀ j, codeLengths (hclenOrder j) ≤ 7) (hb : b.Holds inp start stop p)
    (h4 : start + 4 ≤ b.ptr) (hbits : HasBits (leWord inp start (stop - start)) p
      ((List.range' i n).flatMap fun j => lowBits (codeLengths (hclenOrder j)) 3))
    (hleft : p + 3 * n ≤ 8 * (stop - start))
    (hl : ∀ j < i, l (hclenOrder j) = codeLengths (hclenOrder j)) :
    ∃ b' l', readCodeLengths unaligned inp start stop n i b l = .ok (some (b', l')) ∧
      b'.Holds inp start stop (p + 3 * n) ∧ ∀ j < i + n, l' (hclenOrder j) = codeLengths (hclenOrder j) := by
  induction n generalizing i p b l with
  | zero => exact ⟨b, l, rfl, hb, hl⟩
  | succ n ih =>
    obtain ⟨b1, hr1, hh1, hf1, h41⟩ := refill_holds unaligned hb h4
    have hnum := hh1.le_numBits hf1 (by decide : 3 ≤ 25) (by omega)
    rw [List.range'_succ, flatMap_cons, hasBits_append, lowBits_length] at hbits
    have hval : b1.bits &&& 7 = codeLengths (hclenOrder i) :=
      hh1.extra hbits.1 hnum (lt_succ_of_le (h7 i))
    obtain ⟨b2, l2, hr2, hh2, hl2⟩ := @ih (i + 1) (p + 3) (b1.skip 3)
      (update l (hclenOrder i) (codeLengths (hclenOrder i))) (hh1.skip hnum) h41 hbits.2
      (by omega) (by
        intro j hj
        rw [update_apply]
        split
        · next he => rw [he]
        · next he =>
          have hji : j ≠ i := fun h => he (by rw [h])
          exact hl j (by omega))
    refine ⟨b2, l2, ?_, by rwa [show p + 3 * (n + 1) = p + 3 + 3 * n by omega],
      fun j hj => hl2 j (by omega)⟩
    rw [readCodeLengths, hr1]
    dsimp only [bind, Except.bind]
    rw [if_neg (by omega), hval, hr2]

/-- The lengths that are not sent are set to 0. -/
theorem clearOrder_ok {hclen} {l : Nat → Nat} (h19 : hclen ≤ 19)
    (hrest : ∀ j, hclen ≤ j → j < 19 → codeLengths (hclenOrder j) = 0)
    (hl : ∀ j < hclen, l (hclenOrder j) = codeLengths (hclenOrder j)) :
    ∀ s < 19, (List.range' hclen (19 - hclen)).foldl
      (fun l i => update l (hclenOrder i) 0) l s = codeLengths s := by
  have hinv := @foldl_range'_inv _ (fun l i => update l (hclenOrder i) 0) hclen (19 - hclen) l
    (fun k l' => ∀ j < k, l' (hclenOrder j) = codeLengths (hclenOrder j)) hl (by
      intro i l' h1 h2 ih j hj
      rw [update_apply]
      split
      · next he => rw [he, hrest i h1 (by omega)]
      · next he =>
        have hji : j ≠ i := fun h => he (by rw [h])
        exact ih j (by omega))
  intro s hs
  obtain ⟨j, hj, rfl⟩ := exists_hclenOrder s hs
  exact hinv j (by omega)

/-! ## The two halves -/

/-- The lengths of both alphabets in the state. -/
structure LengthsRead (lits dists : List Nat) (st : GzipDecState) : Prop where
  lit : ∀ i, i < 286 → st.litLengths i = lits.getD i 0
  dist : ∀ i, i < 30 → st.distLengths i = dists.getD i 0

theorem clearFrom_eq {l} {ls : List Nat} {n size} (h : Agrees l ls)
    (hn : ls.length = n) : ∀ i < size, clearFrom n size l i = ls.getD i 0 := by
  intro i hi
  rw [clearFrom]
  by_cases hlt : i < n
  · rw [if_neg (by omega), h i (by omega)]
  · rw [if_pos (by omega), getD_eq_default _ _ (by omega)]

/-- Lengths that agree with a list that is not over-subscribed give a table. -/
theorem construct_of_eq {n} {l : Nat → Nat} {ops}
    (hops : ∀ op ∈ ops, op.InRange) (h : ∀ i < n, l i = (lengthsOf ops).getD i 0)
    (hk : kraft 15 n (fun i => (lengthsOf ops).getD i 0) ≤ 2 ^ 15) (codes overlength : Nat → Nat) :
    ∃ codes' t, constructCodes n l codes = .ok codes' ∧
      constructDectable n l codes' overlength = .ok t ∧ Decodes n l t := by
  apply construct_decodes
  · intro s hs
    rw [h s hs]
    exact lengthsOf_getD_le hops s
  · rwa [kraft_congr h]

/-- Tables are built from lengths that are not over-subscribed. -/
theorem buildTables_ok {st as bs}
    (h : LengthsRead (lengthsOf as) (lengthsOf bs) st) (has : ∀ op ∈ as, op.InRange)
    (hbs : ∀ op ∈ bs, op.InRange) (hka : kraft 15 286 (fun i => (lengthsOf as).getD i 0) ≤ 2 ^ 15)
    (hkb : kraft 15 30 (fun i => (lengthsOf bs).getD i 0) ≤ 2 ^ 15) :
    ∃ st', buildTables st = .ok st' ∧ LengthsRead (lengthsOf as) (lengthsOf bs) st' := by
  obtain ⟨lc, lt, hlc, hlt, -⟩ := construct_of_eq has h.lit hka st.litCodes st.lit.overlength
  obtain ⟨dc, dt, hdc, hdt, -⟩ := construct_of_eq hbs h.dist hkb st.distCodes st.dist.overlength
  refine ⟨{ st with litCodes := lc, lit := lt, distCodes := dc, dist := dt }, ?_, h.lit, h.dist⟩
  rw [buildTables, hlc]
  dsimp only [bind, Except.bind]
  rw [hlt]
  rw [hdc]
  dsimp only
  rw [hdt]
  rfl

/-- Over-subscribed lengths of the first alphabet stop the run. -/
theorem buildTables_over {st as bs} (h : LengthsRead (lengthsOf as) (lengthsOf bs) st)
    (has : ∀ op ∈ as, op.InRange) (hka : 2 ^ 15 < kraft 15 286 (fun i => (lengthsOf as).getD i 0)) :
    buildTables st = .error .assertion := by
  rw [buildTables, constructCodes_over (fun s hs => by
    rw [h.lit s hs]
    exact lengthsOf_getD_le has s) (by rwa [kraft_congr h.lit])]
  rfl

/-- Both halves are read to their lengths. -/
theorem readTables_eq {st} {lengths2 : Nat → Nat} {as bs p}
    {b : BitBuf} (h7 : ∀ s < 19, lengths2 s ≤ 7) (hk : kraft 15 19 lengths2 ≤ 2 ^ 15)
    (has : ∀ op ∈ as, op.InRange ∧ 0 < lengths2 op.symbol)
    (hbs : ∀ op ∈ bs, op.InRange ∧ 0 < lengths2 op.symbol)
    (hsa : LengthOp.Starts as) (hsb : LengthOp.Starts bs) (hb : b.Holds inp start stop p)
    (hbits : HasBits (leWord inp start (stop - start)) p (encodeLengths lengths2 (as ++ bs)))
    (hleft : p + (encodeLengths lengths2 (as ++ bs)).length ≤ 8 * (stop - start)) :
    ∃ b' st', readTables inp stop st (lengthsOf as).length (lengthsOf bs).length lengths2 b =
        (do let st ← buildTables st'; pure (.inr b', st)) ∧
      b'.Holds inp start stop (p + (encodeLengths lengths2 (as ++ bs)).length) ∧
      LengthsRead (lengthsOf as) (lengthsOf bs) st' := by
  rw [encodeLengths_append, hasBits_append] at hbits
  rw [encodeLengths_append, length_append] at hleft ⊢
  obtain ⟨codes, t, hcc, hcd, hdec⟩ := construct_decodes
    (fun s hs => le_trans (h7 s hs) (by decide)) hk (fun _ => 0) st.dist.overlength
  obtain ⟨l1, b1, hr1, hh1, ha1⟩ := @decodeLengths_ok inp start stop p (lengthsOf as).length
    (lengthsOf as).length lengths2 t as [] b st.litLengths hdec h7 has (.inr hsa) rfl le_rfl
    (fun _ h => absurd h (Nat.not_lt_zero _)) hb hbits.1 (by omega)
  obtain ⟨l2, b2, hr2, hh2, ha2⟩ := @decodeLengths_ok inp start stop _ (lengthsOf bs).length
    (lengthsOf bs).length lengths2 t bs [] b1 st.distLengths hdec h7 hbs (.inr hsb) rfl le_rfl
    (fun _ h => absurd h (Nat.not_lt_zero _)) hh1 hbits.2 (by omega)
  refine ⟨b2, { st with
    dist := t
    litLengths := clearFrom (lengthsOf as).length 286 l1
    distLengths := clearFrom (lengthsOf bs).length 30 l2 }, ?_, by rwa [← add_assoc],
    clearFrom_eq ha1 rfl, clearFrom_eq ha2 rfl⟩
  simp only [length_nil] at hr1 hr2
  rw [readTables, hcc]
  dsimp only [bind, Except.bind]
  rw [hcd]
  dsimp only
  rw [hr1]
  dsimp only
  rw [hr2]

/-- The counts and the code length code, as they stand behind the three header bits. -/
def countBits (hlit hdist hclen : Nat) : List Bool :=
  lowBits (hlit - 257) 5 ++ lowBits (hdist - 1) 5 ++ lowBits (hclen - 4) 4

/-- The parameters of a header whose symbols fall into two halves. -/
structure Halves (codeLengths : Nat → Nat) (hclen : Nat) (as bs : List LengthOp) : Prop where
  litCount : 257 ≤ (lengthsOf as).length ∧ (lengthsOf as).length ≤ 286
  distCount : 1 ≤ (lengthsOf bs).length ∧ (lengthsOf bs).length ≤ 30
  codeCount : 4 ≤ hclen ∧ hclen ≤ 19
  small : ∀ s, s < 19 → codeLengths s ≤ 7
  rest : ∀ j, hclen ≤ j → j < 19 → codeLengths (hclenOrder j) = 0
  kraft : kraft 15 19 codeLengths ≤ 2 ^ 15
  lits : ∀ op ∈ as, op.InRange ∧ 0 < codeLengths op.symbol
  dists : ∀ op ∈ bs, op.InRange ∧ 0 < codeLengths op.symbol
  startLits : LengthOp.Starts as
  startDists : LengthOp.Starts bs

theorem hclenOrder_lt (j : Nat) : hclenOrder j < 19 := by
  have hsmall : ∀ j < 19, hclenOrder j < 19 := by decide
  rcases lt_or_ge j 19 with h | h
  · exact hsmall j h
  · rw [hclenOrder, getD_eq_default _ _ h]
    decide

theorem dynamicHeader_eq {st hclen p as bs} {b : BitBuf}
    (h : Halves codeLengths hclen as bs) (hb : b.Holds inp start stop p) (h4 : start + 4 ≤ b.ptr)
    (hbits : HasBits (leWord inp start (stop - start)) p
      (countBits (lengthsOf as).length (lengthsOf bs).length hclen ++
        ((codeLengthOrder.take hclen).flatMap (fun s => lowBits (codeLengths s) 3) ++
          encodeLengths codeLengths (as ++ bs))))
    (hleft : p + (14 + (3 * hclen + (encodeLengths codeLengths (as ++ bs)).length)) ≤
      8 * (stop - start)) :
    ∃ b' st', dynamicHeader unaligned inp start stop st b =
        (do let st ← buildTables st'; pure (.inr b', st)) ∧
      b'.Holds inp start stop
        (p + (14 + (3 * hclen + (encodeLengths codeLengths (as ++ bs)).length))) ∧
      LengthsRead (lengthsOf as) (lengthsOf bs) st' := by
  obtain ⟨hlit, hdist, hcount, hsmall, hrest, hk, has, hbs, hsa, hsb⟩ := h
  obtain ⟨b1, hr1, hh1, hf1, h41⟩ := refill_holds unaligned hb h4
  have hnum := hh1.le_numBits hf1 (by decide : 14 ≤ 25) (by omega)
  rw [codeLengthOrder_take hclen (by omega), flatMap_map, countBits, hasBits_append,
    hasBits_append, hasBits_append, hasBits_append] at hbits
  obtain ⟨⟨⟨hb1, hb2⟩, hb3⟩, hcl, hops⟩ := hbits
  -- the three counts
  have hv1 : (b1.bits &&& 31) + 257 = (lengthsOf as).length := by
    rw [show b1.bits &&& 31 = _ from hh1.extra hb1 (by omega) (by omega)]
    omega
  have hv2 : (b1.bits >>> 5 &&& 31) + 1 = (lengthsOf bs).length := by
    rw [show b1.bits >>> 5 &&& 31 = _ from (hh1.skip (by omega : 5 ≤ _)).extra hb2
      (by simp only [BitBuf.skip]; omega) (by omega)]
    omega
  have hv3 : (b1.bits >>> 10 &&& 15) + 4 = hclen := by
    rw [show b1.bits >>> 10 &&& 15 = _ from (hh1.skip (by omega : 10 ≤ _)).extra hb3
      (by simp only [BitBuf.skip]; omega) (by omega)]
    omega
  obtain ⟨b2, l2, hr2, hh2, hl2⟩ := @readCodeLengths_ok unaligned inp start stop codeLengths hclen 0
    (p + 14) (b1.skip 14) (fun _ => 0) (fun j => hsmall _ (hclenOrder_lt j)) (hh1.skip hnum) h41 hcl
    (by omega) (fun _ hj => absurd hj (Nat.not_lt_zero _))
  rw [zero_add] at hl2
  have hcleared := @clearOrder_ok codeLengths hclen l2 (by omega) hrest hl2
  generalize hlengths : (List.range' hclen (19 - hclen)).foldl
    (fun l i => update l (hclenOrder i) 0) l2 = lengths2 at hcleared
  have henc : encodeLengths codeLengths (as ++ bs) = encodeLengths lengths2 (as ++ bs) :=
    encodeLengths_congr (fun s hs => (hcleared s hs).symm) fun op hop => by
      rcases mem_append.mp hop with h | h
      · exact (has op h).1
      · exact (hbs op h).1
  have hcoded : ∀ op : LengthOp, op.InRange ∧ 0 < codeLengths op.symbol →
      op.InRange ∧ 0 < lengths2 op.symbol := fun op h =>
    ⟨h.1, by rw [hcleared _ (LengthOp.symbol_lt h.1)]; exact h.2⟩
  rw [orderBits_length, henc] at hops
  rw [henc] at hleft ⊢
  obtain ⟨b3, st', hr3, hh3, hread⟩ := @readTables_eq inp start stop st lengths2 as bs _ b2
    (fun s hs => (hcleared s hs).trans_le (hsmall s hs)) (by rwa [kraft_congr hcleared])
    (fun op h => hcoded op (has op h)) (fun op h => hcoded op (hbs op h)) hsa hsb hh2 hops (by omega)
  refine ⟨b3, st', ?_, ?_, hread⟩
  · rw [dynamicHeader, hr1]
    dsimp only [bind, Except.bind]
    rw [if_neg (by omega), hv1, hv2, hv3, if_neg (by omega), if_neg (by omega), hr2]
    dsimp only
    rw [hlengths, hr3]
    rfl
  · rwa [add_assoc, add_assoc] at hh3

theorem encodeHeader_eq (last : Bool) {hlit hdist hclen} (ops : List LengthOp) :
    encodeHeader last hlit hdist hclen codeLengths ops = [last, false, true] ++
      (countBits hlit hdist hclen ++
        ((codeLengthOrder.take hclen).flatMap (fun s => lowBits (codeLengths s) 3) ++
          encodeLengths codeLengths ops)) := by
  simp only [encodeHeader, countBits, append_assoc]

theorem encodeHeader_length (last : Bool) {hlit hdist hclen} (h19 : hclen ≤ 19)
    (ops : List LengthOp) : (encodeHeader last hlit hdist hclen codeLengths ops).length =
      3 + (14 + (3 * hclen + (encodeLengths codeLengths ops).length)) := by
  rw [encodeHeader_eq, codeLengthOrder_take hclen (by omega), flatMap_map]
  simp only [countBits, length_append, orderBits_length, lowBits_length, length_cons, length_nil]

/-- `block_start` in front of a block of type 2 builds tables from the lengths it has read. -/
theorem blockStart_dynamic {st : GzipDecState} {last hclen as bs}
    (h : Halves codeLengths hclen as bs) (hskip : st.skipBits ≤ 7)
    (hbits : HasBits (leWord inp start (stop - start)) st.skipBits
      (encodeHeader last (lengthsOf as).length (lengthsOf bs).length hclen codeLengths (as ++ bs)))
    (hleft : st.skipBits + (encodeHeader last (lengthsOf as).length (lengthsOf bs).length hclen
      codeLengths (as ++ bs)).length ≤ 8 * (stop - start)) :
    ∃ n k st', blockStart unaligned inp start stop st =
        (do let st ← buildTables st'
            pure (.consumed n, { st with decode := some .huffBlock, skipBits := k })) ∧
      8 * n + k = st.skipBits + (encodeHeader last (lengthsOf as).length
        (lengthsOf bs).length hclen codeLengths (as ++ bs)).length ∧
      k < 8 ∧ LengthsRead (lengthsOf as) (lengthsOf bs) st' := by
  have h4 : 4 ≤ stop - start := by
    have := h.codeCount
    rw [encodeHeader_length last h.codeCount.2] at hleft
    omega
  rw [encodeHeader_length last h.codeCount.2] at hleft ⊢
  rw [encodeHeader_eq, hasBits_append] at hbits
  obtain ⟨hh, h25, hptr⟩ := @startBits_holds inp start stop _ h4 hskip
  have hheader : (startBits inp start stop st.skipBits).bits &&& 7 = last.toNat + 4 := by
    have := hh.bits_mod hbits.1 (by simp only [length_cons, length_nil]; omega)
    rw [show (7 : Nat) = 2 ^ 3 - 1 from rfl, and_two_pow_sub_one_eq_mod]
    exact this
  obtain ⟨b', st1, hr, hh', hread⟩ := @dynamicHeader_eq unaligned inp start stop codeLengths
    { st with lastBlock := decide (last.toNat + 4 &&& 1 ≠ 0) } hclen _ as bs _ h
    (hh.skip (by omega : 3 ≤ _)) hptr hbits.2 (by omega)
  obtain ⟨hcons, hmod⟩ := hh'.consumed
  refine ⟨b'.consumed start, (8 - b'.numBits % 8) % 8, st1, ?_, ?_, mod_lt _ (by decide), hread⟩
  · have h2 : (last.toNat + 4) >>> 1 = 2 := by cases last <;> rfl
    rw [blockStart, if_neg (by omega)]
    dsimp only
    rw [if_neg (by omega), hheader, h2, if_neg (by decide), if_neg (by decide), if_pos rfl, hr]
    cases buildTables st1 <;> rfl
  · omega

end

/-- A dynamic header whose symbols fall into two halves is accepted, and the lengths of both
alphabets are those of the one sequence that its run-length coding stands for. -/
theorem blockStart_reads_lengths (unaligned : Bool) {inp : Nat → UInt8} {start stop hclen : Nat}
    {st : GzipDecState} {last : Bool} {codeLengths : Nat → Nat} {as bs : List LengthOp}
    {before after : List Bool}
    (hcomplete : kraft 15 19 codeLengths = 2 ^ 15)
    (hsmall : ∀ s, s < 19 → codeLengths s ≤ 7) (hcount : 4 ≤ hclen ∧ hclen ≤ 19)
    (hrest : ∀ j, hclen ≤ j → j < 19 → codeLengths (codeLengthOrder.getD j 0) = 0)
    (hlit : 257 ≤ (lengthsOf as).length ∧ (lengthsOf as).length ≤ 286)
    (hdist : 1 ≤ (lengthsOf bs).length ∧ (lengthsOf bs).length ≤ 30)
    (hops : ∀ op ∈ as ++ bs, op.InRange ∧ 0 < codeLengths op.symbol)
    (hsa : LengthOp.Starts as) (hsb : LengthOp.Starts bs)
    (hka : kraft 15 286 (fun i => (lengthsOf as).getD i 0) ≤ 2 ^ 15)
    (hkb : kraft 15 30 (fun i => (lengthsOf bs).getD i 0) ≤ 2 ^ 15)
    (hskip : st.skipBits ≤ 7)
    (hbits : inputBits inp start (stop - start) = before ++
      encodeHeader last (lengthsOf as).length (lengthsOf bs).length hclen codeLengths (as ++ bs) ++
      after)
    (hbefore : before.length = st.skipBits) :
    ∃ n st', blockStart unaligned inp start stop st = .ok (.consumed n, st') ∧
      st'.decode = some .huffBlock ∧
      8 * n + st'.skipBits = st.skipBits + (encodeHeader last (lengthsOf as).length
        (lengthsOf bs).length hclen codeLengths (as ++ bs)).length ∧ st'.skipBits < 8 ∧
      (∀ i, i < 286 → st'.litLengths i =
        if i < (lengthsOf as).length then (lengthsOf (as ++ bs)).getD i 0 else 0) ∧
      ∀ i, i < 30 → st'.distLengths i =
        if i < (lengthsOf bs).length then (lengthsOf (as ++ bs)).getD ((lengthsOf as).length + i) 0
        else 0 := by
  have has : ∀ op ∈ as, op.InRange ∧ 0 < codeLengths op.symbol := fun op h =>
    hops op (mem_append_left _ h)
  have hbs : ∀ op ∈ bs, op.InRange ∧ 0 < codeLengths op.symbol := fun op h =>
    hops op (mem_append_right _ h)
  have hlength := congrArg List.length hbits
  rw [inputBits_length, length_append, length_append, hbefore] at hlength
  have hhas := hasBits_of_inputBits hbits
  rw [hbefore] at hhas
  obtain ⟨n, k, st1, hrun, hpos, hlt, hread1⟩ := @blockStart_dynamic unaligned inp start stop
    codeLengths st last hclen as bs
    ⟨hlit, hdist, hcount, hsmall, hrest, hcomplete.le, has, hbs, hsa, hsb⟩ hskip hhas (by omega)
  obtain ⟨st2, hbuild, hread⟩ := buildTables_ok hread1 (fun op h => (has op h).1)
    (fun op h => (hbs op h).1) hka hkb
  rw [hbuild] at hrun
  have hseq : lengthsOf (as ++ bs) = lengthsOf as ++ lengthsOf bs :=
    lengthsOf_append (fun op h => (hbs op h).1) hsb
  refine ⟨n, { st2 with decode := some .huffBlock, skipBits := k }, hrun, rfl, hpos, hlt,
    fun i hi => ?_, fun i hi => ?_⟩ <;> dsimp only
  · rw [hread.lit i hi, hseq]
    split
    · next h => rw [getD_append _ _ _ _ h]
    · next h => rw [getD_eq_default _ _ (by omega)]
  · rw [hread.dist i hi, hseq]
    split
    · rw [getD_append_right _ _ _ _ (by omega), Nat.add_sub_cancel_left]
    · next h => rw [getD_eq_default _ _ (by omega)]

/-! Headers with the symbols 255 and 256 and two distance symbols. -/

def headerState : GzipDecState := { smallState with skipBits := 0 }

def sentLengths (s : Nat) : Nat := if s = 18 then 1 else if s = 1 then 1 else 0

def sentInput (i : Nat) : UInt8 := [5, 0xc1, 0x81, 0, 0, 0, 0, 0, 0x90, 0xff, 0x6a, 0].getD i 0

theorem blockStart_reads_lengths_small :
    ∃ n st', blockStart true sentInput 0 12 headerState = .ok (.consumed n, st') ∧
      8 * n + st'.skipBits = 91 ∧ st'.litLengths 256 = 1 ∧ st'.distLengths 1 = 1 := by
  obtain ⟨n, st', hrun, -, hpos, -, hlit, hdist⟩ := @blockStart_reads_lengths true sentInput 0 12 18
    headerState true sentLengths [.zeros18 138, .zeros18 117, .len 1, .len 1] [.len 1, .len 1] []
    (List.replicate 5 false) (by decide +kernel) (by decide) (by decide) (by decide +kernel)
    (by decide +kernel) (by decide) (by decide) trivial trivial (by decide +kernel)
    (by decide +kernel) (by decide) (by decide +kernel) rfl
  exact ⟨n, st', hrun, hpos.trans (by decide +kernel), (hlit 256 (by decide)).trans (by decide +kernel),
    (hdist 1 (by decide)).trans (by decide +kernel)⟩

/-- What `block_start` answers. -/
def answer (r : Except Fault (DecodeResult × GzipDecState)) : Option DecodeResult :=
  match r with
  | .ok (r, _) => some r
  | .error _ => none

/-! A repetition from the literal/length lengths into the distance lengths, a header with 287
literal/length lengths, and one with three codes of length 1. -/

def crossLengths (s : Nat) : Nat := if s = 18 then 1 else if s = 1 ∨ s = 16 then 2 else 0

def crossInput (i : Nat) : UInt8 := [5, 0xc1, 0x85, 0, 0, 0, 0, 0, 0x20, 0x7f, 0xea, 6].getD i 0

def wideLengths (s : Nat) : Nat := if s = 18 ∨ s = 0 then 1 else 0

def wideInput (i : Nat) : UInt8 := [0xf5, 0x20, 0x80, 4, 0xff, 0xff, 3].getD i 0

def overLengths (s : Nat) : Nat := if s = 18 then 1 else if s = 1 ∨ s = 0 then 2 else 0

def overInput (i : Nat) : UInt8 := [5, 0xc0, 0x81, 8, 0, 0, 0, 0, 0xa0, 0xdf, 0x5f, 0x3a].getD i 0

theorem blockStart_refuses_headers :
    (inputBits crossInput 0 12 = encodeHeader true 257 2 18 crossLengths
        [.zeros18 138, .zeros18 117, .len 1, .repeat16 3] ++ List.replicate 3 false ∧
      answer (blockStart true crossInput 0 12 headerState) = some (.status .err)) ∧
    (inputBits wideInput 0 7 = encodeHeader true 287 1 5 wideLengths
        [.zeros18 138, .zeros18 138, .zeros18 12] ∧
      answer (blockStart true wideInput 0 7 headerState) = some (.status .err)) ∧
    (inputBits overInput 0 12 = encodeHeader true 257 1 18 overLengths
        [.len 1, .len 1, .len 1, .zeros18 138, .zeros18 116, .len 0] ++ [false] ∧
      blockStart true overInput 0 12 headerState = .error .assertion) := by
  have hover : inputBits overInput 0 12 = [] ++ encodeHeader true 257 1 18 overLengths
      [.len 1, .len 1, .len 1, .zeros18 138, .zeros18 116, .len 0] ++ [false] := by decide +kernel
  have hlits : (lengthsOf [.len 1, .len 1, .len 1, .zeros18 138, .zeros18 116]).length = 257 := by
    decide +kernel
  have hdists : (lengthsOf [.len 0]).length = 1 := by decide
  refine ⟨⟨by decide +kernel, by decide +kernel⟩, ⟨by decide +kernel, by decide +kernel⟩, hover, ?_⟩
  obtain ⟨n, k, st', hrun, -, -, hread⟩ := @blockStart_dynamic true overInput 0 12 overLengths
    headerState true 18 [.len 1, .len 1, .len 1, .zeros18 138, .zeros18 116] [.len 0]
    ⟨by decide +kernel, by decide, by decide, by decide, by decide +kernel, by decide +kernel,
      by decide, by decide, trivial, trivial⟩ (by decide)
    (by rw [hlits, hdists]; exact hasBits_of_inputBits hover) (by rw [hlits, hdists]; decide +kernel)
  rw [hrun, buildTables_over hread (by decide) (by decide +kernel)]
  rfl

end Rkboot.Compression.Inflate
