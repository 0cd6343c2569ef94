import Rkboot.Compression.InflateBlock

/-! # Fixed Huffman blocks of the gzip decompressor

The fixed tables are not built from code lengths but by range comparisons on the
reversed index. Three of the comparisons are off by one, so that three symbols
are not found when certain bits follow their codes. -/
namespace Rkboot.Compression.Inflate
open Lib Lz77 Deflate

/-! ## The tables -/

theorem fixedTable_apply (entry t : Nat → Nat) {idx} (hidx : idx < 2048) :
    fixedTable entry t idx = entry (idx % 512) := by
  have hinv := @foldl_range_inv _ (fun t i =>
      Function.update (Function.update (Function.update (Function.update t (i + 512) (entry i))
        i (entry i)) (i + 1536) (entry i)) (i + 1024) (entry i)) 512 t
    (fun k t' => idx % 512 < k → t' idx = entry (idx % 512)) (fun h => absurd h (Nat.not_lt_zero _)) (by
      intro i t' hi ih hk
      simp only [Function.update_apply]
      by_cases he : idx % 512 = i
      · rw [he]
        split_ifs <;> first | rfl | omega
      · rw [if_neg (by omega), if_neg (by omega), if_neg (by omega), if_neg (by omega)]
        exact ih (by omega))
  exact hinv (Nat.mod_lt _ (by decide))

theorem fixedTable_lookup (entry t : Nat → Nat) (bits : Nat) :
    fixedTable entry t (bits &&& 0x7ff) = entry (bits % 512) := by
  have hand : bits &&& 0x7ff = bits % 2048 := Nat.and_two_pow_sub_one_eq_mod _ 11
  rw [hand, fixedTable_apply _ _ (Nat.mod_lt _ (by decide)),
    Nat.mod_mod_of_dvd _ (by decide : 512 ∣ 2048)]

/-- The bits behind the code of a symbol, from which the fixed table does not find it: a one
behind 143 and 285, two ones behind 279. -/
def Clash (s x : Nat) : Prop := (s = 143 ∧ x % 2 = 1) ∨ (s = 279 ∧ x % 4 = 3) ∨ (s = 285 ∧ x % 2 = 1)

instance (s x : Nat) : Decidable (Clash s x) := inferInstanceAs (Decidable (_ ∨ _))

theorem fixedLit_iff : ∀ s < 286, ∀ x, x < 2 ^ (9 - (fixedLitBits s).length) →
    (fixedLit (ofBits (fixedLitBits s) + 2 ^ (fixedLitBits s).length * x) =
      ((fixedLitBits s).length ||| s <<< 4) ↔ ¬ Clash s x) := by
  decide +kernel

theorem fixedLitBits_length : ∀ s, s < 286 →
    7 ≤ (fixedLitBits s).length ∧ (fixedLitBits s).length ≤ 9 := by
  decide +kernel

theorem fixedLit_len : ∀ i < 512, fixedLit i &&& 0xf ≤ 10 := by decide +kernel

theorem fixedDist_eq : ∀ s < 30, ∀ x, x < 16 →
    fixedDist (ofBits (fixedDistBits s) + 2 ^ 5 * x) = (5 ||| s <<< 4) := by
  decide +kernel

/-- An entry with a short length is what `decode_sym` returns, taken apart. -/
theorem decodeSym_eq_iff {t : HuffTable} {size s len} {b : BitBuf}
    (h : t.dectable (b.bits &&& 0x7ff) &&& 0xf ≤ 11) (hlen : len ≤ 11) (hnum : len ≤ b.numBits) :
    decodeSym t size b = .ok (some (s, len)) ↔
      t.dectable (b.bits &&& 0x7ff) = (len ||| s <<< 4) := by
  rw [decodeSym, if_neg (by omega)]
  constructor
  · intro he
    split at he
    · cases he
    · injection he with he
      injection he with he
      injection he with hs hl
      rw [Nat.or_comm, ← hs, ← hl, ← Nat.shiftLeft_add_eq_or_of_lt
        (Nat.lt_succ_of_le Nat.and_le_right : _ < 2 ^ 4), Nat.shiftLeft_eq, Nat.shiftRight_eq_div_pow,
        show (0xf : Nat) = 2 ^ 4 - 1 from rfl, Nat.and_two_pow_sub_one_eq_mod]
      omega
  · intro he
    rw [he, entry_and (by omega), entry_shiftRight (by omega), if_neg (by omega)]

theorem Clash.of_mod {s x j} (h : Clash s (x % 2 ^ j)) : Clash s x := by
  have h2 : x % 2 ^ j % 2 = 1 → x % 2 = 1 := by
    cases j with
    | zero => simp [Nat.mod_one]
    | succ j => rw [Nat.mod_mod_of_dvd _ (Dvd.intro_left _ (pow_succ 2 j).symm)]; exact id
  have h4 : x % 2 ^ j % 4 = 3 → x % 4 = 3 := by
    match j with
    | 0 => simp [Nat.mod_one]
    | 1 => omega
    | j + 2 => rw [Nat.mod_mod_of_dvd _ (Nat.pow_dvd_pow 2 (by omega : 2 ≤ j + 2))]; exact id
  rcases h with ⟨hs, h⟩ | ⟨hs, h⟩ | ⟨hs, h⟩
  · exact .inl ⟨hs, h2 h⟩
  · exact .inr (.inl ⟨hs, h4 h⟩)
  · exact .inr (.inr ⟨hs, h2 h⟩)

/-- Two bits decide. -/
theorem clash_mod {s x j} (hj : 2 ≤ j) : Clash s (x % 2 ^ j) ↔ Clash s x := by
  have h2 : x % 2 ^ j % 2 = x % 2 := Nat.mod_mod_of_dvd _ (pow_dvd_pow 2 (by omega : 1 ≤ j))
  have h4 : x % 2 ^ j % 4 = x % 4 := Nat.mod_mod_of_dvd _ (pow_dvd_pow 2 hj)
  rw [Clash, h2, h4, Clash]

/-- A buffer that begins with the fixed code of a symbol. -/
theorem decodeSym_fixedLit {t : HuffTable} {t0 s} {b : BitBuf}
    (ht : t.dectable = fixedTable fixedLit t0) (hs : s < 286)
    (hbits : b.bits % 2 ^ (fixedLitBits s).length = ofBits (fixedLitBits s))
    (hnum : (fixedLitBits s).length ≤ b.numBits) :
    decodeSym t 286 b = .ok (some (s, (fixedLitBits s).length)) ↔
      ¬ Clash s (b.bits >>> (fixedLitBits s).length) := by
  obtain ⟨h7, h9⟩ := fixedLitBits_length s hs
  have hentry : t.dectable (b.bits &&& 0x7ff) = fixedLit (b.bits % 512) := by
    rw [ht, fixedTable_lookup]
  have hsplit : b.bits % 512 = ofBits (fixedLitBits s) +
      2 ^ (fixedLitBits s).length * (b.bits >>> (fixedLitBits s).length %
        2 ^ (9 - (fixedLitBits s).length)) := by
    rw [← hbits, Nat.shiftRight_eq_div_pow, ← Nat.mod_mul, ← Nat.pow_add, Nat.add_sub_of_le h9]
  have hiff := fixedLit_iff s hs (b.bits >>> (fixedLitBits s).length % 2 ^ (9 - (fixedLitBits s).length))
    (Nat.mod_lt _ (Nat.two_pow_pos _))
  have hsmall := fixedLit_len (b.bits % 512) (Nat.mod_lt _ (by decide))
  rw [decodeSym_eq_iff (by rw [hentry]; omega) (by omega) hnum, hentry, hsplit, hiff]
  -- a symbol that can clash has a code of at most 8 bits, or 7 where two bits count
  refine not_congr ⟨Clash.of_mod, fun h => ?_⟩
  rcases h with ⟨rfl, h⟩ | ⟨rfl, h⟩ | ⟨rfl, h⟩
  · refine .inl ⟨rfl, ?_⟩
    rw [show 9 - (fixedLitBits 143).length = 1 from rfl]
    omega
  · refine .inr (.inl ⟨rfl, ?_⟩)
    rw [show 9 - (fixedLitBits 279).length = 2 from rfl]
    omega
  · refine .inr (.inr ⟨rfl, ?_⟩)
    rw [show 9 - (fixedLitBits 285).length = 1 from rfl]
    omega

/-! ## Symbols in the stream -/

section
variable {inp : Nat → UInt8} {start stop : Nat} {t : HuffTable} {t0 : Nat → Nat}

theorem BitBuf.Holds.shiftRight {p n} {b : BitBuf} (h : b.Holds inp start stop p)
    (hn : n ≤ b.numBits) :
    b.bits >>> n = (leWord inp start (stop - start) >>> (p + n)) % 2 ^ (b.numBits - n) :=
  (h.skip hn).bits

theorem symAt_fixedLit_iff (ht : t.dectable = fixedTable fixedLit t0) {p s} (hs : s < 286)
    (hbits : HasBits (leWord inp start (stop - start)) p (fixedLitBits s))
    (hleft : p + 11 ≤ 8 * (stop - start)) : SymAt t 286 fixedLitBits inp start stop p s ↔
      ¬ Clash s (leWord inp start (stop - start) >>> (p + (fixedLitBits s).length)) := by
  obtain ⟨h7, h9⟩ := fixedLitBits_length s hs
  constructor
  · rintro ⟨-, hdec⟩
    obtain ⟨b, hb, hnum⟩ := exists_holds inp (by decide) (by decide : 11 ≤ 25) hleft
    have hd := hdec b hb (by omega)
    rw [decodeSym_fixedLit ht hs (hb.bits_mod hbits (by omega)) (by omega),
      hb.shiftRight (by omega), clash_mod (by omega)] at hd
    exact hd
  · intro hc
    refine ⟨by omega, fun b hb hnum => ?_⟩
    rw [decodeSym_fixedLit ht hs (hb.bits_mod hbits hnum) hnum, hb.shiftRight hnum]
    exact fun h => hc h.of_mod

theorem symAt_fixedDist (ht : t.dectable = fixedTable fixedDist t0) {p s} (hs : s < 30)
    (hbits : HasBits (leWord inp start (stop - start)) p (fixedDistBits s)) :
    SymAt t 30 fixedDistBits inp start stop p s := by
  have hlen : (fixedDistBits s).length = 5 := PrefixCode.codeBits_length _ _
  refine ⟨by omega, fun b hb hnum => ?_⟩
  have hmod := hb.bits_mod hbits hnum
  rw [hlen] at hmod ⊢
  have hsplit : b.bits % 512 = ofBits (fixedDistBits s) + 2 ^ 5 * (b.bits / 2 ^ 5 % 16) := by
    rw [← hmod, ← Nat.mod_mul]
    rfl
  have hentry : t.dectable (b.bits &&& 0x7ff) = (5 ||| s <<< 4) := by
    rw [ht, fixedTable_lookup, hsplit, fixedDist_eq s hs _ (Nat.mod_lt _ (by decide))]
  exact (decodeSym_eq_iff (by rw [hentry, entry_and (by decide)]; decide) (by decide)
    (by omega)).mpr hentry

end

/-! ## Tokens -/

/-- The code of the next token begins with a one. -/
def StartsWithOne : List Token → Prop
  | [] => False
  | .lit b :: _ => 80 ≤ b.toNat
  | .copy length _ :: _ => 115 ≤ length

/-- A token that the fixed table does not find in front of the others. -/
def ClashAt : Token → List Token → Prop
  | .lit b, ts => b.toNat = 143 ∧ StartsWithOne ts
  | .copy length dist, _ =>
    length = 102 ∨ length = 106 ∨ length = 110 ∨ length = 114 ∨ (length = 258 ∧ 256 < dist)

/-- Some token clashes with what follows it. -/
def Clashing : List Token → Prop
  | [] => False
  | t :: ts => ClashAt t ts ∨ Clashing ts

theorem fixedLitBits_head : ∀ s, s < 286 →
    ((fixedLitBits s).getD 0 false = true ↔ (80 ≤ s ∧ s < 256) ∨ 280 ≤ s) := by
  decide +kernel

theorem fixedDistBits_head : ∀ s < 30, ((fixedDistBits s).getD 0 false = true ↔ 16 ≤ s) := by
  decide +kernel

theorem testBit_zero_iff {S : Nat} {p} : (S >>> p) % 2 = 1 ↔ S.testBit (p + 0) = true := by
  rw [← Nat.testBit_shiftRight, Nat.testBit_zero, decide_eq_true_eq]

theorem head_lit {S p s next} (hs : s < 286) (h : HasBits S p (fixedLitBits s ++ next)) :
    (S >>> p) % 2 = 1 ↔ (80 ≤ s ∧ s < 256) ∨ 280 ≤ s := by
  have h7 := fixedLitBits_length s hs
  rw [testBit_zero_iff, (hasBits_append.mp h).1.testBit (by omega), fixedLitBits_head s hs]

theorem head_block {S p ts} (hts : ∀ t ∈ ts, InRange t)
    (h : HasBits S p (encodeBlock fixed ts)) : (S >>> p) % 2 = 1 ↔ StartsWithOne ts := by
  cases ts with
  | nil =>
    have := @head_lit S p 256 [] (by decide) (by simpa [encodeBlock, fixed] using h)
    rw [this, StartsWithOne]
    decide
  | cons t ts =>
    rw [encodeBlock, encode, List.append_assoc] at h
    rw [head_lit (symbol_lt t) h]
    cases t with
    | lit b =>
      have := b.toNat_lt
      rw [StartsWithOne, symbol]
      omega
    | copy length dist =>
      have := @le_baseIndex_iff _ lengthBases_sorted length 23 (by decide) (by decide)
      rw [StartsWithOne, symbol]
      rw [show lengthBases.getD 23 0 = 115 from rfl] at this
      omega

theorem clash_lit {S p} {b : UInt8} {ts} (hts : ∀ t ∈ ts, InRange t)
    (h : HasBits S p (encodeBlock fixed (.lit b :: ts))) :
    Clash b.toNat (S >>> (p + (fixedLitBits b.toNat).length)) ↔ ClashAt (.lit b) ts := by
  simp only [encodeBlock, encode, tail, List.append_nil, hasBits_append] at h
  have hlt := b.toNat_lt
  rw [ClashAt, ← head_block hts h.2, Clash]
  show _ ↔ b.toNat = 143 ∧ (S >>> (p + (fixedLitBits b.toNat).length)) % 2 = 1
  omega

theorem clash_copy {S p length dist ts} (ht : InRange (.copy length dist))
    (h : HasBits S p (encodeBlock fixed (.copy length dist :: ts))) :
    Clash (symbol (.copy length dist))
      (S >>> (p + (fixedLitBits (symbol (.copy length dist))).length)) ↔
      ClashAt (.copy length dist) ts := by
  obtain ⟨h3, h258, h1, hmax⟩ := ht
  simp only [encodeBlock, encode, tail, hasBits_append, lowBits_length] at h
  obtain ⟨⟨-, hextra, hdist, -⟩, -⟩ := h
  have h285 := baseIndex_length_eq h3 h258
  have h22 := @le_baseIndex_iff _ lengthBases_sorted length 22 (by decide) (by decide)
  have h23 := @le_baseIndex_iff _ lengthBases_sorted length 23 (by decide) (by decide)
  rw [show lengthBases.getD 22 0 = 99 from rfl] at h22
  rw [show lengthBases.getD 23 0 = 115 from rfl] at h23
  rw [ClashAt, Clash, symbol]
  rw [symbol] at hextra hdist
  change HasBits S (p + (fixedLitBits _).length) _ at hextra
  change HasBits S (p + (fixedLitBits _).length + _) (fixedDistBits _) at hdist
  generalize p + (fixedLitBits (257 + baseIndex lengthBases length)).length = q at *
  -- the four extra bits of symbol 279
  have h279 : baseIndex lengthBases length = 22 → (S >>> q) % 4 = (length - 99) % 4 := by
    intro he
    rw [he] at hextra
    change HasBits S q (lowBits (length - 99) 4) at hextra
    rw [HasBits, lowBits_length, ofBits_lowBits] at hextra
    omega
  -- no extra bits behind symbol 285, but the distance symbol
  have hone : baseIndex lengthBases length = 28 → ((S >>> q) % 2 = 1 ↔ 256 < dist) := by
    intro he
    rw [he] at hdist
    change HasBits S q (fixedDistBits (distSymbol dist)) at hdist
    have h16 := @le_baseIndex_iff _ distBases_sorted dist 16 (by decide) (by decide)
    rw [show distBases.getD 16 0 = 257 from rfl] at h16
    rw [testBit_zero_iff, hdist.testBit (by rw [fixedDistBits, PrefixCode.codeBits_length]; decide),
      fixedDistBits_head _ (distSymbol_lt dist), distSymbol, h16]
    omega
  by_cases he : baseIndex lengthBases length = 22
  · have h4 := h279 he
    have hrange : 99 ≤ length ∧ length < 115 := by omega
    omega
  · have hrange : length < 99 ∨ 115 ≤ length := by omega
    by_cases he' : baseIndex lengthBases length = 28
    · have h2 := hone he'
      rw [he', h2, h285.mp he']
      omega
    · have hne : length ≠ 258 := fun h => he' (h285.mpr h)
      omega

/-! ## Blocks -/

section
variable {unaligned : Bool} {inp : Nat → UInt8} {start stop : Nat} {st : GzipDecState}

/-- The tables hold what the fixed branch stores. -/
structure GzipDecState.Fixed (st : GzipDecState) : Prop where
  lit : ∃ t0, st.lit.dectable = fixedTable fixedLit t0
  dist : ∃ t0, st.dist.dectable = fixedTable fixedDist t0

theorem tokenAt_fixed_iff (hf : st.Fixed) {t ts p} (ht : ∀ u ∈ t :: ts, InRange u)
    (hbits : HasBits (leWord inp start (stop - start)) p (encodeBlock fixed (t :: ts)))
    (hleft : p + 11 ≤ 8 * (stop - start)) :
    TokenAt st fixed inp start stop p t ↔ ¬ ClashAt t ts := by
  obtain ⟨⟨t0, hl⟩, t1, hd⟩ := hf
  have hcode : HasBits (leWord inp start (stop - start)) p (fixedLitBits (symbol t)) := by
    rw [encodeBlock, hasBits_append, encode, hasBits_append] at hbits
    exact hbits.1.1
  have hsym := symAt_fixedLit_iff hl (symbol_lt t) hcode hleft
  cases t with
  | lit b =>
    rw [← clash_lit (fun u hu => ht u (List.mem_cons_of_mem _ hu)) hbits]
    exact hsym
  | copy length dist =>
    rw [← clash_copy (ht _ List.mem_cons_self) hbits, ← hsym]
    refine and_iff_left (symAt_fixedDist hd (distSymbol_lt dist) ?_)
    rw [encodeBlock, hasBits_append, encode, hasBits_append, tail] at hbits
    simp only [hasBits_append, lowBits_length] at hbits
    exact hbits.1.2.2.1

/-- The symbols of a block are found in the fixed tables exactly when no token clashes. -/
theorem blockAt_fixed_iff (hf : st.Fixed) {ts p} (hts : ∀ t ∈ ts, InRange t)
    (hbits : HasBits (leWord inp start (stop - start)) p (encodeBlock fixed ts))
    (hleft : p + (encodeBlock fixed ts).length + 11 ≤ 8 * (stop - start)) :
    BlockAt st fixed inp start stop p ts ↔ ¬ Clashing ts := by
  induction ts generalizing p with
  | nil =>
    obtain ⟨t0, hl⟩ := hf.lit
    have := symAt_fixedLit_iff hl (by decide : 256 < 286) hbits (by omega)
    exact this.trans (not_congr ⟨fun h => by rw [Clash] at h; omega, False.elim⟩)
  | cons t ts ih =>
    rw [BlockAt, Clashing, not_or, tokenAt_fixed_iff hf hts hbits (by omega)]
    rw [encodeBlock, hasBits_append] at hbits
    rw [encodeBlock, List.length_append] at hleft
    rw [ih (fun u hu => hts u (List.mem_cons_of_mem _ hu)) hbits.2 (by omega)]

theorem fixedTables_ok (st : GzipDecState) :
    ∃ st', fixedTables st = .ok st' ∧ st'.Fixed ∧ st'.st = st.st ∧ st'.litBase = st.litBase ∧
      st'.distBase = st.distBase := by
  have hassert : fixedTable fixedLit st.lit.dectable 0 = 0x1007 ∧
      fixedTable fixedLit st.lit.dectable 0xc = 0x8 ∧
      fixedTable fixedLit st.lit.dectable 0x3 = (280 <<< 4 ||| 8) ∧
      fixedTable fixedLit st.lit.dectable 0x13 = 0x909 := by
    simp only [fixedTable_apply fixedLit _ (by decide : 0 < 2048),
      fixedTable_apply fixedLit _ (by decide : 0xc < 2048),
      fixedTable_apply fixedLit _ (by decide : 0x3 < 2048),
      fixedTable_apply fixedLit _ (by decide : 0x13 < 2048)]
    decide
  unfold fixedTables
  rw [if_pos hassert]
  refine ⟨_, rfl, ⟨⟨st.lit.dectable, ?_⟩, st.dist.dectable, ?_⟩, rfl, rfl, rfl⟩
  · dsimp only
  · dsimp only

/-- `block_start` in front of a block of type 1. -/
theorem blockStart_fixed {last} (hskip : st.skipBits ≤ 7) (h4 : 4 ≤ stop - start)
    (hbits : HasBits (leWord inp start (stop - start)) st.skipBits [last, true, false]) :
    ∃ n st', blockStart unaligned inp start stop st = .ok (.consumed n, st') ∧
      8 * n + st'.skipBits = st.skipBits + 3 ∧ st'.skipBits ≤ 7 ∧ st'.decode = some .huffBlock ∧
      st'.Fixed ∧ st'.st = st.st ∧ st'.litBase = st.litBase ∧ st'.distBase = st.distBase := by
  obtain ⟨hh, h25, -⟩ := @startBits_holds inp start stop _ h4 hskip
  have hheader : (startBits inp start stop st.skipBits).bits &&& 7 = last.toNat + 2 := by
    have := hh.bits_mod hbits (by simp only [List.length_cons, List.length_nil]; omega)
    rw [show (7 : Nat) = 2 ^ 3 - 1 from rfl, Nat.and_two_pow_sub_one_eq_mod]
    exact this
  obtain ⟨st1, hf, hfix, hst, hlb, hdb⟩ := fixedTables_ok
    { st with lastBlock := decide (last.toNat + 2 &&& 1 ≠ 0) }
  obtain ⟨hcons, hmod⟩ := (hh.skip (by omega : 3 ≤ _)).consumed
  refine ⟨((startBits inp start stop st.skipBits).skip 3).consumed start, { st1 with
    decode := some .huffBlock
    skipBits := (8 - ((startBits inp start stop st.skipBits).skip 3).numBits % 8) % 8 }, ?_, ?_, ?_,
    rfl, ⟨hfix.lit, hfix.dist⟩, hst, hlb, hdb⟩
  · have h1 : (last.toNat + 2) >>> 1 = 1 := by cases last <;> rfl
    rw [blockStart, if_neg (by omega)]
    dsimp only
    rw [if_neg (by omega), hheader, h1, if_neg (by decide), if_neg (by decide), if_neg (by decide), hf]
    rfl
  · dsimp only
    omega
  · dsimp only
    omega

end

/-- A block of type 1: `block_start` accepts its header, every code in the stream is decoded to its
own symbol exactly if no token clashes with what follows it, and then `huff_block` stores the
expansion and stands behind the end of the block. -/
theorem fixedBlock_reads_iff_not_clashing (unaligned : Bool) {inp : Nat → UInt8} {start stop : Nat}
    {st : GzipDecState} {ts : List Token} {last : Bool} {before after : List Bool} {m : Mem}
    (hts : ∀ t ∈ ts, InRange t) (hordered : st.st.Ordered)
    (hreach : Reaches (st.st.out - st.st.windowStart) ts)
    (hspace : size ts ≤ st.st.outEnd - st.st.out) (hbases : st.Bases) (hskip : st.skipBits ≤ 7)
    (hbits : inputBits inp start (stop - start) =
      before ++ ([last, true, false] ++ encodeBlock fixed ts) ++ after)
    (hbefore : before.length = st.skipBits) (hafter : 64 ≤ after.length) :
    ∃ n st1, blockStart unaligned inp start stop st = .ok (.consumed n, st1) ∧
      st1.decode = some .huffBlock ∧
      (BlockAt st1 fixed inp (start + n) stop st1.skipBits ts ↔ ¬ Clashing ts) ∧
      (¬ Clashing ts → ∃ k st' m',
        (huffBlock unaligned inp (start + n) stop st1).run m = .ok (.consumed k, st') m' ∧
        8 * (n + k) + st'.skipBits = st.skipBits + 3 + (encodeBlock fixed ts).length ∧
        st'.skipBits < 8 ∧ st'.st.out = st.st.out + size ts ∧
        m'.bytes st.st.windowStart (st'.st.out - st.st.windowStart) =
          expand (m.bytes st.st.windowStart (st.st.out - st.st.windowStart)) ts ∧
        Stored m m' st.st.out st'.st.out) := by
  have hlength := congrArg List.length hbits
  simp only [inputBits_length, List.length_append, hbefore, List.length_cons, List.length_nil]
    at hlength
  have hhas := hasBits_of_inputBits hbits
  rw [hbefore, hasBits_append] at hhas
  obtain ⟨n, st1, hrun1, hpos1, hskip1, hdec1, hfix, hst1, hlb, hdb⟩ :=
    @blockStart_fixed unaligned _ _ _ _ _ hskip (by omega) hhas.1
  have hblock := hhas.2
  rw [List.length_cons, List.length_cons, List.length_singleton,
    show st.skipBits + (1 + 1 + 1) = 8 * n + st1.skipBits by omega] at hblock
  have hblock' := hasBits_advance hblock (by omega)
  have hiff := blockAt_fixed_iff hfix hts hblock' (by omega)
  refine ⟨n, st1, hrun1, hdec1, hiff, fun hc => ?_⟩
  obtain ⟨k, st', m', hrun, hread⟩ := @huffBlock_ok unaligned inp (start + n) stop st1 fixed
    ⟨hlb ▸ hbases.lit, hdb ▸ hbases.dist⟩ ts m hts (by rwa [hst1]) (by rw [hst1]; exact hordered.window)
    (by rwa [hst1]) hskip1 (by omega) (hiff.mpr hc) hblock' (by omega)
  obtain ⟨hpos, hlt, -, hout, -, hbytes, hstored, -⟩ := hread
  rw [hst1] at hout hbytes hstored
  refine ⟨k, st', m', hrun, by omega, hlt, hout, ?_, ?_⟩
  · rw [hout]
    exact hbytes
  · rw [hout]
    exact hstored

/-! Literal 143 in front of a code that begins with a one, and in front of one that does not. -/

def clashState : GzipDecState := { smallState with skipBits := 0 }

def clashInput (i : Nat) : UInt8 := [0xeb, 0x9f].getD i 0

def clearInput (i : Nat) : UInt8 := [0xeb, 0x77, 0x04].getD i 0

theorem fixedBlock_literals :
    ∃ n st1, blockStart true clearInput 0 12 clashState = .ok (.consumed n, st1) ∧
      ∃ k st' m', (huffBlock true clearInput (0 + n) 12 st1).run ⟨fun _ => 0, []⟩ =
        .ok (.consumed k, st') m' ∧ m'.bytes 100 2 = [143, 65] := by
  obtain ⟨n, st1, hrun, -, -, h⟩ := @fixedBlock_reads_iff_not_clashing true clearInput 0 12 clashState
    [.lit 143, .lit 65] true [] (List.replicate 70 false) ⟨fun _ => 0, []⟩ (by decide)
    ⟨by decide, by decide⟩ (by decide) (by decide) ⟨fun _ _ => rfl, fun _ _ => rfl⟩ (by decide)
    (by decide +kernel) rfl (by decide)
  obtain ⟨k, st', m', hrun', -, -, hout, hbytes, -⟩ := h (by simp [Clashing, ClashAt, StartsWithOne])
  refine ⟨n, st1, hrun, k, st', m', hrun', ?_⟩
  rw [hout] at hbytes
  exact hbytes

/-- The literals 143 and 144 are answered with an error. -/
theorem fixedBlock_literal_143_err :
    inputBits clashInput 0 12 = [] ++ ([true, true, false] ++ encodeBlock fixed [.lit 143, .lit 144]) ++
      List.replicate 69 false ∧
    (match blockStart true clashInput 0 12 clashState with
      | .ok (.consumed n, st) => match (huffBlock true clashInput (0 + n) 12 st).run ⟨fun _ => 0, []⟩ with
        | .ok (r, _) _ => some r
        | .fault _ _ => none
      | _ => none) = some (.status .err) :=
  ⟨by decide +kernel, by decide +kernel⟩

end Rkboot.Compression.Inflate
