import Rkboot.Compression.InflateTables
import Rkboot.Compression.Deflate

/-! # The bit buffer of the gzip decompressor

A buffer at bit `p` of the input holds the bits from `p` up to its byte pointer.
Taking bits moves `p`, refilling moves the pointer; both refills of the source
do the same, and after one there are 25 bits or no input is left. -/
namespace Rkboot.Compression.Inflate
open Lib

section
open Nat

theorem leWord_slice (inp : Nat → UInt8) (start : Nat) {n k j} (h : k + j ≤ n) :
    (leWord inp start n >>> (8 * k)) % 2 ^ (8 * j) = leWord inp (start + k) j := by
  apply eq_of_testBit_eq
  intro i
  rw [testBit_mod_two_pow, testBit_shiftRight, leWord_testBit, leWord_testBit]
  by_cases hi : i < 8 * j
  · simp [hi, show 8 * k + i < 8 * n by omega, show start + (8 * k + i) / 8 = start + k + i / 8 by omega,
      show (8 * k + i) % 8 = i % 8 by omega]
  · simp [hi]

/-- A later slice of the input is the stream without the bytes before it. -/
theorem hasBits_advance {inp start stop n p bs}
    (h : HasBits (leWord inp start (stop - start)) (8 * n + p) bs) (hn : n ≤ stop - start) :
    HasBits (leWord inp (start + n) (stop - (start + n))) p bs := by
  have hslice := leWord_slice inp start (by omega : n + (stop - (start + n)) ≤ stop - start)
  have hlt : leWord inp start (stop - start) >>> (8 * n) < 2 ^ (8 * (stop - (start + n))) := by
    apply shiftRight_lt
    rw [← mul_add, show n + (stop - (start + n)) = stop - start by omega]
    exact leWord_lt _ _ _
  rw [mod_eq_of_lt hlt] at hslice
  rwa [HasBits, ← hslice, ← shiftRight_add]

/-- The bits from `p` on that have been taken in and not used up. -/
structure BitBuf.Holds (inp : Nat → UInt8) (start stop p : Nat) (b : BitBuf) : Prop where
  low : start ≤ b.ptr
  high : b.ptr ≤ stop
  pos : p + b.numBits = 8 * (b.ptr - start)
  small : b.numBits ≤ 32
  bits : b.bits = (leWord inp start (stop - start) >>> p) % 2 ^ b.numBits

/-- What a refill leaves: enough bits for a symbol and its extra bits, or all there are. -/
def BitBuf.Filled (stop : Nat) (b : BitBuf) : Prop := 25 ≤ b.numBits ∨ b.ptr = stop

variable {inp : Nat → UInt8} {start stop p : Nat} {b : BitBuf}

theorem BitBuf.Holds.skip (h : b.Holds inp start stop p) {n} (hn : n ≤ b.numBits) :
    (b.skip n).Holds inp start stop (p + n) := by
  obtain ⟨hlow, hhigh, hpos, hsmall, hbits⟩ := h
  refine ⟨hlow, hhigh, ?_, ?_, ?_⟩ <;> simp only [BitBuf.skip]
  · omega
  · omega
  · apply eq_of_testBit_eq
    intro i
    rw [hbits, testBit_shiftRight, testBit_mod_two_pow, testBit_mod_two_pow,
      testBit_shiftRight, testBit_shiftRight, add_assoc]
    congr 1
    exact decide_eq_decide.mpr (by omega)

theorem BitBuf.Holds.push (h : b.Holds inp start stop p) (hnum : b.numBits ≤ 24)
    (hptr : b.ptr < stop) : (b.push inp).Holds inp start stop p := by
  obtain ⟨hlow, hhigh, hpos, hsmall, hbits⟩ := h
  refine ⟨?_, ?_, ?_, ?_, ?_⟩ <;> simp only [BitBuf.push]
  · omega
  · omega
  · omega
  · omega
  · have hbyte : (inp b.ptr).toNat =
        (leWord inp start (stop - start) >>> (p + b.numBits)) % 2 ^ 8 := by
      rw [hpos, leWord_slice inp start (by omega : b.ptr - start + 1 ≤ stop - start),
        add_sub_of_le hlow]
      simp [leWord]
    apply eq_of_testBit_eq
    intro i
    rw [hbits, hbyte, testBit_or, testBit_shiftLeft, testBit_mod_two_pow,
      testBit_mod_two_pow, testBit_mod_two_pow, testBit_shiftRight,
      testBit_shiftRight]
    by_cases hi : i < b.numBits
    · simp [hi, show ¬ b.numBits ≤ i by omega, show i < b.numBits + 8 by omega]
    · simp [hi, show b.numBits ≤ i by omega, show p + b.numBits + (i - b.numBits) = p + i by omega,
        show i - b.numBits < 8 ↔ i < b.numBits + 8 by omega]

theorem refillLoop_holds {fuel} (hfuel : 25 ≤ b.numBits + 8 * fuel) (h : b.Holds inp start stop p) :
    (refillLoop inp stop fuel b).Holds inp start stop p ∧ (refillLoop inp stop fuel b).Filled stop ∧
      b.ptr ≤ (refillLoop inp stop fuel b).ptr := by
  induction fuel generalizing b with
  | zero => exact ⟨h, .inl (by rwa [mul_zero] at hfuel), le_rfl⟩
  | succ fuel ih =>
    rw [refillLoop]
    split
    · next hc =>
      have hnum : (b.push inp).numBits = b.numBits + 8 := rfl
      obtain ⟨h1, h2, h3⟩ := ih (by omega) (h.push (by omega) hc.2)
      exact ⟨h1, h2, le_trans (le_succ _) h3⟩
    · next hc =>
      have := h.high
      exact ⟨h, (by omega : 25 ≤ b.numBits ∨ b.ptr = stop), le_rfl⟩

/-- Both refills keep the position and fill the buffer. -/
theorem refill_holds (unaligned : Bool) (h : b.Holds inp start stop p) (h4 : start + 4 ≤ b.ptr) :
    ∃ b', refill unaligned inp start stop b = .ok b' ∧ b'.Holds inp start stop p ∧
      b'.Filled stop ∧ start + 4 ≤ b'.ptr := by
  cases unaligned with
  | false =>
    obtain ⟨h1, h2, h3⟩ := @refillLoop_holds inp start stop p b 4 (by omega) h
    exact ⟨_, rfl, h1, h2, by omega⟩
  | true =>
    obtain ⟨hlow, hhigh, hpos, hsmall, hbits⟩ := id h
    rw [refill, if_pos rfl]
    by_cases hptr : b.ptr = stop
    · rw [if_pos hptr]
      exact ⟨b, rfl, h, .inr hptr, h4⟩
    rw [if_neg hptr]
    generalize hr : min ((32 - b.numBits) / 8) (stop - b.ptr) = r
    have hfill : 25 ≤ b.numBits + 8 * r ∨ b.ptr + r = stop := by omega
    rw [if_neg (by omega), if_neg (by omega)]
    refine ⟨_, rfl, ⟨?_, ?_, ?_, ?_, ?_⟩, hfill, ?_⟩ <;> dsimp only
    · omega
    · omega
    · omega
    · omega
    · rw [show b.ptr + r - 4 = start + (b.ptr + r - 4 - start) by omega,
        ← leWord_slice inp start (by omega : b.ptr + r - 4 - start + 4 ≤ stop - start)]
      apply eq_of_testBit_eq
      intro i
      rw [testBit_shiftRight, testBit_mod_two_pow, testBit_mod_two_pow,
        testBit_shiftRight, testBit_shiftRight,
        show 8 * (b.ptr + r - 4 - start) + (32 - (b.numBits + 8 * r) + i) = p + i by omega]
      congr 1
      exact decide_eq_decide.mpr (by omega)
    · omega

theorem refillLoop_ptr {fuel} (hfuel : 25 ≤ b.numBits + 8 * fuel) :
    (refillLoop inp stop fuel b).ptr = b.ptr + min ((32 - b.numBits) / 8) (stop - b.ptr) := by
  induction fuel generalizing b with
  | zero =>
    rw [refillLoop]
    omega
  | succ fuel ih =>
    rw [refillLoop]
    split
    · rw [ih (by simp only [BitBuf.push]; omega)]
      simp only [BitBuf.push]
      omega
    · omega

/-- Both refills stop at the same byte. -/
theorem refill_ptr {unaligned b'} (h : refill unaligned inp start stop b = .ok b') :
    b'.ptr = b.ptr + min ((32 - b.numBits) / 8) (stop - b.ptr) := by
  unfold refill at h
  split at h
  · split at h
    · cases h
      omega
    dsimp only at h
    split_ifs at h
    cases h
    rfl
  · cases h
    exact refillLoop_ptr (by omega)

/-- Position and pointer determine the buffer, so the refills agree. -/
theorem refill_eq (unaligned : Bool) (h : b.Holds inp start stop p) (h4 : start + 4 ≤ b.ptr) :
    refill unaligned inp start stop b = refill false inp start stop b := by
  obtain ⟨⟨ptr₁, bits₁, num₁⟩, hb₁, h₁, -, -⟩ := refill_holds unaligned h h4
  obtain ⟨⟨ptr₂, bits₂, num₂⟩, hb₂, h₂, -, -⟩ := refill_holds false h h4
  obtain rfl : ptr₁ = ptr₂ := (refill_ptr hb₁).trans (refill_ptr hb₂).symm
  obtain rfl : num₁ = num₂ := Nat.add_left_cancel (h₁.pos.trans h₂.pos.symm)
  rw [hb₁, hb₂, show bits₁ = bits₂ from h₁.bits.trans h₂.bits.symm]

/-- The buffer at the start of a slice of at least four bytes, behind the used bits. -/
theorem startBits_holds {skipBits} (h4 : 4 ≤ stop - start) (hskip : skipBits ≤ 7) :
    (startBits inp start stop skipBits).Holds inp start stop skipBits ∧
      25 ≤ (startBits inp start stop skipBits).numBits ∧
      start + 4 ≤ (startBits inp start stop skipBits).ptr := by
  have h0 : (⟨start, 0, 0⟩ : BitBuf).Holds inp start stop 0 :=
    ⟨le_rfl, by dsimp only; omega, by simp, by simp, by simp [mod_one]⟩
  obtain ⟨hholds, hfilled, _⟩ := @refillLoop_holds inp start stop 0 _ 4 (by simp) h0
  unfold startBits
  generalize refillLoop inp stop 4 ⟨start, 0, 0⟩ = b at *
  have hpos := hholds.pos
  have hsmall := hholds.small
  have hnum : b.numBits = 32 ∧ b.ptr = start + 4 := by
    rcases hfilled with h | h <;> omega
  refine ⟨?_, ?_, ?_⟩
  · have := hholds.skip (by omega : skipBits ≤ _)
    rwa [zero_add] at this
  · simp only [BitBuf.skip]
    omega
  · exact hnum.2.ge

/-- A filled buffer has as many bits as are left, up to 25. -/
theorem BitBuf.Holds.le_numBits (h : b.Holds inp start stop p) (hf : b.Filled stop) {n}
    (hn : n ≤ 25) (hleft : p + n ≤ 8 * (stop - start)) : n ≤ b.numBits := by
  have := h.pos
  rcases hf with hf | hf
  · omega
  · omega

/-- There is a buffer with a number of bits, as long as the input has them. -/
theorem exists_holds (inp : Nat → UInt8) {k} (h0 : 0 < k) (hk : k ≤ 25)
    (h : p + k ≤ 8 * (stop - start)) : ∃ b : BitBuf, b.Holds inp start stop p ∧ k ≤ b.numBits := by
  refine ⟨⟨start + (p + k + 7) / 8,
    (leWord inp start (stop - start) >>> p) % 2 ^ (8 * ((p + k + 7) / 8) - p),
    8 * ((p + k + 7) / 8) - p⟩, ⟨?_, ?_, ?_, ?_, rfl⟩, ?_⟩ <;> dsimp only <;> omega

theorem BitBuf.Holds.bits_mod (h : b.Holds inp start stop p) {bs : List Bool}
    (hbs : HasBits (leWord inp start (stop - start)) p bs) (hn : bs.length ≤ b.numBits) :
    b.bits % 2 ^ bs.length = ofBits bs := by
  rw [h.bits, mod_mod_of_dvd _ (pow_dvd_pow 2 hn)]
  exact hbs

theorem BitBuf.Holds.extra (h : b.Holds inp start stop p) {v n}
    (hbs : HasBits (leWord inp start (stop - start)) p (lowBits v n)) (hn : n ≤ b.numBits)
    (hv : v < 2 ^ n) : b.bits &&& (1 <<< n - 1) = v := by
  have := h.bits_mod hbs (by rwa [lowBits_length])
  rw [lowBits_length, ofBits_lowBits, mod_eq_of_lt hv] at this
  rw [one_shiftLeft, and_two_pow_sub_one_eq_mod, this]

/-- Bytes consumed and bits used up denote the position. -/
theorem BitBuf.Holds.consumed (h : b.Holds inp start stop p) :
    b.consumed start = p / 8 ∧ (8 - b.numBits % 8) % 8 = p % 8 := by
  have := h.pos
  unfold BitBuf.consumed
  omega

end

/-! ## Huffman blocks of the gzip decompressor

`huff_block` undoes the encoding of a token list: from a position where the
input holds an encoded block and the tables decode its symbols, the loop reads
token after token, leaves their expansion in memory and ends behind the
end-of-block symbol. -/
open Lz77 Deflate Exec

/-! ## The base tables -/

/-- What `init` stores in `lit_base` and `dist_base`. -/
structure GzipDecState.Bases (st : GzipDecState) : Prop where
  lit : ∀ i, i < 21 → st.litBase i = baseTable 11 litExtra i
  dist : ∀ i, i < 26 → st.distBase i = baseTable 5 distExtra i

theorem GzipDecState.reset_bases (st : GzipDecState) : st.reset.Bases :=
  ⟨fun _ h => if_pos h, fun _ h => if_pos h⟩

/-- The tables are those of the format; only the base of symbol 285 is 259. -/
theorem litTable_eq : ∀ i < 21, litExtra i = lengthExtras.getD (i + 8) 0 ∧
    baseTable 11 litExtra i = lengthBases.getD (i + 8) 0 + if i = 20 then 1 else 0 := by decide

theorem distTable_eq : ∀ i < 26, distExtra i = distExtras.getD (i + 4) 0 ∧
    baseTable 5 distExtra i = distBases.getD (i + 4) 0 := by decide

theorem shortLength_eq : ∀ i < 8, lengthBases.getD i 0 = i + 3 ∧ lengthExtras.getD i 0 = 0 := by
  decide

theorem shortDist_eq : ∀ i < 4, distBases.getD i 0 = i + 1 ∧ distExtras.getD i 0 = 0 := by
  decide

theorem lengthExtras_le : ∀ i < 29, lengthExtras.getD i 0 ≤ 5 := by decide

theorem distExtras_le : ∀ i < 30, distExtras.getD i 0 ≤ 13 := by decide

/-! ## One token -/

/-- A token as `huff_block` sees it before its checks. -/
def rawToken : Token → RawToken
  | .lit b => .literal b.toNat
  | .copy length dist => .copy (if length = 258 then 259 else length) dist

section
variable {unaligned : Bool} {inp : Nat → UInt8} {start stop : Nat} {st : GzipDecState} {c : Codes}

/-- Any buffer at bit `p` with enough bits decodes to the symbol. -/
def SymAt (t : HuffTable) (size : Nat) (code : Nat → List Bool) (inp : Nat → UInt8)
    (start stop p s : Nat) : Prop :=
  (code s).length ≤ 15 ∧ ∀ b : BitBuf, b.Holds inp start stop p → (code s).length ≤ b.numBits →
    decodeSym t size b = .ok (some (s, (code s).length))

/-- The symbols of a token that starts at bit `p` are decoded. -/
def TokenAt (st : GzipDecState) (c : Codes) (inp : Nat → UInt8) (start stop p : Nat) :
    Token → Prop
  | .lit b => SymAt st.lit 286 c.lit inp start stop p b.toNat
  | .copy length dist =>
    SymAt st.lit 286 c.lit inp start stop p (symbol (.copy length dist)) ∧
    SymAt st.dist 30 c.dist inp start stop
      (p + (c.lit (symbol (.copy length dist))).length +
        lengthExtras.getD (baseIndex lengthBases length) 0) (distSymbol dist)

theorem readLength_ok (hb : st.Bases) {length i p} {b : BitBuf} (h3 : 3 ≤ length)
    (h258 : length ≤ 258) (hi : baseIndex lengthBases length = i) (h : b.Holds inp start stop p)
    (hbits : HasBits (leWord inp start (stop - start)) p
      (lowBits (length - lengthBases.getD i 0) (lengthExtras.getD i 0)))
    (hnum : lengthExtras.getD i 0 ≤ b.numBits) : readLength st (257 + i) b =
      .ok (some (if length = 258 then 259 else length, b.skip (lengthExtras.getD i 0))) := by
  have h29 : i < 29 := hi ▸ baseIndex_lt (by decide) length
  have hle : lengthBases.getD i 0 ≤ length := hi ▸ base_le h3
  have hlast : i = 28 ↔ length = 258 := hi ▸ baseIndex_length_eq h3 h258
  have hsub := length_sub_lt h258
  rw [hi] at hsub
  have hextra := h.extra hbits hnum hsub
  rw [readLength]
  rw [show 257 + i - 257 + 3 = i + 3 by omega]
  by_cases h8 : i < 8
  · obtain ⟨hbase, hzero⟩ := shortLength_eq i h8
    rw [hzero, pow_zero] at hsub
    rw [if_neg (by omega), if_neg (by omega), hzero, show length = i + 3 by omega]
    rfl
  · obtain ⟨hex, hbase⟩ := litTable_eq (i - 8) (by omega)
    rw [show i - 8 + 8 = i by omega] at hex hbase
    rw [if_pos (by omega), if_neg (by omega), show i + 3 - 11 = i - 8 by omega, hex,
      if_neg (by omega), hextra, hb.lit _ (by omega), hbase]
    congr 4
    by_cases h28 : i = 28
    · rw [if_pos (by omega), if_pos (hlast.mp h28)]
      omega
    · rw [if_neg (by omega), if_neg (fun h => h28 (hlast.mpr h))]
      omega

theorem readDist_ok (hb : st.Bases) {dist i p} {b : BitBuf} (h1 : 1 ≤ dist)
    (hmax : dist ≤ 32768) (hi : distSymbol dist = i) (h : b.Holds inp start stop p)
    (h4 : start + 4 ≤ b.ptr) (hbits : HasBits (leWord inp start (stop - start)) p
      (lowBits (dist - distBases.getD i 0) (distExtras.getD i 0)))
    (hleft : p + distExtras.getD i 0 ≤ 8 * (stop - start)) :
    ∃ b', readDist unaligned inp start stop st i b = .ok (some (dist, b')) ∧
      b'.Holds inp start stop (p + distExtras.getD i 0) ∧ start + 4 ≤ b'.ptr := by
  have h30 : i < 30 := hi ▸ distSymbol_lt dist
  have hle : distBases.getD i 0 ≤ dist := hi ▸ base_le h1
  have hsub := dist_sub_lt hmax
  rw [hi] at hsub
  rw [readDist]
  by_cases h4' : i < 4
  · obtain ⟨hbase, hzero⟩ := shortDist_eq i h4'
    rw [hzero, pow_zero] at hsub
    rw [if_neg (by omega), hzero]
    exact ⟨b, by rw [show i + 1 = dist by omega], h, h4⟩
  · obtain ⟨hex, hbase⟩ := distTable_eq (i - 4) (by omega)
    rw [show i - 4 + 4 = i by omega] at hex hbase
    have h13 := distExtras_le i h30
    obtain ⟨b', hr, hb', hf, h4b⟩ := refill_holds unaligned h h4
    have hnum := hb'.le_numBits hf (by omega) hleft
    rw [if_pos (by omega), if_neg (by omega), hr, show i + 1 - 5 = i - 4 by omega]
    refine ⟨b'.skip (distExtras.getD i 0), ?_, hb'.skip hnum, h4b⟩
    dsimp only [bind, Except.bind]
    rw [hex, if_neg (by omega), hb'.extra hbits hnum hsub, hb.dist _ (by omega), hbase,
      Nat.add_sub_of_le hle]
    rfl

/-- Behind the length: a distance symbol and its extra bits. -/
theorem readMatch_ok (hb : st.Bases) {length dist p} {b : BitBuf} (h1 : 1 ≤ dist)
    (hmax : dist ≤ 32768) (hsym : SymAt st.dist 30 c.dist inp start stop p (distSymbol dist))
    (h : b.Holds inp start stop p) (h4 : start + 4 ≤ b.ptr)
    (hbits : HasBits (leWord inp start (stop - start)) (p + (c.dist (distSymbol dist)).length)
      (lowBits (dist - distBases.getD (distSymbol dist) 0) (distExtras.getD (distSymbol dist) 0)))
    (hleft : p + (c.dist (distSymbol dist)).length + distExtras.getD (distSymbol dist) 0 ≤
      8 * (stop - start)) :
    ∃ b', readMatch unaligned inp start stop st length b = .ok (some (.copy length dist, b')) ∧
      b'.Holds inp start stop (p + (c.dist (distSymbol dist)).length +
        distExtras.getD (distSymbol dist) 0) ∧ start + 4 ≤ b'.ptr := by
  obtain ⟨h15, hdec⟩ := hsym
  obtain ⟨b1, hr1, hh1, hf1, h41⟩ := refill_holds unaligned h h4
  have hnum := hh1.le_numBits hf1 (by omega : (c.dist (distSymbol dist)).length ≤ 25) (by omega)
  obtain ⟨b2, hr2, hh2, h42⟩ := @readDist_ok unaligned _ _ _ _ hb _ _ _ _ h1 hmax rfl
    (hh1.skip hnum) h41 hbits hleft
  refine ⟨b2, ?_, hh2, h42⟩
  rw [readMatch, hr1]
  dsimp only [bind, Except.bind]
  rw [hdec b1 hh1 hnum]
  dsimp only
  rw [hr2]
  rfl

/-- From a filled buffer at an encoded token the token is read. -/
theorem readToken_ok (hb : st.Bases) {t p} {b : BitBuf} (ht : InRange t)
    (hsym : TokenAt st c inp start stop p t) (h : b.Holds inp start stop p) (hf : b.Filled stop)
    (h4 : start + 4 ≤ b.ptr) (hbits : HasBits (leWord inp start (stop - start)) p (encode c t))
    (hleft : p + (encode c t).length ≤ 8 * (stop - start)) :
    ∃ b', readToken unaligned inp start stop st b = .ok (some (rawToken t, b')) ∧
      b'.Holds inp start stop (p + (encode c t).length) ∧ start + 4 ≤ b'.ptr := by
  rw [encode, hasBits_append] at hbits
  rw [encode, List.length_append] at hleft ⊢
  unfold readToken
  cases t with
  | lit v =>
    obtain ⟨h15, hdec⟩ := hsym
    have hnum := h.le_numBits hf (by omega : (c.lit v.toNat).length ≤ 25) (by
      simp only [symbol] at hleft
      omega)
    rw [hdec b h hnum]
    exact ⟨_, if_pos v.toNat_lt, h.skip hnum, h4⟩
  | copy length dist =>
    obtain ⟨⟨h15, hdec⟩, hdist⟩ := hsym
    obtain ⟨h3, h258, h1, hmax⟩ := ht
    have hgt : 256 < symbol (.copy length dist) := Nat.le_add_right _ _
    have h5 := lengthExtras_le _ (@baseIndex_lt lengthBases (by decide) length)
    obtain ⟨-, hbits⟩ := hbits
    simp only [tail, hasBits_append, List.length_append, lowBits_length] at hbits hleft ⊢
    obtain ⟨hlen, -, hextra⟩ := hbits
    -- the first buffer has the symbol and the extra bits of the length
    have hnum := h.le_numBits hf (by omega :
      (c.lit (symbol (.copy length dist))).length + lengthExtras.getD (baseIndex lengthBases length) 0
        ≤ 25) (by omega)
    have hskip := h.skip (by omega : (c.lit (symbol (.copy length dist))).length ≤ b.numBits)
    have hnum' : lengthExtras.getD (baseIndex lengthBases length) 0 ≤
        (b.skip (c.lit (symbol (.copy length dist))).length).numBits := by
      simp only [BitBuf.skip]
      omega
    have hrl : readLength st (symbol (.copy length dist)) _ = _ :=
      readLength_ok hb h3 h258 rfl hskip hlen hnum'
    obtain ⟨b', hr', hh', h4'⟩ := @readMatch_ok unaligned inp start stop st c hb
      (if length = 258 then 259 else length) _ _ _ h1 hmax hdist (hskip.skip hnum') h4 hextra
      (by omega)
    refine ⟨b', ?_, ?_, h4'⟩
    · rw [hdec b h (by omega)]
      dsimp only [bind, Except.bind]
      rw [if_neg (by omega), if_pos hgt, hrl]
      exact hr'
    · simpa only [add_assoc] using hh'

/-! ## The loop -/

theorem copyMatch_run (table : Nat → Nat) {dist n out} (hd : 0 < dist) (hle : dist ≤ out)
    (crc : Nat) (m : Mem) : ∃ m', (copyMatch table dist n out crc).run m =
        .ok ((m'.bytes out n).foldl (crcStep table) crc) m' ∧
      Stored m m' out (out + n) ∧ ∀ i < n, m'.byte (out + i) = m'.byte (out + i - dist) := by
  induction n generalizing out crc m with
  | zero => exact ⟨m, rfl, .refl m _ _, fun _ h => absurd h (Nat.not_lt_zero _)⟩
  | succ n ih =>
    obtain ⟨m', hrun, hst, hcopy⟩ := ih (by omega : dist ≤ out + 1)
      (crcStep table crc (m.byte (out - dist))) (m.store out (m.byte (out - dist)))
    have hout : m'.byte out = m.byte (out - dist) := by
      rw [hst.frame out (by omega), Mem.store_byte_self]
    refine ⟨m', ?_, ?_, ?_⟩
    · rw [Mem.bytes, bytesAt_succ, List.foldl_cons, hout]
      exact hrun
    · exact (Stored.store m _ le_rfl (by omega)).trans (hst.mono (by omega) (by omega))
    · intro i hi
      cases i with
      | zero =>
        rw [add_zero, hout, hst.frame _ (by omega), m.store_byte_ne _ (by omega)]
      | succ i =>
        have := hcopy i (by omega)
        rwa [add_assoc, add_comm 1 i] at this

/-- All symbols of a block that starts at bit `p` are decoded. -/
def BlockAt (st : GzipDecState) (c : Codes) (inp : Nat → UInt8) (start stop : Nat) :
    Nat → List Token → Prop
  | p, [] => SymAt st.lit 286 c.lit inp start stop p 256
  | p, t :: ts => TokenAt st c inp start stop p t ∧
      BlockAt st c inp start stop (p + (encode c t).length) ts

/-- The tokens expanded from `out` on, and the checksum of the new bytes. -/
structure Expanded (table : Nat → Nat) (w out crc : Nat) (ts : List Token) (m m' : Mem)
    (crc' : Nat) : Prop where
  bytes : m'.bytes w (out + size ts - w) = expand (m.bytes w (out - w)) ts
  stored : Stored m m' out (out + size ts)
  crc : crc' = (m'.bytes out (size ts)).foldl (crcStep table) crc

/-- A token's bytes and then the rest. -/
theorem Expanded.cons {table w out crc crc'} {t : Token} {ts}
    {m m1 : Mem} {m'} (hbytes : m1.bytes w (out + t.size - w) = t.apply (m.bytes w (out - w)))
    (hst : Stored m m1 out (out + t.size))
    (h : Expanded table w (out + t.size) ((m1.bytes out t.size).foldl (crcStep table) crc) ts m1 m'
      crc') : Expanded table w out crc (t :: ts) m m' crc' := by
  obtain ⟨hb, hs, hc⟩ := h
  have hkeep : m'.bytes out t.size = m1.bytes out t.size := hs.bytes (by omega)
  refine ⟨?_, ?_, ?_⟩
  · rw [size_cons, ← add_assoc, hb, hbytes, expand_cons]
  · rw [size_cons, ← add_assoc]
    exact (hst.mono le_rfl (by omega)).trans (hs.mono (by omega) le_rfl)
  · rw [hc, size_cons, m'.bytes_append, List.foldl_append, hkeep]

/-- One turn of the loop: the token is read, its bytes are stored and the buffer is refilled. -/
theorem huffLoop_step (hb : st.Bases) {t : Token} {p out crc} {b : BitBuf} {m : Mem}
    (ht : InRange t) (hreach : Reaches (out - st.st.windowStart) [t]) (hw : st.st.windowStart ≤ out)
    (hspace : t.size ≤ st.st.outEnd - out) (hsym : TokenAt st c inp start stop p t)
    (h : b.Holds inp start stop p) (hf : b.Filled stop) (h4 : start + 4 ≤ b.ptr)
    (hbits : HasBits (leWord inp start (stop - start)) p (encode c t))
    (hleft : p + (encode c t).length ≤ 8 * (stop - start)) (fuel : Nat) :
    ∃ b' m1, (huffLoop unaligned inp start stop st (fuel + 1) b out crc).run m =
        (huffLoop unaligned inp start stop st fuel b' (out + t.size)
          ((m1.bytes out t.size).foldl (crcStep st.crcTable) crc)).run m1 ∧
      b'.Holds inp start stop (p + (encode c t).length) ∧ b'.Filled stop ∧ start + 4 ≤ b'.ptr ∧
      m1.bytes st.st.windowStart (out + t.size - st.st.windowStart) =
        t.apply (m.bytes st.st.windowStart (out - st.st.windowStart)) ∧
      Stored m m1 out (out + t.size) := by
  obtain ⟨b1, hr1, hh1, h41⟩ := @readToken_ok unaligned _ _ _ _ _ hb _ _ _ ht hsym h hf h4 hbits hleft
  obtain ⟨b2, hr2, hh2, hf2, h42⟩ := refill_holds unaligned hh1 h41
  rw [huffLoop, hr1]
  cases t with
  | lit v =>
    refine ⟨b2, m.store out v, ?_, hh2, hf2, h42, ?_, ?_⟩
    · simp only [rawToken, lift_ok, pure_bind, hr2]
      rw [if_neg (by simp only [Token.size] at hspace; omega), UInt8.ofNat_toNat,
        run_bind_of_ok (run_store out v m)]
      simp [Mem.bytes, bytesAt, Token.size]
    · exact bytes_extend hw (Stored.store m v le_rfl (Nat.lt_succ_self _)) rfl
        (by simp [Mem.bytes, bytesAt, Token.size])
    · exact Stored.store m v le_rfl (Nat.lt_succ_self _)
  | copy length dist =>
    obtain ⟨hd, hdle, -⟩ := hreach
    obtain ⟨h3, h258, -, -⟩ := ht
    obtain ⟨m1, hrun, hst, hcopy⟩ := @copyMatch_run st.crcTable dist length out hd (by omega) crc m
    refine ⟨b2, m1, ?_, hh2, hf2, h42, bytes_copyFrom hw hst hd hdle hcopy, hst⟩
    have hlen : (if 258 ≤ (if length = 258 then 259 else length) then 258
        else (if length = 258 then 259 else length)) = length := by
      split_ifs <;> omega
    have hcount : copyCount length = length := if_neg (by omega)
    simp only [Token.size] at hspace
    simp only [rawToken, lift_ok, pure_bind, hr2]
    rw [if_neg (by omega), if_neg (by split <;> omega)]
    simp only [hlen]
    rw [if_neg (by omega), hcount, run_bind_of_ok hrun]
    rfl

/-- The loop reads an encoded block to its end. -/
theorem huffLoop_ok (hb : st.Bases) {ts : List Token} {p out crc fuel} {b : BitBuf} {m}
    (hts : ∀ t ∈ ts, InRange t) (hreach : Reaches (out - st.st.windowStart) ts)
    (hw : st.st.windowStart ≤ out) (hspace : size ts ≤ st.st.outEnd - out)
    (hsym : BlockAt st c inp start stop p ts) (h : b.Holds inp start stop p) (hf : b.Filled stop)
    (h4 : start + 4 ≤ b.ptr)
    (hbits : HasBits (leWord inp start (stop - start)) p (encodeBlock c ts))
    (hleft : p + (encodeBlock c ts).length ≤ 8 * (stop - start)) (hfuel : ts.length < fuel) :
    ∃ b' crc' m', (huffLoop unaligned inp start stop st fuel b out crc).run m =
        .ok (.ended b' (out + size ts) crc') m' ∧
      b'.Holds inp start stop (p + (encodeBlock c ts).length) ∧
      Expanded st.crcTable st.st.windowStart out crc ts m m' crc' := by
  induction ts generalizing p out crc fuel b m with
  | nil =>
    obtain ⟨h15, hdec⟩ := hsym
    have hnum := h.le_numBits hf (by omega : (c.lit 256).length ≤ 25) hleft
    obtain ⟨fuel, rfl⟩ : ∃ k, fuel = k + 1 := ⟨fuel - 1, by omega⟩
    refine ⟨b.skip (c.lit 256).length, crc, m, ?_, h.skip hnum, rfl, .refl m _ _, rfl⟩
    rw [huffLoop, readToken, hdec b h hnum]
    rfl
  | cons t ts ih =>
    obtain ⟨fuel, rfl⟩ : ∃ k, fuel = k + 1 := ⟨fuel - 1, by omega⟩
    rw [List.length_cons] at hfuel
    rw [encodeBlock, hasBits_append] at hbits
    rw [encodeBlock, List.length_append] at hleft ⊢
    rw [size_cons] at hspace
    have hreach' := (@Reaches.append _ [t] ts).mp hreach
    obtain ⟨b1, m1, hrun, hh1, hf1, h41, hbytes, hst⟩ := @huffLoop_step unaligned _ _ _ _ _ hb _ _ _
      crc _ m (hts t List.mem_cons_self) hreach'.1 hw (by omega) hsym.1 h hf h4 hbits.1 (by omega) fuel
    obtain ⟨b2, crc2, m2, hrun2, hh2, hexp⟩ := @ih _ (out + t.size) _ fuel b1 m1
      (fun u hu => hts u (List.mem_cons_of_mem _ hu))
      (by
        have := hreach'.2
        rwa [show size [t] = t.size by simp,
          show out - st.st.windowStart + t.size = out + t.size - st.st.windowStart by omega] at this)
      (by omega) (by omega) hsym.2 hh1 hf1 h41 hbits.2 (by omega) (by omega)
    refine ⟨b2, crc2, m2, ?_, by rwa [← add_assoc], hexp.cons hbytes hst⟩
    rw [hrun, hrun2, size_cons, add_assoc]

/-- What `huff_block` does with an encoded block: it expands it and stands behind its end. -/
structure BlockRead (st : GzipDecState) (ts : List Token) (p : Nat) (m : Mem) (n : Nat)
    (st' : GzipDecState) (m' : Mem) : Prop where
  position : 8 * n + st'.skipBits = p
  skipBits : st'.skipBits < 8
  decode : st'.decode = st.nextBlock
  out : st'.st.out = st.st.out + size ts
  isize : st'.isize = (st.isize + size ts) % 2 ^ 32
  expanded : Expanded st.crcTable st.st.windowStart st.st.out st.crc ts m m' st'.crc

theorem huffBlock_ok (hb : st.Bases) {ts m} (hts : ∀ t ∈ ts, InRange t)
    (hreach : Reaches (st.st.out - st.st.windowStart) ts) (hw : st.st.windowStart ≤ st.st.out)
    (hspace : size ts ≤ st.st.outEnd - st.st.out) (hskip : st.skipBits ≤ 7) (h4 : 4 ≤ stop - start)
    (hsym : BlockAt st c inp start stop st.skipBits ts)
    (hbits : HasBits (leWord inp start (stop - start)) st.skipBits (encodeBlock c ts))
    (hleft : st.skipBits + (encodeBlock c ts).length ≤ 8 * (stop - start)) :
    ∃ n st' m', (huffBlock unaligned inp start stop st).run m = .ok (.consumed n, st') m' ∧
      BlockRead st ts (st.skipBits + (encodeBlock c ts).length) m n st' m' := by
  obtain ⟨hh, h25, hptr⟩ := @startBits_holds inp start stop _ h4 hskip
  have hfuel : ts.length < huffFuel start stop st := by
    have := length_le_size hts
    unfold huffFuel
    omega
  obtain ⟨b, crc, m', hrun, hh', hexp⟩ := @huffLoop_ok unaligned _ _ _ _ _ hb _ _ _ st.crc _ _ m hts
    hreach hw hspace hsym hh (.inl h25) hptr hbits hleft hfuel
  obtain ⟨hcons, hmod⟩ := hh'.consumed
  refine ⟨b.consumed start, { st.finish b (st.st.out + size ts) crc with decode := st.nextBlock }, m',
    ?_, ?_, ?_, rfl, rfl, ?_, hexp⟩
  · rw [huffBlock, if_neg (by omega), run_bind_of_ok hrun]
    rfl
  · show 8 * b.consumed start + (8 - b.numBits % 8) % 8 = _
    omega
  · exact Nat.mod_lt _ (by decide)
  · show (st.isize + (st.st.out + size ts - st.st.out)) % 2 ^ 32 = _
    rw [Nat.add_sub_cancel_left]

/-! ## Canonical codes -/

theorem symAt_of_decodes {n size p s} {lengths : Nat → Nat} {t}
    (h : Decodes n lengths t) (hn : n ≤ 512) (hsize : n ≤ size) (hs : s < n) (h0 : 0 < lengths s)
    (hbits : HasBits (leWord inp start (stop - start)) p
      (PrefixCode.codeBits (PrefixCode.code n lengths s) (lengths s))) :
    SymAt t size (fun s => PrefixCode.codeBits (PrefixCode.code n lengths s) (lengths s)) inp start
      stop p s := by
  have h15 := h.len s hs
  simp only [SymAt, PrefixCode.codeBits_length]
  refine ⟨h15, fun b hb hnum => decodeSym_ok h hn hsize hs h0 ?_ hnum⟩
  have := hb.bits_mod hbits (by rwa [PrefixCode.codeBits_length])
  rwa [PrefixCode.codeBits_length, PrefixCode.ofBits_code (by omega) h0 h15] at this

section
variable {litLengths distLengths : Nat → Nat}

theorem tokenAt_of_decodes (hl : Decodes 286 litLengths st.lit) (hd : Decodes 30 distLengths st.dist)
    {t p} (hc : Coded litLengths distLengths t) (hbits : HasBits (leWord inp start (stop - start)) p
      (encode (canonical litLengths distLengths) t)) :
    TokenAt st (canonical litLengths distLengths) inp start stop p t := by
  rw [encode, hasBits_append] at hbits
  have hsym := symbol_lt t
  cases t with
  | lit v => exact symAt_of_decodes hl (by decide) (by decide) hsym hc hbits.1
  | copy length dist =>
    have htail := hbits.2
    simp only [tail, hasBits_append, lowBits_length] at htail
    exact ⟨symAt_of_decodes hl (by decide) (by decide) hsym hc.1 hbits.1,
      symAt_of_decodes hd (by decide) (by decide) (distSymbol_lt dist) hc.2 htail.2.1⟩

theorem blockAt_of_decodes (hl : Decodes 286 litLengths st.lit) (hd : Decodes 30 distLengths st.dist)
    {ts p} (hc : ∀ t ∈ ts, Coded litLengths distLengths t) (hend : 0 < litLengths 256)
    (hbits : HasBits (leWord inp start (stop - start)) p
      (encodeBlock (canonical litLengths distLengths) ts)) :
    BlockAt st (canonical litLengths distLengths) inp start stop p ts := by
  induction ts generalizing p with
  | nil => exact symAt_of_decodes hl (by decide) (by decide) (by decide) hend hbits
  | cons t ts ih =>
    rw [encodeBlock, hasBits_append] at hbits
    exact ⟨tokenAt_of_decodes hl hd (hc t List.mem_cons_self) hbits.1,
      ih (fun u hu => hc u (List.mem_cons_of_mem _ hu)) hbits.2⟩

end
end

/-- `huff_block` with the tables of a pair of canonical codes undoes the encoding of a token list
with them, from any bit of a byte on: it stores the expansion and returns the bit position behind
the end-of-block code. -/
theorem huffBlock_decodes_encoding (unaligned : Bool) {inp : Nat → UInt8} {start stop : Nat}
    {st : GzipDecState} {litLengths distLengths : Nat → Nat} {ts : List Token}
    {before after : List Bool} {m : Mem}
    (hlit : ∀ s, s < 286 → litLengths s ≤ 15)
    (hlitComplete : PrefixCode.kraft 15 286 litLengths = 2 ^ 15)
    (hdist : ∀ s, s < 30 → distLengths s ≤ 15)
    (hdistComplete : PrefixCode.kraft 15 30 distLengths = 2 ^ 15 ∨
      ∃ s, s < 30 ∧ ∀ u, u < 30 → distLengths u = if u = s then 1 else 0)
    (hts : ∀ t ∈ ts, InRange t ∧ Coded litLengths distLengths t) (hend : 0 < litLengths 256)
    (hordered : st.st.Ordered) (hreach : Reaches (st.st.out - st.st.windowStart) ts)
    (hspace : size ts ≤ st.st.outEnd - st.st.out) (hbases : st.Bases) (hskip : st.skipBits ≤ 7)
    (hbits : inputBits inp start (stop - start) =
      before ++ encodeBlock (canonical litLengths distLengths) ts ++ after)
    (hbefore : before.length = st.skipBits) (hafter : 64 ≤ after.length) :
    ∃ litCodes lit distCodes dist,
      constructCodes 286 litLengths st.litCodes = .ok litCodes ∧
      constructDectable 286 litLengths litCodes st.lit.overlength = .ok lit ∧
      constructCodes 30 distLengths st.distCodes = .ok distCodes ∧
      constructDectable 30 distLengths distCodes st.dist.overlength = .ok dist ∧
      ∃ n st' m',
        (huffBlock unaligned inp start stop { st with lit := lit, dist := dist }).run m =
          .ok (.consumed n, st') m' ∧
        8 * n + st'.skipBits =
          st.skipBits + (encodeBlock (canonical litLengths distLengths) ts).length ∧
        st'.skipBits < 8 ∧ st'.st.out = st.st.out + size ts ∧
        m'.bytes st.st.windowStart (st'.st.out - st.st.windowStart) =
          expand (m.bytes st.st.windowStart (st.st.out - st.st.windowStart)) ts ∧
        Stored m m' st.st.out st'.st.out := by
  obtain ⟨litCodes, lit, hlc, hlt, hl⟩ :=
    construct_decodes hlit hlitComplete.le st.litCodes st.lit.overlength
  have hk : PrefixCode.kraft 15 30 distLengths ≤ 2 ^ 15 := by
    rcases hdistComplete with h | ⟨s, hs, h⟩
    · exact h.le
    · exact PrefixCode.kraft_single hs h
  obtain ⟨distCodes, dist, hdc, hdt, hd⟩ :=
    construct_decodes hdist hk st.distCodes st.dist.overlength
  refine ⟨litCodes, lit, distCodes, dist, hlc, hlt, hdc, hdt, ?_⟩
  have hlength := congrArg List.length hbits
  rw [inputBits_length, List.length_append, List.length_append, hbefore] at hlength
  have hhas := hasBits_of_inputBits hbits
  rw [hbefore] at hhas
  obtain ⟨n, st', m', hrun, hread⟩ := @huffBlock_ok unaligned inp start stop
    { st with lit := lit, dist := dist } _ ⟨hbases.lit, hbases.dist⟩ ts m (fun t ht => (hts t ht).1)
    hreach hordered.window hspace hskip (by omega)
    (blockAt_of_decodes hl hd (fun t ht => (hts t ht).2) hend hhas) hhas (by dsimp only; omega)
  refine ⟨n, st', m', hrun, hread.position, hread.skipBits, hread.out, ?_, ?_⟩
  · rw [hread.out]
    exact hread.expanded.bytes
  · rw [hread.out]
    exact hread.expanded.stored

/-! A block with the literal 97 and a match, at bit 3 of its first byte. -/

def smallLit (s : Nat) : Nat := if s = 97 then 1 else if s = 256 ∨ s = 257 then 2 else 0

def smallDist (s : Nat) : Nat := if s = 0 then 1 else 0

def smallTokens : List Token := [.lit 97, .copy 3 1]

def smallInput (i : Nat) : UInt8 := if i = 0 then 0xb0 else 0

def smallState : GzipDecState where
  decode := some .huffBlock
  st := ⟨100, 100, 200⟩
  crcTable := crcEntry
  crc := 0xffffffff
  isize := 0
  skipBits := 3
  lastBlock := true
  litLengths := smallLit
  distLengths := smallDist
  litCodes := fun _ => 0
  distCodes := fun _ => 0
  lit := ⟨fun _ => 0, fun _ => 0, fun _ => 0⟩
  dist := ⟨fun _ => 0, fun _ => 0, fun _ => 0⟩
  litBase := baseTable 11 litExtra
  distBase := baseTable 5 distExtra

theorem huffBlock_decodes_encoding_small :
    ∃ lit dist n st' m',
      (huffBlock true smallInput 0 10 { smallState with lit := lit, dist := dist }).run
        ⟨fun _ => 0, []⟩ = .ok (.consumed n, st') m' ∧
      8 * n + st'.skipBits = 9 ∧ m'.bytes 100 4 = [97, 97, 97, 97] := by
  obtain ⟨_, lit, _, dist, -, -, -, -, n, st', m', hrun, hpos, -, hout, hbytes, -⟩ :=
    @huffBlock_decodes_encoding true smallInput 0 10 smallState smallLit smallDist smallTokens
      [false, false, false] (List.replicate 71 false) ⟨fun _ => 0, []⟩ (by decide +kernel)
      (by decide +kernel) (by decide) (.inr ⟨0, by decide, fun _ _ => rfl⟩) (by decide) (by decide)
      ⟨by decide, by decide⟩ (by decide) (by decide) ⟨fun _ _ => rfl, fun _ _ => rfl⟩ (by decide)
      (by decide +kernel) rfl (by decide)
  refine ⟨lit, dist, n, st', m', hrun, hpos.trans (by decide +kernel), ?_⟩
  rw [hout] at hbytes
  exact hbytes

end Rkboot.Compression.Inflate
