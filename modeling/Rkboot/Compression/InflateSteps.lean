import Rkboot.Compression.InflateBlock
import Rkboot.Lib.Crc

/-! # What a step of the gzip decompressor does, on any input

The buffers of a step always hold bits of the slice, so no step claims more than the
slice has; output goes where there is space for it; and a step that asks for more
leaves position and checksum alone. -/
namespace Rkboot.Compression.Inflate
open Lib Deflate Exec List

/-! ## Buffers -/

/-- The buffer holds bits of the slice, from some position on, and is past its first word. -/
def BitBuf.Sound (inp : Nat → UInt8) (start stop : Nat) (b : BitBuf) : Prop :=
  ∃ p, b.Holds inp start stop p ∧ start + 4 ≤ b.ptr

section
variable {inp : Nat → UInt8} {start stop : Nat} {b b' : BitBuf} {st : GzipDecState}
  {unaligned : Bool}

theorem BitBuf.Sound.skip (h : b.Sound inp start stop) {n} (hn : n ≤ b.numBits) :
    (b.skip n).Sound inp start stop := by
  obtain ⟨p, hp, h4⟩ := h
  exact ⟨p + n, hp.skip hn, h4⟩

theorem BitBuf.Sound.push (h : b.Sound inp start stop) (hnum : b.numBits ≤ 24)
    (hptr : b.ptr < stop) : (b.push inp).Sound inp start stop := by
  obtain ⟨p, hp, h4⟩ := h
  exact ⟨p, hp.push hnum hptr, Nat.le_succ_of_le h4⟩

theorem BitBuf.Sound.refill (h : b.Sound inp start stop) (unaligned : Bool) :
    ∃ b', Inflate.refill unaligned inp start stop b = .ok b' ∧ b'.Sound inp start stop := by
  obtain ⟨p, hp, h4⟩ := h
  obtain ⟨b', hb', hp', -, h4'⟩ := refill_holds unaligned hp h4
  exact ⟨b', hb', p, hp', h4'⟩

theorem startBits_sound {skipBits} (h4 : 4 ≤ stop - start) (hskip : skipBits ≤ 7) :
    (startBits inp start stop skipBits).Sound inp start stop := by
  obtain ⟨hholds, -, hptr⟩ : (startBits inp start stop skipBits).Holds inp start stop skipBits ∧ _ :=
    startBits_holds h4 hskip
  exact ⟨skipBits, hholds, hptr⟩

/-- The bytes counted as consumed and those still in the buffer are the ones that were read, so
the subtraction does not wrap. -/
theorem BitBuf.Sound.consumed_add (h : b.Sound inp start stop) :
    b.consumed start + (b.numBits + 7) / 8 = b.ptr - start ∧ b.ptr ≤ stop := by
  obtain ⟨p, hp, -⟩ := h
  have := hp.pos
  unfold BitBuf.consumed
  exact ⟨by omega, hp.high⟩

theorem BitBuf.Sound.consumed_le (h : b.Sound inp start stop) :
    b.consumed start ≤ stop - start := by
  have := h.consumed_add
  omega

theorem overlengthSym_le {t size bits numBits fuel len₀ sym len}
    (h : overlengthSym t size bits numBits fuel len₀ = .ok (some (sym, len))) : len ≤ numBits := by
  induction fuel generalizing len₀ with
  | zero =>
    rw [overlengthSym] at h
    split at h <;> cases h
  | succ fuel ih =>
    rw [overlengthSym] at h
    split at h
    · cases h
    obtain ⟨r, -, h⟩ := except_bind_eq_ok h
    cases r with
    | none => exact ih h
    | some s =>
      cases h
      omega

theorem decodeSym_le {t size sym len}
    (h : decodeSym t size b = .ok (some (sym, len))) : len ≤ b.numBits := by
  rw [decodeSym] at h
  split at h
  · exact overlengthSym_le h
  split at h
  · cases h
  · cases h
    omega

/-! ## Tokens -/

theorem le_baseTable (first : Nat) (extra : Nat → Nat) (i : Nat) : first ≤ baseTable first extra i := by
  induction i with
  | zero => exact le_rfl
  | succ i ih => exact ih.trans (Nat.le_add_right _ _)

/-- A length is never 0, so that the copy loop does not wrap. -/
theorem readLength_sound (hb : st.Bases) {lit length} (h : b.Sound inp start stop)
    (hr : readLength st lit b = .ok (some (length, b'))) : b'.Sound inp start stop ∧ 0 < length := by
  rw [readLength] at hr
  dsimp only at hr
  split at hr
  · split at hr
    · cases hr
    rename_i hidx
    split at hr
    · cases hr
    rename_i hnum
    cases hr
    refine ⟨h.skip (by omega), ?_⟩
    have := le_baseTable 11 litExtra (lit - 257 + 3 - 11)
    rw [hb.lit _ (by omega)]
    omega
  · cases hr
    exact ⟨h, by omega⟩

theorem readDist_sound {sym dist} (h : b.Sound inp start stop)
    (hr : readDist unaligned inp start stop st sym b = .ok (some (dist, b'))) :
    b'.Sound inp start stop := by
  rw [readDist] at hr
  dsimp only at hr
  split at hr
  · split at hr
    · cases hr
    obtain ⟨b₁, hb₁, hs⟩ := h.refill unaligned
    rw [hb₁] at hr
    dsimp only [bind, Except.bind] at hr
    split at hr
    · cases hr
    · cases hr
      exact hs.skip (by omega)
  · cases hr
    exact h

theorem readMatch_sound {length tok} (h : b.Sound inp start stop)
    (hr : readMatch unaligned inp start stop st length b = .ok (some (tok, b'))) :
    b'.Sound inp start stop ∧ ∃ dist, tok = .copy length dist := by
  obtain ⟨b₁, hb₁, hs⟩ := h.refill unaligned
  rw [readMatch, hb₁] at hr
  obtain ⟨_, ⟨⟩, hr⟩ := except_bind_eq_ok hr
  obtain ⟨_ | ⟨sym, len⟩, hsym, hr⟩ := except_bind_eq_ok hr
  · cases hr
  obtain ⟨_ | ⟨dist, b₂⟩, hdist, hr⟩ := except_bind_eq_ok hr
  · cases hr
  cases hr
  exact ⟨readDist_sound (hs.skip (decodeSym_le hsym)) hdist, dist, rfl⟩

theorem readToken_sound (hb : st.Bases) {tok} (h : b.Sound inp start stop)
    (hr : readToken unaligned inp start stop st b = .ok (some (tok, b'))) :
    b'.Sound inp start stop ∧ ∀ length dist, tok = .copy length dist → 0 < length := by
  obtain ⟨_ | ⟨lit, len⟩, hsym, hr⟩ := except_bind_eq_ok hr
  · cases hr
  have hs := h.skip (decodeSym_le hsym)
  dsimp only at hr
  split at hr
  · cases hr
    exact ⟨hs, fun _ _ h => by cases h⟩
  split at hr
  · obtain ⟨_ | ⟨length, b₁⟩, hlen, hr⟩ := except_bind_eq_ok hr
    · cases hr
    obtain ⟨hs₁, hpos⟩ := readLength_sound hb hs hlen
    obtain ⟨hs₂, dist, rfl⟩ := readMatch_sound hs₁ hr
    refine ⟨hs₂, fun _ _ h => ?_⟩
    cases h
    exact hpos
  · cases hr
    exact ⟨hs, fun _ _ h => by cases h⟩

/-! ## The Huffman block -/

section
variable {table : Nat → Nat} {m : Mem}

/-- A byte, and then `n` more behind it. -/
theorem ends_crc_store {x : Exec Nat} {c n out crc}
    (h : x.Ends (m.store out c) (out + 1) (out + 1 + n) fun crc' m' =>
      crc' = (m'.bytes (out + 1) n).foldl (crcStep table) (crcStep table crc c)) :
    (Exec.store out c >>= fun _ => x).Ends m out (out + (n + 1)) fun crc' m' =>
      crc' = (m'.bytes out (n + 1)).foldl (crcStep table) crc := by
  obtain ⟨hstored, hcrc⟩ := h
  refine ⟨(Stored.store m c le_rfl (by omega)).trans (hstored.mono (by omega) (by omega)),
    fun crc' m' hrun => ?_⟩
  have hrun : x.run (m.store out c) = .ok crc' m' := hrun
  rw [hrun, Res.mem_ok] at hstored
  have hc : m'.byte out = c := by
    rw [hstored.frame out (.inl (Nat.lt_succ_self out)), Mem.store_byte_self]
  refine (hcrc crc' m' hrun).trans ?_
  rw [Mem.bytes, Mem.bytes, bytesAt_succ, foldl_cons, hc]

theorem copyMatch_ends (dist n out crc : Nat) :
    (copyMatch table dist n out crc).Ends m out (out + n) fun crc' m' =>
      crc' = (m'.bytes out n).foldl (crcStep table) crc := by
  induction n generalizing out crc m with
  | zero => exact .pure rfl
  | succ n ih =>
    exact .bind_of_ok (run_load _ _ _ _) (.refl _ _ _) (ends_crc_store (ih _ _))

theorem copyRaw_ends (inp : Nat → UInt8) (n ptr out crc : Nat) :
    (copyRaw table inp n ptr out crc).Ends m out (out + n) fun crc' m' =>
      crc' = (m'.bytes out n).foldl (crcStep table) crc := by
  induction n generalizing ptr out crc m with
  | zero => exact .pure rfl
  | succ n ih => exact ends_crc_store (ih _ _ _)

end

/-- From `out` to `out'` the memory has bytes that take the checksum from `crc` to `crc'`. -/
structure Summed (table : Nat → Nat) (m : Mem) (out crc out' crc' : Nat) : Prop where
  le : out ≤ out'
  crc : crc' = (m.bytes out (out' - out)).foldl (crcStep table) crc

section
variable {table : Nat → Nat} {m : Mem} {out crc out₁ crc₁ out' crc' : Nat}

theorem Summed.refl (table : Nat → Nat) (m : Mem) (out crc : Nat) :
    Summed table m out crc out crc := ⟨le_rfl, by rw [Nat.sub_self]; rfl⟩

theorem Summed.trans (h : Summed table m out crc out₁ crc₁)
    (h' : Summed table m out₁ crc₁ out' crc') : Summed table m out crc out' crc' := by
  have hle := h.le
  have hle' := h'.le
  refine ⟨le_trans hle hle', ?_⟩
  rw [(by omega : out' - out = (out₁ - out) + (out' - out₁)), Mem.bytes_append, foldl_append,
    ← h.crc, (by omega : out + (out₁ - out) = out₁), h'.crc]

/-- What is stored from `out₁` on leaves the bytes before it. -/
theorem Summed.stored {m' hi} (h : Summed table m out crc out₁ crc₁)
    (hstored : Stored m m' out₁ hi) : Summed table m' out crc out₁ crc₁ := by
  have hle := h.le
  exact ⟨hle, by rw [h.crc, hstored.bytes (.inl (by omega))]⟩

end

/-- Where the loop of `huff_block` can end: further on in the output, with its checksum and with a
buffer of the slice. -/
structure HuffSpec (inp : Nat → UInt8) (start stop : Nat) (st : GzipDecState) (m : Mem) (out crc : Nat)
    (b : BitBuf) (out' crc' : Nat) : Prop where
  sound : b.Sound inp start stop
  le_end : out' ≤ st.st.outEnd
  sums : Summed st.crcTable m out crc out' crc'

/-- What the loop of `huff_block` returns. -/
def HuffEnd.Spec (inp : Nat → UInt8) (start stop : Nat) (st : GzipDecState) (m : Mem) (out crc : Nat) :
    HuffEnd → Prop
  | .err => True
  | .interrupted s b out' crc' => s ≠ .err ∧ HuffSpec inp start stop st m out crc b out' crc'
  | .ended b out' crc' => HuffSpec inp start stop st m out crc b out' crc'

/-- Output that goes on behind other output. -/
theorem Summed.ends {x : Exec HuffEnd} {m out crc out₁ crc₁ hi}
    (h : x.Ends m out₁ hi fun e m' => e.Spec inp start stop st m' out₁ crc₁)
    (hs : Summed st.crcTable m out crc out₁ crc₁) :
    x.Ends m out hi fun e m' => e.Spec inp start stop st m' out crc := by
  obtain ⟨hstored, h⟩ := h
  refine ⟨hstored.mono hs.le le_rfl, fun e m' he => ?_⟩
  rw [he] at hstored
  have hs := hs.stored hstored
  have h := h e m' he
  cases e with
  | err => trivial
  | interrupted s b out' crc' => exact ⟨h.1, h.2.sound, h.2.le_end, hs.trans h.2.sums⟩
  | ended b out' crc' => exact ⟨h.sound, h.le_end, hs.trans h.sums⟩

theorem huffLoop_ends (hb : st.Bases) (fuel : Nat) {out} (crc : Nat)
    (h : b.Sound inp start stop) (hout : out ≤ st.st.outEnd) (m : Mem) :
    (huffLoop unaligned inp start stop st fuel b out crc).Ends m out st.st.outEnd
      fun e m' => e.Spec inp start stop st m' out crc := by
  induction fuel generalizing b out crc m with
  | zero => exact .fault _
  | succ fuel ih =>
    have hhere : HuffSpec inp start stop st m out crc b out crc := ⟨h, hout, .refl _ _ _ _⟩
    refine .bind_lift fun r htok => ?_
    rcases r with _ | ⟨lit | _ | ⟨length, dist⟩, b'⟩
    · exact .pure ⟨by decide, hhere⟩
    · refine .ite (fun _ => .pure ⟨by decide, hhere⟩) fun hspace => ?_
      obtain ⟨b₁, hb₁, hs₁⟩ := (readToken_sound hb h htok).1.refill unaligned
      refine .bind_of_ok rfl (.store m _ le_rfl (by omega)) ?_
      rw [hb₁, lift_ok, pure_bind]
      refine Summed.ends (ih _ hs₁ (by omega : out + 1 ≤ st.st.outEnd) _) ⟨Nat.le_succ _, ?_⟩
      rw [Nat.add_sub_cancel_left, Mem.bytes, bytesAt_succ, bytesAt_zero, foldl_cons,
        Mem.store_byte_self, foldl_nil]
    · exact .pure ⟨(readToken_sound hb h htok).1, hout, .refl _ _ _ _⟩
    · obtain ⟨hs, hpos⟩ := readToken_sound hb h htok
      have hpos := hpos length dist rfl
      obtain ⟨b₁, hb₁, hs₁⟩ := hs.refill unaligned
      refine .ite (fun _ => .pure trivial) fun _ => .ite (fun _ => .pure trivial) fun _ => ?_
      generalize hlen : (if 258 ≤ length then 258 else length) = len
      have hlen : 0 < len := by
        split at hlen <;> omega
      refine .ite (fun _ => .pure ⟨by decide, hhere⟩) fun hspace => ?_
      rw [copyCount, if_neg (by omega)]
      refine ((copyMatch_ends dist len out crc).mono le_rfl (by omega)).bind
        fun crc₁ m₁ hcrc => ?_
      rw [hb₁, lift_ok, pure_bind]
      refine Summed.ends (ih crc₁ hs₁ (by omega : out + len ≤ st.st.outEnd) m₁) ⟨Nat.le_add_right _ _, ?_⟩
      rw [Nat.add_sub_cancel_left, hcrc]

/-! ## Block headers -/

theorem fillBits_sound {want : BitBuf → Nat} (hwant : ∀ b, want b ≤ 15) {fuel}
    (hfuel : 15 ≤ b.numBits + 8 * fuel) (h : b.Sound inp start stop)
    (hr : fillBits inp stop want fuel b = some b') :
    b'.Sound inp start stop ∧ want b' ≤ b'.numBits := by
  induction fuel generalizing b with
  | zero =>
    cases hr
    have := hwant b'
    exact ⟨h, by omega⟩
  | succ fuel ih =>
    rw [fillBits] at hr
    split at hr
    · rename_i hlt
      have := hwant b
      split at hr
      · cases hr
      · refine ih ?_ (h.push (by omega) (by omega)) hr
        simp only [BitBuf.push]
        omega
    · cases hr
      exact ⟨h, by omega⟩

theorem huffWithExtra_sound {dectable val v} {extras : List Nat} {bases}
    (hextra : ∀ i, extras.getD i 0 ≤ 15) (h : b.Sound inp start stop)
    (hr : huffWithExtra inp stop dectable val extras bases b = .ok (.ok (v, b'))) :
    b'.Sound inp start stop := by
  rw [huffWithExtra] at hr
  split at hr
  · cases hr
  rename_i b₁ hfill
  obtain ⟨hs₁, hlen⟩ := fillBits_sound (fun b => Nat.and_le_right) (by omega) h hfill
  dsimp only at hr
  split at hr
  · cases hr
  have hs := hs₁.skip hlen
  split at hr
  · cases hr
    exact hs
  split at hr
  · cases hr
  split at hr
  · cases hr
  rename_i b₂ hfill₂
  obtain ⟨hs₂, hle⟩ := fillBits_sound (fun _ => hextra _) (by omega) hs hfill₂
  cases hr
  exact hs₂.skip hle

theorem clengthExtra_le (i : Nat) : clengthExtra.getD i 0 ≤ 15 := by
  rcases i with _ | _ | _ | i <;> simp [clengthExtra]

theorem decodeLengths_sound {dectable lengths lengths' n fuel sym} (h : b.Sound inp start stop)
    (hr : decodeLengths inp stop dectable n fuel sym b lengths = .ok (lengths', .ok b')) :
    b'.Sound inp start stop := by
  induction fuel generalizing sym b lengths with
  | zero =>
    cases hr
    exact h
  | succ fuel ih =>
    rw [decodeLengths] at hr
    split at hr
    · cases hr
      exact h
    obtain ⟨_ | ⟨code, b₁⟩, hcode, hr⟩ := except_bind_eq_ok hr
    · cases hr
    have hs := huffWithExtra_sound clengthExtra_le h hcode
    dsimp only at hr
    repeat' split at hr
    all_goals first | exact ih hs hr | cases hr

theorem readCodeLengths_sound {n i lengths lengths'} (h : b.Sound inp start stop)
    (hr : readCodeLengths unaligned inp start stop n i b lengths = .ok (some (b', lengths'))) :
    b'.Sound inp start stop := by
  induction n generalizing i b lengths with
  | zero =>
    cases hr
    exact h
  | succ n ih =>
    obtain ⟨b₁, hb₁, hs⟩ := h.refill unaligned
    rw [readCodeLengths, hb₁] at hr
    dsimp only [bind, Except.bind] at hr
    split at hr
    · cases hr
    · exact ih (hs.skip (by omega)) hr

/-- Only tables and code lengths, and whether the block is the last, are different. -/
structure GzipDecState.Alike (st st' : GzipDecState) : Prop where
  decode : st'.decode = st.decode
  client : st'.st = st.st
  crcTable : st'.crcTable = st.crcTable
  crc : st'.crc = st.crc
  isize : st'.isize = st.isize
  skipBits : st'.skipBits = st.skipBits
  litBase : st'.litBase = st.litBase
  distBase : st'.distBase = st.distBase

theorem buildTables_alike {st'} (h : buildTables st = .ok st') : st.Alike st' := by
  obtain ⟨_, -, h⟩ := except_bind_eq_ok h
  obtain ⟨_, -, h⟩ := except_bind_eq_ok h
  obtain ⟨_, -, h⟩ := except_bind_eq_ok h
  obtain ⟨_, -, h⟩ := except_bind_eq_ok h
  cases h
  exact ⟨rfl, rfl, rfl, rfl, rfl, rfl, rfl, rfl⟩

theorem readTables_sound {st' hlit hdist lengths2 r} (h : b.Sound inp start stop)
    (hr : readTables inp stop st hlit hdist lengths2 b = .ok (r, st')) :
    st.Alike st' ∧ ∀ b', r = .inr b' → b'.Sound inp start stop := by
  obtain ⟨_, -, hr⟩ := except_bind_eq_ok hr
  obtain ⟨_, -, hr⟩ := except_bind_eq_ok hr
  obtain ⟨⟨litLengths, res⟩, hlit, hr⟩ := except_bind_eq_ok hr
  cases res with
  | error e =>
    cases hr
    exact ⟨⟨rfl, rfl, rfl, rfl, rfl, rfl, rfl, rfl⟩, fun _ h => by cases h⟩
  | ok b₁ =>
    have hs₁ := decodeLengths_sound h hlit
    obtain ⟨⟨distLengths, res⟩, hdist, hr⟩ := except_bind_eq_ok hr
    cases res with
    | error e =>
      cases hr
      exact ⟨⟨rfl, rfl, rfl, rfl, rfl, rfl, rfl, rfl⟩, fun _ h => by cases h⟩
    | ok b₂ =>
      obtain ⟨st₁, hbuild, hr⟩ := except_bind_eq_ok hr
      cases hr
      obtain ⟨h1, h2, h3, h4, h5, h6, h7, h8⟩ := buildTables_alike hbuild
      refine ⟨⟨h1, h2, h3, h4, h5, h6, h7, h8⟩, fun b' hb' => ?_⟩
      cases hb'
      exact decodeLengths_sound hs₁ hdist

theorem dynamicHeader_sound {st' r} (h : b.Sound inp start stop)
    (hr : dynamicHeader unaligned inp start stop st b = .ok (r, st')) :
    st.Alike st' ∧ ∀ b', r = .inr b' → b'.Sound inp start stop := by
  obtain ⟨b₁, hb₁, hs⟩ := h.refill unaligned
  rw [dynamicHeader, hb₁] at hr
  obtain ⟨_, ⟨⟩, hr⟩ := except_bind_eq_ok hr
  have hsame : st.Alike st := ⟨rfl, rfl, rfl, rfl, rfl, rfl, rfl, rfl⟩
  dsimp only at hr
  split at hr
  · cases hr
    exact ⟨hsame, fun _ h => by cases h⟩
  split at hr
  · cases hr
    exact ⟨hsame, fun _ h => by cases h⟩
  split at hr
  · cases hr
    exact ⟨hsame, fun _ h => by cases h⟩
  obtain ⟨r₁, hcodes, hr⟩ := except_bind_eq_ok hr
  match r₁, hcodes with
  | none, _ =>
    cases hr
    exact ⟨hsame, fun _ h => by cases h⟩
  | some (b₂, lengths2), hcodes =>
    exact readTables_sound (readCodeLengths_sound (hs.skip (by omega)) hcodes) hr

end

/-! ## Steps -/

/-- What every step of a client relies on. -/
structure GzipDecState.Inv (st : GzipDecState) : Prop where
  bases : st.Bases
  skip : st.skipBits ≤ 7
  isize : st.isize < 2 ^ 32
  ordered : st.st.Ordered

/-- The next call takes up where the last one was. -/
structure GzipDecState.Resumes (st st' : GzipDecState) : Prop where
  decode : st'.decode = st.decode
  out : st'.st.out = st.st.out
  crc : st'.crc = st.crc
  isize : st'.isize = st.isize

/-- Where the trailer starts. -/
def GzipDecState.trailerStart (st : GzipDecState) (start : Nat) : Nat :=
  if st.skipBits ≠ 0 then start + 1 else start

/-- The trailer is in the slice and has the checksum and the size of the output. -/
structure GzipDecState.Compared (inp : Nat → UInt8) (st : GzipDecState) (start stop : Nat) : Prop where
  size : 8 ≤ stop - st.trailerStart start
  crc : leWord inp (st.trailerStart start) 4 = st.crc ^^^ 0xffffffff
  isize : leWord inp (st.trailerStart start + 4) 4 = st.isize

/-- What a step that returns has done. -/
structure GzipDecState.Stepped (inp : Nat → UInt8) (st : GzipDecState) (start stop : Nat)
    (r : DecodeResult) (st' : GzipDecState) : Prop where
  inv : st'.Inv
  outEnd : st'.st.outEnd = st.st.outEnd
  out_le : st.st.out ≤ st'.st.out
  consumed : ∀ n, r = .consumed n → n ≤ stop - start
  resumes : ∀ s, r = .status s → s ≠ .err → st.Resumes st'
  compared : st'.decode = none → r ≠ .status .err → st.Compared inp start stop

/-- A step that returns has also left the checksum and the size of the bytes it put out, and the output
alone where it ends the stream. -/
structure GzipDecState.Did (inp : Nat → UInt8) (st : GzipDecState) (start stop : Nat) (m' : Mem)
    (r : DecodeResult) (st' : GzipDecState) : Prop extends st.Stepped inp start stop r st' where
  table : st'.crcTable = st.crcTable
  sums : Summed st.crcTable m' st.st.out st.crc st'.st.out st'.crc
  size : st'.isize = (st.isize + (st'.st.out - st.st.out)) % 2 ^ 32
  ends : st'.decode = none → st.Compared inp start stop ∧ st'.st = st.st

section
variable {unaligned : Bool} {inp : Nat → UInt8} {start stop : Nat} {st st' : GzipDecState}
  {m m' : Mem} {r : DecodeResult}

theorem GzipDecState.Inv.alike (hinv : st.Inv) (h : st.Alike st') : st'.Inv where
  bases := ⟨fun i hi => by rw [h.litBase, hinv.bases.lit i hi],
    fun i hi => by rw [h.distBase, hinv.bases.dist i hi]⟩
  skip := h.skipBits ▸ hinv.skip
  isize := h.isize ▸ hinv.isize
  ordered := h.client ▸ hinv.ordered

/-- A step without output has nothing to add up. -/
theorem GzipDecState.Did.of_stepped (hinv : st.Inv) (h : st.Stepped inp start stop r st')
    (hclient : st'.st = st.st) (htable : st'.crcTable = st.crcTable) (hcrc : st'.crc = st.crc)
    (hisize : st'.isize = st.isize) (hends : st'.decode = none → st.Compared inp start stop) :
    st.Did inp start stop m r st' := by
  refine ⟨h, htable, ?_, ?_, fun hd => ⟨hends hd, hclient⟩⟩
  · rw [hclient, hcrc]
    exact .refl _ _ _ _
  · rw [hisize, hclient, Nat.sub_self, add_zero, Nat.mod_eq_of_lt hinv.isize]

/-- A step that changes nothing but tables, and fails or asks for more. -/
theorem GzipDecState.Did.status (hinv : st.Inv) (hrun : st.decode ≠ none) (h : st.Alike st')
    (s : DecodeStatus) : st.Did inp start stop m (.status s) st' := by
  refine .of_stepped hinv ⟨hinv.alike h, by rw [h.client], by rw [h.client], (fun n hn => by cases hn),
    fun s _ _ => ⟨h.decode, by rw [h.client], h.crc, h.isize⟩, fun hd _ => absurd (h.decode ▸ hd) hrun⟩
    h.client h.crcTable h.crc h.isize fun hd => absurd (h.decode ▸ hd) hrun

theorem GzipDecState.Alike.refl (st : GzipDecState) : st.Alike st :=
  ⟨rfl, rfl, rfl, rfl, rfl, rfl, rfl, rfl⟩

theorem GzipDecState.Alike.trans {st₁ : GzipDecState} (h : st.Alike st₁) (h' : st₁.Alike st') :
    st.Alike st' := by
  cases h
  cases h'
  constructor <;> simp_all only

/-- A header that was read: tables and the next step are new. -/
theorem GzipDecState.Did.header (hinv : st.Inv) (h : st.Alike st') {n skipBits}
    (hn : n ≤ stop - start) (hskip : skipBits ≤ 7) (s : Step) :
    st.Did inp start stop m (.consumed n)
      { st' with decode := some s, skipBits := skipBits } := by
  have hinv' := hinv.alike h
  refine .of_stepped hinv ⟨⟨⟨hinv'.bases.lit, hinv'.bases.dist⟩, hskip, hinv'.isize, hinv'.ordered⟩,
    by rw [← h.client], le_of_eq (by rw [← h.client]), fun k hk => ?_, (fun s hs => by cases hs),
    (fun hd => by cases hd)⟩ h.client h.crcTable h.crc h.isize (fun hd => by cases hd)
  cases hk
  exact hn

theorem fixedTables_alike (h : fixedTables st = .ok st') : st.Alike st' := by
  unfold fixedTables at h
  dsimp only at h
  split at h
  · cases h
    exact ⟨rfl, rfl, rfl, rfl, rfl, rfl, rfl, rfl⟩
  · cases h

theorem blockStart_did (hinv : st.Inv) (hdec : st.decode ≠ none)
    (h : blockStart unaligned inp start stop st = .ok (r, st')) :
    st.Did inp start stop m r st' := by
  unfold blockStart at h
  dsimp only at h
  split at h
  · cases h
    exact .status hinv hdec (.refl st) _
  have hsound : (startBits inp start stop st.skipBits).Sound inp start stop :=
    startBits_sound (by omega) hinv.skip
  generalize startBits inp start stop st.skipBits = b at h hsound
  split at h
  · cases h
    exact .status hinv hdec (.refl st) _
  have hskip := hsound.skip (by omega : 3 ≤ b.numBits)
  have hlast {l : Bool} : st.Alike { st with lastBlock := l } := ⟨rfl, rfl, rfl, rfl, rfl, rfl, rfl, rfl⟩
  split at h
  · -- a stored block starts at the next byte
    cases h
    refine .header hinv (hlast (l := b.bits &&& 7 &&& 1 ≠ 0)) ?_ (Nat.zero_le _) .rawBlock
    have := hskip.consumed_add
    omega
  split at h
  · cases h
    exact .status hinv hdec hlast _
  split at h
  · obtain ⟨⟨r₁, st₁⟩, hdyn, h⟩ := except_bind_eq_ok h
    obtain ⟨halike, hs⟩ := dynamicHeader_sound hskip hdyn
    cases r₁ with
    | inl s =>
      cases h
      exact .status hinv hdec (hlast.trans halike) _
    | inr b₁ =>
      cases h
      exact .header hinv (hlast.trans halike) (hs b₁ rfl).consumed_le (by omega) .huffBlock
  · obtain ⟨st₁, hfixed, h⟩ := except_bind_eq_ok h
    cases h
    exact .header hinv (hlast.trans (fixedTables_alike hfixed)) hskip.consumed_le (by omega) .huffBlock

/-- Output up to `out` and the bits behind it. -/
theorem GzipDecState.Inv.finish (hinv : st.Inv) {b out crc}
    (hle : st.st.out ≤ out) (hend : out ≤ st.st.outEnd) : (st.finish b out crc).Inv where
  bases := ⟨hinv.bases.lit, hinv.bases.dist⟩
  skip := by
    simp only [GzipDecState.finish]
    omega
  isize := Nat.mod_lt _ (by decide)
  ordered := by
    have := hinv.ordered.window
    refine ⟨?_, hend⟩
    simp only [GzipDecState.finish]
    split <;> omega

theorem huffBlock_ends (hinv : st.Inv) (hdec : st.decode ≠ none) :
    (huffBlock unaligned inp start stop st).Ends m st.st.out st.st.outEnd
      fun r m' => st.Did inp start stop m' r.1 r.2 := by
  refine .ite (fun _ => .pure (.status hinv hdec (.refl st) _)) fun h4 => ?_
  refine (huffLoop_ends hinv.bases _ st.crc (startBits_sound (by omega) hinv.skip)
    hinv.ordered.space m).bind fun e m' hspec => ?_
  cases e with
  | err => exact .pure (.status hinv hdec (.refl st) _)
  | interrupted s b out crc =>
    obtain ⟨hs, hsound, hend, hsums⟩ := hspec
    have hle := hsums.le
    refine .pure ⟨⟨hinv.finish hle hend, rfl, hle, fun n hn => ?_, fun s' hs' hne => ?_,
      fun hd => absurd hd hdec⟩, rfl, hsums, rfl, fun hd => absurd hd hdec⟩
    · split at hn
      · cases hn
        exact hsound.consumed_le
      · cases hn
    · -- without output there is nothing new
      split at hs'
      · cases hs'
      obtain rfl : out = st.st.out := by omega
      refine ⟨rfl, rfl, ?_, ?_⟩
      · have hcrc := hsums.crc
        rw [Nat.sub_self] at hcrc
        exact hcrc
      · simp only [GzipDecState.finish, Nat.sub_self, add_zero]
        exact Nat.mod_eq_of_lt hinv.isize
  | ended b out crc =>
    obtain ⟨hsound, hend, hsums⟩ := hspec
    have hinv' : (st.finish b out crc).Inv := hinv.finish hsums.le hend
    refine .pure ⟨⟨⟨⟨hinv'.bases.lit, hinv'.bases.dist⟩, hinv'.skip, hinv'.isize, hinv'.ordered⟩, rfl,
      hsums.le, fun n hn => ?_, (fun s hs => by cases hs), (fun hd => by cases hd)⟩, rfl, hsums, rfl,
      (fun hd => by cases hd)⟩
    cases hn
    exact hsound.consumed_le

theorem rawBlock_ends (hinv : st.Inv) (hdec : st.decode ≠ none) :
    (rawBlock inp st start stop).Ends m st.st.out st.st.outEnd
      fun r m' => st.Did inp start stop m' r.1 r.2 := by
  have hspace := hinv.ordered.space
  have hwindow := hinv.ordered.window
  have hstop (s) : st.Did inp start stop m (.status s) st := .status hinv hdec (.refl st) s
  refine .ite (fun _ => .pure (hstop _)) fun _ => .ite (fun _ => .pure (hstop _)) fun _ =>
    .ite (fun _ => .pure (hstop _)) fun _ => .ite (fun _ => .pure (hstop _)) fun _ => ?_
  refine ((copyRaw_ends _ _ _ _ _).mono le_rfl (by omega)).bind fun crc m' hcrc => ?_
  refine .pure ⟨⟨⟨⟨hinv.bases.lit, hinv.bases.dist⟩, hinv.skip, Nat.mod_lt _ (by decide), ?_⟩, rfl,
    Nat.le_add_right _ _, fun n hn => ?_, (fun s hs => by cases hs), (fun hd => by cases hd)⟩, rfl,
    ⟨Nat.le_add_right _ _, ?_⟩, ?_, (fun hd => by cases hd)⟩
  · exact ⟨by dsimp only; omega, by dsimp only; omega⟩
  · cases hn
    omega
  · rw [Nat.add_sub_cancel_left, hcrc]
  · rw [Nat.add_sub_cancel_left]

theorem trailer_did (hinv : st.Inv) (hdec : st.decode ≠ none)
    (h : trailer inp st start stop = (r, st')) : st.Did inp start stop m r st' := by
  unfold trailer at h
  dsimp only at h
  split at h
  · cases h
    exact .status hinv hdec (.refl st) _
  generalize hp : (if st.skipBits ≠ 0 then start + 1 else start) = p at h
  have hp : st.trailerStart start = p := hp
  split at h
  · cases h
    exact .status hinv hdec (.refl st) _
  rename_i h8
  split at h
  · cases h
    exact .status hinv hdec (.refl st) _
  rename_i hcrc
  split at h
  · cases h
    exact .status hinv hdec (.refl st) _
  rename_i hisize
  cases h
  have hcompared : st.Compared inp start stop :=
    ⟨by rw [hp]; omega, by rw [hp]; exact not_not.mp hcrc, by rw [hp]; exact (not_not.mp hisize).symm⟩
  refine .of_stepped hinv ⟨⟨⟨hinv.bases.lit, hinv.bases.dist⟩, hinv.skip, hinv.isize, hinv.ordered⟩, rfl,
    le_rfl, fun n hn => ?_, (fun s hs => by cases hs), fun _ _ => hcompared⟩ rfl rfl rfl rfl
    fun _ => hcompared
  cases hn
  omega

/-- Every step that returns has done what it should, and whatever the input, a step stores only where
there is space. -/
theorem run_ends (hinv : st.Inv) : (st.run unaligned inp start stop).Ends m st.st.out st.st.outEnd
    fun r m' => st.Did inp start stop m' r.1 r.2 := by
  rw [GzipDecState.run]
  split
  · exact .fault _
  · rename_i hdec
    exact .lift fun r h => blockStart_did hinv (by simp [hdec]) h
  · rename_i hdec
    exact huffBlock_ends hinv (by simp [hdec])
  · rename_i hdec
    exact rawBlock_ends hinv (by simp [hdec])
  · rename_i hdec
    exact .pure (trailer_did hinv (by simp [hdec]) rfl)

theorem run_did (hinv : st.Inv) (h : (st.run unaligned inp start stop).run m = .ok (r, st') m') :
    st.Did inp start stop m' r st' := (run_ends hinv).2 (r, st') m' h

theorem reset_inv (st : GzipDecState) {c : DecompressorState} (hc : c.Ordered) :
    { st.reset with st := c }.Inv :=
  ⟨⟨st.reset_bases.lit, st.reset_bases.dist⟩, Nat.zero_le _, Nat.two_pow_pos 32, hc⟩

theorem init_eq_reset {ptr} (h : init inp st start stop = .ok (some ptr, st')) :
    ∃ st₀ : GzipDecState, st' = st₀.reset ∧ ∀ i < 256, st₀.crcTable i = crcEntry i := by
  unfold init at h
  split at h
  · cases h
  obtain ⟨content₁, -, h⟩ := except_bind_eq_ok h
  obtain ⟨content₂, -, h⟩ := except_bind_eq_ok h
  obtain ⟨content₃, -, h⟩ := except_bind_eq_ok h
  unfold initContent at h
  repeat' split at h
  all_goals cases h
  all_goals exact ⟨_, rfl, fun i hi => if_pos hi⟩

theorem reachable_inv (h : (gzipDecompressor unaligned).Reachable st) : st.Inv := by
  refine h.invariant GzipDecState.Inv ?_ ?_ ?_
  · intro inp start stop ptr st st' m m' c _ hinit hc
    obtain ⟨hinit, -⟩ := lift_eq_ok hinit
    obtain ⟨st₀, rfl, -⟩ := init_eq_reset hinit
    exact reset_inv st₀ hc
  · intro inp start stop st st' m m' r hinv hrun _
    exact (run_did hinv hrun).inv
  · intro st c hinv hc _
    exact ⟨⟨hinv.bases.lit, hinv.bases.dist⟩, hinv.skip, hinv.isize, hc⟩

/-! ## Both builds -/

section
variable {b : BitBuf} {st : GzipDecState}

theorem BitBuf.Sound.refill_eq (h : b.Sound inp start stop) :
    Inflate.refill unaligned inp start stop b = Inflate.refill false inp start stop b := by
  obtain ⟨p, hp, h4⟩ := h
  exact Inflate.refill_eq unaligned hp h4

theorem readMatch_builds (h : b.Sound inp start stop) (length : Nat) :
    readMatch unaligned inp start stop st length b = readMatch false inp start stop st length b := by
  obtain ⟨b₁, hb₁, hs⟩ := h.refill false
  rw [readMatch, readMatch, h.refill_eq, hb₁]
  refine except_bind_congr fun b₂ hb₂ => except_bind_congr fun r hr => ?_
  cases hb₂
  rcases r with _ | ⟨sym, len⟩
  · rfl
  · dsimp only
    unfold readDist
    rw [(hs.skip (decodeSym_le hr)).refill_eq]

theorem readToken_builds (hb : st.Bases) (h : b.Sound inp start stop) :
    readToken unaligned inp start stop st b = readToken false inp start stop st b := by
  refine except_bind_congr fun r hr => ?_
  rcases r with _ | ⟨lit, len⟩
  · rfl
  have hs := h.skip (decodeSym_le hr)
  refine if_congr Iff.rfl rfl (if_congr Iff.rfl (except_bind_congr fun r hr => ?_) rfl)
  rcases r with _ | ⟨length, b₁⟩
  · rfl
  · exact readMatch_builds (readLength_sound hb hs hr).1 length

theorem huffLoop_builds (hb : st.Bases) (fuel out crc : Nat) (h : b.Sound inp start stop) :
    huffLoop unaligned inp start stop st fuel b out crc =
      huffLoop false inp start stop st fuel b out crc := by
  induction fuel generalizing b out crc with
  | zero => rfl
  | succ fuel ih =>
    rw [huffLoop, huffLoop, readToken_builds hb h]
    refine bind_lift_congr fun r hr => ?_
    rcases r with _ | ⟨tok, b'⟩
    · rfl
    -- behind a token both builds go on with the same buffer
    have hs := (readToken_sound hb h hr).1
    obtain ⟨b₁, hb₁, hs₁⟩ := hs.refill false
    rcases tok with lit | _ | ⟨length, dist⟩ <;>
      simp only [hs.refill_eq, hb₁, lift_ok, Exec.pure_bind, ih _ _ hs₁]

theorem readCodeLengths_builds (n i : Nat) (h : b.Sound inp start stop) (lengths2 : Nat → Nat) :
    readCodeLengths unaligned inp start stop n i b lengths2 =
      readCodeLengths false inp start stop n i b lengths2 := by
  induction n generalizing i b lengths2 with
  | zero => rfl
  | succ n ih =>
    obtain ⟨b₁, hb₁, hs⟩ := h.refill false
    rw [readCodeLengths, readCodeLengths, h.refill_eq, hb₁]
    refine except_bind_congr fun b₂ hb₂ => ?_
    cases hb₂
    split
    · rfl
    · exact ih _ (hs.skip (by omega)) _

theorem dynamicHeader_builds (h : b.Sound inp start stop) :
    dynamicHeader unaligned inp start stop st b = dynamicHeader false inp start stop st b := by
  obtain ⟨b₁, hb₁, hs⟩ := h.refill false
  rw [dynamicHeader, dynamicHeader, h.refill_eq, hb₁]
  refine except_bind_congr fun b₂ hb₂ => ?_
  cases hb₂
  split
  · rfl
  · dsimp only
    rw [readCodeLengths_builds _ _ (hs.skip (by omega : 14 ≤ _))]

end

/-- In a reachable state both builds of a step do the same on every slice: a refill that finds the bits
before the pointer in the buffer comes to the same buffer by words as by bytes, with enough bits or
all there are, without a shift by the width of the word. -/
theorem builds_agree (h : (gzipDecompressor unaligned).Reachable st) (inp : Nat → UInt8) (start stop : Nat) :
    (∀ b p, b.Holds inp start stop p → start + 4 ≤ b.ptr → ∃ b', refill true inp start stop b = .ok b' ∧
      refill false inp start stop b = .ok b' ∧ b'.Holds inp start stop p ∧ b'.Filled stop ∧
      start + 4 ≤ b'.ptr) ∧
    huffBlock true inp start stop st = huffBlock false inp start stop st ∧
    blockStart true inp start stop st = blockStart false inp start stop st := by
  have hinv := reachable_inv h
  refine ⟨fun b p hb h4 => ?_, ?_, ?_⟩
  · obtain ⟨b', hb', hrest⟩ := refill_holds true hb h4
    exact ⟨b', hb', (refill_eq true hb h4).symm.trans hb', hrest⟩
  · unfold huffBlock
    split
    · rfl
    · dsimp only
      rw [huffLoop_builds hinv.bases _ _ _ (startBits_sound (by omega) hinv.skip)]
  · unfold blockStart
    split
    · rfl
    · have hs : (startBits inp start stop st.skipBits).Sound inp start stop :=
        startBits_sound (by omega) hinv.skip
      dsimp only
      split
      · rfl
      · rw [dynamicHeader_builds (hs.skip (by omega : 3 ≤ _))]

end

/-- A file of one stored block, with the byte `a`. -/
def storedFile (a : Nat) : UInt8 :=
  [31, 139, 8, 0, 0, 0, 0, 0, 0, 3, 1, 1, 0, 0xfe, 0xff, 97,
    0x43, 0xbe, 0xb7, 0xe8, 1, 0, 0, 0].getD a 0

/-- A decoder before `init`. -/
def blankState : GzipDecState :=
  ⟨none, ⟨0, 0, 0⟩, fun _ => 0, 0, 0, 0, false, fun _ => 0, fun _ => 0, fun _ => 0, fun _ => 0,
    ⟨fun _ => 0, fun _ => 0, fun _ => 0⟩, ⟨fun _ => 0, fun _ => 0, fun _ => 0⟩, fun _ => 0, fun _ => 0⟩

/-- A file of one fixed block, with the bytes `abababab`. -/
def fixedFile (a : Nat) : UInt8 :=
  [31, 139, 8, 0, 0, 0, 0, 0, 0, 3, 0x4b, 0x4c, 0x4a, 0x04, 0x43, 0,
    0xe8, 0x0f, 0x83, 0x52, 8, 0, 0, 0].getD a 0

theorem builds_agree_fixed : ∃ st b', (gzipDecompressor false).Reachable st ∧
    st.decode = some .huffBlock ∧
    (refill true fixedFile 10 24 ((startBits fixedFile 10 24 st.skipBits).skip 16) = .ok b' ∧
      refill false fixedFile 10 24 ((startBits fixedFile 10 24 st.skipBits).skip 16) = .ok b' ∧
      b'.Filled 24) ∧
    huffBlock true fixedFile 10 24 st = huffBlock false fixedFile 10 24 st ∧
    ((huffBlock false fixedFile 10 24 st).run ⟨fun _ => 0, []⟩).mem.bytes 0 8 =
      [97, 98, 97, 98, 97, 98, 97, 98] := by
  have h0 := @Decompressor.Reachable.init (gzipDecompressor false) fixedFile 0 24 10 blankState _
    ⟨fun _ => 0, []⟩ _ ⟨0, 0, 100⟩ rfl rfl ⟨by decide, by decide⟩
  generalize hst0 : (gzipDecompressor false).setClient _ _ = st0 at h0
  have hd : st0.decode = some .blockStart := by rw [← hst0]; rfl
  obtain ⟨⟨r, st⟩, hstart, hr⟩ := @exists_ok _ _ _ (blockStart false fixedFile 10 24 st0)
    (fun x => (x.1, x.2.decode, x.2.skipBits,
      ((huffBlock false fixedFile 10 24 x.2).run ⟨fun _ => 0, []⟩).mem.bytes 0 8))
    (.consumed 0, some .huffBlock, 3, [97, 98, 97, 98, 97, 98, 97, 98]) (by subst hst0; decide +kernel)
  simp only [Prod.mk.injEq] at hr
  obtain ⟨rfl, hdecode, hskip, hbytes⟩ := hr
  have hrun : (GzipDecState.run false fixedFile st0 10 24).run ⟨fun _ => 0, []⟩ =
      .ok (.consumed 0, st) ⟨fun _ => 0, []⟩ := by
    rw [GzipDecState.run, hd]
    exact congrArg (fun x => (Exec.lift x).run _) hstart
  have h1 := @Decompressor.Reachable.step (gzipDecompressor false) fixedFile 10 24 st0 st
    ⟨fun _ => 0, []⟩ ⟨fun _ => 0, []⟩ (.consumed 0) h0
    hrun (by decide)
  obtain ⟨hrefill, hhuff, -⟩ := builds_agree h1 fixedFile 10 24
  obtain ⟨hholds, hnum, hptr⟩ := @startBits_holds fixedFile 10 24 st.skipBits (by decide) (by omega)
  obtain ⟨b', htrue, hfalse, -, hfilled, -⟩ := hrefill _ _ (hholds.skip (by omega : 16 ≤ _)) hptr
  exact ⟨st, b', h1, hdecode, ⟨htrue, hfalse, hfilled⟩, hhuff, hbytes⟩

/-! ## The checksum of the gzip decompressor

The table lookups of `raw_block`, `huff_block` and `init` feed a CRC-32 register. Every
step of a run leaves the register of everything that was output, whichever way the step
ends, so a trailer that is accepted has the checksum and the size of the whole output. -/
open Crc Nat

/-! ## The table -/

theorem crc32Byte_eq (input poly : Nat) : crc32Byte input poly = shifts poly 8 input := by
  have hbit : ∀ x : Nat, (x >>> 1) ^^^ (if x &&& 1 ≠ 0 then poly else 0) = shift poly x := by
    intro x
    congr 1
    exact if_congr (by simp) rfl rfl
  have hfold : ∀ n, (List.range n).foldl
      (fun x _ => (x >>> 1) ^^^ (if x &&& 1 ≠ 0 then poly else 0)) input = shifts poly n input := by
    intro n
    induction n with
    | zero => rfl
    | succ n ih =>
      rw [range_succ, foldl_append, ih, foldl_cons, foldl_nil, hbit, shifts]
  exact hfold 8

/-- The first 256 words are those `init` computes. -/
def CrcTable (table : Nat → Nat) : Prop := ∀ i, i < 256 → table i = crcEntry i

theorem crcStep_eq {table} (h : CrcTable table) (crc : Nat) (c : UInt8) :
    crcStep table crc c = feedByte 0xedb88320 crc c := by
  have hlt : crc % 256 ^^^ c.toNat < 256 :=
    xor_lt_two_pow (n := 8) (mod_lt _ (by decide)) c.toNat_lt
  rw [crcStep, h _ hlt, crcEntry, crc32Byte_eq, feedByte_eq]

theorem foldl_crcStep {table} (h : CrcTable table) (crc : Nat) (bs : List UInt8) :
    bs.foldl (crcStep table) crc = register 0xedb88320 crc bs := by
  congr 1
  funext crc c
  exact crcStep_eq h crc c

theorem headerCrc_eq (inp : Nat → UInt8) (start n : Nat) :
    headerCrc inp start n = register 0xedb88320 0xffffffff (bytesAt inp start n) := by
  rw [← foldl_crcStep (fun _ _ => rfl : CrcTable crcEntry), bytesAt, foldl_map, headerCrc]

/-! ## Runs -/

section
variable {unaligned : Bool} {inp : Nat → UInt8} {start stop : Nat} {st st' : GzipDecState}
  {m m' : Mem} {r : DecodeResult}

/-- Checksum and size are those of the output. -/
structure GzipDecState.Tallies (st : GzipDecState) (output : List UInt8) : Prop where
  inv : st.Inv
  table : CrcTable st.crcTable
  crc : st.crc = register 0xedb88320 0xffffffff output
  isize : st.isize = output.length % 2 ^ 32

theorem GzipDecState.Tallies.step {output} (h : st.Tallies output)
    (hrun : (st.run unaligned inp start stop).run m = .ok (r, st') m') :
    st'.Tallies (output ++ m'.bytes st.st.out (st'.st.out - st.st.out)) := by
  have hdid := run_did h.inv hrun
  refine ⟨hdid.inv, hdid.table ▸ h.table, ?_, ?_⟩
  · rw [hdid.sums.crc, foldl_crcStep h.table, h.crc, register_append]
  · rw [hdid.size, h.isize, length_append, Mem.bytes_length, mod_add_mod]

theorem writes_tallies {output} (h : (gzipDecompressor unaligned).Writes output st) :
    st.Tallies output := by
  refine h.invariant (fun output st => GzipDecState.Tallies st output) ?_ ?_ ?_
  · intro inp start stop ptr st st' m m' c hinit hc
    obtain ⟨hinit, -⟩ := Exec.lift_eq_ok hinit
    obtain ⟨st₀, rfl, htable⟩ := init_eq_reset hinit
    exact ⟨reset_inv st₀ hc, htable, rfl, rfl⟩
  · intro inp start stop st st' m m' r output htally hrun
    exact htally.step hrun
  · intro st c output htally hc
    exact ⟨⟨⟨htally.inv.bases.lit, htally.inv.bases.dist⟩, htally.inv.skip, htally.inv.isize, hc⟩,
      htally.table, htally.crc, htally.isize⟩

/-- In every run, `crc` and `isize` are the CRC-32 register and the size of all that was output;
and where the stream ends, its trailer has the CRC-32 and the size of the output. -/
theorem writes_integrity {output : List UInt8}
    (h : (gzipDecompressor unaligned).Writes output st) :
    (st.crc = register 0xedb88320 0xffffffff output ∧ st.isize = output.length % 2 ^ 32) ∧
    ∀ inp start stop m r st' m', (st.run unaligned inp start stop).run m = .ok (r, st') m' →
      st'.decode = none → (gzipDecompressor unaligned).Writes output st' ∧
        leWord inp (st.trailerStart start) 4 = crc32 output ∧
        leWord inp (st.trailerStart start + 4) 4 = output.length % 2 ^ 32 := by
  have hsum := writes_tallies h
  refine ⟨⟨hsum.crc, hsum.isize⟩, fun inp start stop m r st' m' hrun hend => ?_⟩
  obtain ⟨hcompared, hst⟩ := (run_did hsum.inv hrun).ends hend
  have hwrites := Decompressor.Writes.step h hrun
  -- the trailer outputs nothing
  rw [(by simp [hst] : (gzipDecompressor unaligned).client st' = st.st), Nat.sub_self] at hwrites
  refine ⟨by simpa [Mem.bytes] using hwrites, ?_, ?_⟩
  · rw [hcompared.crc, hsum.crc, crc32]
  · rw [hcompared.isize, hsum.isize]

end

theorem writes_integrity_stored : ∃ st, (gzipDecompressor false).Writes [97] st ∧
    st.decode = none ∧ leWord storedFile 16 4 = crc32 [97] ∧ leWord storedFile 20 4 = 1 := by
  have h0 := @Decompressor.Writes.init (gzipDecompressor false) storedFile 0 24 10 blankState _
    ⟨fun _ => 0, []⟩ _ ⟨0, 0, 100⟩ rfl ⟨by decide, by decide⟩
  have h1 := @Decompressor.Writes.step (gzipDecompressor false) storedFile 10 24 _ _
    ⟨fun _ => 0, []⟩ _ _ _ h0 rfl
  have h2 := @Decompressor.Writes.step (gzipDecompressor false) storedFile 11 24 _ _
    ⟨fun _ => 0, []⟩ _ _ _ h1 rfl
  obtain ⟨hwrites, hcrc, hisize⟩ := (writes_integrity h2).2 storedFile 16 24 ⟨fun _ => 0, []⟩ _ _ _
    rfl rfl
  exact ⟨_, hwrites, rfl, hcrc, hisize⟩

end Rkboot.Compression.Inflate
