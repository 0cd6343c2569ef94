import Rkboot.Compression.Lz4Block
import Rkboot.Lib.Machine

/-! # LZ4 frames

What a step makes of a slice of input is decided by the header of the block in
front of it (`header`) and, for a compressed block, by whether its bytes are a
valid block. From this follow the invariant of the reachable states, where
errors are final and where they are only a lack of input or space, and that
frames decode to the same bytes however they are cut into chunks. -/
namespace Rkboot.Compression.Lz4
open Lib Lz77 Lzcommon Nat

/-! ## Block headers -/

/-- What `decode_block` finds in front of a block. -/
inductive Header where
  | short
  | final
  | tooLarge
  | needData
  | needSpace
  | raw (size : Nat)
  | compressed (size : Nat)
  deriving DecidableEq, Repr

def header (inp : Nat → UInt8) (st : Lz4DecState) (start stop : Nat) : Header :=
  let size := le32 inp start &&& 0x7fffffff
  if stop - start < 4 then .short
  else if size = 0 then .final
  else if st.maxBlockSize < size then .tooLarge
  else if stop - (start + 4) < size then .needData
  else if st.st.outEnd - st.st.out < size then .needSpace
  else if le32 inp start &&& 2 ^ 31 ≠ 0 then .raw size
  else .compressed size

/-- The bytes a block of `size` bytes takes from the input. -/
def Lz4DecState.blockTotal (st : Lz4DecState) (size : Nat) : Nat :=
  size + 4 + if st.flags &&& fbchecksum ≠ 0 then 4 else 0

/-- The space a compressed block may expand to. -/
def Lz4DecState.blockSpace (st : Lz4DecState) : Nat := min (st.st.outEnd - st.st.out) st.maxBlockSize

/-- Invariant of the states a client can come to. -/
structure Lz4DecState.Inv (st : Lz4DecState) : Prop where
  ordered : st.st.Ordered
  maxBlockSize : st.maxBlockSize ≤ 2 ^ 22

theorem le32_lt (inp : Nat → UInt8) (a : Nat) : le32 inp a < 2 ^ 32 := leWord_lt inp a 4

/-- Without bit 31 the size is the whole word. -/
theorem blockSize_eq {v} (hv : v < 2 ^ 32) (h : v &&& 2 ^ 31 = 0) : v &&& 0x7fffffff = v := by
  rw [show 0x7fffffff = 2 ^ 31 - 1 from rfl, and_two_pow_sub_one_eq_mod]
  apply mod_eq_of_lt
  rw [and_two_pow, Nat.mul_eq_zero] at h
  have hbit : v.testBit 31 = false := by simpa using h
  rw [testBit_eq_decide_div_mod_eq, decide_eq_false_iff_not] at hbit
  omega

section
variable {inp : Nat → UInt8} {st : Lz4DecState} {start stop : Nat}

theorem header_size {n} (h : header inp st start stop = .raw n ∨
    header inp st start stop = .compressed n) : 0 < le32 inp start &&& 0x7fffffff ∧
      n ≤ st.maxBlockSize ∧ start + 4 + n ≤ stop ∧ n ≤ st.st.outEnd - st.st.out := by
  simp only [header] at h
  split_ifs at h <;> simp at h <;> omega

theorem header_final (h : header inp st start stop = .final) :
    le32 inp start &&& 0x7fffffff = 0 := by
  simp only [header] at h
  split_ifs at h with _ h0
  exact h0

theorem header_short (h : header inp st start stop = .short) : stop - start < 4 := by
  by_contra h4
  simp only [header, if_neg h4] at h
  split_ifs at h

/-- The block in front of the input decodes: to the tokens `ts`, from `n` bytes behind its size
field. -/
def BlockData (inp : Nat → UInt8) (st : Lz4DecState) (start stop n : Nat) (ts : List Token) : Prop :=
  (header inp st start stop = .raw n ∧ ts = lits (bytesAt inp (start + 4) n)) ∨
    (header inp st start stop = .compressed n ∧ ∃ ss final,
      ValidBlock (bytesAt inp (start + 4) n) (st.st.out - st.st.windowStart) st.blockSpace ss final ∧
      ts = blockTokens ss final)

/-- What `decode_block` does, case by case. -/
inductive BlockStep (inp : Nat → UInt8) (st : Lz4DecState) (start stop : Nat) (m : Mem) :
    DecodeResult → Lz4DecState → Mem → Prop where
  | refuse : header inp st start stop = .short ∨ header inp st start stop = .tooLarge →
      BlockStep inp st start stop m (.status .err) st m
  | final : header inp st start stop = .final →
      BlockStep inp st start stop m (.consumed 4) { st with decode := some .decodeTrailer } m
  | needData : header inp st start stop = .needData →
      BlockStep inp st start stop m (.status .needMoreData) st m
  | needSpace : header inp st start stop = .needSpace →
      BlockStep inp st start stop m (.status .needMoreSpace) st m
  | data {m' : Mem} {n : Nat} {ts : List Token} : BlockData inp st start stop n ts →
      m'.bytes st.st.windowStart (st.st.out + size ts - st.st.windowStart) =
        expand (m.bytes st.st.windowStart (st.st.out - st.st.windowStart)) ts →
      BlockStep inp st start stop m (.consumed (st.blockTotal n)) (st.advance (st.st.out + size ts)) m'
  | bad {m' : Mem} {n : Nat} : header inp st start stop = .compressed n →
      (∀ ts, ¬ BlockData inp st start stop n ts) →
      BlockStep inp st start stop m (.status .err) st m'

theorem decodeBlock_spec (hinv : st.Inv) (inp : Nat → UInt8) (start stop : Nat) (m : Mem) :
    ∃ r st' m', (decodeBlock inp st start stop).run m = .ok (r, st') m' ∧
      Stored m m' st.st.out (st.st.outEnd + 8) ∧ BlockStep inp st start stop m r st' m' := by
  obtain ⟨⟨hw, ho⟩, hmax⟩ := hinv
  obtain ⟨v, hv⟩ : ∃ v, v = le32 inp start := ⟨_, rfl⟩
  obtain ⟨n, hn⟩ : ∃ n, n = v &&& 0x7fffffff := ⟨_, rfl⟩
  unfold decodeBlock
  simp only [← hv, ← hn]
  have hh : header inp st start stop = header inp st start stop := rfl
  conv_rhs at hh => unfold header
  simp only [← hv, ← hn] at hh
  by_cases h4 : stop - start < 4
  · rw [if_pos h4] at hh ⊢
    exact ⟨_, _, m, rfl, .refl m _ _, .refuse (.inl hh)⟩
  rw [if_neg h4] at hh ⊢
  by_cases h0 : n = 0
  · rw [if_pos h0] at hh ⊢
    exact ⟨_, _, m, rfl, .refl m _ _, .final hh⟩
  rw [if_neg h0] at hh ⊢
  by_cases hbig : st.maxBlockSize < n
  · rw [if_pos hbig] at hh ⊢
    exact ⟨_, _, m, rfl, .refl m _ _, .refuse (.inr hh)⟩
  rw [if_neg hbig] at hh ⊢
  by_cases hdata : stop - (start + 4) < n
  · rw [if_pos hdata] at hh ⊢
    exact ⟨_, _, m, rfl, .refl m _ _, .needData hh⟩
  rw [if_neg hdata] at hh ⊢
  by_cases hspace : st.st.outEnd - st.st.out < n
  · rw [if_pos hspace] at hh ⊢
    exact ⟨_, _, m, rfl, .refl m _ _, .needSpace hh⟩
  rw [if_neg hspace] at hh ⊢
  unfold writeBlock
  simp only [← hn]
  by_cases hraw : v &&& 2 ^ 31 ≠ 0
  · rw [if_pos hraw] at hh ⊢
    obtain ⟨m', hm, hs, hb⟩ := literalCopy_ok inp
      (.inl rfl : Separate .input st.st.out (start + 4) n) m
    have hl : m'.bytes st.st.out n = bytesAt inp (start + 4) n :=
      List.map_congr_left fun i hi => hb i (List.mem_range.mp hi)
    have hd : BlockData inp st start stop n (lits (bytesAt inp (start + 4) n)) := .inl ⟨hh, rfl⟩
    have hsize : size (lits (bytesAt inp (start + 4) n)) = n := by simp
    have hb' := bytes_extend hw hs (bytesAt_length _ _ _) hl
    rw [← expand_lits] at hb'
    have hstep := BlockStep.data hd (by rwa [hsize])
    rw [hsize] at hstep
    refine ⟨_, _, m', ?_, hs.mono le_rfl (by omega), hstep⟩
    simp only [Exec.run_bind, hm]
    rfl
  · rw [if_neg hraw] at hh ⊢
    have hvn : n = v := hn.trans (blockSize_eq (hv ▸ le32_lt inp start) (not_not.mp hraw))
    have hlim : (if st.st.outEnd - st.st.out < st.maxBlockSize then st.st.outEnd else
        st.st.out + st.maxBlockSize) = st.st.out + st.blockSpace := by
      unfold Lz4DecState.blockSpace
      split <;> omega
    have hbs : st.blockSpace ≤ st.st.outEnd - st.st.out ∧ st.blockSpace ≤ st.maxBlockSize ∧
        n ≤ st.blockSpace := by
      unfold Lz4DecState.blockSpace
      omega
    obtain ⟨r, m', hr, hs, hd⟩ := decompressBlock_spec inp m
      (by omega : start + 4 < start + 4 + v) hw
      (by omega : _ ≤ st.st.out + st.blockSpace - st.st.out) (by omega)
    rw [show start + 4 + v - (start + 4) = n by omega, Nat.add_sub_cancel_left] at hd
    rw [hlim, Exec.run_bind_of_ok hr]
    have hs' : Stored m m' st.st.out (st.st.outEnd + 8) := hs.mono le_rfl (by omega)
    cases r with
    | none =>
      refine ⟨_, _, m', rfl, hs', .bad hh fun ts hts => ?_⟩
      rcases hts with ⟨hh', -⟩ | ⟨-, ss, final, hvalid, -⟩
      · rw [hh] at hh'; cases hh'
      · exact hd ss final hvalid
    | some o =>
      obtain ⟨ss, final, hvalid, rfl, hb⟩ := hd
      exact ⟨_, _, m', rfl, hs', .data (.inr ⟨hh, ss, final, hvalid, rfl⟩) hb⟩

theorem BlockData.size_le {n ts} (h : BlockData inp st start stop n ts) :
    size ts ≤ st.blockSpace := by
  rcases h with ⟨hh, rfl⟩ | ⟨_, ss, final, hv, rfl⟩
  · have := header_size (.inl hh)
    rw [size_lits, bytesAt_length, Lz4DecState.blockSpace]
    omega
  · exact hv.fits

theorem BlockData.header_eq {n ts} (h : BlockData inp st start stop n ts) :
    header inp st start stop = .raw n ∨ header inp st start stop = .compressed n := by
  rcases h with ⟨hh, -⟩ | ⟨hh, -⟩
  · exact .inl hh
  · exact .inr hh

/-! ## Reachable states -/

theorem Lz4DecState.Inv.advance (hinv : st.Inv) {k} (hk : k ≤ st.blockSpace) :
    (st.advance (st.st.out + k)).Inv := by
  obtain ⟨⟨hw, ho⟩, hmax⟩ := hinv
  rw [blockSpace] at hk
  refine ⟨⟨?_, ?_⟩, hmax⟩ <;> simp only [Lz4DecState.advance]
  · split <;> omega
  · omega

theorem BlockStep.inv {m m' r} {st' : Lz4DecState} (hinv : st.Inv)
    (h : BlockStep inp st start stop m r st' m') : st'.Inv := by
  cases h with
  | refuse _ | needData _ | needSpace _ | bad _ _ => exact hinv
  | final _ => exact ⟨hinv.ordered, hinv.maxBlockSize⟩
  | data hd _ => exact hinv.advance hd.size_le

theorem decodeTrailer_st (st : Lz4DecState) (start stop : Nat) :
    (decodeTrailer st start stop).2 = { st with decode := none } := by
  simp only [decodeTrailer]
  split_ifs <;> rfl

/-- What a step does. -/
def Stepped (inp : Nat → UInt8) (st : Lz4DecState) (start stop : Nat) (m : Mem) :
    Step → DecodeResult → Lz4DecState → Mem → Prop
  | .decodeBlock, r, st', m' => BlockStep inp st start stop m r st' m'
  | .decodeTrailer, r, st', m' => (r, st') = decodeTrailer st start stop ∧ m' = m

/-- A step from a running state returns and keeps its stores inside the space given. -/
theorem run_spec (hinv : st.Inv) {s} (hdec : st.decode = some s) (inp : Nat → UInt8)
    (start stop : Nat) (m : Mem) : ∃ r st' m', (st.run inp start stop).run m = .ok (r, st') m' ∧
      Stored m m' st.st.out (st.st.outEnd + 8) ∧ Stepped inp st start stop m s r st' m' := by
  unfold Lz4DecState.run
  rw [hdec]
  cases s with
  | decodeBlock => exact decodeBlock_spec hinv inp start stop m
  | decodeTrailer => exact ⟨_, _, m, rfl, .refl m _ _, rfl, rfl⟩

theorem run_inv (hinv : st.Inv) {m m' r} {st' : Lz4DecState}
    (h : (st.run inp start stop).run m = .ok (r, st') m') : st'.Inv := by
  cases hdec : st.decode with
  | none => rw [Lz4DecState.run, hdec] at h; cases h
  | some s =>
    obtain ⟨r1, st1, m1, h1, -, hs⟩ := run_spec hinv hdec inp start stop m
    rw [h1] at h
    cases h
    cases s with
    | decodeBlock => exact BlockStep.inv hinv hs
    | decodeTrailer =>
      obtain rfl := congrArg Prod.snd hs.1
      rw [decodeTrailer_st]
      exact ⟨hinv.ordered, hinv.maxBlockSize⟩

end

theorem reachable_inv {st : Lz4DecState} (h : lz4Decompressor.Reachable st) : st.Inv := by
  refine h.invariant Lz4DecState.Inv ?_ (fun hst hrun _ => run_inv hst hrun)
    (fun hst hc _ => ⟨hc, hst.maxBlockSize⟩)
  intro inp start stop ptr st st' m m' c _ hinit hc
  refine ⟨hc, ?_⟩
  obtain ⟨_, m1, _, hrest⟩ := Exec.bind_eq_ok hinit
  cases hrest
  have h7 : (inp (start + 5)).toNat >>> 4 &&& 7 ≤ 7 := and_le_right
  rw [shiftLeft_eq, show 2 ^ 22 = 256 * 2 ^ 14 from rfl]
  exact Nat.mul_le_mul_left _ (Nat.pow_le_pow_right (by decide) (by omega))

/-! ## Errors

`DECODE_ERR` should be said only of streams that are bad whatever follows. It is
also said of a size field and of a checksum that are not there yet, and of a
valid block that does not fit the space given. -/

def Lz4DecState.withSpace (st : Lz4DecState) (outEnd : Nat) : Lz4DecState :=
  { st with st := { st.st with outEnd := outEnd } }

/-- If the step fails on the slice, it fails on every longer one and with any larger space. -/
def ErrStable (inp : Nat → UInt8) (st : Lz4DecState) (start stop : Nat) : Prop :=
  ∀ m st1 m1, (st.run inp start stop).run m = .ok (.status .err, st1) m1 →
    ∀ inp' stop' outEnd', stop ≤ stop' → (∀ a, start ≤ a → a < stop → inp' a = inp a) →
      st.st.outEnd ≤ outEnd' → ∀ m', ∃ st2 m2,
        ((st.withSpace outEnd').run inp' start stop').run m' = .ok (.status .err, st2) m2

/-- The step fails only for lack of input or space. -/
def Starved (inp : Nat → UInt8) (st : Lz4DecState) (start stop : Nat) : Prop :=
  match st.decode with
  | none => False
  | some .decodeTrailer => st.flags &&& fcchecksum ≠ 0 ∧ stop - start < 4
  | some .decodeBlock =>
    match header inp st start stop with
    | .short => leWord inp start (stop - start) ≤ st.maxBlockSize
    | .compressed n => ∃ ss final, ValidBlock (bytesAt inp (start + 4) n)
        (st.st.out - st.st.windowStart) st.maxBlockSize ss final ∧
        st.st.outEnd - st.st.out < size (blockTokens ss final)
    | _ => False

theorem ValidBlock.resize {l n space space' ss final} (h : ValidBlock l n space ss final)
    (hfits : size (blockTokens ss final) ≤ space') : ValidBlock l n space' ss final :=
  ⟨h.toEncodes, h.five, h.short, hfits⟩

section
variable {inp inp' : Nat → UInt8} {st : Lz4DecState} {start stop stop' outEnd' : Nat}

theorem Lz4DecState.Inv.withSpace (hinv : st.Inv) (h : st.st.outEnd ≤ outEnd') :
    (st.withSpace outEnd').Inv :=
  ⟨⟨hinv.ordered.window, le_trans hinv.ordered.space h⟩, hinv.maxBlockSize⟩

/-- The bytes of a partial size field are a lower bound of every size it may become. -/
theorem leWord_le_size {k} (hk : k < 4) (heq : ∀ i < k, inp' (start + i) = inp (start + i)) :
    leWord inp start k ≤ le32 inp' start &&& 0x7fffffff := by
  have hmod := leWord_mod inp' start k (4 - k)
  rw [show k + (4 - k) = 4 by omega] at hmod
  rw [← leWord_congr heq, ← hmod, show 0x7fffffff = 2 ^ 31 - 1 from rfl,
    and_two_pow_sub_one_eq_mod, le32,
    ← mod_mod_of_dvd _ (pow_dvd_pow 2 (by omega : 8 * k ≤ 31))]
  exact mod_le _ _

/-- Where the step fails, read off the input and the state. -/
def Fails (inp : Nat → UInt8) (st : Lz4DecState) (start stop : Nat) : Prop :=
  match st.decode with
  | none => False
  | some .decodeTrailer => st.flags &&& fcchecksum ≠ 0 ∧ stop - start < 4
  | some .decodeBlock => header inp st start stop = .short ∨ header inp st start stop = .tooLarge ∨
      ∃ n, header inp st start stop = .compressed n ∧ ∀ ts, ¬ BlockData inp st start stop n ts

/-- A block that decodes is none of the cases of `Fails`. -/
theorem BlockData.not_fails {n ts} (hd : BlockData inp st start stop n ts) :
    ¬ (header inp st start stop = .short ∨ header inp st start stop = .tooLarge ∨
      ∃ n, header inp st start stop = .compressed n ∧ ∀ ts, ¬ BlockData inp st start stop n ts) := by
  rcases hd.header_eq with h | h <;> simp only [h, reduceCtorEq, false_or, false_and, exists_false,
    not_false_eq_true, Header.compressed.injEq, not_exists, not_and, not_forall]
  rintro k rfl
  exact ⟨_, not_not.mpr hd⟩

theorem run_err_iff (hinv : st.Inv) (inp : Nat → UInt8) (start stop : Nat) (m : Mem) :
    (∃ st1 m1, (st.run inp start stop).run m = .ok (.status .err, st1) m1) ↔
      Fails inp st start stop := by
  cases hdec : st.decode with
  | none => simp [Lz4DecState.run, Fails, hdec]
  | some s =>
    obtain ⟨r, st', m', hrun, -, hs⟩ := run_spec hinv hdec inp start stop m
    have hr : (∃ st1 m1, (st.run inp start stop).run m = .ok (.status .err, st1) m1) ↔
        r = .status .err := by
      rw [hrun]
      constructor
      · rintro ⟨st1, m1, he⟩
        cases he
        rfl
      · rintro rfl
        exact ⟨st', m', rfl⟩
    rw [hr]
    unfold Fails
    rw [hdec]
    cases s with
    | decodeTrailer =>
      obtain rfl := congrArg Prod.fst hs.1
      simp only [decodeTrailer]
      split_ifs with h1 h2 <;> simp [h1]
      · exact h2
      · omega
    | decodeBlock =>
      cases hs with
      | refuse h => rcases h with h | h <;> simp [h]
      | final h | needData h | needSpace h => simp [h]
      | data hd _ => simpa using hd.not_fails
      | bad h hn => simp only [h, reduceCtorEq, false_or, true_iff]; exact ⟨_, rfl, hn⟩

theorem errStable_iff_fails (hinv : st.Inv) :
    ErrStable inp st start stop ↔ (Fails inp st start stop → ∀ inp' stop' outEnd', stop ≤ stop' →
      (∀ a, start ≤ a → a < stop → inp' a = inp a) → st.st.outEnd ≤ outEnd' →
      Fails inp' (st.withSpace outEnd') start stop') := by
  constructor
  · intro h hf inp' stop' outEnd' hstop heq hout
    obtain ⟨st1, m1, h1⟩ := (run_err_iff hinv inp start stop ⟨fun _ => 0, []⟩).mpr hf
    exact (run_err_iff (hinv.withSpace hout) inp' start stop' _).mp
      (h _ st1 m1 h1 inp' stop' outEnd' hstop heq hout ⟨fun _ => 0, []⟩)
  · intro h m st1 m1 h1 inp' stop' outEnd' hstop heq hout m'
    exact (run_err_iff (hinv.withSpace hout) inp' start stop' m').mpr
      (h ((run_err_iff hinv inp start stop m).mp ⟨st1, m1, h1⟩) inp' stop' outEnd' hstop heq hout)

/-- A header that was read with the data it speaks of stays what it is. -/
theorem header_extend (hstop : stop ≤ stop') (heq : ∀ a, start ≤ a → a < stop → inp' a = inp a)
    (hout : st.st.outEnd ≤ outEnd') (h1 : header inp st start stop ≠ .short)
    (h2 : header inp st start stop ≠ .needData) (h3 : header inp st start stop ≠ .needSpace) :
    header inp' (st.withSpace outEnd') start stop' = header inp st start stop := by
  have h4 : ¬ stop - start < 4 := fun h => h1 (by simp [header, h])
  have hle : le32 inp' start = le32 inp start :=
    leWord_congr fun i hi => heq _ (by omega) (by omega)
  unfold header at h2 h3 ⊢
  rw [hle]
  generalize le32 inp start &&& 0x7fffffff = n at *
  rw [if_neg h4] at h2 h3 ⊢
  rw [if_neg (by omega)]
  by_cases h0 : n = 0
  · rw [if_pos h0, if_pos h0]
  rw [if_neg h0] at h2 h3 ⊢
  rw [if_neg h0]
  by_cases hbig : st.maxBlockSize < n
  · exact (if_pos hbig).trans (if_pos hbig).symm
  rw [if_neg hbig] at h2 h3
  have hd : ¬ stop - (start + 4) < n := fun h => h2 (if_pos h)
  rw [if_neg hd] at h3
  have hs : ¬ st.st.outEnd - st.st.out < n := fun h => h3 (if_pos h)
  have hs' : ¬ (st.withSpace outEnd').st.outEnd - (st.withSpace outEnd').st.out < n := by
    show ¬ outEnd' - st.st.out < n
    omega
  have hbig' : ¬ (st.withSpace outEnd').maxBlockSize < n := hbig
  rw [if_neg hbig, if_neg hd, if_neg hs, if_neg hbig', if_neg (by omega), if_neg hs']

theorem blockSpace_withSpace_le (hout : st.st.outEnd ≤ outEnd') :
    st.blockSpace ≤ (st.withSpace outEnd').blockSpace := by
  simp only [Lz4DecState.blockSpace, Lz4DecState.withSpace]
  omega

theorem bytesAt_extend {n} (heq : ∀ a, start ≤ a → a < stop → inp' a = inp a)
    (hn : start + 4 + n ≤ stop) : bytesAt inp' (start + 4) n = bytesAt inp (start + 4) n :=
  bytesAt_congr fun i hi => heq _ (by omega) (by omega)

/-- A block that decodes decodes to the same tokens from more input and with more space. -/
theorem BlockData.extend {n ts} (hd : BlockData inp st start stop n ts)
    (hstop : stop ≤ stop') (heq : ∀ a, start ≤ a → a < stop → inp' a = inp a)
    (hout : st.st.outEnd ≤ outEnd') : BlockData inp' (st.withSpace outEnd') start stop' n ts := by
  have hn := (header_size hd.header_eq).2.2.1
  have hh : header inp' (st.withSpace outEnd') start stop' = header inp st start stop := by
    apply header_extend hstop heq hout <;> rcases hd.header_eq with h | h <;> simp [h]
  unfold BlockData
  rw [hh, bytesAt_extend heq hn]
  rcases hd with h | ⟨h, ss, final, hv, rfl⟩
  · exact .inl h
  · exact .inr ⟨h, ss, final, hv.resize (hv.fits.trans (blockSpace_withSpace_le hout)), rfl⟩

/-- An error that is not for lack of something stays. -/
theorem fails_of_not_starved (hs : ¬ Starved inp st start stop) (hf : Fails inp st start stop)
    (hstop : stop ≤ stop') (heq : ∀ a, start ≤ a → a < stop → inp' a = inp a)
    (hout : st.st.outEnd ≤ outEnd') : Fails inp' (st.withSpace outEnd') start stop' := by
  unfold Fails at hf ⊢
  unfold Starved at hs
  rw [show (st.withSpace outEnd').decode = st.decode from rfl]
  cases hdec : st.decode with
  | none => rw [hdec] at hf; exact hf
  | some s =>
    rw [hdec] at hf hs
    cases s with
    | decodeTrailer => exact absurd hf hs
    | decodeBlock =>
      rcases hf with hh | hh | ⟨n, hh, hn⟩
      · -- the size is already too large, whatever its missing bytes
        have h4 := header_short hh
        simp only [hh] at hs
        by_cases h4' : stop' - start < 4
        · exact .inl (by simp [header, h4'])
        · have hle : leWord inp start (stop - start) ≤ le32 inp' start &&& 0x7fffffff :=
            leWord_le_size h4 fun i hi => heq _ (by omega) (by omega)
          refine .inr (.inl ?_)
          simp only [header]
          rw [if_neg h4', if_neg (by omega), if_pos]
          show st.maxBlockSize < _
          omega
      · refine .inr (.inl ?_)
        rw [header_extend hstop heq hout, hh] <;> simp [hh]
      · have hh' := header_extend hstop heq hout (by simp [hh]) (by simp [hh]) (by simp [hh])
        rw [hh] at hh'
        refine .inr (.inr ⟨n, hh', ?_⟩)
        rintro ts (⟨h, -⟩ | ⟨-, ss, final, hv, -⟩)
        · rw [hh'] at h; cases h
        rw [bytesAt_extend heq (header_size (.inr hh)).2.2.1] at hv
        have hmax : size (blockTokens ss final) ≤ st.maxBlockSize :=
          hv.fits.trans (min_le_right _ _)
        -- the block is valid: it must have failed for lack of space
        rw [hh] at hs
        by_cases hfits : size (blockTokens ss final) ≤ st.st.outEnd - st.st.out
        · exact hn _ (.inr ⟨hh, ss, final, hv.resize (Nat.le_min.mpr ⟨hfits, hmax⟩), rfl⟩)
        · exact hs ⟨ss, final, hv.resize hmax, by omega⟩

theorem starved_fails (h : Starved inp st start stop) : Fails inp st start stop := by
  unfold Starved at h
  unfold Fails
  cases hdec : st.decode with
  | none => rw [hdec] at h; exact h
  | some s =>
    rw [hdec] at h
    cases s with
    | decodeTrailer => exact h
    | decodeBlock =>
      cases hh : header inp st start stop with
      | short => exact .inl rfl
      | compressed n =>
        rw [hh] at h
        obtain ⟨ss, final, hv, hlt⟩ := h
        refine .inr (.inr ⟨n, rfl, ?_⟩)
        rintro ts (⟨h', -⟩ | ⟨-, ss', final', hv', -⟩)
        · rw [hh] at h'; cases h'
        obtain ⟨rfl, rfl⟩ := hv.unique hv'
        have := hv'.fits.trans (min_le_left _ _)
        omega
      | _ => rw [hh] at h; exact h.elim

/-- What was missing can be supplied. -/
theorem starved_recovers (hinv : st.Inv) (h : Starved inp st start stop) :
    ∃ inp' stop' outEnd', stop ≤ stop' ∧ (∀ a, start ≤ a → a < stop → inp' a = inp a) ∧
      st.st.outEnd ≤ outEnd' ∧ ¬ Fails inp' (st.withSpace outEnd') start stop' := by
  unfold Starved at h
  unfold Fails
  simp only [show ∀ e, (st.withSpace e).decode = st.decode from fun _ => rfl]
  cases hdec : st.decode with
  | none => rw [hdec] at h; exact h.elim
  | some s =>
    rw [hdec] at h
    cases s with
    | decodeTrailer =>
      exact ⟨inp, start + 4, st.st.outEnd, by omega, fun _ _ _ => rfl, le_rfl, by simp⟩
    | decodeBlock =>
      cases hh : header inp st start stop with
      | short =>
        -- complete the size field with zeros: the block is the end mark, or its data is missing
        rw [hh] at h
        have h4 := header_short hh
        let inp' := fun a => if a < stop then inp a else 0
        have hle : le32 inp' start = leWord inp start (stop - start) := by
          obtain ⟨k, hk⟩ : ∃ k, k = stop - start := ⟨_, rfl⟩
          rw [le32, show 4 = k + (4 - k) by omega, leWord_append, leWord_zero (a := start + k),
            zero_shiftLeft, or_zero, ← hk]
          · exact leWord_congr fun i hi => if_pos (by omega)
          · exact fun i hi => if_neg (by omega)
        have hmax := hinv.maxBlockSize
        have hsize : le32 inp' start &&& 0x7fffffff = leWord inp start (stop - start) := by
          rw [hle, show 0x7fffffff = 2 ^ 31 - 1 from rfl, and_two_pow_sub_one_eq_mod]
          exact mod_eq_of_lt (by simp only at h; omega)
        refine ⟨inp', start + 4, st.st.outEnd, by omega, fun a _ ha => if_pos ha, le_rfl, ?_⟩
        have hh' : header inp' (st.withSpace st.st.outEnd) start (start + 4) =
            if leWord inp start (stop - start) = 0 then .final else .needData := by
          simp only [header, hsize]
          have hbig : ¬ (st.withSpace st.st.outEnd).maxBlockSize <
            leWord inp start (stop - start) := not_lt.mpr h
          rw [if_neg (by omega), if_neg hbig]
          by_cases h0 : leWord inp start (stop - start) = 0
          · rw [if_pos h0, if_pos h0]
          · rw [if_neg h0, if_neg h0, if_pos (by omega)]
        rw [hh']
        split_ifs <;> simp
      | compressed n =>
        rw [hh] at h
        obtain ⟨ss, final, hv, hlt⟩ := h
        have hfits := hv.fits
        have hout : st.st.outEnd ≤ st.st.out + st.maxBlockSize := by omega
        have hd : BlockData inp (st.withSpace (st.st.out + st.maxBlockSize)) start stop n
            (blockTokens ss final) := by
          refine .inr ⟨?_, ss, final, hv.resize (Nat.le_min.mpr ⟨?_, hfits⟩), rfl⟩
          · rw [header_extend le_rfl (fun _ _ _ => rfl) hout, hh] <;> simp [hh]
          · show _ ≤ st.st.out + st.maxBlockSize - st.st.out
            omega
        exact ⟨inp, stop, _, Nat.le_refl _, fun _ _ _ => rfl, hout, hd.not_fails⟩
      | _ => rw [hh] at h; exact h.elim

/-- `DECODE_ERR` is final exactly where the step did not fail for lack of input or space. -/
theorem errStable_iff (hinv : st.Inv) :
    ErrStable inp st start stop ↔ ¬ Starved inp st start stop := by
  rw [errStable_iff_fails hinv]
  constructor
  · intro h hs
    obtain ⟨inp', stop', outEnd', hstop, heq, hout, hn⟩ := starved_recovers hinv hs
    exact hn (h (starved_fails hs) inp' stop' outEnd' hstop heq hout)
  · intro hs hf inp' stop' outEnd' hstop heq hout
    exact fails_of_not_starved hs hf hstop heq hout

end

/-! ## Chunks -/

/-- A client in the middle of a frame: the decoder, its place in the stream, the memory. -/
structure Config where
  st : Lz4DecState
  pos : Nat
  mem : Mem

/-- What a client has for a step: the stream up to `avail`, and space up to `outEnd`. -/
structure Offer where
  avail : Nat
  outEnd : Nat

def Config.answer (c : Config) (st : Lz4DecState) (m : Mem) : DecodeResult → Answer Config
  | .status .err => .err
  | .status .needMoreSpace => .more
  | .status .needMoreData => .more
  | .consumed n => .next ⟨st, c.pos + n, m⟩

/-- A step on a stream of `total` bytes. -/
def frameStep (inp : Nat → UInt8) (total : Nat) (c : Config) (o : Offer) (a : Answer Config) :
    Prop :=
  c.pos ≤ o.avail ∧ o.avail ≤ total ∧ c.st.st.out ≤ o.outEnd ∧ ∃ r st' m',
    ((c.st.withSpace o.outEnd).run inp c.pos o.avail).run c.mem = .ok (r, st') m' ∧
      a = c.answer st' m' r

/-- A step that does not fail for lack of input or space. -/
def fedStep (inp : Nat → UInt8) (total : Nat) (c : Config) (o : Offer) (a : Answer Config) : Prop :=
  frameStep inp total c o a ∧ ¬ Starved inp (c.st.withSpace o.outEnd) c.pos o.avail

def Config.Ended (c : Config) : Prop := c.st.decode = none

instance (c : Config) : Decidable c.Ended := inferInstanceAs (Decidable (_ = _))

/-- The same place in the stream, and the same output from `base` on. -/
structure SameOutput (base : Nat) (c d : Config) : Prop where
  pos : c.pos = d.pos
  out : c.st.st.out = d.st.st.out
  bytes : c.mem.bytes base (c.st.st.out - base) = d.mem.bytes base (d.st.st.out - base)

/-- Two clients that are equally far and differ in their chunks. -/
structure Alike (base : Nat) (c d : Config) : Prop extends SameOutput base c d where
  state : d.st = c.st.withSpace d.st.st.outEnd
  base_le : base ≤ c.st.st.windowStart
  window : c.st.st.windowStart ≤ c.st.st.out
  maxBlockSize : c.st.maxBlockSize ≤ 2 ^ 22

section
variable {inp : Nat → UInt8} {st : Lz4DecState} {start stop stop' outEnd outEnd' : Nat}

/-- Blocks that decode from different slices are the same block. -/
theorem BlockData.unique {n n' ts ts'} (h : BlockData inp (st.withSpace outEnd) start stop n ts)
    (h' : BlockData inp (st.withSpace outEnd') start stop' n' ts') : n = n' ∧ ts = ts' := by
  have h1 : BlockData inp (st.withSpace (max outEnd outEnd')) start (max stop stop') n ts :=
    h.extend (le_max_left ..) (fun _ _ _ => rfl) (le_max_left ..)
  have h2 : BlockData inp (st.withSpace (max outEnd outEnd')) start (max stop stop') n' ts' :=
    h'.extend (le_max_right ..) (fun _ _ _ => rfl) (le_max_right ..)
  rcases h1 with ⟨hh, rfl⟩ | ⟨hh, ss, final, hv, rfl⟩ <;>
    rcases h2 with ⟨hh', rfl⟩ | ⟨hh', ss', final', hv', rfl⟩ <;>
    rw [hh] at hh' <;> cases hh'
  · exact ⟨rfl, rfl⟩
  · obtain ⟨rfl, rfl⟩ := hv.unique hv'
    exact ⟨rfl, rfl⟩

/-- The block step goes on. -/
def Proceeds (inp : Nat → UInt8) (st : Lz4DecState) (start stop : Nat) : Prop :=
  header inp st start stop = .final ∨ ∃ n ts, BlockData inp st start stop n ts

theorem Proceeds.extend (h : Proceeds inp st start stop) (hstop : stop ≤ stop')
    (hout : st.st.outEnd ≤ outEnd') : Proceeds inp (st.withSpace outEnd') start stop' := by
  rcases h with hh | ⟨n, ts, hd⟩
  · left
    rw [header_extend hstop (fun _ _ _ => rfl) hout, hh] <;> simp [hh]
  · exact .inr ⟨n, ts, hd.extend hstop (fun _ _ _ => rfl) hout⟩

theorem Proceeds.not_fails (h : Proceeds inp st start stop) (hdec : st.decode = some .decodeBlock) :
    ¬ Fails inp st start stop := by
  unfold Fails
  rw [hdec]
  rcases h with hh | ⟨n, ts, hd⟩
  · simp [hh]
  · exact hd.not_fails

/-- No slice proceeds where another one fails for good. -/
theorem Proceeds.absurd (hdec : st.decode = some .decodeBlock)
    (h : Proceeds inp (st.withSpace outEnd) start stop)
    (hf : Fails inp (st.withSpace outEnd') start stop')
    (hs : ¬ Starved inp (st.withSpace outEnd') start stop') : False := by
  have h1 : Proceeds inp (st.withSpace (max outEnd outEnd')) start (max stop stop') :=
    h.extend (le_max_left ..) (le_max_left ..)
  have h2 := fails_of_not_starved hs hf (le_max_right stop stop') (fun _ _ _ => rfl)
    (le_max_right outEnd outEnd' : (st.withSpace outEnd').st.outEnd ≤ _)
  exact h1.not_fails hdec h2

/-- The end mark is not a block, whatever the slice. -/
theorem BlockData.not_final {n ts} (hd : BlockData inp (st.withSpace outEnd) start stop n ts) :
    header inp (st.withSpace outEnd') start stop' ≠ .final := by
  intro hh
  have hend := (header_size hd.header_eq).1
  have h0 := header_final hh
  omega

/-- What a block step answers, up to what the slice and the space were. -/
inductive BlockAnswer (inp : Nat → UInt8) (st : Lz4DecState) (start stop : Nat) (m : Mem) :
    DecodeResult → Lz4DecState → Mem → Prop where
  | more {s : DecodeStatus} {st' : Lz4DecState} {m' : Mem} : s ≠ .err →
      BlockAnswer inp st start stop m (.status s) st' m'
  | err {st' : Lz4DecState} {m' : Mem} : Fails inp st start stop →
      BlockAnswer inp st start stop m (.status .err) st' m'
  | final : header inp st start stop = .final →
      BlockAnswer inp st start stop m (.consumed 4) { st with decode := some .decodeTrailer } m
  | data {m' : Mem} {n : Nat} {ts : List Token} : BlockData inp st start stop n ts →
      m'.bytes st.st.windowStart (st.st.out + size ts - st.st.windowStart) =
        expand (m.bytes st.st.windowStart (st.st.out - st.st.windowStart)) ts →
      BlockAnswer inp st start stop m (.consumed (st.blockTotal n))
        (st.advance (st.st.out + size ts)) m'

theorem BlockStep.answer {m m' r st'} (hinv : st.Inv)
    (hrun : (st.run inp start stop).run m = .ok (r, st') m')
    (h : BlockStep inp st start stop m r st' m') : BlockAnswer inp st start stop m r st' m' := by
  cases h with
  | refuse _ | bad _ _ => exact .err ((run_err_iff hinv inp start stop m).mp ⟨_, _, hrun⟩)
  | needData _ | needSpace _ => exact .more (by simp)
  | final hh => exact .final hh
  | data hd hb => exact .data hd hb

theorem Config.answer_more (c : Config) {s} (hs : s ≠ .err) (st : Lz4DecState)
    (m : Mem) : c.answer st m (.status s) = .more := by
  cases s with
  | err => exact absurd rfl hs
  | needMoreSpace | needMoreData => rfl

theorem decodeTrailer_of_fed (hdec : st.decode = some .decodeTrailer)
    (h : ¬ Starved inp st start stop) : decodeTrailer st start stop =
      (.consumed (if st.flags &&& fcchecksum ≠ 0 then 4 else 0), { st with decode := none }) := by
  unfold Starved at h
  rw [hdec] at h
  simp only [decodeTrailer]
  split_ifs with h1 h2
  · exact absurd ⟨h1, h2⟩ h
  · rfl
  · rfl

/-- One step of two clients that are alike. -/
theorem Alike.step {base total c d o p} {a : Answer Config} {b}
    (hal : Alike base c d) (h1 : fedStep inp total c o a) (h2 : fedStep inp total d p b) :
    a.Agree (Alike base) b := by
  obtain ⟨⟨-, -, ho, r1, st1, m1, hrun1, rfl⟩, hn1⟩ := h1
  obtain ⟨⟨-, -, hp, r2, st2, m2, hrun2, rfl⟩, hn2⟩ := h2
  have hst : d.st.withSpace p.outEnd = c.st.withSpace p.outEnd := by rw [hal.state]; rfl
  rw [← hal.out] at hp
  rw [hst, ← hal.pos] at hrun2 hn2
  have hsame : c.mem.bytes base (c.st.st.out - base) = d.mem.bytes base (c.st.st.out - base) := by
    rw [hal.bytes, hal.out]
  have hinv1 : (c.st.withSpace o.outEnd).Inv := ⟨⟨hal.window, ho⟩, hal.maxBlockSize⟩
  have hinv2 : (c.st.withSpace p.outEnd).Inv := ⟨⟨hal.window, hp⟩, hal.maxBlockSize⟩
  cases hdec : c.st.decode with
  | none =>
    rw [Lz4DecState.run, show (c.st.withSpace o.outEnd).decode = none from hdec] at hrun1
    cases hrun1
  | some s =>
    obtain ⟨_, _, _, e1, hs1, hstep1⟩ := run_spec hinv1 hdec inp c.pos o.avail c.mem
    obtain ⟨_, _, _, e2, hs2, hstep2⟩ := run_spec hinv2 hdec inp c.pos p.avail d.mem
    cases e1.symm.trans hrun1
    cases e2.symm.trans hrun2
    cases s with
    | decodeTrailer =>
      obtain ⟨he1, rfl⟩ := hstep1
      obtain ⟨he2, rfl⟩ := hstep2
      have hdec1 : (c.st.withSpace o.outEnd).decode = some .decodeTrailer := hdec
      have hdec2 : (c.st.withSpace p.outEnd).decode = some .decodeTrailer := hdec
      rw [decodeTrailer_of_fed hdec1 hn1] at he1
      rw [decodeTrailer_of_fed hdec2 hn2] at he2
      cases he1
      cases he2
      exact ⟨⟨congrArg (· + _) hal.pos, rfl, hsame⟩, rfl, hal.base_le, hal.window, hal.maxBlockSize⟩
    | decodeBlock =>
      replace hstep1 := BlockStep.answer hinv1 hrun1 hstep1
      replace hstep2 := BlockStep.answer hinv2 hrun2 hstep2
      cases hstep1 with
      | more hs => rw [c.answer_more hs]; exact Answer.agree_more_left _ _
      | err hf1 =>
        cases hstep2 with
        | more hs => rw [d.answer_more hs]; exact Answer.agree_more_right _ _
        | err _ => trivial
        | final hh2 => exact Proceeds.absurd hdec (.inl hh2) hf1 hn1
        | data hd2 _ => exact Proceeds.absurd hdec (.inr ⟨_, _, hd2⟩) hf1 hn1
      | final hh1 =>
        cases hstep2 with
        | more hs => rw [d.answer_more hs]; exact Answer.agree_more_right _ _
        | err hf2 => exact Proceeds.absurd hdec (.inl hh1) hf2 hn2
        | final _ => exact ⟨⟨congrArg (· + _) hal.pos, rfl, hsame⟩, rfl, hal.base_le, hal.window,
            hal.maxBlockSize⟩
        | data hd2 _ => exact absurd hh1 hd2.not_final
      | data hd1 hb1 =>
        cases hstep2 with
        | more hs => rw [d.answer_more hs]; exact Answer.agree_more_right _ _
        | err hf2 => exact Proceeds.absurd hdec (.inr ⟨_, _, hd1⟩) hf2 hn2
        | final hh2 => exact absurd hh2 hd1.not_final
        | data hd2 hb2 =>
          obtain ⟨rfl, rfl⟩ := hd1.unique hd2
          have hinv' := hinv1.advance hd1.size_le
          refine ⟨⟨congrArg (· + _) hal.pos, rfl, ?_⟩, rfl, ?_, hinv'.ordered.window,
            hal.maxBlockSize⟩
          · exact bytes_expand_eq hal.base_le hal.window hsame hs1 hs2 hb1 hb2
          · show base ≤ if _ then _ else _
            split
            · exact hal.base_le.trans (hal.window.trans (Nat.le_add_right _ _))
            · exact hal.base_le

end

/-- A frame of one stored block of one byte, and the end mark. -/
def smallFrame (a : Nat) : UInt8 :=
  [4, 34, 77, 24, 0x60, 0x40, 0x82, 1, 0, 0, 0x80, 0xaa, 0, 0, 0, 0].getD a 0

/-- The decoder behind the header of `smallFrame`. -/
def smallState : Lz4DecState := ⟨some .decodeBlock, ⟨0, 0, 100⟩, 65536, 0x60⟩

theorem smallState_reachable : lz4Decompressor.Reachable smallState :=
  @Decompressor.Reachable.init lz4Decompressor smallFrame 0 16 7 ⟨none, ⟨0, 0, 0⟩, 0, 0⟩ _
    ⟨fun _ => 0, []⟩ _ ⟨0, 0, 100⟩ (by decide) rfl ⟨by decide, by decide⟩

/-- The client behind the block of `smallFrame`, with the step it runs next. -/
def smallConfig (decode : Option Step) (pos : Nat) : Config :=
  ⟨{ smallState.advance 1 with decode := decode }, pos,
    (⟨fun _ => 0, []⟩ : Mem).memcpy smallFrame .input 0 11 8⟩

/-- The next call takes up where the last one was; there is no running checksum. -/
structure Lz4DecState.Resumes (st st' : Lz4DecState) : Prop where
  decode : st'.decode = st.decode
  out : st'.st.out = st.st.out

/-- No checksum is computed, so only a frame without one needs no comparison. -/
def Lz4DecState.Compared (st : Lz4DecState) : Prop := st.flags &&& fcchecksum = 0

/-- A trailer whose checksum is there, and skipped. -/
def Lz4DecState.SkippedTrailer (st : Lz4DecState) (start stop : Nat) : Prop :=
  st.decode = some .decodeTrailer ∧ st.flags &&& fcchecksum ≠ 0 ∧ 4 ≤ stop - start

/-- A block that decodes, with a block checksum that is not all in the slice. -/
def Lz4DecState.CutChecksum (inp : Nat → UInt8) (st : Lz4DecState) (start stop : Nat) : Prop :=
  st.decode = some .decodeBlock ∧ st.flags &&& fbchecksum ≠ 0 ∧
    ∃ n ts, BlockData inp st start stop n ts ∧ stop - start < n + 8

section
variable {inp : Nat → UInt8} {start stop : Nat} {st st' : Lz4DecState} {m m' : Mem}
  {r : DecodeResult}

/-- A step that returns was one of those `run_spec` lists. -/
theorem stepped_of_run (hinv : st.Inv) (h : (st.run inp start stop).run m = .ok (r, st') m') :
    ∃ s, st.decode = some s ∧ Stepped inp st start stop m s r st' m' := by
  cases hdec : st.decode with
  | none =>
    rw [Lz4DecState.run, hdec] at h
    cases h
  | some s =>
    obtain ⟨r₁, st₁, m₁, hrun, -, hs⟩ := run_spec hinv hdec inp start stop m
    rw [hrun] at h
    cases h
    exact ⟨s, rfl, hs⟩

theorem run_within (hinv : st.Inv) :
    (st.run inp start stop).Within st.st.out (st.st.outEnd + 8) := by
  intro m
  cases hdec : st.decode with
  | none =>
    rw [Lz4DecState.run, hdec]
    exact .refl _ _ _
  | some s =>
    obtain ⟨r, st', m', hrun, hs, -⟩ := run_spec hinv hdec inp start stop m
    rw [hrun]
    exact hs

theorem run_resumes (hinv : st.Inv) (h : (st.run inp start stop).run m = .ok (r, st') m')
    {s} (hr : r = .status s) (hs : s ≠ .err) : st.Resumes st' := by
  subst hr
  obtain ⟨step, hdec, hstep⟩ := stepped_of_run hinv h
  cases step with
  | decodeBlock =>
    cases hstep with
    | refuse _ => exact absurd rfl hs
    | needData _ | needSpace _ => exact ⟨rfl, rfl⟩
    | bad _ _ => exact absurd rfl hs
  | decodeTrailer =>
    -- the trailer only fails or succeeds
    obtain ⟨htrailer, -⟩ := hstep
    unfold decodeTrailer at htrailer
    dsimp only at htrailer
    split at htrailer
    · split at htrailer
      · cases htrailer
        exact absurd rfl hs
      · cases htrailer
    · cases htrailer

theorem run_ended (hinv : st.Inv) (h : (st.run inp start stop).run m = .ok (r, st') m')
    (hend : st'.decode = none) (hr : r ≠ .status .err) :
    st.decode = some .decodeTrailer ∧ (st.flags &&& fcchecksum ≠ 0 → 4 ≤ stop - start) := by
  obtain ⟨step, hdec, hstep⟩ := stepped_of_run hinv h
  cases step with
  | decodeBlock =>
    cases hstep with
    | refuse _ => exact absurd rfl hr
    | bad _ _ => exact absurd rfl hr
    | final _ => cases hend
    | needData _ | needSpace _ => rw [hdec] at hend; cases hend
    | data _ _ =>
      have hend : st.decode = none := hend
      rw [hdec] at hend
      cases hend
  | decodeTrailer =>
    obtain ⟨htrailer, -⟩ := hstep
    refine ⟨hdec, fun hsum => ?_⟩
    by_contra h4
    rw [decodeTrailer, if_pos hsum, if_pos (by omega)] at htrailer
    cases htrailer
    exact hr rfl

/-- A checksum that is there is consumed, and `decode` cleared. -/
theorem run_skipped (h : st.SkippedTrailer start stop) (m : Mem) :
    (st.run inp start stop).run m = .ok (.consumed 4, { st with decode := none }) m := by
  obtain ⟨hdec, hsum, h4⟩ := h
  simp only [Lz4DecState.run, hdec, decodeTrailer, if_pos hsum, if_neg (by omega : ¬ stop - start < 4),
    Exec.run_pure]

/-- More than the slice is consumed only behind a block whose checksum is cut off. -/
theorem run_consumed_le (hinv : st.Inv) (hcut : ¬ st.CutChecksum inp start stop) {n}
    (h : (st.run inp start stop).run m = .ok (.consumed n, st') m') : n ≤ stop - start := by
  obtain ⟨step, hdec, hstep⟩ := stepped_of_run hinv h
  cases step with
  | decodeBlock =>
    generalize hr : DecodeResult.consumed n = r at hstep
    cases hstep with
    | refuse _ | needData _ | needSpace _ | bad _ _ => cases hr
    | final hh =>
      cases hr
      simp only [header] at hh
      split at hh
      · cases hh
      · omega
    | @data m' k ts hd _ =>
      cases hr
      have := header_size hd.header_eq
      rw [Lz4DecState.blockTotal]
      split
      · rename_i hsum
        have : ¬ stop - start < k + 8 := fun hlt => hcut ⟨hdec, hsum, k, ts, hd, hlt⟩
        omega
      · omega
  | decodeTrailer =>
    obtain ⟨htrailer, -⟩ := hstep
    unfold decodeTrailer at htrailer
    dsimp only at htrailer
    split at htrailer
    · split at htrailer <;> cases htrailer
      omega
    · cases htrailer
      omega

theorem run_cut (hinv : st.Inv) (hcut : st.CutChecksum inp start stop) (m : Mem) :
    ∃ n st' m', (st.run inp start stop).run m = .ok (.consumed n, st') m' ∧ stop - start < n := by
  obtain ⟨hdec, hsum, n, ts, hd, hlt⟩ := hcut
  obtain ⟨r, st', m', hrun, -, hstep⟩ := run_spec hinv hdec inp start stop m
  have hhead := hd.header_eq
  cases hstep with
  | refuse hh => rcases hhead with hhead | hhead <;> rw [hhead] at hh <;> simp at hh
  | final hh | needData hh | needSpace hh =>
    rcases hhead with hhead | hhead <;> rw [hhead] at hh <;> cases hh
  | bad hh hbad =>
    rcases hhead with hhead | hhead <;> rw [hhead] at hh <;> cases hh
    exact absurd hd (hbad ts)
  | @data m' k ts' hd' _ =>
    have hk : k = n := by
      rcases hhead with hhead | hhead <;> rcases hd'.header_eq with hh | hh <;> rw [hhead] at hh <;>
        cases hh <;> rfl
    refine ⟨_, _, m', hrun, ?_⟩
    rw [Lz4DecState.blockTotal, if_pos hsum]
    omega

end
end Rkboot.Compression.Lz4
