import Rkboot.Compression.Formats
import Rkboot.Lib.Xxh64

/-! # The content checksum

`xxh64_update` takes the content in the pieces that the blocks decode to, and `xxh64_finalize`
finds the XXH64 of all of it: a state holds the accumulators behind the whole stripes and, in its
buffer, the bytes that do not fill one. -/
namespace Rkboot.Compression.Zstd
open Lib List Nat

section

theorem rotl64_eq : rotl64 = Xxh64.rotl := rfl

theorem xxh64Mergestep_eq (state : UInt64) :
    xxh64Mergestep state = state * Xxh64.prime1 + Xxh64.prime4 := rfl

theorem xxh64Shuffle_eq (val : UInt64) : xxh64Shuffle val = Xxh64.round 0 val := by
  rw [Xxh64.round, UInt64.zero_add]
  rfl

theorem xxh64Merge_eq : xxh64Merge = Xxh64.mergeAccumulator := by
  funext state val
  rw [xxh64Merge, xxh64Shuffle_eq]
  rfl

end

namespace Xxh64State
variable (st : Xxh64State)

def accumulators : Xxh64.Accumulators := ⟨st.state0, st.state1, st.state2, st.state3⟩

/-- The state behind these bytes. -/
structure Holds (bytes : List UInt8) : Prop where
  accumulators : st.accumulators = (blocks 32 bytes).foldl .stripe (.init 0)
  buf : bytesAt st.buf 0 st.offset = blockRest 32 bytes
  len : st.len = UInt64.ofNat bytes.length
  longHash : st.longHash = decide (32 ≤ bytes.length)

theorem holds_init : (xxh64Init st).Holds [] :=
  ⟨rfl, rfl, rfl, rfl⟩

variable {st}

theorem Holds.offset_eq {bytes : List UInt8} (h : st.Holds bytes) :
    st.offset = bytes.length % 32 := by
  rw [← blockRest_length, ← h.buf, bytesAt_length]

theorem Holds.offset_lt {bytes} (h : st.Holds bytes) : st.offset < 32 := by
  rw [h.offset_eq]
  exact mod_lt _ (by decide)

variable (st)

/-! ## Updates -/

theorem stripe_accumulators (data : Nat → UInt8) (a : Nat) :
    (st.stripe data a).accumulators = st.accumulators.stripe (bytesAt data a 32) := by
  rw [Xxh64.stripe_bytesAt]
  rfl

-- a comparison of the whole records would unfold the rounds
theorem rounds_keep (a b c d : UInt64) :
    { st with state0 := a, state1 := b, state2 := c, state3 := d }.len = st.len ∧
      { st with state0 := a, state1 := b, state2 := c, state3 := d }.longHash = st.longHash :=
  ⟨rfl, rfl⟩

theorem stripe_len (data : Nat → UInt8) (a : Nat) : (st.stripe data a).len = st.len :=
  (st.rounds_keep _ _ _ _).1

theorem stripe_longHash (data : Nat → UInt8) (a : Nat) :
    (st.stripe data a).longHash = st.longHash := (st.rounds_keep _ _ _ _).2

theorem fill_accumulators (offset : Nat) (data : Nat → UInt8) (n : Nat) :
    (st.fill offset data n).accumulators = st.accumulators := rfl

/-- What was in the buffer stays in front of what is filled in. -/
theorem fill_bytes (offset : Nat) (data : Nat → UInt8) (n : Nat) :
    bytesAt (st.fill offset data n).buf 0 (offset + n) = bytesAt st.buf 0 offset ++ bytesAt data 0 n := by
  rw [bytesAt_append]
  congr 1
  · exact bytesAt_congr fun i hi => if_neg (by omega)
  · refine bytesAt_eq fun i hi => ?_
    rw [fill, zero_add, zero_add]
    dsimp only
    rw [if_pos ⟨Nat.le_add_right _ _, Nat.add_lt_add_left hi _⟩, Nat.add_sub_cancel_left]

theorem stripes_succ (unaligned : Bool) (data : Nat → UInt8) (ptr n : Nat) :
    st.stripes unaligned data ptr (n + 1) =
      if unaligned then (st.stripes unaligned data ptr n).stripe data (ptr + 32 * n)
      else
        let st := (st.stripes unaligned data ptr n).fill 0 (fun k => data (ptr + 32 * n + k)) 32
        st.stripe st.buf 0 := by
  rw [stripes, range_succ, foldl_append]
  rfl

/-- A stripe that goes through the buffer. -/
theorem copy_stripe (data : Nat → UInt8) (a : Nat) : ((st.fill 0 (fun k => data (a + k)) 32).stripe
      (st.fill 0 (fun k => data (a + k)) 32).buf 0).accumulators =
      st.accumulators.stripe (bytesAt data a 32) := by
  have hfill := st.fill_bytes 0 (fun k => data (a + k)) 32
  rw [zero_add, bytesAt_zero, nil_append] at hfill
  have hcopy : bytesAt (fun k => data (a + k)) 0 32 = bytesAt data a 32 :=
    bytesAt_eq fun i _ => by rw [zero_add]
  rw [stripe_accumulators, hfill, hcopy, fill_accumulators]

/-- Both loops take the stripes of the data. -/
theorem stripes_spec (unaligned : Bool) (data : Nat → UInt8) (ptr n : Nat) :
    (st.stripes unaligned data ptr n).accumulators =
        ((List.range n).map fun i => bytesAt data (ptr + 32 * i) 32).foldl .stripe st.accumulators ∧
      (st.stripes unaligned data ptr n).len = st.len ∧
      (st.stripes unaligned data ptr n).longHash = st.longHash := by
  induction n with
  | zero => simp [stripes]
  | succ n ih =>
    obtain ⟨hacc, hlen, hlong⟩ := ih
    rw [stripes_succ, range_succ, map_append, foldl_append, ← hacc, map_singleton,
      foldl_cons, foldl_nil]
    cases unaligned with
    | true =>
      rw [if_pos rfl, stripe_accumulators, stripe_len, stripe_longHash]
      exact ⟨rfl, hlen, hlong⟩
    | false =>
      rw [if_neg Bool.false_ne_true, copy_stripe, stripe_len, stripe_longHash]
      exact ⟨rfl, hlen, hlong⟩

/-- The stripe that the buffer is filled up to. -/
theorem fill_stripe {fillup} (hfillup : st.offset + fillup = 32) (data : Nat → UInt8) (l : UInt64) :
    ∃ st₁, (fill { st with len := l } st.offset data fillup).stripe
        (fill { st with len := l } st.offset data fillup).buf 0 = st₁ ∧
      st₁.accumulators = st.accumulators.stripe (bytesAt st.buf 0 st.offset ++ bytesAt data 0 fillup) ∧
      st₁.len = l := by
  have hfill := fill_bytes { st with len := l } st.offset data fillup
  refine ⟨_, rfl, ?_, stripe_len _ _ _⟩
  rw [stripe_accumulators, ← hfillup, hfill, fill_accumulators]
  rfl

end Xxh64State

section
variable {st : Xxh64State} {bytes : List UInt8}

/-- A piece that does not fill the buffer. -/
theorem xxh64Update_short (unaligned : Bool) (h : st.Holds bytes) (data : Nat → UInt8) {size}
    (hsize : st.offset + size < 32) :
    ∃ st', xxh64Update unaligned st data size = .ok st' ∧ st'.Holds (bytes ++ bytesAt data 0 size) := by
  obtain ⟨hblocks, hrest⟩ := blocks_append (show 0 < 32 by decide) bytes (bytesAt data 0 size)
  have hlt : (blockRest 32 bytes ++ bytesAt data 0 size).length < 32 := by
    rw [length_append, ← h.buf, bytesAt_length, bytesAt_length]
    exact hsize
  rw [blocks_of_lt hlt, append_nil] at hblocks
  rw [blockRest_of_lt hlt, ← h.buf] at hrest
  have hmod := h.offset_eq
  refine ⟨_, if_pos ⟨by omega, hsize⟩, ?_, ?_, ?_, ?_⟩
  · rw [hblocks]
    exact h.accumulators
  · rw [hrest]
    exact st.fill_bytes st.offset data size
  · rw [length_append, bytesAt_length, UInt64.ofNat_add, ← h.len]
    rfl
  · rw [length_append, bytesAt_length]
    refine h.longHash.trans (decide_eq_decide.mpr ?_)
    omega

/-- A piece that fills it. -/
theorem xxh64Update_long (unaligned : Bool) (h : st.Holds bytes) (data : Nat → UInt8) {size}
    (hsize : 32 ≤ st.offset + size) :
    ∃ st', xxh64Update unaligned st data size = .ok st' ∧ st'.Holds (bytes ++ bytesAt data 0 size) := by
  have hoffset := h.offset_lt
  obtain ⟨fillup, hfillup⟩ := Nat.exists_eq_add_of_le hoffset.le
  obtain ⟨size', rfl⟩ : ∃ size', size = fillup + size' := ⟨size - fillup, by omega⟩
  -- the first stripe is the buffer with the start of the piece
  have hlength : (bytesAt st.buf 0 st.offset ++ bytesAt data 0 fillup).length = 32 := by
    rw [length_append, bytesAt_length, bytesAt_length, ← hfillup]
  have hbytes : blockRest 32 bytes ++ bytesAt data 0 (fillup + size') =
      (bytesAt st.buf 0 st.offset ++ bytesAt data 0 fillup) ++ bytesAt data fillup size' := by
    rw [← h.buf, bytesAt_append, ← append_assoc, zero_add]
  obtain ⟨hblocks, hrest⟩ := blocks_append (show 0 < 32 by decide) bytes
    (bytesAt data 0 (fillup + size'))
  rw [hbytes, blocks_append_block (by decide) hlength, blocks_bytesAt] at hblocks
  rw [hbytes, blockRest_append_block (by decide) hlength, blockRest_bytesAt] at hrest
  unfold xxh64Update
  dsimp only
  rw [if_neg (by omega), show 32 - st.offset = fillup by omega, if_neg (by omega),
    Nat.add_sub_cancel_left, Nat.add_sub_add_left, ← mod_def]
  obtain ⟨st₁, hst₁, hstripe, hlen₁⟩ := st.fill_stripe hfillup.symm data
    (st.len + UInt64.ofNat (fillup + size'))
  rw [hst₁]
  obtain ⟨hacc, hlen, hlong⟩ := Xxh64State.stripes_spec { st₁ with longHash := true } unaligned data
    fillup (size' / 32)
  generalize Xxh64State.stripes unaligned data fillup (size' / 32) _ = st₂ at hacc hlen hlong ⊢
  refine ⟨_, rfl, ?_, ?_, ?_, ?_⟩
  · rw [hblocks, foldl_append, ← h.accumulators, foldl_cons]
    rw [← hstripe]
    exact hacc
  · have hfill := st₂.fill_bytes 0 (fun k => data (fillup + 32 * (size' / 32) + k)) (size' % 32)
    rw [zero_add, bytesAt_zero, nil_append] at hfill
    rw [hrest]
    refine hfill.trans (bytesAt_eq fun i _ => ?_)
    rw [zero_add]
  · rw [length_append, bytesAt_length, UInt64.ofNat_add, ← h.len]
    exact hlen.trans hlen₁
  · rw [length_append, bytesAt_length]
    have hmod := h.offset_eq
    exact hlong.trans (decide_eq_true (by omega)).symm

theorem xxh64Update_holds (unaligned : Bool) (h : st.Holds bytes) (data : Nat → UInt8) (size : Nat) :
    ∃ st', xxh64Update unaligned st data size = .ok st' ∧ st'.Holds (bytes ++ bytesAt data 0 size) := by
  rcases lt_or_ge (st.offset + size) 32 with hlt | hge
  · exact xxh64Update_short unaligned h data hlt
  · exact xxh64Update_long unaligned h data hge

end

/-! ## The hash -/

section
variable {st : Xxh64State} {bytes : List UInt8}

/-- Where the bytes behind the last stripe start from. -/
theorem Xxh64State.Holds.merged (h : st.Holds bytes) : (if st.longHash then
      [st.state0, st.state1, st.state2, st.state3].foldl xxh64Merge (rotl64 st.state0 1 +
        rotl64 st.state1 7 + rotl64 st.state2 12 + rotl64 st.state3 18) else xxh64Prime4) =
      if bytes.length < 32 then 0 + Xxh64.prime5
      else ((blocks 32 bytes).foldl Xxh64.Accumulators.stripe (.init 0)).converge := by
  rw [h.longHash, ← h.accumulators, xxh64Merge_eq, UInt64.zero_add]
  by_cases hlong : 32 ≤ bytes.length
  · rw [decide_eq_true hlong, if_pos rfl, if_neg (not_lt.mpr hlong)]
    rfl
  · rw [decide_eq_false hlong, if_neg Bool.false_ne_true, if_pos (not_le.mp hlong)]
    rfl

/-- The loop over words of eight bytes. -/
theorem singleRounds_eq (buf : Nat → UInt8) (n : Nat) (hash : UInt64) :
    (List.range (n / 8)).foldl (fun hash i =>
        xxh64Mergestep (rotl64 (hash ^^^ xxh64Shuffle (ldle64 buf (8 * i))) 27)) hash =
      (blocks 8 (bytesAt buf 0 n)).foldl Xxh64.consume8 hash := by
  rw [blocks_bytesAt, foldl_map]
  refine foldl_ext _ _ _ fun acc i _ => ?_
  rw [Xxh64.consume8, Xxh64.lane_bytesAt, xxh64Shuffle_eq, zero_add, xxh64Mergestep_eq, rotl64_eq,
    ldle64]

theorem offset_bits : ∀ n < 32, (n &&& 4 ≠ 0 ↔ 4 ≤ n % 8) ∧ n &&& 3 = n % 4 := by decide

/-- The words of eight and four bytes and the single bytes. -/
theorem consume_eq (buf : Nat → UInt8) {n} (hn : n < 32) (hash : UInt64) :
    Xxh64.consume hash (bytesAt buf 0 n) =
      let hash := (blocks 8 (bytesAt buf 0 n)).foldl Xxh64.consume8 hash
      let ptr := 8 * (n / 8)
      let word := UInt64.ofNat (leWord buf ptr 4)
      if n &&& 4 ≠ 0 then
        (bytesAt buf (ptr + 4) (n &&& 3)).foldl xxh64Byte
          (rotl64 (hash ^^^ word * xxh64Prime0) 23 * xxh64Prime1 + xxh64Prime2)
      else (bytesAt buf ptr (n &&& 3)).foldl xxh64Byte hash := by
  obtain ⟨hword, hbytes⟩ := offset_bits n hn
  rw [Xxh64.consume, blockRest_bytesAt, bytesAt_length, zero_add, hbytes]
  by_cases h4 : 4 ≤ n % 8
  · rw [if_pos h4, if_pos (hword.mpr h4), bytesAt_drop buf h4, bytesAt_take buf h4,
      show n % 8 - 4 = n % 4 by omega, Xxh64.consume4, Xxh64.lane_bytesAt]
    rfl
  · rw [if_neg h4, if_neg (mt hword.mp h4), show n % 8 = n % 4 by omega]
    rfl

theorem Xxh64State.Holds.finalize (h : st.Holds bytes) :
    xxh64Finalize st = .ok (Xxh64.hash 0 bytes) := by
  have hoffset := h.offset_lt
  unfold xxh64Finalize
  rw [h.merged, h.len, shiftRight_eq_div_pow, if_neg (by omega), singleRounds_eq, Xxh64.hash, ← h.buf,
    consume_eq st.buf hoffset]
  dsimp only
  split <;> rfl

end

/-- The content in pieces, from a state that `xxh64_init` has prepared. -/
def xxh64Pieces (unaligned : Bool) (st : Xxh64State) (pieces : List ((Nat → UInt8) × Nat)) :
    Except Fault Xxh64State :=
  pieces.foldlM (fun st piece => xxh64Update unaligned st piece.1 piece.2) (xxh64Init st)

theorem xxh64Pieces_holds (unaligned : Bool) (st : Xxh64State) (pieces : List ((Nat → UInt8) × Nat)) :
    ∃ st', xxh64Pieces unaligned st pieces = .ok st' ∧
      st'.Holds (pieces.map fun piece => bytesAt piece.1 0 piece.2).flatten := by
  suffices h : ∀ bytes st, Xxh64State.Holds st bytes → ∃ st',
      pieces.foldlM (fun st piece => xxh64Update unaligned st piece.1 piece.2) st = .ok st' ∧
      st'.Holds (bytes ++ (pieces.map fun piece => bytesAt piece.1 0 piece.2).flatten) from
    h [] (xxh64Init st) st.holds_init
  induction pieces with
  | nil => exact fun bytes st h => ⟨st, rfl, by simpa using h⟩
  | cons piece pieces ih =>
    intro bytes st h
    obtain ⟨st₁, hupdate, h₁⟩ := xxh64Update_holds unaligned h piece.1 piece.2
    obtain ⟨st₂, hrest, h₂⟩ := ih _ st₁ h₁
    refine ⟨st₂, ?_, ?_⟩
    · rw [foldlM_cons, hupdate]
      exact hrest
    · rwa [map_cons, flatten_cons, ← append_assoc]

/-- However the content is cut, no assertion fails, the buffer never fills up, and the hash is the XXH64
of all of it. -/
theorem xxh64_streaming (unaligned : Bool) (st : Xxh64State) (pieces : List ((Nat → UInt8) × Nat)) :
    ∃ st', xxh64Pieces unaligned st pieces = .ok st' ∧ st'.offset < 32 ∧
      xxh64Finalize st' =
        .ok (Xxh64.hash 0 (pieces.map fun piece => bytesAt piece.1 0 piece.2).flatten) := by
  obtain ⟨st', hrun, h⟩ := xxh64Pieces_holds unaligned st pieces
  exact ⟨st', hrun, h.offset_lt, h.finalize⟩

/-! ## Runs -/

section
variable {unaligned : Bool} {inp : Nat → UInt8} {start stop : Nat} {st st' : ZstdDecState}
  {m m' : Mem} {r : DecodeResult} {output : List UInt8}

/-- The checksum of a frame that has one is that of the output. -/
def ZstdDecState.Sums (st : ZstdDecState) (output : List UInt8) : Prop :=
  st.haveContentChecksum = true → st.xxh64.Holds output

/-- What a step adds to the output it adds to the checksum. -/
def ZstdDecState.Adds (st st' : ZstdDecState) (m' : Mem) : Prop :=
  ∀ output, st.Sums output → st'.Sums (output ++ m'.bytes st.st.out (st'.st.out - st.st.out))

theorem ZstdDecState.Adds.same (tables : DecTables) (decode : Option Step) :
    st.Adds { st with tables := tables, decode := decode } m' := by
  intro output h hsum
  simpa [Mem.bytes] using h hsum

/-- Behind every block of output the checksum is brought up to it. -/
theorem advance_adds {x : Exec Unit} {last n k} (h : (do
      x
      let st ← st.advance unaligned last n
      pure (DecodeResult.consumed k, st)).run m = .ok (r, st') m') : st.Adds st' m' := by
  obtain ⟨_, m₁, -, h⟩ := Exec.bind_eq_ok h
  obtain ⟨st₁, m₂, hadv, h⟩ := Exec.bind_eq_ok h
  cases h
  obtain ⟨sum, m₂, hsum, h⟩ := Exec.bind_eq_ok hadv
  cases h
  intro output hold (hc : st.haveContentChecksum = true)
  unfold ZstdDecState.checksum at hsum
  rw [if_pos hc] at hsum
  obtain ⟨data, m₂, hview, hsum⟩ := Exec.bind_eq_ok hsum
  cases hview
  obtain ⟨sum', hsum', hholds⟩ := xxh64Update_holds unaligned (hold hc) _ n
  rw [hsum'] at hsum
  cases hsum
  rw [ZstdDecState.behind, Nat.add_sub_cancel_left]
  simpa [Mem.bytes, bytesAt] using hholds

theorem decodeBlock_adds (h : (decodeBlock unaligned inp st start stop).run m = .ok (r, st') m') :
    st.Adds st' m' := by
  unfold decodeBlock rawBlock rleBlock compressedBlock at h
  dsimp only at h
  -- a block that fails or asks for more leaves everything but the tables
  split_ifs at h <;> try (cases h; exact .same _ _)
  · exact advance_adds h
  · exact advance_adds h
  · obtain ⟨⟨s | k, tables⟩, m₁, -, h⟩ := Exec.bind_eq_ok h
    · cases h
      exact .same _ _
    · exact @advance_adds unaligned { st with tables := tables } _ _ _ _ (pure ()) _ _ _ h

theorem run_adds (h : (st.run unaligned inp start stop).run m = .ok (r, st') m') : st.Adds st' m' := by
  unfold ZstdDecState.run decodeTrailer at h
  split at h
  · cases h
  · exact decodeBlock_adds h
  · obtain ⟨h, -⟩ := Exec.lift_eq_ok h
    dsimp only at h
    split_ifs at h <;> try (cases h; exact .same _ _)
    obtain ⟨hash, -, h⟩ := except_bind_eq_ok h
    split_ifs at h <;> cases h <;> exact .same _ _

theorem writes_sums (h : (zstdDecompressor unaligned).Writes output st) :
    st.st.Ordered ∧ st.Sums output := by
  refine h.invariant (fun output (st : ZstdDecState) => st.st.Ordered ∧ st.Sums output) ?_ ?_ ?_
  · intro inp start stop ptr st st' m m' c h hc
    obtain ⟨-, h⟩ := Exec.bind_assert_eq_ok h
    obtain ⟨-, h⟩ := Exec.bind_assert_eq_ok h
    cases h
    exact ⟨hc, fun _ => st.xxh64.holds_init⟩
  · intro inp start stop st st' m m' r output hs hrun
    exact ⟨(run_stepped hs.1 hrun).ordered, run_adds hrun output hs.2⟩
  · exact fun hs hc => ⟨hc, hs.2⟩

/-- In every run the checksum is the XXH64 of all that was output, and a frame that is accepted has
its lower half in the trailer. -/
theorem writes_xxh64 (h : (zstdDecompressor unaligned).Writes output st)
    (hsum : st.haveContentChecksum = true) : xxh64Finalize st.xxh64 = .ok (Xxh64.hash 0 output) ∧
    ∀ inp start stop m n st' m', (st.run unaligned inp start stop).run m = .ok (.consumed n, st') m' →
      st'.decode = none → leWord inp start 4 = (Xxh64.hash 0 output).toNat % 2 ^ 32 := by
  obtain ⟨hord, hs⟩ := writes_sums h
  have hhash := (hs hsum).finalize
  refine ⟨hhash, fun inp start stop m n st' m' hrun hend => ?_⟩
  have hcut : ¬ st.CutTrailer start stop := by
    intro hcut
    rw [run_cut unaligned inp hcut] at hrun
    cases hrun
  obtain ⟨-, hash, hfinal, heq⟩ := (run_stepped hord hrun).compared hcut hend (by simp) hsum
  rw [hhash] at hfinal
  cases hfinal
  exact heq.symm

/-- Forty times the same byte in one block and three bytes stored in another, with their checksum. -/
def summedFrame (a : Nat) : UInt8 :=
  [0x28, 0xb5, 0x2f, 0xfd, 0x24, 43, 0x42, 1, 0, 7, 0x19, 0, 0, 1, 2, 3, 0xc7, 0xc8, 0x24, 0xd6].getD a 0

theorem writes_xxh64_blocks : ∃ output st, (zstdDecompressor false).Writes output st ∧
    output = List.replicate 40 7 ++ [1, 2, 3] ∧
    leWord summedFrame 16 4 = (Xxh64.hash 0 output).toNat % 2 ^ 32 := by
  have h0 := @Decompressor.Writes.init (zstdDecompressor false) summedFrame 0 20 6 checksumState _
    ⟨fun _ => 0, []⟩ _ ⟨0, 0, 100⟩ rfl ⟨by decide, by decide⟩
  have h1 := @Decompressor.Writes.step (zstdDecompressor false) summedFrame 6 20 _ _
    ⟨fun _ => 0, []⟩ _ _ _ h0 rfl
  have h2 := @Decompressor.Writes.step (zstdDecompressor false) summedFrame 10 20 _ _
    ⟨fun _ => 7, []⟩ _ _ _ h1 rfl
  exact ⟨_, _, h2, by decide, (writes_xxh64 h2 rfl).2 summedFrame 16 20 ⟨fun _ => 0, []⟩ _ _ _ rfl rfl⟩

end

end Rkboot.Compression.Zstd
