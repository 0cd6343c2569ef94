import Rkboot.Compression.InflateSteps
import Rkboot.Compression.Lz4Frame
import Rkboot.Compression.ZstdSteps

/-! # What all decompressors promise their clients

Output stays in the space and its scratch bytes; a step that asks for more can be
called again; no step consumes more than it was given. The last two hold with
exceptions: a zstd trailer that is cut off, an LZ4 trailer with a checksum and an LZ4
block whose checksum is cut off. -/
namespace Rkboot.Compression
open Lib Lzcommon
open Lz4 (lz4Decompressor Lz4DecState)
open Inflate (gzipDecompressor GzipDecState)
open Zstd (zstdDecompressor ZstdDecState)

/-- `formats`, in the order in which a stream is probed for them. -/
def formats (unaligned : Bool) : List Decompressor :=
  [lz4Decompressor, gzipDecompressor unaligned, zstdDecompressor unaligned]

/-! ## Output -/

/-- Whatever is presented as input, a step from a state a client can come to stores only to
`[out, out_end)` and the scratch bytes behind it. -/
theorem formats_confined (unaligned : Bool) (d : Decompressor) (hd : d ∈ formats unaligned)
    (st : d.State) (hst : d.Reachable st) (inp : Nat → UInt8) (start stop : Nat) (m : Mem) :
    Stored m ((d.decode inp st start stop).run m).mem (d.client st).out
      ((d.client st).outEnd + lzcommonBlock) := by
  simp only [formats, List.mem_cons, List.not_mem_nil, or_false] at hd
  rcases hd with rfl | rfl | rfl
  · exact Lz4.run_within (Lz4.reachable_inv hst) m
  · exact (Inflate.run_ends (Inflate.reachable_inv hst)).1.mono le_rfl (Nat.le_add_right _ _)
  · exact (Zstd.run_ends (Zstd.reachable_ordered hst)).1

theorem formats_confined_small : lz4Decompressor.Reachable Lz4.smallState ∧
    Stored ⟨fun _ => 0, []⟩
      ((Lz4.smallState.run Lz4.smallFrame 7 16).run ⟨fun _ => 0, []⟩).mem 0 108 :=
  ⟨Lz4.smallState_reachable, formats_confined false lz4Decompressor (by simp [formats]) Lz4.smallState
    Lz4.smallState_reachable Lz4.smallFrame 7 16 ⟨fun _ => 0, []⟩⟩

/-- In every state a client can come to, the pointers are in order. -/
theorem formats_ordered (unaligned : Bool) (d : Decompressor) (hd : d ∈ formats unaligned)
    (st : d.State) (hst : d.Reachable st) : (d.client st).Ordered := by
  simp only [formats, List.mem_cons, List.not_mem_nil, or_false] at hd
  rcases hd with rfl | rfl | rfl
  · exact (Lz4.reachable_inv hst).ordered
  · exact (Inflate.reachable_inv hst).ordered
  · exact Zstd.reachable_ordered hst

/-- Behind a stored block, with the byte it output moved elsewhere by the client. -/
theorem formats_ordered_moved : ∃ st, (gzipDecompressor false).Reachable st ∧
    st.decode = some .trailer ∧ st.st = ⟨1000, 1001, 1200⟩ ∧ st.st.Ordered := by
  have h0 := @Decompressor.Reachable.init (gzipDecompressor false) Inflate.storedFile 0 24 10
    Inflate.blankState _ ⟨fun _ => 0, []⟩ _ ⟨0, 0, 100⟩ rfl rfl ⟨by decide, by decide⟩
  have h1 := @Decompressor.Reachable.step (gzipDecompressor false) Inflate.storedFile 10 24 _ _
    ⟨fun _ => 0, []⟩ _ _ h0 rfl (by decide)
  have h2 := @Decompressor.Reachable.step (gzipDecompressor false) Inflate.storedFile 11 24 _ _
    ⟨fun _ => 0, []⟩ _ _ h1 rfl (by decide)
  have h3 := @Decompressor.Reachable.move (gzipDecompressor false) _ ⟨1000, 1001, 1200⟩ h2
    ⟨by decide, by decide⟩ (by decide)
  exact ⟨_, h3, rfl, rfl, formats_ordered false (gzipDecompressor false) (by simp [formats]) _ h3⟩

/-! ## Input -/

section
variable (d : Decompressor)

/-- What a step returns as consumed was there. -/
def Decompressor.ConsumesGiven (inp : Nat → UInt8) (st : d.State) (start stop : Nat) : Prop :=
  ∀ m n st' m', (d.decode inp st start stop).run m = .ok (.consumed n, st') m' → n ≤ stop - start

end

/-- No step of the gzip and zstd decompressors claims more than it was given, and one of the LZ4
decompressor only behind a block with a checksum that is not all there. -/
theorem consumesGiven_iff (unaligned : Bool) :
    (∀ st, (gzipDecompressor unaligned).Reachable st → ∀ inp start stop,
      (gzipDecompressor unaligned).ConsumesGiven inp st start stop) ∧
    (∀ st, (zstdDecompressor unaligned).Reachable st → ∀ inp start stop,
      (zstdDecompressor unaligned).ConsumesGiven inp st start stop) ∧
    ∀ st, lz4Decompressor.Reachable st → ∀ inp start stop,
      lz4Decompressor.ConsumesGiven inp st start stop ↔
        ¬ Lz4DecState.CutChecksum inp st start stop := by
  refine ⟨fun st hst inp start stop m n st' m' h => ?_, fun st hst inp start stop m n st' m' h => ?_,
    fun st hst inp start stop => ⟨fun h hcut => ?_, fun hcut m n st' m' h => ?_⟩⟩
  · exact (Inflate.run_did (Inflate.reachable_inv hst) h).consumed n rfl
  · exact (Zstd.run_stepped (Zstd.reachable_ordered hst) h).consumed n rfl
  · obtain ⟨n, st', m', hrun, hlt⟩ := Lz4.run_cut (Lz4.reachable_inv hst) hcut ⟨fun _ => 0, []⟩
    have := h _ n st' m' hrun
    omega
  · exact Lz4.run_consumed_le (Lz4.reachable_inv hst) hcut h

theorem consumesGiven_iff_small : lz4Decompressor.Reachable Lz4.smallState ∧
    lz4Decompressor.ConsumesGiven Lz4.smallFrame Lz4.smallState 7 12 :=
  ⟨Lz4.smallState_reachable, ((consumesGiven_iff false).2.2 Lz4.smallState Lz4.smallState_reachable
    Lz4.smallFrame 7 12).mpr fun h => h.2.1 (by decide)⟩

/-- A frame with block checksums: one stored block of one byte, cut off behind it. -/
def cutFrame (a : Nat) : UInt8 :=
  [4, 34, 77, 24, 0x70, 0x40, 0x72, 1, 0, 0, 0x80, 0xaa].getD a 0

/-- The decoder behind the header of `cutFrame`. -/
def cutState : Lz4DecState := ⟨some .decodeBlock, ⟨0, 0, 100⟩, 65536, 0x70⟩

/-- From the five bytes of the block nine are consumed. -/
theorem cutFrame_consumes_nine : lz4Decompressor.Reachable cutState ∧
    ∃ st m, (cutState.run cutFrame 7 12).run ⟨fun _ => 0, []⟩ = .ok (.consumed 9, st) m ∧
      ¬ 9 ≤ 12 - 7 :=
  ⟨@Decompressor.Reachable.init lz4Decompressor cutFrame 0 12 7 ⟨none, ⟨0, 0, 0⟩, 0, 0⟩ _
    ⟨fun _ => 0, []⟩ _ ⟨0, 0, 100⟩ (by decide) rfl ⟨by decide, by decide⟩, _, _, rfl, by decide⟩

/-! ## Calls that ask for more -/

theorem needMore_status {r : DecodeResult} (h : r.NeedMore) : ∃ s, r = .status s ∧ s ≠ .err := by
  rcases h with rfl | rfl
  · exact ⟨_, rfl, by decide⟩
  · exact ⟨_, rfl, by decide⟩

section
variable {unaligned : Bool} {inp : Nat → UInt8} {start stop : Nat}

theorem gzip_honest {st : GzipDecState} (hst : (gzipDecompressor unaligned).Reachable st)
    (inp : Nat → UInt8) (start stop : Nat) :
    (gzipDecompressor unaligned).Honest GzipDecState.Resumes GzipDecState.Compared inp st start
      stop := by
  intro m r st' m' hrun hr
  have hstep := Inflate.run_did (Inflate.reachable_inv hst) hrun
  refine ⟨fun hmore => ?_, fun hend => hstep.compared
    (Option.not_isSome_iff_eq_none.mp (Bool.eq_false_iff.mp hend)) hr⟩
  obtain ⟨s, rfl, hs⟩ := needMore_status hmore
  exact hstep.resumes s rfl hs

theorem lz4_honest_iff {st : Lz4DecState} (hst : lz4Decompressor.Reachable st)
    (inp : Nat → UInt8) (start stop : Nat) :
    lz4Decompressor.Honest Lz4DecState.Resumes (fun _ st _ _ => st.Compared) inp st start stop ↔
      ¬ st.SkippedTrailer start stop := by
  have hinv := Lz4.reachable_inv hst
  constructor
  · intro h hskip
    exact hskip.2.1 ((h ⟨fun _ => 0, []⟩ _ _ _ (Lz4.run_skipped hskip _) (by simp)).2 rfl)
  · intro hskip m r st' m' hrun hr
    refine ⟨fun hmore => ?_, fun hend => ?_⟩
    · obtain ⟨s, rfl, hs⟩ := needMore_status hmore
      exact Lz4.run_resumes hinv hrun rfl hs
    · obtain ⟨hdec, h4⟩ :=
        Lz4.run_ended hinv hrun (Option.not_isSome_iff_eq_none.mp (Bool.eq_false_iff.mp hend)) hr
      by_contra hsum
      exact hskip ⟨hdec, hsum, h4 hsum⟩

theorem zstd_honest_iff {st : ZstdDecState} (hst : (zstdDecompressor unaligned).Reachable st)
    (inp : Nat → UInt8) (start stop : Nat) :
    (zstdDecompressor unaligned).Honest ZstdDecState.Resumes ZstdDecState.Compared inp st start
      stop ↔ ¬ st.CutTrailer start stop := by
  have hord := Zstd.reachable_ordered hst
  constructor
  · intro h hcut
    have hrun := Zstd.run_cut unaligned inp hcut ⟨fun _ => 0, []⟩
    have hdec := ((h _ _ _ _ hrun (by simp)).1 (.inl rfl)).decode
    rw [hcut.1] at hdec
    cases hdec
  · intro hcut m r st' m' hrun hr
    have hstep := Zstd.run_stepped hord hrun
    refine ⟨fun hmore => ?_, fun hend => hstep.compared hcut
      (Option.not_isSome_iff_eq_none.mp (Bool.eq_false_iff.mp hend)) hr⟩
    obtain ⟨s, rfl, hs⟩ := needMore_status hmore
    exact hstep.resumes hcut s rfl hs

end

/-- In every run without a cut zstd trailer and a skipped LZ4 checksum, calls that ask for more can
be made again and an accepted stream has had its checksum compared; and every call of the two
kinds breaks this. -/
theorem honestRuns_iff (unaligned : Bool) :
    (gzipDecompressor unaligned).HonestRuns (fun _ _ _ _ => True) GzipDecState.Resumes
      GzipDecState.Compared ∧
    lz4Decompressor.HonestRuns (fun _ st start stop => ¬ Lz4DecState.SkippedTrailer st start stop)
      Lz4DecState.Resumes (fun _ st _ _ => Lz4DecState.Compared st) ∧
    (zstdDecompressor unaligned).HonestRuns
      (fun _ st start stop => ¬ ZstdDecState.CutTrailer st start stop) ZstdDecState.Resumes
      ZstdDecState.Compared ∧
    (∀ st, lz4Decompressor.Reachable st → ∀ inp start stop,
      lz4Decompressor.Honest Lz4DecState.Resumes (fun _ st _ _ => Lz4DecState.Compared st) inp st start
        stop ↔ ¬ Lz4DecState.SkippedTrailer st start stop) ∧
    ∀ st, (zstdDecompressor unaligned).Reachable st → ∀ inp start stop,
      (zstdDecompressor unaligned).Honest ZstdDecState.Resumes ZstdDecState.Compared inp st start
        stop ↔ ¬ ZstdDecState.CutTrailer st start stop := by
  refine ⟨honestRuns_of_honest ?_ (fun _ _ => rfl) fun st hst inp start stop _ =>
      gzip_honest hst inp start stop,
    honestRuns_of_honest ?_ (fun _ _ => rfl) fun st hst inp start stop =>
      (lz4_honest_iff hst inp start stop).mpr,
    honestRuns_of_honest ?_ (fun _ _ => rfl) fun st hst inp start stop =>
      (zstd_honest_iff hst inp start stop).mpr,
    fun st hst inp start stop => lz4_honest_iff hst inp start stop,
    fun st hst inp start stop => zstd_honest_iff hst inp start stop⟩
  · intro inp st start stop ptr st' m m' c h
    obtain ⟨st₀, rfl, -⟩ := Inflate.init_eq_reset (Exec.lift_eq_ok h).1
    rfl
  · intro inp st start stop ptr st' m m' c h
    obtain ⟨-, h⟩ := Exec.bind_assert_eq_ok h
    cases h
    rfl
  · intro inp st start stop ptr st' m m' c h
    obtain ⟨-, h⟩ := Exec.bind_assert_eq_ok h
    obtain ⟨-, h⟩ := Exec.bind_assert_eq_ok h
    cases h
    rfl

/-- A zstd frame of one empty stored block, with the checksum of nothing. -/
def checksumFrame (a : Nat) : UInt8 :=
  [0x28, 0xb5, 0x2f, 0xfd, 0x24, 0, 1, 0, 0, 0x99, 0xe9, 0xd8, 0x51].getD a 0

/-- The decoder behind the header of `checksumFrame`. -/
def checksumState : ZstdDecState :=
  ⟨some .decodeBlock, ⟨0, 0, 100⟩, { Zstd.noTables with huffDepth := 0 },
    Zstd.xxh64Init ⟨fun _ => 0, 0, 0, 0, 0, 0, 0, false⟩, 0, true⟩

/-- Fed at once, the frame is accepted with its checksum compared. -/
theorem honestRuns_iff_checksum : ∃ es st,
    (zstdDecompressor false).Trace (fun _ st start stop => ¬ ZstdDecState.CutTrailer st start stop)
      es st ∧ st.decode = none ∧ ∃ e es', es = e :: es' ∧
      ZstdDecState.Compared e.inp e.st e.start e.stop := by
  have h0 : (zstdDecompressor false).Trace
      (fun _ st start stop => ¬ ZstdDecState.CutTrailer st start stop) [] checksumState :=
    @Decompressor.Trace.init (zstdDecompressor false) _ checksumFrame 0 13 6
      { checksumState with decode := none } _ ⟨fun _ => 0, []⟩ _ ⟨0, 0, 100⟩ (by decide) rfl
      ⟨by decide, by decide⟩
  have h1 := @Decompressor.Trace.step (zstdDecompressor false) _ checksumFrame 6 13 _ _
    ⟨fun _ => 0, []⟩ _ _ _ h0 (fun h => by cases h.1) rfl (by decide)
  have h2 := @Decompressor.Trace.step (zstdDecompressor false) _ checksumFrame 9 13 _ _
    ⟨fun _ => 0, []⟩ _ _ _ h1 (fun h => absurd h.2.2 (by decide)) rfl (by decide)
  exact ⟨_, _, h2, rfl, ((honestRuns_iff false).2.2.1 _ _ h2).2 rfl⟩

/-- An LZ4 frame of no blocks, whose content checksum is not that of nothing. -/
def wrongFrame (a : Nat) : UInt8 :=
  [4, 34, 77, 24, 0x64, 0x40, 0xa7, 0, 0, 0, 0, 0, 0, 0, 0].getD a 0

/-- With the checksum of `checksumFrame` still to come the trailer asks for more and has ended the
stream; the trailer of `wrongFrame` is accepted. -/
theorem checksumFrame_cut :
    (∃ st st' m m', (zstdDecompressor false).Reachable st ∧ st.decode = some .decodeTrailer ∧
      (st.run false checksumFrame 9 9).run m = .ok (.status .needMoreData, st') m' ∧
      st'.decode = none) ∧
    ∃ st st' m m', lz4Decompressor.Reachable st ∧ st.decode = some .decodeTrailer ∧
      ¬ st.Compared ∧ (st.run wrongFrame 11 15).run m = .ok (.consumed 4, st') m' ∧
      st'.decode = none := by
  have h0 : (zstdDecompressor false).Reachable checksumState :=
    @Decompressor.Reachable.init (zstdDecompressor false) checksumFrame 0 13 6
      { checksumState with decode := none } _ ⟨fun _ => 0, []⟩ _ ⟨0, 0, 100⟩ (by decide) rfl
      ⟨by decide, by decide⟩
  have h1 := @Decompressor.Reachable.step (zstdDecompressor false) checksumFrame 6 9 _ _
    ⟨fun _ => 0, []⟩ _ _ h0 rfl (by decide)
  have l0 : lz4Decompressor.Reachable ⟨some .decodeBlock, ⟨0, 0, 100⟩, 65536, 0x64⟩ :=
    @Decompressor.Reachable.init lz4Decompressor wrongFrame 0 15 7 ⟨none, ⟨0, 0, 0⟩, 0, 0⟩ _
      ⟨fun _ => 0, []⟩ _ ⟨0, 0, 100⟩ (by decide) rfl ⟨by decide, by decide⟩
  have l1 := @Decompressor.Reachable.step lz4Decompressor wrongFrame 7 11 _ _
    ⟨fun _ => 0, []⟩ _ _ l0 rfl (by decide)
  exact ⟨⟨_, _, ⟨fun _ => 0, []⟩, _, h1, rfl, rfl, rfl⟩,
    ⟨_, _, ⟨fun _ => 0, []⟩, _, l1, rfl, (by unfold Lz4DecState.Compared; decide), rfl, rfl⟩⟩

end Rkboot.Compression
