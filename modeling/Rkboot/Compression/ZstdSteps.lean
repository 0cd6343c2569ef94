import Rkboot.Compression.ZstdBlock

/-! # What a step of the zstd decompressor does, on any input

A step stores only to the space and its scratch bytes and claims no more than the
slice has. A step that asks for more leaves position and checksum alone, except for
the trailer: `decode_trailer` clears `decode` before it looks for the checksum. -/
namespace Rkboot.Compression.Zstd
open Lib Lzcommon

/-- The next call takes up where the last one was. -/
structure ZstdDecState.Resumes (st st' : ZstdDecState) : Prop where
  decode : st'.decode = st.decode
  out : st'.st.out = st.st.out
  xxh64 : st'.xxh64 = st.xxh64

/-- The slice has the checksum of the output, if the frame has one. -/
def ZstdDecState.Compared (inp : Nat → UInt8) (st : ZstdDecState) (start stop : Nat) : Prop :=
  st.haveContentChecksum = true → 4 ≤ stop - start ∧
    ∃ hash, xxh64Finalize st.xxh64 = .ok hash ∧ hash.toNat % 2 ^ 32 = leWord inp start 4

/-- A trailer whose checksum is cut off. -/
def ZstdDecState.CutTrailer (st : ZstdDecState) (start stop : Nat) : Prop :=
  st.decode = some .decodeTrailer ∧ st.haveContentChecksum = true ∧ stop - start < 4

/-- What a step that returns has done. -/
structure ZstdDecState.Stepped (inp : Nat → UInt8) (st : ZstdDecState) (start stop : Nat)
    (r : DecodeResult) (st' : ZstdDecState) : Prop where
  ordered : st'.st.Ordered
  outEnd : st'.st.outEnd = st.st.outEnd
  out_le : st.st.out ≤ st'.st.out
  consumed : ∀ n, r = .consumed n → n ≤ stop - start
  resumes : ¬ st.CutTrailer start stop → ∀ s, r = .status s → s ≠ .err → st.Resumes st'
  compared : ¬ st.CutTrailer start stop → st'.decode = none → r ≠ .status .err →
    st.Compared inp start stop

section
variable {unaligned : Bool} {inp : Nat → UInt8} {start stop : Nat} {st st' : ZstdDecState}
  {m m' : Mem} {r : DecodeResult}

/-- A block that fails or asks for more changes at most the tables. -/
theorem ZstdDecState.Stepped.status (hord : st.st.Ordered) (hdec : st.decode ≠ none)
    (s : DecodeStatus) (tables : DecTables) :
    st.Stepped inp start stop (.status s) { st with tables := tables } where
  ordered := hord
  outEnd := rfl
  out_le := le_rfl
  consumed n hn := by cases hn
  resumes _ _ _ _ := ⟨rfl, rfl, rfl⟩
  compared _ hd _ := absurd hd hdec

/-- A block of `n` bytes that was decoded. -/
theorem ZstdDecState.Stepped.behind (hord : st.st.Ordered) (hdec : st.decode ≠ none) {n k}
    (hn : st.st.out + n ≤ st.st.outEnd) (hk : k ≤ stop - start) (last : Bool) (x : Xxh64State)
    (tables : DecTables) :
    st.Stepped inp start stop (.consumed k) ({ st with tables := tables }.behind last n x) where
  ordered := by
    have := hord.window
    refine ⟨?_, hn⟩
    simp only [ZstdDecState.behind]
    split <;> omega
  outEnd := rfl
  out_le := Nat.le_add_right _ _
  consumed k' hk' := by
    cases hk'
    exact hk
  resumes _ s hs := by cases hs
  compared _ hd := by
    cases last with
    | true => cases hd
    | false => exact absurd hd hdec

theorem advance_ends (lo hi : Nat) (last : Bool) (n : Nat) :
    (st.advance unaligned last n).Ends m lo hi fun st' _ => ∃ x, st' = st.behind last n x := by
  refine .bind (P := fun _ _ => True) (.ite (fun _ => ?_) fun _ => .pure trivial)
    fun x _ _ => .pure ⟨x, rfl⟩
  exact .bind_of_ok rfl (.refl _ _ _) (.lift fun _ _ => trivial)

/-! ## Stored and repeated bytes -/

section
variable (hord : st.st.Ordered) (h3 : ¬ stop - start < 3)
include hord h3

theorem rawBlock_ends (n : Nat) (last : Bool) :
    (rawBlock unaligned inp st stop (start + 3) n last).Ends m st.st.out (st.st.outEnd + 8)
      fun r _ => st.decode ≠ none → st.Stepped inp start stop r.1 r.2 := by
  have := hord.space
  refine .ite (fun _ => .pure fun hdec => .status hord hdec _ st.tables) fun _ =>
    .ite (fun _ => .pure fun hdec => .status hord hdec _ st.tables) fun _ => ?_
  obtain ⟨m', hrun, hs, -⟩ := literalCopy_ok inp (.inl rfl : Separate .input st.st.out (start + 3) n) m
  refine .bind_of_ok hrun (hs.mono le_rfl (by omega)) ?_
  refine (advance_ends _ _ last n).bind fun st' _ ⟨x, hx⟩ => .pure fun hdec => ?_
  exact hx ▸ .behind hord hdec (by omega) (by omega) last x st.tables

omit hord h3 in
theorem writeRle_ends (out ptr n : Nat) :
    (writeRle inp out ptr n).Ends m out (out + n + 8) fun _ _ => True := by
  refine .ite (fun _ => .pure trivial) fun _ => ?_
  refine .bind_of_ok rfl (.store m _ le_rfl (by omega)) ?_
  obtain ⟨m', hrun, hs, -⟩ := matchCopy_ok inp (n - 1) one_pos (Nat.le_add_left 1 out) _
  exact .returns hrun (hs.mono (by omega) (by omega)) trivial

theorem rleBlock_ends (n : Nat) (last : Bool) :
    (rleBlock unaligned inp st stop (start + 3) n last).Ends m st.st.out (st.st.outEnd + 8)
      fun r _ => st.decode ≠ none → st.Stepped inp start stop r.1 r.2 := by
  have := hord.space
  refine .ite (fun _ => .pure fun hdec => .status hord hdec _ st.tables) fun _ =>
    .ite (fun _ => .pure fun hdec => .status hord hdec _ st.tables) fun _ => ?_
  refine ((writeRle_ends _ _ _).mono le_rfl (by omega)).bind fun _ _ _ => ?_
  refine (advance_ends _ _ last n).bind fun st' _ ⟨x, hx⟩ => .pure fun hdec => ?_
  exact hx ▸ .behind hord hdec (by omega) (by omega) last x st.tables

/-! ## Compressed blocks -/

theorem compressedBlock_ends (hspace : ¬ st.st.outEnd - st.st.out ≤ lzcommonBlock) (n : Nat)
    (last : Bool) :
    (compressedBlock unaligned inp st start stop (start + 3) n last).Ends m st.st.out
      (st.st.outEnd + 8) fun r _ => st.decode ≠ none → st.Stepped inp start stop r.1 r.2 := by
  simp only [lzcommonBlock] at hspace
  have hout : st.st.out ≤ st.st.outEnd - lzcommonBlock := by
    simp only [lzcommonBlock]
    omega
  refine .ite (fun _ => .pure fun hdec => .status hord hdec _ st.tables) fun _ => ?_
  have hblock : (decompressBlock unaligned inp start stop (st.st.outEnd - lzcommonBlock)
      st.st.windowStart st.st.out (start + 3) (start + 3 + n) st.tables).Ends m st.st.out
        (st.st.outEnd + 8) fun r _ => ∀ k, r.1 = .consumed k → st.st.out + k ≤ st.st.outEnd - 8 := by
    refine ⟨((decompressBlock_uniform hord.window hout _ _ _).within m).mono le_rfl ?_, ?_⟩
    · simp only [lzcommonBlock]
      omega
    · rintro ⟨_, tables⟩ m' hrun k rfl
      obtain ⟨l, ss, -, -, hle⟩ := decompressBlock_refines hord.window hout hrun
      exact hle
  refine hblock.bind fun r _ hle => ?_
  rcases r with ⟨s | k, tables⟩
  · exact .pure fun hdec => .status hord hdec s tables
  · have := hle k rfl
    refine (advance_ends _ _ last k).bind fun st' _ ⟨x, hx⟩ => .pure fun hdec => ?_
    exact hx ▸ .behind hord hdec (by omega) (by omega) last x tables

end

theorem decodeBlock_ends (hord : st.st.Ordered) :
    (decodeBlock unaligned inp st start stop).Ends m st.st.out (st.st.outEnd + 8)
      fun r _ => st.decode ≠ none → st.Stepped inp start stop r.1 r.2 := by
  refine .ite (fun _ => .pure fun hdec => .status hord hdec _ st.tables) fun h3 =>
    .ite (fun _ => .pure fun hdec => .status hord hdec _ st.tables) fun hspace => ?_
  refine .ite (fun _ => rawBlock_ends hord h3 _ _) fun _ =>
    .ite (fun _ => rleBlock_ends hord h3 _ _) fun _ =>
    .ite (fun _ => compressedBlock_ends hord h3 hspace _ _) fun _ => ?_
  exact .pure fun hdec => .status hord hdec _ st.tables

/-! ## The trailer -/

theorem decodeTrailer_stepped (hord : st.st.Ordered) (hdec : st.decode = some .decodeTrailer)
    (h : decodeTrailer inp st start stop = .ok (r, st')) : st.Stepped inp start stop r st' := by
  unfold decodeTrailer at h
  dsimp only at h
  split at h
  · rename_i hsum
    split at h
    · rename_i h4
      cases h
      exact ⟨hord, rfl, le_rfl, fun n hn => (by cases hn), fun hc => absurd ⟨hdec, hsum, h4⟩ hc,
        fun hc => absurd ⟨hdec, hsum, h4⟩ hc⟩
    rename_i h4
    obtain ⟨hash, hhash, h⟩ := except_bind_eq_ok h
    split at h
    · cases h
      exact ⟨hord, rfl, le_rfl, fun n hn => (by cases hn),
        fun _ s hs hne => absurd (DecodeResult.status.inj hs).symm hne, fun _ _ hr => absurd rfl hr⟩
    · rename_i hsame
      cases h
      refine ⟨hord, rfl, le_rfl, fun n hn => ?_, fun _ s hs => (by cases hs),
        fun _ _ _ _ => ⟨by omega, hash, hhash, not_not.mp hsame⟩⟩
      cases hn
      omega
  · rename_i hsum
    cases h
    refine ⟨hord, rfl, le_rfl, fun n hn => ?_, fun _ s hs => (by cases hs),
      fun _ _ _ hc => absurd hc hsum⟩
    cases hn
    omega

/-! ## Runs -/

theorem run_ends (hord : st.st.Ordered) :
    (st.run unaligned inp start stop).Ends m st.st.out (st.st.outEnd + 8)
      fun r _ => st.Stepped inp start stop r.1 r.2 := by
  unfold ZstdDecState.run
  split
  · exact .fault _
  · rename_i hdec
    exact (decodeBlock_ends hord).imp fun _ _ h => h (by simp [hdec])
  · rename_i hdec
    exact .lift fun r h => decodeTrailer_stepped hord hdec h

theorem run_stepped (hord : st.st.Ordered)
    (h : (st.run unaligned inp start stop).run m = .ok (r, st') m') :
    st.Stepped inp start stop r st' := (run_ends hord).2 (r, st') m' h

/-- A cut trailer asks for more, but there is no step left to be called. -/
theorem run_cut (unaligned : Bool) (inp : Nat → UInt8) (h : st.CutTrailer start stop) (m : Mem) :
    (st.run unaligned inp start stop).run m =
      .ok (.status .needMoreData, { st with decode := none }) m := by
  obtain ⟨hdec, hsum, h4⟩ := h
  simp only [ZstdDecState.run, hdec, decodeTrailer, hsum, h4, if_true, Exec.lift_ok, Exec.run_pure]

theorem reachable_ordered (h : (zstdDecompressor unaligned).Reachable st) : st.st.Ordered :=
  h.invariant (fun st : ZstdDecState => st.st.Ordered) (fun _ _ hc => hc)
    (fun hord hrun _ => (run_stepped hord hrun).ordered) fun _ hc _ => hc

end
end Rkboot.Compression.Zstd
