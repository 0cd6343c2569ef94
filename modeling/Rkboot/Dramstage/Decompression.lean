import Rkboot.Compression.Formats
import Rkboot.Compression.Probe

/-! # The decompression driver

`decompress` pumps a stream until one of the formats probes it, and steps that format's
decoder until it has ended, asking for more where the decoder does. The two loops of the
source are `while` loops, so they run with fuel here; no result is a loop that is still
running. -/
namespace Rkboot.Dramstage
open Lib Compression List

/-- `struct async_buf`; an end before the start carries an error code. -/
structure AsyncBuf where
  start : Nat
  stop : Nat

def AsyncBuf.size (buf : AsyncBuf) : Nat := buf.stop - buf.start

@[simp] theorem AsyncBuf.size_mk (start stop : Nat) : (⟨start, stop⟩ : AsyncBuf).size = stop - start := rfl

/-- `struct async_transfer`: what it keeps and its `pump`, which may fail an assertion. -/
structure AsyncTransfer where
  State : Type
  pump : State → Nat → Nat → Option (AsyncBuf × State)

/-- `async_pump_dummy`. -/
abbrev asyncDummy : AsyncTransfer where
  State := AsyncBuf
  pump buf consume _ :=
    let buf : AsyncBuf := ⟨buf.start + consume, buf.stop⟩
    some (buf, buf)

def iostOk : Nat := 0
def iostInvalid : Nat := 2

/-- How `decompress` ends: with a code and `*out_end`, or at a fault. -/
inductive Ended where
  | returned (iost outEnd : Nat)
  | stopped (f : Fault)
  deriving DecidableEq, Repr

/-- A format, with what `decomp_state` holds when it is probed. -/
structure Format where
  decomp : Decompressor
  state : decomp.State

section
variable (async : AsyncTransfer) (inp : Nat → UInt8) (out outEnd : Nat)

/-- A call of `pump` and the check of what it returned. -/
def pump (s : async.State) (consume minSize : Nat) : Except Ended (AsyncBuf × async.State) :=
  match async.pump s consume minSize with
  | none => .error (.stopped .assertion)
  | some (buf, s) =>
    if buf.stop < buf.start then .error (.returned (buf.start - buf.stop) outEnd) else .ok (buf, s)

def probeLoop (d : Decompressor) : Nat → AsyncBuf → async.State →
    Option (Except Ended (ProbeStatus × AsyncBuf × async.State))
  | 0, _, _ => none
  | fuel + 1, buf, s =>
    match d.probe inp buf.start buf.stop with
    | .notEnoughData =>
      match pump async outEnd s 0 (buf.size + 1) with
      | .error e => some (.error e)
      | .ok (buf, s) => probeLoop d fuel buf s
    | status => some (.ok (status, buf, s))

/-- `info(.., decode_status_msg[res]); return IOST_INVALID;` -/
def failed (res : DecodeResult) : Ended :=
  match decodeStatusMsg res.code with
  | none => .stopped .bounds
  | some _ => .returned iostInvalid outEnd

def decodeLoop (d : Decompressor) : Nat → d.State → AsyncBuf → async.State → Mem →
    Option (Ended × Mem)
  | 0, _, _, _, _ => none
  | fuel + 1, st, buf, s, m =>
    if !d.running st then some (.returned iostOk (d.client st).out, m)
    else if buf.start = 0 then some (.returned iostInvalid outEnd, m)
    else
      match (d.decode inp st buf.start buf.stop).run m with
      | .fault f m => some (.stopped f, m)
      | .ok (res, st) m =>
        if res = .status .needMoreData then
          let minSize := buf.size + 1
          match pump async outEnd s 0 minSize with
          | .error e => some (e, m)
          | .ok (buf, s) =>
            if minSize ≤ buf.size then decodeLoop d fuel st buf s m else some (failed outEnd res, m)
        else if numDecodeStatus < res.code then
          let consume := res.code - numDecodeStatus
          match pump async outEnd s consume (buf.size - consume) with
          | .error e => some (e, m)
          | .ok (buf, s) => decodeLoop d fuel st buf s m
        else some (failed outEnd res, m)

/-- What follows a successful probe. -/
def runFormat (fuel : Nat) (f : Format) (buf : AsyncBuf) (s : async.State) (m : Mem) :
    Option (Ended × Mem) :=
  match (f.decomp.init inp f.state buf.start buf.stop).run m with
  | .fault e m => some (.stopped e, m)
  | .ok (none, _) m => some (.stopped .assertion, m)
  | .ok (some data, st) m =>
    match pump async outEnd s (data - buf.start) 0 with
    | .error e => some (e, m)
    | .ok (buf, s) =>
      decodeLoop async inp outEnd f.decomp fuel (f.decomp.setClient st ⟨out, out, outEnd⟩) buf s m

def tryFormats (fuel : Nat) : List Format → AsyncBuf → async.State → Mem → Option (Ended × Mem)
  | [], _, _, m => some (.returned iostInvalid outEnd, m)
  | f :: fs, buf, s, m =>
    match probeLoop async inp outEnd f.decomp fuel buf s with
    | none => none
    | some (.error e) => some (e, m)
    | some (.ok (status, buf, s)) =>
      if status.success then runFormat async inp out outEnd fuel f buf s m
      else tryFormats fuel fs buf s m

def decompress (fuel : Nat) (formats : List Format) (s : async.State) (m : Mem) :
    Option (Ended × Mem) :=
  match pump async outEnd s 0 1 with
  | .error e => some (e, m)
  | .ok (buf, s) => tryFormats async inp out outEnd fuel formats buf s m

end

/-! ## Pumps -/

/-- A pump that, from the states in `Good`, delivers the bytes up to `total`: it returns what is not
consumed, at least what it is asked for as long as the stream lasts, and never takes back what it
has returned. Who consumes more than there was runs into an assertion or gets a buffer that ends
before it starts. -/
structure AsyncTransfer.Delivers (async : AsyncTransfer) (total : Nat)
    (pos avail : async.State → Nat) (Good : async.State → Prop) : Prop where
  pos_le : ∀ s, Good s → pos s ≤ avail s
  avail_le : ∀ s, Good s → avail s ≤ total
  pump : ∀ s consume minSize, Good s → consume ≤ avail s - pos s →
    ∃ s', async.pump s consume minSize = some (⟨pos s', avail s'⟩, s') ∧ Good s' ∧
      pos s' = pos s + consume ∧ avail s ≤ avail s' ∧ (minSize ≤ avail s' - pos s' ∨ avail s' = total)
  excess : ∀ s consume minSize, Good s → avail s - pos s < consume →
    async.pump s consume minSize = none ∨
    ∃ buf s', async.pump s consume minSize = some (buf, s') ∧ buf.stop < buf.start

theorem asyncDummy_delivers (total : Nat) :
    asyncDummy.Delivers total (·.start) (·.stop) fun buf => buf.start ≤ buf.stop ∧ buf.stop = total where
  pos_le _ h := h.1
  avail_le _ h := le_of_eq h.2
  pump buf consume minSize h hc := ⟨⟨buf.start + consume, buf.stop⟩, rfl,
    ⟨by have := h.1; dsimp only at hc ⊢; omega, h.2⟩, rfl, le_rfl, .inr h.2⟩
  excess buf consume minSize h hc := .inr ⟨⟨buf.start + consume, buf.stop⟩, _, rfl, by
    dsimp only at hc ⊢
    omega⟩

section
variable {async : AsyncTransfer} {total : Nat} {pos avail : async.State → Nat}
  {Good : async.State → Prop} {inp : Nat → UInt8} {out outEnd : Nat} {d : Decompressor}

section
variable {s : async.State} (h : async.Delivers total pos avail Good) (hs : Good s)
include h hs

theorem AsyncTransfer.Delivers.pump_eq (outEnd : Nat)
    {consume} (minSize : Nat) (hc : consume ≤ avail s - pos s) :
    ∃ s', Dramstage.pump async outEnd s consume minSize = .ok (⟨pos s', avail s'⟩, s') ∧ Good s' ∧
      pos s' = pos s + consume ∧ avail s ≤ avail s' ∧
      (minSize ≤ avail s' - pos s' ∨ avail s' = total) := by
  obtain ⟨s', he, hs', hpos, havail, hmin⟩ := h.pump s consume minSize hs hc
  refine ⟨s', ?_, hs', hpos, havail, hmin⟩
  rw [Dramstage.pump, he]
  exact if_neg (not_lt.mpr (h.pos_le s' hs'))

theorem AsyncTransfer.Delivers.pump_excess (outEnd : Nat)
    {consume} (minSize : Nat) (hc : avail s - pos s < consume) :
    ∃ e, Dramstage.pump async outEnd s consume minSize = .error e := by
  rw [Dramstage.pump]
  rcases h.excess s consume minSize hs hc with hnone | ⟨buf, s', hsome, hlt⟩
  · exact ⟨_, by rw [hnone]⟩
  · exact ⟨_, by rw [hsome]; exact if_pos hlt⟩

/-! ## Probing -/

/-- A probe that ends has answered as it would to the whole stream. -/
theorem probeLoop_cases (hd : d.ProbeStable) (outEnd : Nat) (fuel : Nat) :
    probeLoop async inp outEnd d fuel ⟨pos s, avail s⟩ s = none ∨
    ∃ s', probeLoop async inp outEnd d fuel ⟨pos s, avail s⟩ s =
        some (.ok (d.probe inp (pos s) total, ⟨pos s', avail s'⟩, s')) ∧
      Good s' ∧ pos s' = pos s ∧ avail s ≤ avail s' ∧
      d.probe inp (pos s) (avail s') = d.probe inp (pos s) total ∧
      d.probe inp (pos s) total ≠ .notEnoughData := by
  induction fuel generalizing s with
  | zero => exact .inl rfl
  | succ fuel ih =>
    rw [probeLoop]
    by_cases hne : d.probe inp (pos s) (avail s) = .notEnoughData
    · obtain ⟨s', he, hs', hpos, havail, -⟩ := h.pump_eq hs outEnd
        ((⟨pos s, avail s⟩ : AsyncBuf).size + 1) (Nat.zero_le (avail s - pos s))
      rw [hne]
      rw [he]
      dsimp only
      rw [add_zero] at hpos
      rcases ih hs' with hnone | ⟨s'', he', hs'', hpos', havail', hprobe⟩
      · exact .inl hnone
      · rw [hpos] at hprobe
        exact .inr ⟨s'', by rw [he', hpos], hs'', by rw [hpos', hpos], le_trans havail havail',
          hprobe⟩
    · have hsame := hd inp (pos s) (avail s) total (h.avail_le s hs) hne
      refine .inr ⟨s, ?_, hs, rfl, le_rfl, hsame.symm, hsame ▸ hne⟩
      rw [hsame]
      split
      · exact absurd ‹_› hne
      · rfl

/-- Every turn of the loop brings more of the stream. -/
theorem probeLoop_ends {fuel} (hwhole : d.probe inp (pos s) total ≠ .notEnoughData)
    (hfuel : total - avail s < fuel) :
    probeLoop async inp outEnd d fuel ⟨pos s, avail s⟩ s ≠ none := by
  induction fuel generalizing s with
  | zero => omega
  | succ fuel ih =>
    rw [probeLoop]
    by_cases hne : d.probe inp (pos s) (avail s) = .notEnoughData
    · obtain ⟨s', he, hs', hpos, havail, hmin⟩ := h.pump_eq hs outEnd
        ((⟨pos s, avail s⟩ : AsyncBuf).size + 1) (Nat.zero_le (avail s - pos s))
      rw [hne]
      rw [he]
      refine ih hs' (hpos ▸ hwhole) ?_
      -- at the end of the stream the probe would have answered
      have hlt : avail s ≠ total := fun he => hwhole (he ▸ hne)
      have := h.avail_le s hs
      rw [AsyncBuf.size_mk, hpos] at hmin
      omega
    · split
      · exact absurd ‹_› hne
      · exact Option.some_ne_none _

/-! ## Decoding -/

/-- Every turn of the loop consumes bytes or brings more of the stream. -/
theorem decodeLoop_ends {fuel}
    (st : d.State) (m : Mem) (hfuel : (total - pos s) + (total - avail s) < fuel) :
    decodeLoop async inp outEnd d fuel st ⟨pos s, avail s⟩ s m ≠ none := by
  induction fuel generalizing s st m with
  | zero => omega
  | succ fuel ih =>
    have hend := h.avail_le s hs
    rw [decodeLoop]
    split
    · exact Option.some_ne_none _
    split
    · exact Option.some_ne_none _
    cases hrun : (d.decode inp st (pos s) (avail s)).run m with
    | fault f m' => exact Option.some_ne_none _
    | ok r m' =>
      obtain ⟨res, st'⟩ := r
      dsimp only
      split
      · obtain ⟨s', he, hs', hpos, havail, -⟩ := h.pump_eq hs outEnd
          ((⟨pos s, avail s⟩ : AsyncBuf).size + 1) (Nat.zero_le (avail s - pos s))
        rw [he]
        dsimp only
        split
        · rename_i hmin
          refine ih hs' st' m' ?_
          have := h.avail_le s' hs'
          rw [AsyncBuf.size_mk, AsyncBuf.size_mk] at hmin
          omega
        · exact Option.some_ne_none _
      split
      · rename_i hcode
        rcases lt_or_ge (avail s - pos s) (res.code - numDecodeStatus) with hlt | hge
        · obtain ⟨e, he⟩ := h.pump_excess hs outEnd
            ((⟨pos s, avail s⟩ : AsyncBuf).size - (res.code - numDecodeStatus)) hlt
          rw [he]
          exact Option.some_ne_none _
        · obtain ⟨s', he, hs', hpos, havail, -⟩ := h.pump_eq hs outEnd
            ((⟨pos s, avail s⟩ : AsyncBuf).size - (res.code - numDecodeStatus)) hge
          rw [he]
          refine ih hs' st' m' ?_
          omega
      · exact Option.some_ne_none _

end

/-! ## The whole driver -/

/-- The first answer to the whole stream that is not a refusal. -/
def firstAnswer (inp : Nat → UInt8) (start stop : Nat) : List Format → Option ProbeStatus
  | [] => none
  | f :: fs =>
    match f.decomp.probe inp start stop with
    | .notEnoughData => some .notEnoughData
    | status => if status.success then some status else firstAnswer inp start stop fs

theorem firstAnswer_cons (inp : Nat → UInt8) (start stop : Nat) (f : Format) (fs : List Format) :
    firstAnswer inp start stop (f :: fs) = if f.decomp.probe inp start stop = .notEnoughData ∨
        (f.decomp.probe inp start stop).success = true then some (f.decomp.probe inp start stop)
      else firstAnswer inp start stop fs := by
  rw [firstAnswer]
  cases f.decomp.probe inp start stop <;> rfl

theorem runFormat_ends (h : async.Delivers total pos avail Good) {fuel} (f : Format)
    {s} (hs : Good s) (m : Mem) (hfuel : (total - pos s) + (total - avail s) < fuel) :
    runFormat async inp out outEnd fuel f ⟨pos s, avail s⟩ s m ≠ none := by
  rw [runFormat]
  cases (f.decomp.init inp f.state (pos s) (avail s)).run m with
  | fault e m' => exact Option.some_ne_none _
  | ok r m' =>
    match r with
    | (none, st) => exact Option.some_ne_none _
    | (some data, st) =>
      dsimp only
      rcases lt_or_ge (avail s - pos s) (data - pos s) with hlt | hge
      · obtain ⟨e, he⟩ := h.pump_excess hs outEnd 0 hlt
        rw [he]
        exact Option.some_ne_none _
      · obtain ⟨s', he, hs', hpos, havail, -⟩ := h.pump_eq hs outEnd 0 hge
        rw [he]
        exact decodeLoop_ends h hs' _ m' (by omega)

theorem tryFormats_ends (h : async.Delivers total pos avail Good) {fs}
    (hfs : ∀ f ∈ fs, f.decomp.ProbeStable) {s} (hs : Good s) (m : Mem)
    {fuel} (hfuel : (total - pos s) + (total - avail s) < fuel)
    (hfirst : firstAnswer inp (pos s) total fs ≠ some .notEnoughData) :
    tryFormats async inp out outEnd fuel fs ⟨pos s, avail s⟩ s m ≠ none := by
  induction fs generalizing s with
  | nil => exact Option.some_ne_none _
  | cons f fs ih =>
    rw [firstAnswer_cons] at hfirst
    have hwhole : f.decomp.probe inp (pos s) total ≠ .notEnoughData := fun he => by
      rw [if_pos (.inl he), he] at hfirst
      exact hfirst rfl
    rw [tryFormats]
    rcases probeLoop_cases h hs (hfs f (mem_cons_self ..)) outEnd fuel with
      hnone | ⟨s', he, hs', hpos, havail, -⟩
    · exact absurd hnone (probeLoop_ends h hs hwhole (by omega))
    · rw [he]
      dsimp only
      split
      · exact runFormat_ends h f hs' m (by omega)
      · rename_i hsuccess
        rw [if_neg (not_or.mpr ⟨hwhole, hsuccess⟩), ← hpos] at hfirst
        exact ih (fun f hf => hfs f (mem_cons_of_mem _ hf)) hs' (by omega) hfirst

/-- A probe that never has enough is repeated for ever. -/
theorem tryFormats_stuck (h : async.Delivers total pos avail Good) {fs}
    (hfs : ∀ f ∈ fs, f.decomp.ProbeStable) {s} (hs : Good s) (m : Mem)
    (fuel : Nat) (hfirst : firstAnswer inp (pos s) total fs = some .notEnoughData) :
    tryFormats async inp out outEnd fuel fs ⟨pos s, avail s⟩ s m = none := by
  induction fs generalizing s with
  | nil => cases hfirst
  | cons f fs ih =>
    rw [firstAnswer_cons] at hfirst
    rw [tryFormats]
    rcases probeLoop_cases h hs (hfs f (mem_cons_self ..)) outEnd fuel with
      hnone | ⟨s', he, hs', hpos, -, -, hwhole⟩
    · rw [hnone]
    · rw [he]
      dsimp only
      split at hfirst
      · exact absurd (Option.some.inj hfirst) hwhole
      · rename_i hor
        rw [if_neg fun hsuccess => hor (.inr hsuccess)]
        rw [← hpos] at hfirst
        exact ih (fun f hf => hfs f (mem_cons_of_mem _ hf)) hs' hfirst

end

theorem formats_probe_stable {unaligned} {d : Decompressor} (h : d ∈ formats unaligned) :
    d.ProbeStable := by
  simp only [formats, mem_cons, not_mem_nil, or_false] at h
  rcases h with rfl | rfl | rfl
  · exact lz4_probe_stable
  · exact gzip_probe_stable unaligned
  · exact zstd_probe_stable unaligned

/-- The driver ends exactly if the first format that does not refuse the whole stream has enough
of it: a probe that still asks for more at the end of the stream is called for ever. -/
theorem decompress_ends_iff {async : AsyncTransfer} {total : Nat} {pos avail : async.State → Nat}
    {Good : async.State → Prop} (h : async.Delivers total pos avail Good) (unaligned : Bool)
    {fs : List Format} (hfs : ∀ f ∈ fs, f.decomp ∈ formats unaligned) (inp : Nat → UInt8) (out outEnd : Nat)
    {s : async.State} (hs : Good s) (m : Mem) :
    (∃ fuel, decompress async inp out outEnd fuel fs s m ≠ none) ↔
      firstAnswer inp (pos s) total fs ≠ some .notEnoughData := by
  have hstable : ∀ f ∈ fs, f.decomp.ProbeStable := fun f hf => formats_probe_stable (hfs f hf)
  obtain ⟨s', he, hs', hpos, -, -⟩ := h.pump_eq hs outEnd 1 (Nat.zero_le (avail s - pos s))
  rw [add_zero] at hpos
  unfold decompress
  rw [he, ← hpos]
  constructor
  · rintro ⟨fuel, hsome⟩ hfirst
    exact hsome (tryFormats_stuck h hstable hs' m fuel hfirst)
  · intro hfirst
    exact ⟨_, tryFormats_ends h hstable hs' m (Nat.lt_succ_self _) hfirst⟩

/-- The formats of a configuration without zstd. -/
def smallFormats : List Format :=
  [⟨Lz4.lz4Decompressor, ⟨none, ⟨0, 0, 0⟩, 0, 0⟩⟩, ⟨Inflate.gzipDecompressor false, Inflate.blankState⟩]

theorem smallFormats_subset : ∀ f ∈ smallFormats, f.decomp ∈ formats false := by
  intro f hf
  simp only [smallFormats, mem_cons, not_mem_nil, or_false] at hf
  rcases hf with rfl | rfl <;> simp [formats]

theorem decompress_ends_iff_stored : ∃ fuel, decompress asyncDummy Inflate.storedFile 0 100 fuel
    smallFormats ⟨0, 24⟩ ⟨fun _ => 0, []⟩ ≠ none :=
  (decompress_ends_iff (asyncDummy_delivers 24) false smallFormats_subset Inflate.storedFile 0 100
    ⟨by decide, rfl⟩ ⟨fun _ => 0, []⟩).mpr (by decide)

/-- On an empty stream the first probe asks for more for ever, and so it does on the first bytes
of a frame. -/
theorem empty_stream_hangs :
    (∀ fuel m, decompress asyncDummy Inflate.storedFile 0 100 fuel smallFormats ⟨16, 16⟩ m = none) ∧
    ∀ fuel m, decompress asyncDummy Lz4.smallFrame 0 100 fuel smallFormats ⟨0, 5⟩ m = none := by
  have hstable : ∀ f ∈ smallFormats, f.decomp.ProbeStable := fun f hf =>
    formats_probe_stable (smallFormats_subset f hf)
  constructor
  · intro fuel m
    have hgood : (16 : Nat) ≤ 16 ∧ 16 = 16 := ⟨le_refl 16, rfl⟩
    exact tryFormats_stuck (asyncDummy_delivers 16) hstable (s := ⟨16, 16⟩) hgood m fuel (by decide)
  · intro fuel m
    have hgood : (0 : Nat) ≤ 5 ∧ 5 = 5 := ⟨Nat.zero_le 5, rfl⟩
    exact tryFormats_stuck (asyncDummy_delivers 5) hstable (s := ⟨0, 5⟩) hgood m fuel (by decide)

end Rkboot.Dramstage
