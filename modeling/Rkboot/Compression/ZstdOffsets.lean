import Rkboot.Compression.ZstdBlock
import Rkboot.Lib.Bits

/-! # Offsets of sequences

An offset value of a sequence is an offset or stands for one of the last three. The format says which one
by an index into a history of offsets; `pack_sequence` has a case for each and updates the history in
place. A packed sequence is unpacked when it is executed, in the rounds of a block, and the history goes
on from one block to the next. -/
namespace Rkboot.Compression.Zstd
open Lib List Nat

/-! ## The history of the format -/

/-- A sequence as it stands in the bit stream: the length of the match lacks its minimum of 3, and the
offset is a value that may stand for one of the history. -/
structure RawSequence where
  copy : Nat
  length : Nat
  offset : Nat

structure RawSequence.InRange (q : RawSequence) : Prop where
  copy_lt : q.copy < 2 ^ 17
  length_lt : q.length < 2 ^ 17
  offset_pos : 1 ≤ q.offset
  offset_lt : q.offset < 2 ^ 29

/-- The offsets that were used last, the latest first. -/
structure Offsets where
  first : Nat
  second : Nat
  third : Nat
  deriving DecidableEq, Repr

structure Offsets.InRange (h : Offsets) : Prop where
  first : 1 ≤ h.first ∧ h.first ≤ 2 ^ 29
  second : 1 ≤ h.second ∧ h.second ≤ 2 ^ 29
  third : 1 ≤ h.third ∧ h.third ≤ 2 ^ 29

/-- The offset of a sequence and the history with it. A sequence without literals skips the latest
offset, and its last index is that offset less 1. -/
def Offsets.resolve (h : Offsets) (q : RawSequence) : Nat × Offsets :=
  if 3 < q.offset then (q.offset - 3, ⟨q.offset - 3, h.first, h.second⟩)
  else match q.offset + if q.copy = 0 then 1 else 0 with
  | 1 => (h.first, h)
  | 2 => (h.second, ⟨h.second, h.first, h.third⟩)
  | 3 => (h.third, ⟨h.third, h.first, h.second⟩)
  | _ => (h.first - 1, ⟨h.first - 1, h.first, h.second⟩)

def Offsets.sequences : Offsets → List RawSequence → List Sequence
  | _, [] => []
  | h, q :: qs => ⟨q.copy, q.length + 3, (h.resolve q).1⟩ :: (h.resolve q).2.sequences qs

def Offsets.after (h : Offsets) (qs : List RawSequence) : Offsets :=
  qs.foldl (fun h q => (h.resolve q).2) h

/-- The sequences and the history behind them, if all offsets are valid. -/
def Offsets.result (h : Offsets) (qs : List RawSequence) : Option (List Sequence × Offsets) :=
  if ∀ s ∈ h.sequences qs, s.dist ≠ 0 then some (h.sequences qs, h.after qs) else none

section
variable {h h' : Offsets} {q : RawSequence} {qs qs' : List RawSequence} {ss : List Sequence}

theorem Offsets.sequences_append (h : Offsets) (qs qs' : List RawSequence) :
    h.sequences (qs ++ qs') = h.sequences qs ++ (h.after qs).sequences qs' := by
  induction qs generalizing h with
  | nil => rfl
  | cons q qs ih =>
    rw [cons_append, sequences, ih, sequences, cons_append]
    rfl

theorem Offsets.result_eq_some (hresult : h.result qs = some (ss, h')) :
    h' = h.after qs ∧ ∀ s ∈ h.sequences qs, s.dist ≠ 0 := by
  rw [result] at hresult
  split at hresult
  · rename_i hvalid
    rw [Option.some.injEq, Prod.mk.injEq] at hresult
    exact ⟨hresult.2.symm, hvalid⟩
  · cases hresult

theorem Offsets.result_append (h : Offsets) (qs qs' : List RawSequence) :
    h.result (qs ++ qs') = (h.result qs).bind fun r =>
      (r.2.result qs').map fun r' => (r.1 ++ r'.1, r'.2) := by
  have hafter : h.after (qs ++ qs') = (h.after qs).after qs' := foldl_append
  unfold result
  rw [sequences_append, hafter]
  by_cases hvalid : ∀ s ∈ h.sequences qs, s.dist ≠ 0
  · rw [if_pos hvalid, Option.bind_some]
    by_cases hvalid' : ∀ s ∈ (h.after qs).sequences qs', s.dist ≠ 0
    · rw [if_pos hvalid', if_pos (forall_mem_append.mpr ⟨hvalid, hvalid'⟩), Option.map_some]
    · rw [if_neg hvalid', if_neg fun hall => hvalid' (forall_mem_append.mp hall).2, Option.map_none]
  · rw [if_neg hvalid, if_neg fun hall => hvalid (forall_mem_append.mp hall).1, Option.bind_none]

theorem Offsets.InRange.resolve (hh : h.InRange) (hq : q.InRange) (hne : (h.resolve q).1 ≠ 0) :
    (h.resolve q).2.InRange := by
  have hlt := hq.offset_lt
  have hfirst := hh.first
  unfold Offsets.resolve at hne ⊢
  split at hne
  · rename_i hnew
    rw [if_pos hnew]
    exact ⟨⟨by dsimp only; omega, by dsimp only; omega⟩, hh.first, hh.second⟩
  · rename_i hold
    rw [if_neg hold]
    split at hne
    · exact hh
    · exact ⟨hh.second, hh.first, hh.third⟩
    · exact ⟨hh.third, hh.first, hh.second⟩
    · exact ⟨⟨pos_of_ne_zero hne, by dsimp only; omega⟩, hh.first, hh.second⟩

theorem Offsets.InRange.result (hh : h.InRange) (hqs : ∀ q ∈ qs, q.InRange)
    (hresult : h.result qs = some (ss, h')) : h'.InRange := by
  obtain ⟨rfl, hvalid⟩ := Offsets.result_eq_some hresult
  clear hresult
  induction qs generalizing h with
  | nil => exact hh
  | cons q qs ih =>
    rw [Offsets.sequences, forall_mem_cons] at hvalid
    exact ih (hh.resolve (hqs q (by simp)) hvalid.1) (fun q hq => hqs q (by simp [hq])) hvalid.2

end

/-! ## One sequence -/

def SequencesState.offsets (s : SequencesState) : Offsets := ⟨s.dist1, s.dist2, s.dist3⟩

section
variable {s : SequencesState} {q : RawSequence}

theorem usedDist_spec (hs : s.offsets.InRange) (hq : q.InRange) :
    ∃ s', usedDist s q.copy q.offset = .ok ((s.offsets.resolve q).1, s') ∧
      ({ s' with dist1 := (s.offsets.resolve q).1 } : SequencesState).offsets =
        (s.offsets.resolve q).2 := by
  have hpos := hq.offset_pos
  have hfirst : 1 ≤ s.dist1 ∧ s.dist1 ≤ 2 ^ 29 := hs.first
  rw [usedDist, Offsets.resolve]
  by_cases hnew : 3 < q.offset
  · rw [if_pos hnew, if_pos hnew]
    exact ⟨_, rfl, rfl⟩
  have hthree : q.offset = 1 ∨ q.offset = 2 ∨ q.offset = 3 := by omega
  by_cases hcopy : q.copy = 0
  · rw [if_pos hcopy, if_pos hcopy]
    rcases hthree with heq | heq | heq
    · rw [heq]
      exact ⟨_, rfl, rfl⟩
    · rw [heq]
      exact ⟨_, rfl, rfl⟩
    · -- the offset less 1, which does not wrap
      have hless : (s.dist1 + 2 ^ 32 - 1) % 2 ^ 32 = s.dist1 - 1 := by omega
      rw [heq, hless]
      exact ⟨_, rfl, rfl⟩
  · rw [if_neg hcopy, if_neg hcopy]
    rcases hthree with heq | heq | heq
    · rw [heq]
      exact ⟨_, rfl, rfl⟩
    · rw [heq]
      exact ⟨_, rfl, rfl⟩
    · rw [heq]
      exact ⟨_, rfl, rfl⟩

/-- The fields of a packed sequence keep to their bits. -/
theorem unpack_packed {copy length dist} (hcopy : copy < 2 ^ 17) (hlength : length < 2 ^ 17)
    (hpos : dist ≠ 0) (hdist : dist ≤ 2 ^ 29) :
    Sequence.unpack ((copy ||| length <<< 17 ||| (dist - 1) <<< 34) % 2 ^ 64) =
      ⟨copy, length + 3, dist⟩ := by
  have hword : copy ||| length <<< 17 ||| (dist - 1) <<< 34 =
      packWord [⟨0, 17, copy⟩, ⟨17, 17, length⟩, ⟨34, 30, dist - 1⟩] := by
    simp [packWord, Nat.or_assoc]
  have hdisjoint : ([⟨0, 17, copy⟩, ⟨17, 17, length⟩, ⟨34, 30, dist - 1⟩] : List BitField).Pairwise
      fun f g => f.offset + f.size ≤ g.offset := by simp
  have hfits : ∀ f ∈ ([⟨0, 17, copy⟩, ⟨17, 17, length⟩, ⟨34, 30, dist - 1⟩] : List BitField),
      f.value < 2 ^ f.size := by
    simp only [forall_mem_cons]
    exact ⟨hcopy, hlength, show dist - 1 < 2 ^ 30 by omega, by simp⟩
  have hfield {f : BitField} (hf : f ∈ [⟨0, 17, copy⟩, ⟨17, 17, length⟩, ⟨34, 30, dist - 1⟩]) :=
    packWord_field hdisjoint hfits hf
  have hfst := hfield (f := ⟨0, 17, copy⟩) (by simp)
  have hsnd := hfield (f := ⟨17, 17, length⟩) (by simp)
  have hthd := hfield (f := ⟨34, 30, dist - 1⟩) (by simp)
  dsimp only at hfst hsnd hthd
  rw [hword, Sequence.unpack, sequenceCopy, sequenceLength, sequenceDist, shiftRight_eq_div_pow,
    shiftRight_eq_div_pow, show 0x1ffff = 2 ^ 17 - 1 by rfl, and_two_pow_sub_one_eq_mod,
    and_two_pow_sub_one_eq_mod, Sequence.mk.injEq]
  omega

theorem Offsets.InRange.resolve_le {h : Offsets} (hh : h.InRange) (hq : q.InRange) :
    (h.resolve q).1 ≤ 2 ^ 29 := by
  have hlt := hq.offset_lt
  have hfirst := hh.first
  unfold Offsets.resolve
  split
  · omega
  · split
    · exact hh.first.2
    · exact hh.second.2
    · exact hh.third.2
    · omega

/-- What a packed sequence and the state behind it say. -/
def unpacked (r : List Nat × SequencesState) : List Sequence × Offsets :=
  (r.1.map Sequence.unpack, r.2.offsets)

theorem packSequence_spec (hs : s.offsets.InRange) (hq : q.InRange) :
    ∃ r, packSequence s q.copy q.length q.offset = .ok r ∧
      (r.map fun x => unpacked ([x.1], x.2)) = s.offsets.result [q] := by
  obtain ⟨s', hused, hoffsets⟩ := usedDist_spec hs hq
  have hle := hs.resolve_le hq
  rw [packSequence, hused]
  change ∃ r, (if (s.offsets.resolve q).1 = 0 then _ else _) = Except.ok r ∧ _
  by_cases hzero : (s.offsets.resolve q).1 = 0
  · rw [if_pos hzero]
    refine ⟨none, rfl, ?_⟩
    rw [Offsets.result, if_neg fun hvalid => hvalid _ (mem_singleton.mpr rfl) hzero, Option.map_none]
  · rw [if_neg hzero, if_neg (not_not.mpr ⟨hq.copy_lt, hq.length_lt⟩)]
    refine ⟨_, rfl, ?_⟩
    have hvalid : ∀ x ∈ s.offsets.sequences [q], x.dist ≠ 0 := by
      intro x hx
      rw [mem_singleton.mp hx]
      exact hzero
    rw [Offsets.result, if_pos hvalid, Option.map_some, unpacked, map_singleton,
      unpack_packed hq.copy_lt hq.length_lt hzero hle, hoffsets]
    rfl

end

/-! ## Rounds and blocks -/

/-- A loop over items, each of which appends to the packed sequences. -/
def packLoop {σ α : Type} (step : σ → α → Except Fault (Option (List Nat × σ))) :
    σ → List α → Except Fault (Option (List Nat × σ))
  | s, [] => .ok (some ([], s))
  | s, a :: as => do
    match ← step s a with
    | none => pure none
    | some (packed, s) =>
      match ← packLoop step s as with
      | none => pure none
      | some (rest, s) => pure (some (packed ++ rest, s))

def packOne (s : SequencesState) (q : RawSequence) :
    Except Fault (Option (List Nat × SequencesState)) := do
  pure ((← packSequence s q.copy q.length q.offset).map fun r => ([r.1], r.2))

/-- The loop of `decode_sequences`, as far as it packs what has been read. -/
def packSequences : SequencesState → List RawSequence →
    Except Fault (Option (List Nat × SequencesState)) :=
  packLoop packOne

def packRounds : SequencesState → List (List RawSequence) →
    Except Fault (Option (List Nat × SequencesState)) :=
  packLoop packSequences

/-- `init_sequences`, as far as it loads the history. -/
def SequencesState.load (s : SequencesState) (tables : DecTables) : SequencesState :=
  { s with dist1 := tables.dist1 % 2 ^ 32, dist2 := tables.dist2 % 2 ^ 32, dist3 := tables.dist3 % 2 ^ 32 }

/-- `finish_sequences`, as far as it stores the history. -/
def SequencesState.save (s : SequencesState) (tables : DecTables) : DecTables :=
  { tables with dist1 := s.dist1, dist2 := s.dist2, dist3 := s.dist3 }

/-- The rounds of a block, whose state has something else at its beginning but the history. -/
def packBlock (tables : DecTables) (block : SequencesState × List (List RawSequence)) :
    Except Fault (Option (List Nat × DecTables)) := do
  pure ((← packRounds (block.1.load tables) block.2).map fun r => (r.1, r.2.save tables))

def packBlocks : DecTables → List (SequencesState × List (List RawSequence)) →
    Except Fault (Option (List Nat × DecTables)) :=
  packLoop packBlock

def DecTables.offsets (tables : DecTables) : Offsets := ⟨tables.dist1, tables.dist2, tables.dist3⟩

section
variable {σ α : Type} {step : σ → α → Except Fault (Option (List Nat × σ))} (view : σ → Offsets)
  (raw : α → List RawSequence)

/-- If every item is unpacked to what the format says, so is the list. -/
theorem packLoop_spec (hstep : ∀ s a, (view s).InRange → (∀ q ∈ raw a, q.InRange) →
      ∃ r, step s a = .ok r ∧
        (r.map fun x => (x.1.map Sequence.unpack, view x.2)) = (view s).result (raw a))
    {s} (hs : (view s).InRange) {as : List α} (has : ∀ a ∈ as, ∀ q ∈ raw a, q.InRange) :
    ∃ r, packLoop step s as = .ok r ∧
      (r.map fun x => (x.1.map Sequence.unpack, view x.2)) = (view s).result (as.flatMap raw) := by
  induction as generalizing s with
  | nil => exact ⟨_, rfl, rfl⟩
  | cons a as ih =>
    obtain ⟨hraw, htail⟩ := forall_mem_cons.mp has
    obtain ⟨r, hrun, hr⟩ := hstep s a hs hraw
    rw [packLoop, hrun, flatMap_cons, Offsets.result_append, ← hr]
    cases r with
    | none => exact ⟨none, rfl, rfl⟩
    | some x =>
      obtain ⟨packed, s'⟩ := x
      obtain ⟨r', hrun', hr'⟩ := ih (hs.result hraw hr.symm) htail
      change ∃ r, (packLoop step s' as >>= _) = Except.ok r ∧ _
      rw [hrun', Option.map_some, Option.bind_some, ← hr']
      cases r' with
      | none => exact ⟨none, rfl, rfl⟩
      | some y => exact ⟨_, rfl, by simp⟩

end

section
variable {s : SequencesState} {tables : DecTables}

theorem packOne_spec (hs : s.offsets.InRange) {q : RawSequence} (hq : q.InRange) :
    ∃ r, packOne s q = .ok r ∧ r.map unpacked = s.offsets.result [q] := by
  obtain ⟨r, hrun, hr⟩ := packSequence_spec hs hq
  rw [packOne, hrun]
  refine ⟨_, rfl, ?_⟩
  rw [Option.map_map]
  exact hr

theorem packSequences_spec (hs : s.offsets.InRange) {qs} (hqs : ∀ q ∈ qs, q.InRange) :
    ∃ r, packSequences s qs = .ok r ∧ r.map unpacked = s.offsets.result qs := by
  have hspec : ∃ r, packSequences s qs = .ok r ∧
      r.map unpacked = s.offsets.result (qs.flatMap fun q => [q]) :=
    packLoop_spec SequencesState.offsets (fun q => [q])
      (fun _ q hs hq => packOne_spec hs (hq q (mem_singleton.mpr rfl))) hs
      (fun q hq => forall_mem_singleton.mpr (hqs q hq))
  rwa [flatMap_singleton'] at hspec

theorem packRounds_spec (hs : s.offsets.InRange) {rounds : List (List RawSequence)}
    (hrounds : ∀ qs ∈ rounds, ∀ q ∈ qs, q.InRange) :
    ∃ r, packRounds s rounds = .ok r ∧ r.map unpacked = s.offsets.result rounds.flatten := by
  rw [← flatMap_id']
  exact packLoop_spec SequencesState.offsets (fun qs => qs) (fun _ _ hs hqs => packSequences_spec hs hqs) hs
    hrounds

/-- The history fits the registers it is loaded into. -/
theorem load_offsets (h : tables.offsets.InRange) : (s.load tables).offsets = tables.offsets := by
  have hfirst : tables.dist1 ≤ 2 ^ 29 := h.first.2
  have hsecond : tables.dist2 ≤ 2 ^ 29 := h.second.2
  have hthird : tables.dist3 ≤ 2 ^ 29 := h.third.2
  rw [SequencesState.offsets, DecTables.offsets, Offsets.mk.injEq]
  change tables.dist1 % 2 ^ 32 = _ ∧ tables.dist2 % 2 ^ 32 = _ ∧ tables.dist3 % 2 ^ 32 = _
  omega

theorem packBlock_spec (h : tables.offsets.InRange) {block}
    (hblock : ∀ q ∈ block.2.flatten, q.InRange) : ∃ r, packBlock tables block = .ok r ∧
      (r.map fun x => (x.1.map Sequence.unpack, x.2.offsets)) = tables.offsets.result block.2.flatten := by
  obtain ⟨r, hrun, hr⟩ := packRounds_spec ((load_offsets h).symm ▸ h : (block.1.load tables).offsets.InRange)
    (fun qs hqs q hq => hblock q (mem_flatten.mpr ⟨qs, hqs, hq⟩))
  rw [packBlock, hrun, ← load_offsets h, ← hr]
  refine ⟨_, rfl, ?_⟩
  rw [Option.map_map]
  rfl

end

/-- The state that `init_sequences` sets up has the history of the tables. -/
theorem initSequences_load {unaligned inp lo hi start stop tables} {s : SequencesState}
    (h : initSequences unaligned inp lo hi start stop tables = .ok (some s)) : s = s.load tables := by
  rw [initSequences] at h
  split at h
  · cases h
  dsimp only at h
  split at h
  · cases h
  obtain ⟨r, -, h⟩ := except_bind_eq_ok h
  match r, h with
  | some ((_, _, _), _), h => cases h; rfl

/-- Sequences that are packed in the rounds of any blocks and unpacked again are those of the format, and
so is the history behind them. They are rejected if an offset is zero, and only then. -/
theorem packBlocks_format (tables : DecTables) (h : tables.offsets.InRange)
    (blocks : List (SequencesState × List (List RawSequence)))
    (hblocks : ∀ block ∈ blocks, ∀ q ∈ block.2.flatten, q.InRange) :
    ∃ r, packBlocks tables blocks = .ok r ∧
      (r.map fun x => (x.1.map Sequence.unpack, x.2.offsets)) =
        tables.offsets.result (blocks.flatMap fun block => block.2.flatten) :=
  packLoop_spec DecTables.offsets
    (fun block : SequencesState × List (List RawSequence) => block.2.flatten)
    (fun _ _ h hqs => packBlock_spec h hqs) h hblocks

/-- Two rounds: the third offset, without literals, and then a new one. -/
theorem packBlocks_two_rounds :
    ∃ r, packBlocks { noTables with dist1 := 1, dist2 := 4, dist3 := 8 }
        [(⟨⟨0, 0, 0⟩, 0, 0, 0, 0, 0, 0⟩, [[⟨0, 5, 2⟩], [⟨7, 0, 10⟩]])] = .ok r ∧
      (r.map fun x => (x.1.map Sequence.unpack, x.2.offsets)) =
        some ([⟨0, 8, 8⟩, ⟨7, 3, 7⟩], ⟨7, 8, 1⟩) := by
  refine packBlocks_format _ ⟨by decide, by decide, by decide⟩ _ fun block hblock q hq => ?_
  rw [mem_singleton.mp hblock] at hq
  simp only [flatten_cons, flatten_nil, append_nil, singleton_append, mem_cons,
    not_mem_nil, or_false] at hq
  rcases hq with rfl | rfl
  · exact ⟨by decide, by decide, by decide, by decide⟩
  · exact ⟨by decide, by decide, by decide, by decide⟩

end Rkboot.Compression.Zstd
