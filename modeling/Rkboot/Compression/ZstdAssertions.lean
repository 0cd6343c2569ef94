import Rkboot.Compression.ZstdTree
import Rkboot.Compression.ZstdRetry
import Rkboot.Lib.Stops

/-! # Assertions and malformed blocks

Which blocks make an assertion of the decoder fail. There are three ways: an FSE description that
gives all of a table to one symbol, Huffman literals of size 0, and literals in four streams that are
too few for the last stream to have any. Everything else a block can contain is rejected or decoded. -/
namespace Rkboot.Compression.Zstd
open Lib Lzcommon Nat Exec

/-! ## Distributions -/

section
variable {inp : Nat → UInt8} {stop size maxSym : Nat}

theorem zeroRepeats_ne_assertion (fuel : Nat) (b : DistBits) (sym : Nat) (weights : Nat → Nat) :
    zeroRepeats inp stop size maxSym fuel b sym weights ≠ .error .assertion := by
  induction fuel generalizing b sym weights with
  | zero => rintro ⟨⟩
  | succ fuel ih =>
    rw [zeroRepeats]
    split
    · simp
    refine ite_ne_error (by simp) fun _ => ite_ne_error (by simp) fun _ => ?_
    exact ite_ne_error (ih _ _ _) fun _ => by simp

/-- A probability that is read is never more than what is left. -/
theorem distLoop_ne_assertion (fuel : Nat) (b : DistBits) (left sym : Nat) (weights : Nat → Nat) :
    distLoop inp stop size maxSym fuel b left sym weights ≠ .error .assertion := by
  induction fuel generalizing b left sym weights with
  | zero => rintro ⟨⟩
  | succ fuel ih =>
    refine ite_ne_error (by simp) fun _ => ?_
    split
    · simp
    rename_i val b' hprob
    refine ite_ne_error ?_ fun _ => ?_
    · refine except_bind_ne_error (zeroRepeats_ne_assertion _ _ _ _) fun r _ => ?_
      rcases r with _ | ⟨b, sym, weights⟩
      · rintro ⟨⟩
      · exact ih _ _ _ _
    have hle := readProb_le hprob
    rw [if_neg (by omega)]
    exact ite_ne_error (by simp) fun _ => ih _ _ _ _

theorem fseDecodeDistribution_ne_assertion (start : Nat) :
    fseDecodeDistribution inp stop start size maxSym ≠ .error .assertion := by
  exact ite_ne_error nofun fun _ =>
    except_bind_ne_error (distLoop_ne_assertion _ _ _ _ _) fun _ _ => nofun

/-- A description in which no two symbols have a probability other than 0. -/
def CertainSymbol (inp : Nat → UInt8) (start stop size maxSym maxLog : Nat) : Prop :=
  ∃ log ptr w, fseDecodeDistribution inp stop start size maxSym = .ok (some (log, some (ptr, w))) ∧
    log ≤ maxLog ∧ ∀ a b, a < b → b < maxSym → w a = 1 ∨ w b = 1

theorem fseBuildTable_asserts_iff {log numSym} {d : Nat → Nat} (hlog : 5 ≤ log ∧ log ≤ 20)
    (hsym : numSym ≤ 64) (hgiven : given d numSym = 2 ^ log) (t : Nat → Nat) :
    fseBuildTable log numSym d t = .error .assertion ↔
      ∀ a b, a < b → b < numSym → d a = 1 ∨ d b = 1 := by
  by_cases htwo : ∃ a b, a < b ∧ b < numSym ∧ d a ≠ 1 ∧ d b ≠ 1
  · obtain ⟨raw, t', hrun, -⟩ := fseBuildTable_built hlog hsym ⟨hgiven, htwo⟩ t
    obtain ⟨a, b, hab, hb, hda, hdb⟩ := htwo
    rw [hrun]
    refine ⟨nofun, fun h => ?_⟩
    exact absurd (h a b hab hb) (not_or.mpr ⟨hda, hdb⟩)
  · rw [fseBuildTable_certain hlog hsym hgiven htwo]
    refine ⟨fun _ a b hab hb => ?_, fun _ => rfl⟩
    by_contra h
    obtain ⟨hda, hdb⟩ := not_or.mp h
    exact htwo ⟨a, b, hab, hb, hda, hdb⟩

end

/-! ## Tree descriptions -/

section
variable {inp : Nat → UInt8} {start stop : Nat}

theorem fseHuffWeights_asserts_iff (header : Nat) :
    fseHuffWeights inp start stop header = .error .assertion ↔ CertainSymbol inp start stop 12 12 6 := by
  rw [fseHuffWeights, except_bind_eq_error, or_iff_right (fseDecodeDistribution_ne_assertion start)]
  constructor
  · rintro ⟨r, hdist, h⟩
    match r with
    | none => cases h
    | some (_, none) => cases h
    | some (log, some (ptr, w)) =>
      obtain ⟨hgiven, hlog⟩ := fseDecodeDistribution_given hdist
      dsimp only at h
      split at h
      · cases h
      rename_i hlog6
      refine ⟨log, ptr, w, hdist, not_lt.mp hlog6, ?_⟩
      rcases except_bind_eq_error.mp h with h | ⟨t, hbuild, h⟩
      · exact (fseBuildTable_asserts_iff hlog (by decide) hgiven _).mp h
      · split at h
        · cases h
        have htable := fseBuildTable_table hlog (by decide) hgiven hbuild
        obtain ⟨r, hstream, -⟩ := weightStream_ok (not_lt.mp hlog6)
          (fun i => weightEntry_of_table hlog.2 hgiven htable) inp start ptr header
        rw [hstream] at h
        cases h
  · rintro ⟨log, ptr, w, hdist, hlog6, hcertain⟩
    obtain ⟨hgiven, hlog⟩ := fseDecodeDistribution_given hdist
    refine ⟨_, hdist, ?_⟩
    dsimp only
    rw [if_neg (not_lt.mpr hlog6), (fseBuildTable_asserts_iff hlog (by decide) hgiven _).mpr hcertain]
    rfl

/-- Weights that were read give a tree or none. -/
theorem buildTree_returns {ws : Weights} (h : ws.Sound) (tables : DecTables) :
    ∃ r, buildTree ws tables = .ok r := by
  by_cases hlast : ∃ last maxbits, Completes ws.sum last maxbits ∧ maxbits ≤ 11
  · obtain ⟨last, maxbits, hlast, hmax⟩ := hlast
    obtain ⟨table, order, hbuild, -⟩ := buildTree_completed h hlast hmax tables
    exact ⟨_, hbuild⟩
  · refine ⟨none, buildTree_rejected h (fun last maxbits hlast' => ?_) tables⟩
    by_contra hmax
    exact hlast ⟨last, maxbits, hlast', not_lt.mp hmax⟩

/-- A tree description whose weights have a certain symbol. -/
def CertainTree (inp : Nat → UInt8) (start stop : Nat) : Prop :=
  start < stop ∧ (inp start).toNat < 128 ∧ CertainSymbol inp (start + 1) stop 12 12 6

theorem treeDescription_asserts_iff (tables : DecTables) :
    zstdDecodeTreeDescription inp start stop tables = .error .assertion ↔ CertainTree inp start stop := by
  constructor
  · intro h
    rw [zstdDecodeTreeDescription] at h
    split at h
    · cases h
    rename_i hstart
    dsimp only at h
    split at h
    · rename_i hheader
      rcases except_bind_eq_error.mp h with h | ⟨r, hweights, h⟩
      · exact ⟨by omega, hheader, (fseHuffWeights_asserts_iff _).mp h⟩
      · cases r with
        | none => cases h
        | some ws =>
          obtain ⟨r, hbuild⟩ := buildTree_returns (fseHuffWeights_sound hweights) tables
          dsimp only at h
          rw [hbuild] at h
          cases r <;> cases h
    · split at h
      · cases h
      have hbyte := (inp start).toNat_lt
      obtain ⟨ws, hweights, hsound, -⟩ := directHuffWeights_ok inp (start + 1)
        (show (inp start).toNat - 127 ≤ 255 by omega)
      obtain ⟨r, hbuild⟩ := buildTree_returns hsound tables
      rw [hweights] at h
      change buildTree ws tables >>= _ = _ at h
      rw [hbuild] at h
      cases r <;> cases h
  · rintro ⟨hstart, hheader, hcertain⟩
    rw [zstdDecodeTreeDescription, if_neg (by omega)]
    rw [if_pos hheader, (fseHuffWeights_asserts_iff _).mpr hcertain]
    rfl

theorem literalTables_asserts_iff {probe : LiteralsProbe} (tables : DecTables) :
    literalTables inp probe tables = .error .assertion ↔
      (∃ one, probe.kind = .huff false one) ∧ CertainTree inp probe.start probe.stop := by
  rw [literalTables]
  split
  · rename_i one hkind
    rw [except_bind_eq_error, treeDescription_asserts_iff]
    constructor
    · rintro (h | ⟨r, -, h⟩)
      · exact ⟨⟨one, hkind⟩, h⟩
      · cases h
    · exact fun h => .inl h.2
  · rename_i one hkind
    refine ⟨fun h => ?_, fun h => ?_⟩
    · split at h <;> cases h
    · obtain ⟨⟨one', h⟩, -⟩ := h
      rw [hkind] at h
      cases h
  · rename_i hkind _
    refine ⟨by simp, fun h => ?_⟩
    obtain ⟨⟨one, h⟩, -⟩ := h
    exact absurd h (hkind one)

end

/-! ## Literals -/

section
variable {inp : Nat → UInt8} {lo hi : Nat} {start : Option Nat} {table : Nat → UInt8 × Nat}
  {stop out outEnd : Nat} {m : Mem}

theorem load_ne_assertion (fuel : Nat) (b : LitBits) :
    b.load inp lo hi start fuel ≠ .error .assertion := by
  induction fuel generalizing b with
  | zero => exact nofun
  | succ fuel ih =>
    exact ite_ne_error nofun fun _ => ite_ne_error nofun fun _ => ite_ne_error (ih _) fun _ => nofun

theorem entry_ne_assertion (fuel : Nat) (b : LitBits) :
    b.entry inp lo hi start table fuel ≠ .error .assertion := by
  induction fuel generalizing b with
  | zero => exact nofun
  | succ fuel ih =>
    refine ite_ne_error (ite_ne_error nofun fun _ => nofun) fun _ => ite_ne_error nofun fun _ => ?_
    exact except_bind_ne_error (load_ne_assertion _ _) fun b' _ => ih b'

theorem literalLoop_spared (n out : Nat) (b : LitBits) :
    Exec.Spared .assertion (literalLoop inp lo hi start table n out b) := by
  induction n generalizing out b with
  | zero => exact .pure _
  | succ n ih =>
    refine (Exec.Spared.lift (entry_ne_assertion 6 b)).bind fun e => ?_
    match e with
    | none => exact .pure _
    | some ((sym, len), b') => exact (Exec.Spared.returns fun m => ⟨_, _, rfl⟩).bind fun _ => ih _ _

theorem stream_asserts_iff : (zstdDecompressLiteralStream inp lo hi start table stop out outEnd).Stops
    .assertion m ↔ outEnd ≤ out := by
  rw [zstdDecompressLiteralStream, stops_bind_assert, decide_eq_false_iff_not, not_lt, or_iff_left]
  rintro ⟨-, h⟩
  refine Exec.Spared.ite (fun _ => .pure _) (fun _ => ?_) m h
  refine (Exec.Spared.fetch _ _ _ _).bind fun last => .ite (fun _ => .pure _) fun _ => ?_
  refine (literalLoop_spared _ _ _).bind fun b => ?_
  cases b <;> exact .pure _

/-- `n` literals are decoded from a stream, wherever they are written. -/
def StreamDecodes (inp : Nat → UInt8) (lo hi start stop n : Nat) (table : Nat → UInt8 × Nat) : Prop :=
  ∃ l, Produces (fun o => zstdDecompressLiteralStream inp lo hi (some start) table stop o (o + n)) true l

theorem streamDecodes_iff {s n} (out : Nat) (m : Mem) : StreamDecodes inp lo hi s stop n table ↔
    ∃ m', (zstdDecompressLiteralStream inp lo hi (some s) table stop out (out + n)).run m = .ok true m' := by
  constructor
  · rintro ⟨l, hl⟩
    obtain ⟨m', hrun, -⟩ := hl out m
    exact ⟨m', hrun⟩
  · rintro ⟨m', hrun⟩
    obtain ⟨-, l, -, hl⟩ := stream_produces hrun
    rw [Nat.add_sub_cancel_left] at hl
    exact ⟨l, hl⟩

/-- Literals in four streams that are all decoded, but for the last one, which is to have none. -/
structure EmptyFourth (inp : Nat → UInt8) (lo hi start stop size : Nat) (table : Nat → UInt8 × Nat) :
    Prop where
  header : 10 ≤ stop - start
  sizes : leWord inp start 2 + leWord inp (start + 2) 2 + leWord inp (start + 4) 2 + 1 ≤
    stop - (start + 6)
  empty : size ≤ 3 * ((size + 3) / 4)
  first : size ≠ 0 → StreamDecodes inp lo hi (start + 6) (start + 6 + leWord inp start 2)
    ((size + 3) / 4) table
  second : size ≠ 0 → StreamDecodes inp lo hi (start + 6 + leWord inp start 2)
    (start + 6 + leWord inp start 2 + leWord inp (start + 2) 2) ((size + 3) / 4) table
  third : size ≠ 0 → StreamDecodes inp lo hi (start + 6 + leWord inp start 2 + leWord inp (start + 2) 2)
    (start + 6 + leWord inp start 2 + leWord inp (start + 2) 2 + leWord inp (start + 4) 2)
    ((size + 3) / 4) table

/-- `if (!x) {return 0;} return y;` -/
theorem stops_guard {x y : Exec Bool} : (do
      let ok ← x
      if !ok then pure false else y : Exec Bool).Stops .assertion m ↔
    x.Stops .assertion m ∨ ∃ m', x.run m = .ok true m' ∧ y.Stops .assertion m' := by
  rw [stops_bind]
  refine or_congr_right ⟨?_, ?_⟩
  · rintro ⟨ok, m', hrun, h⟩
    cases ok with
    | false => exact absurd h (not_stops_pure _)
    | true => exact ⟨m', hrun, h⟩
  · rintro ⟨m', hrun, h⟩
    exact ⟨true, m', hrun, h⟩

/-- The next of three streams of `n` literals, and what comes after it. -/
theorem stream_guard_iff {s n} {y : Exec Bool} {p : Prop} (hn : n ≠ 0)
    (hy : ∀ m, y.Stops .assertion m ↔ p) : (do
      let ok ← zstdDecompressLiteralStream inp lo hi (some s) table stop out (out + n)
      if !ok then pure false else y : Exec Bool).Stops .assertion m ↔
    StreamDecodes inp lo hi s stop n table ∧ p := by
  rw [stops_guard, stream_asserts_iff, or_iff_right (by omega), streamDecodes_iff out m]
  constructor
  · rintro ⟨m', hrun, h⟩
    exact ⟨⟨m', hrun⟩, (hy m').mp h⟩
  · rintro ⟨⟨m', hrun⟩, h⟩
    exact ⟨m', hrun, (hy m').mpr h⟩

theorem huff4_asserts_iff {n} :
    (zstdDecodeHuff4streams inp lo hi start stop out (out + n) table).Stops .assertion m ↔
      ∃ s, start = some s ∧ EmptyFourth inp lo hi s stop n table := by
  unfold zstdDecodeHuff4streams
  cases start with
  | none =>
    refine ⟨nofun, ?_⟩
    rintro ⟨s, hs, -⟩
    cases hs
  | some s =>
    simp only [Option.some.injEq, exists_eq_left', Nat.add_sub_cancel_left]
    rw [stops_unless, stops_unless, not_lt, not_lt]
    refine Iff.trans (and_congr_right fun hheader => and_congr_right fun hsizes => ?_)
      ⟨fun h => h.2.2, fun h => ⟨h.header, h.sizes, h⟩⟩
    rcases Nat.eq_zero_or_pos n with rfl | hn
    · -- the first stream is empty already
      refine stops_guard.trans ⟨fun _ => ?_, fun _ => .inl (stream_asserts_iff.mpr le_rfl)⟩
      exact ⟨hheader, hsizes, by decide, fun h => absurd rfl h, fun h => absurd rfl h,
        fun h => absurd rfl h⟩
    · have hd : (n + 3) / 4 ≠ 0 := by omega
      refine (stream_guard_iff hd fun _ => stream_guard_iff hd fun _ => stream_guard_iff hd
        fun _ => stream_asserts_iff).trans ⟨?_, fun h => ?_⟩
      · rintro ⟨hfirst, hsecond, hthird, hempty⟩
        exact ⟨hheader, hsizes, by omega, fun _ => hfirst, fun _ => hsecond, fun _ => hthird⟩
      · have hempty := h.empty
        exact ⟨h.first hn.ne', h.second hn.ne', h.third hn.ne', by omega⟩

/-- Huffman literals with a stream that is to have none. -/
def EmptyStream (inp : Nat → UInt8) (lo hi : Nat) (start : Option Nat) (stop size : Nat)
    (kind : LiteralsKind) (table : Nat → UInt8 × Nat) : Prop :=
  match kind with
  | .huff _ true => size = 0
  | .huff _ false => ∃ s, start = some s ∧ EmptyFourth inp lo hi s stop size table
  | _ => False

theorem decodeLiterals_asserts_iff {n} (kind : LiteralsKind) (tables : DecTables) :
    (decodeLiterals inp lo hi start stop out (out + n) kind tables).Stops .assertion m ↔
      EmptyStream inp lo hi start stop n kind tables.huffTable := by
  match kind, start with
  | .huff _ true, start => exact stream_asserts_iff.trans (by rw [EmptyStream]; omega)
  | .huff _ false, start => exact huff4_asserts_iff
  | .raw, none => exact stops_fault.trans ⟨nofun, False.elim⟩
  | .rle, none => exact stops_fault.trans ⟨nofun, False.elim⟩
  | .raw, some start =>
    obtain ⟨m', hrun, -⟩ := literalCopy_ok inp (.inl rfl : Separate .input out start (out + n - out)) m
    refine (stops_bind_of_ok hrun).trans ⟨fun h => absurd h (not_stops_pure _), False.elim⟩
  | .rle, some start =>
    refine (stops_bind_of_ok rfl).trans ⟨fun h => absurd h (not_stops_pure _), False.elim⟩

theorem placeLiterals_asserts_iff {probe : LiteralsProbe} (tables : DecTables) :
    (placeLiterals inp lo hi outEnd start probe tables).Stops .assertion m ↔
      EmptyStream inp lo hi start probe.stop probe.size probe.kind tables.huffTable := by
  unfold placeLiterals
  split
  · rename_i hkind
    rw [hkind]
    exact ⟨fun h => absurd h (not_stops_pure _), False.elim⟩
  · rw [stops_bind_spared, decodeLiterals_asserts_iff]
    rintro (_ | _) <;> exact .pure _

end

/-! ## Sequences -/

section
variable {inp : Nat → UInt8} {start stop : Nat}

/-- A table with a description that has a certain symbol. -/
def CertainTable (inp : Nat → UInt8) (start stop : Nat) (mode : TableMode) (settings : TableSettings) :
    Prop :=
  mode = .fseCompressedMode ∧ CertainSymbol inp start stop 64 settings.sym settings.maxLog

theorem checkedTable_asserts_iff {settings : TableSettings} (h : settings.Sound) {log}
    {w : Nat → Nat} (hlog : 5 ≤ log ∧ log ≤ 20) (hgiven : given w settings.sym = 2 ^ log) (ptr : Nat)
    (t : FseTable) : checkedTable settings ptr log w t = .error .assertion ↔
      log ≤ settings.maxLog ∧ ∀ a b, a < b → b < settings.sym → w a = 1 ∨ w b = 1 := by
  rw [checkedTable]
  by_cases hmax : settings.maxLog < log
  · rw [if_pos hmax]
    exact ⟨by simp, fun h => absurd h.1 (not_le.mpr hmax)⟩
  · rw [if_neg hmax, except_bind_eq_error, fseBuildTable_asserts_iff hlog h.sym hgiven,
      and_iff_right (not_lt.mp hmax)]
    exact or_iff_left (by rintro ⟨_, -, ⟨⟩⟩)

theorem handleDecodingTable_asserts_iff {settings : TableSettings} (h : settings.Sound)
    (mode : TableMode) (t : FseTable) :
    handleDecodingTable inp start stop mode settings t = .error .assertion ↔
      CertainTable inp start stop mode settings := by
  cases mode with
  | predefinedMode =>
    refine (checkedTable_asserts_iff h ⟨h.log, h.log_le.trans h.maxLog⟩ h.predef.given start t).trans
      ⟨fun hone => ?_, fun hone => nomatch hone.1⟩
    obtain ⟨a, b, hab, hb, hwa, hwb⟩ := h.predef.two
    exact absurd (hone.2 a b hab hb) (not_or.mpr ⟨hwa, hwb⟩)
  | rleMode =>
    refine ⟨fun hrun => ?_, fun hone => nomatch hone.1⟩
    rw [handleDecodingTable] at hrun
    split at hrun
    · cases hrun
    · dsimp only at hrun
      split at hrun <;> cases hrun
  | repeatMode =>
    refine ⟨fun hrun => ?_, fun hone => nomatch hone.1⟩
    rw [handleDecodingTable] at hrun
    split at hrun <;> cases hrun
  | fseCompressedMode =>
    refine except_bind_eq_error.trans ?_
    rw [or_iff_right (fseDecodeDistribution_ne_assertion start)]
    constructor
    · rintro ⟨r, hdist, hrun⟩
      match r with
      | none => cases hrun
      | some (_, none) => cases hrun
      | some (log, some (ptr, w)) =>
        obtain ⟨hgiven, hlog⟩ := fseDecodeDistribution_given hdist
        exact ⟨rfl, log, ptr, w, hdist, (checkedTable_asserts_iff h hlog hgiven ptr t).mp hrun⟩
    · rintro ⟨-, log, ptr, w, hdist, hone⟩
      obtain ⟨hgiven, hlog⟩ := fseDecodeDistribution_given hdist
      exact ⟨_, hdist, (checkedTable_asserts_iff h hlog hgiven ptr t).mpr hone⟩

/-- The first of the three tables that fails has a certain symbol. -/
inductive CertainTables (inp : Nat → UInt8) (start stop scm : Nat) (tables : DecTables) : Prop where
  | copy : CertainTable inp start stop (.ofBits (scm >>> 6 &&& 3)) copySettings →
      CertainTables inp start stop scm tables
  | dist {p : Nat} {t : FseTable} : handleDecodingTable inp start stop (.ofBits (scm >>> 6 &&& 3))
        copySettings ⟨tables.copyLog, tables.copyTable⟩ = .ok (some p, t) →
      CertainTable inp p stop (.ofBits (scm >>> 4 &&& 3)) distSettings →
      CertainTables inp start stop scm tables
  | length {p q : Nat} {t u : FseTable} : handleDecodingTable inp start stop
        (.ofBits (scm >>> 6 &&& 3)) copySettings ⟨tables.copyLog, tables.copyTable⟩ = .ok (some p, t) →
      handleDecodingTable inp p stop (.ofBits (scm >>> 4 &&& 3)) distSettings
        ⟨tables.distLog, tables.distTable⟩ = .ok (some q, u) →
      CertainTable inp q stop (.ofBits (scm >>> 2 &&& 3)) lengthSettings →
      CertainTables inp start stop scm tables

theorem sequenceTables_asserts_iff (scm : Nat) (tables : DecTables) :
    sequenceTables inp start stop scm tables = .error .assertion ↔
      CertainTables inp start stop scm tables := by
  constructor
  · intro h
    rcases except_bind_eq_error.mp h with h | ⟨⟨p, t⟩, hcopy, h⟩
    · exact .copy ((handleDecodingTable_asserts_iff copySettings_sound _ _).mp h)
    cases p with
    | none => cases h
    | some p =>
      rcases except_bind_eq_error.mp h with h | ⟨⟨q, u⟩, hdist, h⟩
      · exact .dist hcopy ((handleDecodingTable_asserts_iff distSettings_sound _ _).mp h)
      cases q with
      | none => cases h
      | some q =>
        rcases except_bind_eq_error.mp h with h | ⟨⟨r, v⟩, -, h⟩
        · exact .length hcopy hdist ((handleDecodingTable_asserts_iff lengthSettings_sound _ _).mp h)
        · cases h
  · intro h
    refine except_bind_eq_error.mpr ?_
    cases h with
    | copy h => exact .inl ((handleDecodingTable_asserts_iff copySettings_sound _ _).mpr h)
    | dist hcopy h =>
      refine .inr ⟨_, hcopy, except_bind_eq_error.mpr (.inl ?_)⟩
      exact (handleDecodingTable_asserts_iff distSettings_sound _ _).mpr h
    | length hcopy hdist h =>
      refine .inr ⟨_, hcopy, except_bind_eq_error.mpr (.inr ⟨_, hdist, ?_⟩)⟩
      refine except_bind_eq_error.mpr (.inl ?_)
      exact (handleDecodingTable_asserts_iff lengthSettings_sound _ _).mpr h

end

section
variable {unaligned : Bool} {inp : Nat → UInt8} {lo hi start : Nat} {tables : DecTables}

theorem refill_ne_assertion (total : Nat) (b : SeqBits) :
    b.refill unaligned inp lo hi start total ≠ .error .assertion := by
  unfold SeqBits.refill
  dsimp only
  repeat' split
  all_goals exact nofun

theorem decode3_ne_assertion (bitsA bitsB bitsC : Nat) (b : SeqBits) :
    decode3 unaligned inp lo hi start bitsA bitsB bitsC b ≠ .error .assertion := by
  refine except_bind_ne_error (refill_ne_assertion _ _) fun r _ => ?_
  cases r with
  | none => exact nofun
  | some b => exact ite_ne_error nofun fun _ => nofun

/-- Each value has the bits it was decoded from. -/
theorem decode3_lt {bitsA bitsB bitsC a b c s s'}
    (h : decode3 unaligned inp lo hi start bitsA bitsB bitsC s = .ok (some ((a, b, c), s'))) :
    b < 2 ^ bitsB ∧ c < 2 ^ bitsC := by
  have hmask (x n : Nat) : x &&& (1 <<< n - 1) < 2 ^ n := by
    rw [one_shiftLeft, and_two_pow_sub_one_eq_mod]
    exact mod_lt _ (Nat.two_pow_pos n)
  obtain ⟨_ | s₁, -, h⟩ := except_bind_eq_ok h
  · cases h
  dsimp only at h
  split at h
  · cases h
  · cases h
    exact ⟨hmask _ _, hmask _ _⟩

theorem initSequences_ne_assertion (stop : Nat) :
    initSequences unaligned inp lo hi start stop tables ≠ .error .assertion := by
  refine ite_ne_error nofun fun _ => ite_ne_error nofun fun _ => ?_
  refine except_bind_ne_error (decode3_ne_assertion _ _ _ _) fun r _ => ?_
  match r with
  | none => exact nofun
  | some ((a, b, c), s) => exact nofun

theorem packSequence_ne_assertion (s : SequencesState) {copy length dist} (hcopy : copy < 0x20000)
    (hlength : length < 0x20000) (hdist : 0 < dist) :
    packSequence s copy length dist ≠ .error .assertion := by
  refine except_bind_ne_error ?_ fun r _ => ?_
  · unfold usedDist
    repeat' split
    all_goals first | omega | exact nofun
  · refine ite_ne_error nofun fun _ => ?_
    rw [if_neg (not_not.mpr ⟨hcopy, hlength⟩)]
    exact nofun

/-- No sequence copies more than 2¹⁷ - 1 bytes. -/
theorem ctable_lt : (∀ v ∈ ctableCopy, 2 ^ (v >>> 24) + (v &&& 0xffffff) ≤ 0x20000) ∧
    ∀ v ∈ ctableLength, 2 ^ (v >>> 24) + (v &&& 0xffffff) ≤ 0x20000 := by decide

theorem constEntry_mem {table i v} (h : constEntry table i = .ok v) : v ∈ table := by
  unfold constEntry at h
  split at h
  · rename_i hget
    cases h
    exact List.mem_of_getElem? hget
  · cases h

theorem constEntry_ne_assertion (table : List Nat) (i : Nat) : constEntry table i ≠ .error .assertion := by
  unfold constEntry
  split <;> exact nofun

theorem arrayEntry_ne_assertion (table : Nat → Nat) (size i : Nat) :
    arrayEntry table size i ≠ .error .assertion := by
  exact ite_ne_error nofun fun _ => nofun

theorem decodeSequence_ne_assertion (s : SequencesState) :
    decodeSequence unaligned inp lo hi start tables s ≠ .error .assertion := by
  refine except_bind_ne_error (decode3_ne_assertion _ _ _ _) fun r _ => ?_
  match r with
  | none => exact nofun
  | some ((stateCopy, stateLength, stateDist), b) =>
    refine except_bind_ne_error (arrayEntry_ne_assertion _ _ _) fun entryCopy _ => ?_
    refine except_bind_ne_error (arrayEntry_ne_assertion _ _ _) fun entryDist _ => ?_
    refine except_bind_ne_error (arrayEntry_ne_assertion _ _ _) fun entryLength _ => ?_
    refine except_bind_ne_error (constEntry_ne_assertion _ _) fun constLength hlength => ?_
    refine except_bind_ne_error (constEntry_ne_assertion _ _) fun constCopy hcopy => ?_
    refine except_bind_ne_error (decode3_ne_assertion _ _ _ _) fun r hr => ?_
    match r with
    | none => exact nofun
    | some ((extraDist, extraLength, extraCopy), b) =>
      obtain ⟨hextraLength, hextraCopy⟩ := decode3_lt hr
      have hcopy := ctable_lt.1 _ (constEntry_mem hcopy)
      have hlength := ctable_lt.2 _ (constEntry_mem hlength)
      refine packSequence_ne_assertion _ (by omega) (by omega) ?_
      rw [one_shiftLeft]
      exact Nat.add_pos_right _ (Nat.two_pow_pos _)

theorem decodeSequences_ne_assertion (n : Nat) (s : SequencesState) :
    decodeSequences unaligned inp lo hi start tables n s ≠ .error .assertion := by
  induction n generalizing s with
  | zero => exact nofun
  | succ n ih =>
    refine except_bind_ne_error (decodeSequence_ne_assertion s) fun r _ => ?_
    match r with
    | none => exact nofun
    | some (sequence, s') =>
      refine except_bind_ne_error (ih s') fun r _ => ?_
      match r with
      | none => exact nofun
      | some (rest, s'') => exact nofun

variable {sp : Space} {outEnd windowStart out : Nat}

/-- Sequences are executed without alignment faults, as the literals stay behind the output. -/
theorem sequenceRounds_spared (fuel numSeq : Nat) (s : SequencesState) {c : CopyState}
    (hc : c.Fits sp outEnd) (hw : windowStart ≤ c.out) : Exec.Spared .assertion
      (sequenceRounds inp sp outEnd windowStart unaligned lo hi start tables fuel numSeq s c) := by
  induction fuel generalizing numSeq s c with
  | zero => exact .pure _
  | succ fuel ih =>
    refine .ite (fun _ => .pure _) fun _ => ?_
    refine (Exec.Spared.lift (decodeSequences_ne_assertion _ _)).bind_of fun r m m' hr => ?_
    obtain ⟨hdec, -⟩ := lift_eq_ok hr
    rcases r with _ | ⟨sequences, s₁⟩
    · exact .pure _
    · obtain ⟨r, hexec⟩ := execSequences_spec inp (decodeSequences_lt hdec) hc hw
      refine (Exec.Spared.returns fun m => ?_).bind_of fun r' m m' hr => ?_
      · obtain ⟨m', hrun, -⟩ := hexec m
        exact ⟨r, m', hrun⟩
      cases r' with
      | error e => exact .pure _
      | ok c₁ =>
        obtain ⟨m₁, hrun, -, hspec⟩ := hexec m
        rw [hr] at hrun
        cases hrun
        have hround := hspec c₁ rfl
        exact ih _ s₁ hround.fits (hw.trans hround.out_le)

theorem runSequences_asserts_iff {ptr stop numSeq literalPtr size m}
    (hc : (⟨out, literalPtr, size⟩ : CopyState).Fits sp outEnd) (hw : windowStart ≤ out) :
    (runSequences unaligned inp lo hi outEnd windowStart out ptr stop numSeq sp literalPtr size
      tables).Stops .assertion m ↔ ∃ n p, sequenceCount inp ptr stop numSeq = some (n, p) ∧
        (inp p).toNat % 4 = 0 ∧ CertainTables inp (p + 1) stop (inp p).toNat tables := by
  unfold runSequences
  cases hcount : sequenceCount inp ptr stop numSeq with
  | none =>
    refine ⟨fun h => absurd h (not_stops_pure _), ?_⟩
    rintro ⟨n, p, h, -⟩
    cases h
  | some r =>
    obtain ⟨n, p⟩ := r
    simp only [Option.some.injEq, Prod.mk.injEq, and_assoc, exists_eq_left', exists_and_left]
    rw [stops_unless, not_not, stops_bind_lift, sequenceTables_asserts_iff, or_iff_left]
    rintro ⟨⟨p, tables⟩, -, h⟩
    cases p with
    | none => exact not_stops_pure _ h
    | some p =>
      refine (Exec.Spared.lift (initSequences_ne_assertion stop)).bind (fun s => ?_) m h
      cases s with
      | none => exact .pure _
      | some s =>
        refine (sequenceRounds_spared _ _ s hc hw).bind fun r => ?_
        match r with
        | .error e => exact .pure _
        | .ok (s', c') =>
          dsimp only
          split
          · exact .pure _
          · exact (Exec.Spared.returns fun m => ⟨_, _, rfl⟩).bind fun _ => .pure _

end

/-! ## Blocks -/

/-- The literals of a block come to be decoded: their section is complete, they have a table if they
need one, there is room for them, and the sequences section follows. -/
structure LiteralsReached (inp : Nat → UInt8) (space start stop : Nat) (tables : DecTables)
    (probe : LiteralsProbe) (literalStart : Option Nat) (tables' : DecTables) : Prop where
  data : start < stop
  parsed : zstdProbeLiterals inp start stop = some probe
  table : literalTables inp probe tables = .ok (some (literalStart, tables'))
  space : probe.size ≤ space
  sequences : probe.stop < stop

/-- A compressed block that makes an assertion fail. -/
inductive BlockAsserts (inp : Nat → UInt8) (lo hi space start stop : Nat) (tables : DecTables) :
    Prop where
  | tree {probe : LiteralsProbe} {one : Bool} : start < stop →
      zstdProbeLiterals inp start stop = some probe → probe.kind = .huff false one →
      CertainTree inp probe.start probe.stop → BlockAsserts inp lo hi space start stop tables
  | literals {probe : LiteralsProbe} {literalStart : Option Nat} {tables' : DecTables} :
      LiteralsReached inp space start stop tables probe literalStart tables' →
      EmptyStream inp lo hi literalStart probe.stop probe.size probe.kind tables'.huffTable →
      BlockAsserts inp lo hi space start stop tables
  | sequences {probe : LiteralsProbe} {literalStart : Option Nat} {tables' : DecTables}
      {l : List UInt8} {n p : Nat} :
      LiteralsReached inp space start stop tables probe literalStart tables' →
      (inp probe.stop).toNat ≠ 0 → blockLiterals inp lo hi literalStart probe tables' = some l →
      sequenceCount inp (probe.stop + 1) stop (inp probe.stop).toNat = some (n, p) →
      (inp p).toNat % 4 = 0 → CertainTables inp (p + 1) stop (inp p).toNat tables' →
      BlockAsserts inp lo hi space start stop tables

section
variable {unaligned : Bool} {inp : Nat → UInt8} {lo hi outEnd windowStart out start stop : Nat}
  {tables : DecTables} {m : Mem}

/-- Literals that decode at all decode in front of the end of the output. -/
theorem placeLiterals_of_blockLiterals {literalStart probe l}
    (h : blockLiterals inp lo hi literalStart probe tables = some l) (outEnd : Nat) (m : Mem) :
    ∃ sp ptr m', (placeLiterals inp lo hi outEnd literalStart probe tables).run m =
      .ok (some (sp, ptr)) m' := by
  unfold placeLiterals
  split
  · exact ⟨_, _, m, rfl⟩
  · rw [blockLiterals] at h
    split at h
    · rename_i m₀ hrun
      obtain ⟨l', -, hl'⟩ := decodeLiterals_produces hrun
      obtain ⟨m', hrun', -⟩ := hl' (outEnd + lzcommonBlock - probe.size) m
      exact ⟨_, _, m', run_bind_of_ok hrun' _⟩
    · cases h

/-- What the literals and the sequences of a block can do, once the literals are reached. -/
theorem reached_asserts_iff (hw : windowStart ≤ out) (hout : out ≤ outEnd) {probe : LiteralsProbe}
    {literalStart} {tables' : DecTables}
    (h : LiteralsReached inp (outEnd - out) start stop tables probe literalStart tables') :
    (decompressBlock unaligned inp lo hi outEnd windowStart out start stop tables).Stops .assertion m ↔
      EmptyStream inp lo hi literalStart probe.stop probe.size probe.kind tables'.huffTable ∨
      (inp probe.stop).toNat ≠ 0 ∧ (∃ l, blockLiterals inp lo hi literalStart probe tables' = some l) ∧
        ∃ n p, sequenceCount inp (probe.stop + 1) stop (inp probe.stop).toNat = some (n, p) ∧
          (inp p).toNat % 4 = 0 ∧ CertainTables inp (p + 1) stop (inp p).toNat tables' := by
  have hdata := h.data
  have hspace := h.space
  have hsequences := h.sequences
  have hplaced {sp : Space} {ptr : Nat} {m m' : Mem} (hplace : (placeLiterals inp lo hi outEnd literalStart
      probe tables').run m = .ok (some (sp, ptr)) m') := placeLiterals_ok hout hspace
    (fun hraw => ⟨zstdProbeLiterals_raw h.parsed hraw, literalTables_raw hraw h.table⟩) hplace
  unfold decompressBlock
  rw [if_neg (by omega), h.parsed]
  dsimp only
  rw [h.table, lift_ok, pure_bind]
  dsimp only
  rw [if_neg (by omega), if_neg (by omega)]
  by_cases hcount : (inp probe.stop).toNat = 0
  · rw [if_pos hcount, stops_bind_spared (by rintro (_ | _) <;> exact .pure _),
      decodeLiterals_asserts_iff]
    exact (or_iff_left fun h => h.1 hcount).symm
  · rw [if_neg hcount, stops_bind, placeLiterals_asserts_iff]
    refine or_congr_right ⟨?_, ?_⟩
    · rintro ⟨r, m', hplace, h⟩
      match r, hplace with
      | none, _ => exact absurd h (not_stops_pure _)
      | some (sp, ptr), hplace =>
        obtain ⟨hfits, hliterals, -⟩ := hplaced hplace
        exact ⟨hcount, ⟨_, hliterals⟩, (runSequences_asserts_iff hfits hw).mp h⟩
    · rintro ⟨-, ⟨l, hliterals⟩, hcertain⟩
      obtain ⟨sp, ptr, m', hplace⟩ := placeLiterals_of_blockLiterals hliterals outEnd m
      obtain ⟨hfits, -⟩ := hplaced hplace
      exact ⟨_, m', hplace, (runSequences_asserts_iff hfits hw).mpr hcertain⟩

theorem decompressBlock_asserts_iff (hw : windowStart ≤ out) (hout : out ≤ outEnd) :
    (decompressBlock unaligned inp lo hi outEnd windowStart out start stop tables).Stops .assertion m ↔
      BlockAsserts inp lo hi (outEnd - out) start stop tables := by
  constructor
  · intro hstops
    have h := hstops
    unfold decompressBlock at h
    split at h
    · exact absurd h (not_stops_pure _)
    rename_i hdata
    split at h
    · exact absurd h (not_stops_pure _)
    rename_i probe hprobe
    rcases stops_bind_lift.mp h with h | ⟨r, htables, h⟩
    · obtain ⟨⟨one, hkind⟩, hcertain⟩ := (literalTables_asserts_iff tables).mp h
      exact .tree (by omega) hprobe hkind hcertain
    match r, htables with
    | none, _ => exact absurd h (not_stops_pure _)
    | some (literalStart, tables'), htables =>
      dsimp only at h
      split at h
      · exact absurd h (not_stops_pure _)
      rename_i hspace
      split at h
      · exact absurd h (not_stops_pure _)
      rename_i hsequences
      have hreached : LiteralsReached inp (outEnd - out) start stop tables probe literalStart tables' :=
        ⟨by omega, hprobe, htables, by omega, by omega⟩
      rcases (reached_asserts_iff hw hout hreached).mp hstops with
        hempty | ⟨hcount, ⟨l, hliterals⟩, n, p, hnum, hscm, hcertain⟩
      · exact .literals hreached hempty
      · exact .sequences hreached hcount hliterals hnum hscm hcertain
  · intro h
    cases h with
    | tree hdata hprobe hkind hcertain =>
      unfold decompressBlock
      rw [if_neg (by omega), hprobe]
      exact stops_bind_lift.mpr
        (.inl ((literalTables_asserts_iff tables).mpr ⟨⟨_, hkind⟩, hcertain⟩))
    | literals hreached hempty => exact (reached_asserts_iff hw hout hreached).mpr (.inl hempty)
    | sequences hreached hcount hliterals hnum hscm hcertain =>
      exact (reached_asserts_iff hw hout hreached).mpr
        (.inr ⟨hcount, ⟨_, hliterals⟩, _, _, hnum, hscm, hcertain⟩)

end

/-- The size of a block, from its header. -/
def blockSizeAt (inp : Nat → UInt8) (start : Nat) : Nat :=
  (inp start).toNat >>> 3 ||| (inp (start + 1)).toNat <<< 5 ||| (inp (start + 2)).toNat <<< 13

/-- The decoder is given a compressed block, all of it and with some space, that makes an assertion
fail. -/
structure ZstdDecState.AssertsOn (st : ZstdDecState) (inp : Nat → UInt8) (start stop : Nat) : Prop where
  header : 3 ≤ stop - start
  compressed : (inp start).toNat >>> 1 &&& 3 = 2
  space : lzcommonBlock < st.st.outEnd - st.st.out
  data : blockSizeAt inp start ≤ stop - (start + 3)
  block : BlockAsserts inp start stop (st.st.outEnd - lzcommonBlock - st.st.out) (start + 3)
    (start + 3 + blockSizeAt inp start) st.tables

section
variable {unaligned : Bool} {inp : Nat → UInt8} {start stop : Nat} {st : ZstdDecState} {m : Mem}

theorem xxh64Update_ne_assertion (x : Xxh64State) (data : Nat → UInt8) (size : Nat) :
    xxh64Update unaligned x data size ≠ .error .assertion := by
  refine ite_ne_error nofun fun _ => ?_
  rw [if_neg (by omega)]
  exact nofun

theorem advance_spared (last : Bool) (n : Nat) :
    Exec.Spared .assertion (st.advance unaligned last n) := by
  refine Exec.Spared.bind (.ite (fun _ => ?_) fun _ => .pure _) fun _ => .pure _
  exact (Exec.Spared.returns fun m => ⟨_, _, rfl⟩).bind fun data => .lift (xxh64Update_ne_assertion _ _ _)

theorem rawBlock_spared (ptr n : Nat) (last : Bool) :
    Exec.Spared .assertion (rawBlock unaligned inp st stop ptr n last) := by
  refine .ite (fun _ => .pure _) fun _ => .ite (fun _ => .pure _) fun _ => ?_
  refine Exec.Spared.bind (.returns fun m => ?_) fun _ => (advance_spared _ _).bind fun _ => .pure _
  obtain ⟨m', hrun, -⟩ := literalCopy_ok inp (.inl rfl : Separate .input st.st.out ptr n) m
  exact ⟨_, m', hrun⟩

theorem rleBlock_spared (ptr n : Nat) (last : Bool) :
    Exec.Spared .assertion (rleBlock unaligned inp st stop ptr n last) := by
  refine .ite (fun _ => .pure _) fun _ => .ite (fun _ => .pure _) fun _ => ?_
  refine Exec.Spared.bind (.ite (fun _ => .pure _) fun _ => ?_) fun _ =>
    (advance_spared _ _).bind fun _ => .pure _
  refine Exec.Spared.bind (.returns fun m => ⟨_, _, rfl⟩) fun _ => .returns fun m => ?_
  obtain ⟨m', hrun, -⟩ := matchCopy_ok inp (n - 1) one_pos (Nat.le_add_left 1 st.st.out) m
  exact ⟨_, m', hrun⟩

theorem compressedBlock_asserts_iff (hord : st.st.Ordered)
    (hspace : lzcommonBlock < st.st.outEnd - st.st.out) (ptr n : Nat) (last : Bool) :
    (compressedBlock unaligned inp st start stop ptr n last).Stops .assertion m ↔
      n ≤ stop - ptr ∧ BlockAsserts inp start stop (st.st.outEnd - lzcommonBlock - st.st.out) ptr (ptr + n)
        st.tables := by
  unfold compressedBlock
  rw [stops_unless, not_lt, stops_bind_spared, decompressBlock_asserts_iff hord.window]
  · omega
  · rintro ⟨s | k, tables⟩
    · exact .pure _
    · exact (advance_spared _ _).bind fun _ => .pure _

theorem decodeBlock_stops_iff (unaligned : Bool) (hord : st.st.Ordered) (m : Mem) :
    (decodeBlock unaligned inp st start stop).Stops .assertion m ↔ st.AssertsOn inp start stop := by
  unfold decodeBlock
  rw [stops_unless, not_lt]
  rw [stops_unless, not_le, stops_ite_spared (rawBlock_spared _ _ _),
    stops_ite_spared (rleBlock_spared _ _ _)]
  constructor
  · rintro ⟨hheader, hspace, -, -, h⟩
    split at h
    · rename_i hcompressed
      obtain ⟨hdata, hblock⟩ := (compressedBlock_asserts_iff hord hspace _ _ _).mp h
      exact ⟨hheader, hcompressed, hspace, hdata, hblock⟩
    · exact absurd h (not_stops_pure _)
  · intro h
    rw [h.compressed, if_pos rfl]
    exact ⟨h.header, h.space, by decide, by decide,
      (compressedBlock_asserts_iff hord h.space _ _ _).mpr ⟨h.data, h.block⟩⟩

end

/-- The header of a frame with a window of eight bytes. -/
def smallHeader : List UInt8 := [0x28, 0xb5, 0x2f, 0xfd, 0x20, 8]

/-- A block without literals and with one sequence, whose literal lengths have a single symbol. -/
def certainFrame (a : Nat) : UInt8 :=
  (smallHeader ++ [0x2d, 0, 0, 0, 1, 0x80, 0xf0, 3]).getD a 0

/-- A block with Huffman literals of size 0. -/
def emptyFrame (a : Nat) : UInt8 :=
  (smallHeader ++ [0x35, 0, 0, 2, 0x80, 0, 0x80, 0x10, 0]).getD a 0

/-- A block with five literals in four streams. -/
def fourFrame (a : Nat) : UInt8 :=
  (smallHeader ++ [0x85, 0, 0, 0x56, 0, 3, 0x80, 0x10, 1, 0, 1, 0, 1, 0, 4, 4, 4, 4, 0]).getD a 0

/-- The decoder behind such a header. -/
def smallState : ZstdDecState :=
  ⟨some .decodeBlock, ⟨0, 0, 100⟩, noTables, xxh64Init ⟨fun _ => 0, 0, 0, 0, 0, 0, 0, false⟩, 8, false⟩

theorem smallState_reachable : (zstdDecompressor false).Reachable smallState :=
  @Decompressor.Reachable.init (zstdDecompressor false) tailFrame 0 17 6
    { smallState with decode := none } _ ⟨fun _ => 0, []⟩ _ ⟨0, 0, 100⟩ (by decide) rfl
    ⟨by decide, by decide⟩

/-- Whether a run ends at an assertion. -/
def assertionFailed {α : Type} : Res α → Bool
  | .fault .assertion _ => true
  | _ => false

theorem exists_of_assertionFailed {α : Type} {r : Res α} (h : assertionFailed r = true) :
    ∃ m', r = .fault .assertion m' := by
  match r, h with
  | .fault .assertion m', _ => exact ⟨m', rfl⟩

end Rkboot.Compression.Zstd
