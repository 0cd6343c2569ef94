import Rkboot.Compression.ZstdFseTable
import Rkboot.Compression.ZstdSteps
import Rkboot.Lib.Buffer

/-! # A zstd block can be retried

`decompress_block` has built tables and overwritten the output space by the time it finds that the
space does not do. Building the same tables again changes nothing, and what a block becomes does
not depend on what is in the space, so a second call with more space is as good as the first. -/
namespace Rkboot.Compression.Zstd
open Lib Lzcommon Function Exec

variable {ptr maxbits code : Nat} {tables tables' tables'' : DecTables} {m m' : Mem}

/-! ## Tables that are built again -/

/-- What `handle_decoding_table` needs of its settings. -/
structure TableSettings.Sound (settings : TableSettings) : Prop where
  log : 5 ≤ settings.log
  maxLog : settings.maxLog ≤ 20
  sym : settings.sym ≤ 64
  predef : Distribution settings.log settings.sym (predefWeight settings)
  log_le : settings.log ≤ settings.maxLog

theorem copySettings_sound : copySettings.Sound :=
  ⟨by decide, by decide, by decide, ⟨by decide, 0, 1, by decide, by decide, by decide, by decide⟩, by decide⟩

theorem distSettings_sound : distSettings.Sound :=
  ⟨by decide, by decide, by decide, ⟨by decide, 0, 1, by decide, by decide, by decide, by decide⟩, by decide⟩

theorem lengthSettings_sound : lengthSettings.Sound :=
  ⟨by decide, by decide, by decide, ⟨by decide, 0, 1, by decide, by decide, by decide, by decide⟩, by decide⟩

section
variable {inp : Nat → UInt8} {start stop : Nat}

theorem checkedTable_again {settings : TableSettings} {log weights}
    (hgiven : given weights settings.sym = 2 ^ log) {t t' p}
    (h : checkedTable settings ptr log weights t = .ok (p, t')) :
    checkedTable settings ptr log weights t' = .ok (p, t') := by
  rw [checkedTable] at h ⊢
  split_ifs at h ⊢
  · cases h
    rfl
  · obtain ⟨table, hbuild, hpure⟩ := except_bind_eq_ok h
    cases hpure
    rw [fseBuildTable_again hgiven hbuild]
    rfl

theorem handleDecodingTable_again {mode} {settings : TableSettings} (hs : settings.Sound)
    {t t' p} (h : handleDecodingTable inp start stop mode settings t = .ok (p, t')) :
    handleDecodingTable inp start stop mode settings t' = .ok (p, t') := by
  rw [handleDecodingTable.eq_def] at h ⊢
  cases mode with
  | predefinedMode => exact checkedTable_again hs.predef.given h
  | rleMode =>
    dsimp only at h ⊢
    split_ifs at h ⊢
    · cases h
      rfl
    · cases h
      rfl
    · cases h
      rw [update_idem]
  | fseCompressedMode =>
    obtain ⟨r, hr, h⟩ := except_bind_eq_ok h
    rw [hr]
    match r with
    | none => cases h; rfl
    | some (log, none) => cases h; rfl
    | some (log, some (ptr, weights)) => exact checkedTable_again (fseDecodeDistribution_given hr).1 h
  | repeatMode =>
    dsimp only at h ⊢
    split_ifs at h with hlog <;> cases h
    · rw [if_pos hlog]
    · rw [if_neg hlog]

/-- The tables of the sequences, which leave the Huffman table alone. -/
theorem sequenceTables_again {scm p}
    (h : sequenceTables inp ptr stop scm tables = .ok (some p, tables')) :
    sequenceTables inp ptr stop scm tables' = .ok (some p, tables') ∧
      tables'.huffDepth = tables.huffDepth ∧ tables'.huffTable = tables.huffTable := by
  obtain ⟨⟨_ | p₁, ⟨log₁, table₁⟩⟩, h₁, h⟩ := except_bind_eq_ok h
  · cases h
  obtain ⟨⟨_ | p₂, ⟨log₂, table₂⟩⟩, h₂, h⟩ := except_bind_eq_ok h
  · cases h
  obtain ⟨⟨p₃, ⟨log₃, table₃⟩⟩, h₃, h⟩ := except_bind_eq_ok h
  cases h
  refine ⟨?_, rfl, rfl⟩
  rw [sequenceTables]
  dsimp only [bind, Except.bind, pure, Except.pure]
  rw [handleDecodingTable_again copySettings_sound h₁]
  dsimp only
  rw [handleDecodingTable_again distSettings_sound h₂]
  dsimp only
  rw [handleDecodingTable_again lengthSettings_sound h₃]

theorem enterCode_frame {a b x}
    (h : enterCode maxbits a x = .ok b) : a.1 ≤ b.1 ∧ ∀ i < a.1, b.2 i = a.2 i := by
  rw [enterCode] at h
  dsimp only at h
  split at h
  · cases h
    exact ⟨le_rfl, fun _ _ => rfl⟩
  split at h
  · cases h
  · cases h
    exact ⟨Nat.le_add_right _ _, fun i hi => if_neg (by omega)⟩

/-- Entering a symbol where its code already is. -/
theorem enterCode_again {table} {t : Nat → UInt8 × Nat}
    {b x} (h : enterCode maxbits (code, table) x = .ok b)
    (ht : ∀ i < b.1, t i = b.2 i) : enterCode maxbits (code, t) x = .ok (b.1, t) := by
  rw [enterCode] at h ⊢
  dsimp only at h ⊢
  split_ifs at h ⊢
  · cases h
    rfl
  cases h
  refine congrArg (fun t => Except.ok (_, t)) (funext fun i => ?_)
  split
  · rename_i hi
    rw [ht i hi.2]
    exact (if_pos hi).symm
  · rfl

theorem enterCodes_again {l : List (Nat × Nat)} {table : Nat → UInt8 × Nat}
    {b} (h : l.foldlM (enterCode maxbits) (code, table) = .ok b) :
    l.foldlM (enterCode maxbits) (code, b.2) = .ok b ∧ code ≤ b.1 ∧
      ∀ i < code, b.2 i = table i := by
  induction l generalizing code table with
  | nil =>
    cases h
    exact ⟨rfl, le_rfl, fun _ _ => rfl⟩
  | cons x l ih =>
    obtain ⟨⟨c, t⟩, hx, h⟩ := except_bind_eq_ok h
    obtain ⟨hrest, hle, hframe⟩ := ih h
    obtain ⟨hle', hframe'⟩ := enterCode_frame hx
    dsimp only at hle' hframe'
    refine ⟨?_, le_trans hle' hle, fun i hi => ?_⟩
    · rw [List.foldlM_cons, enterCode_again hx hframe]
      exact hrest
    · rw [hframe i (by omega), hframe' i hi]

/-- Two sets of tables with the same Huffman table. -/
structure SameTree (tables tables' : DecTables) : Prop where
  depth : tables'.huffDepth = tables.huffDepth
  table : tables'.huffTable = tables.huffTable

/-- Weights that gave a tree give it again, and others give none again. -/
theorem buildTree_again {ws} {r : Option DecTables}
    (h : buildTree ws tables = .ok r) (hs : ∀ t ∈ r, SameTree t tables') :
    buildTree ws tables' = .ok (r.map fun _ => tables') := by
  rw [buildTree] at h ⊢
  dsimp only at h ⊢
  split_ifs at h ⊢
  · cases h
    rfl
  · cases h
    rfl
  · cases h
    rfl
  obtain ⟨⟨code, t⟩, hcodes, h⟩ := except_bind_eq_ok h
  split at h
  · cases h
  rename_i hcode
  cases h
  obtain ⟨hdepth, htable⟩ := hs _ rfl
  rw [htable, (enterCodes_again hcodes).1]
  dsimp only [bind, Except.bind, pure, Except.pure]
  rw [if_neg hcode]
  cases tables'
  cases hdepth
  cases htable
  rfl

theorem treeDescription_again {p}
    (h : zstdDecodeTreeDescription inp start stop tables = .ok (p, tables'))
    (hs : SameTree tables' tables'') :
    zstdDecodeTreeDescription inp start stop tables'' = .ok (p, tables'') := by
  rw [zstdDecodeTreeDescription] at h ⊢
  dsimp only at h ⊢
  split_ifs at h ⊢
  · cases h
    rfl
  · obtain ⟨r, hr, h⟩ := except_bind_eq_ok h
    rw [hr]
    cases r with
    | none => cases h; rfl
    | some ws =>
      obtain ⟨r, hr, h⟩ := except_bind_eq_ok h
      change (buildTree ws tables'' >>= _) = _
      cases r <;> cases h
      · rw [buildTree_again hr (by simp)]
        rfl
      · rw [buildTree_again hr (by simpa using hs)]
        rfl
  · cases h
    rfl
  · obtain ⟨ws, hws, h⟩ := except_bind_eq_ok h
    rw [hws]
    obtain ⟨r, hr, h⟩ := except_bind_eq_ok h
    change (buildTree ws tables'' >>= _) = _
    cases r <;> cases h
    · rw [buildTree_again hr (by simp)]
      rfl
    · rw [buildTree_again hr (by simpa using hs)]
      rfl

theorem literalTables_again {probe p} (h : literalTables inp probe tables = .ok (some (p, tables')))
    (hs : SameTree tables' tables'') :
    literalTables inp probe tables'' = .ok (some (p, tables'')) := by
  rw [literalTables.eq_def] at h ⊢
  cases hkind : probe.kind with
  | raw | rle =>
    rw [hkind] at h
    cases h
    rfl
  | huff treeless oneStream =>
    rw [hkind] at h
    cases treeless with
    | true =>
      dsimp only at h ⊢
      split at h
      · cases h
      rename_i hdepth
      cases h
      rw [if_neg (by rw [hs.depth]; exact hdepth)]
    | false =>
      obtain ⟨r, hr, h⟩ := except_bind_eq_ok h
      cases h
      rw [treeDescription_again hr hs]
      rfl

end

/-! ## A second call -/

section
variable {unaligned : Bool} {inp : Nat → UInt8} {lo hi outEnd outEnd' windowStart out : Nat}

theorem decodeLiterals_sameTree (h : SameTree tables tables')
    (start : Option Nat) (stop out outEnd : Nat) (kind : LiteralsKind) :
    decodeLiterals inp lo hi start stop out outEnd kind tables' =
      decodeLiterals inp lo hi start stop out outEnd kind tables := by
  rw [decodeLiterals.eq_def, decodeLiterals.eq_def, h.table]

theorem placeLiterals_sameTree (h : SameTree tables tables')
    (outEnd : Nat) (start : Option Nat) (probe : LiteralsProbe) :
    placeLiterals inp lo hi outEnd start probe tables' =
      placeLiterals inp lo hi outEnd start probe tables := by
  unfold placeLiterals
  dsimp only
  rw [decodeLiterals_sameTree h]

/-- Literals that decode somewhere decode everywhere. -/
theorem placeLiterals_elsewhere {start probe r}
    (h : (placeLiterals inp lo hi outEnd start probe tables).run m = .ok (some r) m') (outEnd' : Nat)
    (m₁ : Mem) : ∃ r' m₂, (placeLiterals inp lo hi outEnd' start probe tables).run m₁ =
      .ok (some r') m₂ := by
  rw [placeLiterals] at h ⊢
  split_ifs at h ⊢
  · exact ⟨_, m₁, rfl⟩
  · obtain ⟨_ | _, m₂, hrun, h⟩ := bind_eq_ok h
    · cases h
    obtain ⟨l, -, hp⟩ := decodeLiterals_produces hrun
    obtain ⟨m₃, hrun₃, -, -⟩ := hp (outEnd' + lzcommonBlock - probe.size) m₁
    exact ⟨_, m₃, by rw [run_bind_of_ok hrun₃]; rfl⟩

/-- Sequences that run out of space have their tables by then. -/
theorem runSequences_space {stop numSeq literalPtr size sp}
    (h : (runSequences unaligned inp lo hi outEnd windowStart out ptr stop numSeq sp literalPtr size
      tables).run m = .ok (.status .needMoreSpace, tables') m') :
    ∃ numSeq' ptr' p, sequenceCount inp ptr stop numSeq = some (numSeq', ptr') ∧
      ¬ (inp ptr').toNat % 4 ≠ 0 ∧
      sequenceTables inp (ptr' + 1) stop (inp ptr').toNat tables = .ok (some p, tables') := by
  unfold runSequences at h
  split at h
  · cases h
  rename_i numSeq' ptr' hcount
  dsimp only at h
  split at h
  · cases h
  rename_i hscm
  obtain ⟨⟨_ | p, tables₁⟩, htables, h⟩ := bind_lift_eq_ok h
  · cases h
  obtain ⟨_ | s, hinit, h⟩ := bind_lift_eq_ok h
  · cases h
  obtain ⟨r, m₁, hrounds, h⟩ := bind_eq_ok h
  match r, hrounds with
  | .error e, _ =>
    cases h
    exact ⟨numSeq', ptr', p, hcount, hscm, htables⟩
  | .ok (s', c'), hrounds =>
    dsimp only at h
    split at h <;> cases h

/-- With the tables of a call that ran out of space, a block runs as it does with the tables
before that call. -/
theorem decompressBlock_again {start stop} (hle : outEnd ≤ outEnd')
    (h : (decompressBlock unaligned inp lo hi outEnd windowStart out start stop tables).run m =
      .ok (.status .needMoreSpace, tables') m') (m₁ : Mem) :
    (decompressBlock unaligned inp lo hi outEnd' windowStart out start stop tables').run m₁ =
      (decompressBlock unaligned inp lo hi outEnd' windowStart out start stop tables).run m₁ := by
  rw [decompressBlock] at h
  split at h
  · cases h
  rename_i hstart
  split at h
  · cases h
  rename_i probe hprobe
  obtain ⟨_ | ⟨literalStart, tables₁⟩, htables, h⟩ := bind_lift_eq_ok h
  · cases h
  dsimp only at h
  rw [decompressBlock, decompressBlock, if_neg hstart, if_neg hstart, hprobe]
  dsimp only
  rw [htables]
  split at h
  · cases h
    rw [literalTables_again htables ⟨rfl, rfl⟩]
    rfl
  rename_i hsize
  split at h
  · cases h
  rename_i hstop
  split at h
  · obtain ⟨ok, m₂, -, h⟩ := bind_eq_ok h
    cases ok <;> cases h
  rename_i hseq
  obtain ⟨_ | ⟨sp, ptr⟩, m₂, hplace, h⟩ := bind_eq_ok h
  · cases h
  obtain ⟨numSeq, ptr', p, hcount, hscm, hseqTables⟩ := runSequences_space h
  obtain ⟨hagain, hdepth, htable⟩ := sequenceTables_again hseqTables
  have hsame : SameTree tables₁ tables' := ⟨hdepth, htable⟩
  rw [literalTables_again htables hsame, lift_ok, lift_ok, pure_bind, pure_bind]
  dsimp only
  have hsize' : ¬ outEnd' - out < probe.size := by omega
  rw [if_neg hsize', if_neg hsize', if_neg hstop, if_neg hstop, if_neg hseq, if_neg hseq,
    placeLiterals_sameTree hsame]
  obtain ⟨⟨sp', literalPtr⟩, m₃, hplace'⟩ := placeLiterals_elsewhere hplace outEnd' m₁
  rw [run_bind_of_ok hplace', run_bind_of_ok hplace']
  dsimp only
  rw [runSequences, runSequences, hcount]
  dsimp only
  rw [if_neg hscm, if_neg hscm, hagain, hseqTables]

end

/-! ## The checksum -/

section
variable {data data' : Nat → UInt8} {n : Nat}

theorem fill_congr (st : Xxh64State) (offset : Nat) (h : ∀ i < n, data i = data' i) :
    st.fill offset data n = st.fill offset data' n := by
  refine congrArg (fun buf => { st with buf := buf }) (funext fun i => ?_)
  split
  · exact h _ (by omega)
  · rfl

theorem stripe_congr (st : Xxh64State) {a} (h : ∀ i, a ≤ i → i < a + 32 → data i = data' i) :
    st.stripe data a = st.stripe data' a := by
  have hword : ∀ k, k + 8 ≤ 32 → ldle64 data (a + k) = ldle64 data' (a + k) := fun k hk => by
    rw [ldle64, ldle64, leWord_congr fun i hi => h _ (by omega) (by omega)]
  have h0 := hword 0 (by decide)
  rw [add_zero] at h0
  unfold Xxh64State.stripe
  rw [h0, hword 8 (by decide), hword 16 (by decide), hword 24 (by decide)]

theorem stripes_congr (unaligned : Bool) {k} (st : Xxh64State)
    (h : ∀ i, ptr ≤ i → i < ptr + 32 * k → data i = data' i) :
    st.stripes unaligned data ptr k = st.stripes unaligned data' ptr k := by
  refine List.foldl_ext _ _ st fun st i hi => ?_
  rw [List.mem_range] at hi
  dsimp only
  split
  · exact stripe_congr st fun j hj hj' => h j (by omega) (by omega)
  · rw [fill_congr st 0 fun j hj => h (ptr + 32 * i + j) (by omega) (by omega)]

/-- The checksum only reads the bytes it is given. -/
theorem xxh64Update_congr (unaligned : Bool) (st : Xxh64State) (h : ∀ i < n, data i = data' i) :
    xxh64Update unaligned st data n = xxh64Update unaligned st data' n := by
  unfold xxh64Update
  dsimp only
  split
  · rw [fill_congr _ _ h]
  split
  · rfl
  rename_i hfill
  rw [fill_congr _ _ fun i hi => h i (by omega),
    stripes_congr unaligned _ fun i hi hi' => h i (by omega),
    fill_congr _ 0 fun i hi => h _ (by omega)]

end

/-! ## The step -/

/-- The client gives `n` bytes of output space. -/
def ZstdDecState.withSpace (st : ZstdDecState) (n : Nat) : ZstdDecState :=
  { st with st := { st.st with outEnd := st.st.out + n } }

/-- Two calls that stop alike, or return the same and leave the same state and output. -/
def Alike : Res (DecodeResult × ZstdDecState) → Res (DecodeResult × ZstdDecState) → Prop
  | .ok (r, st) m, .ok (r', st') m' => r = r' ∧ st = st' ∧ ∀ a, a < st.st.out → m.byte a = m'.byte a
  | .fault f _, .fault f' _ => f = f'
  | _, _ => False

theorem Alike.refl (x : Res (DecodeResult × ZstdDecState)) : Alike x x := by
  rcases x with ⟨⟨r, st⟩, m⟩ | ⟨f, m⟩
  · exact ⟨rfl, rfl, fun _ _ => rfl⟩
  · rfl

section
variable {unaligned : Bool} {inp : Nat → UInt8} {start stop : Nat} {st st' : ZstdDecState}
  {m m' m₁ m₁' : Mem}

theorem decodeBlock_compressed (hspace : ¬ st.st.outEnd - st.st.out ≤ lzcommonBlock)
    (h3 : ¬ stop - start < 3) (h2 : (inp start).toNat >>> 1 &&& 3 = 2) :
    decodeBlock unaligned inp st start stop = compressedBlock unaligned inp st start stop (start + 3)
      ((inp start).toNat >>> 3 ||| (inp (start + 1)).toNat <<< 5 ||| (inp (start + 2)).toNat <<< 13)
      ((inp start).toNat.testBit 0) := by
  unfold decodeBlock
  rw [if_neg h3, if_neg hspace, if_neg (by omega), if_neg (by omega), if_pos h2]

theorem advance_alike (last : Bool) {n k} (h : ∀ a < st.st.out + n, m₁.byte a = m.byte a) :
    Alike ((do
        let st ← st.advance unaligned last n
        pure (DecodeResult.consumed k, st) : Exec (DecodeResult × ZstdDecState)).run m₁)
      ((do
        let st ← st.advance unaligned last n
        pure (DecodeResult.consumed k, st) : Exec (DecodeResult × ZstdDecState)).run m) := by
  unfold ZstdDecState.advance ZstdDecState.checksum
  cases st.haveContentChecksum with
  | false => exact ⟨rfl, rfl, h⟩
  | true =>
    have hsum := xxh64Update_congr unaligned st.xxh64 (n := n)
      fun i hi => h (st.st.out + i) (by omega)
    simp only [if_true, run_bind, run_view, hsum]
    cases xxh64Update unaligned st.xxh64 (fun i => m.byte (st.st.out + i)) n with
    | error f => rfl
    | ok x => exact ⟨rfl, rfl, h⟩

/-- A block in two memories that are alike below the output. -/
theorem compressedBlock_alike (hord : st.st.Ordered)
    (hspace : ¬ st.st.outEnd - st.st.out ≤ lzcommonBlock) {n}
    (hdata : ¬ stop - ptr < n) (last : Bool)
    (hagain : ∀ m, (decompressBlock unaligned inp start stop (st.st.outEnd - lzcommonBlock)
      st.st.windowStart st.st.out ptr (ptr + n) tables).run m =
      (decompressBlock unaligned inp start stop (st.st.outEnd - lzcommonBlock)
        st.st.windowStart st.st.out ptr (ptr + n) st.tables).run m)
    (hmem : ∀ a < st.st.out, m₁.byte a = m.byte a) :
    Alike ((compressedBlock unaligned inp { st with tables := tables } start stop ptr n last).run m₁)
      ((compressedBlock unaligned inp st start stop ptr n last).run m) := by
  have hout : st.st.out ≤ st.st.outEnd - lzcommonBlock := by
    omega
  have huniform := @decompressBlock_uniform unaligned inp start stop _ _ _ hord.window hout ptr
    (ptr + n) st.tables
  have hwithin := huniform.within
  unfold compressedBlock
  rw [if_neg hdata, if_neg hdata, run_bind, run_bind, hagain]
  have hstored := hwithin m
  have hstored₁ := hwithin m₁
  rcases huniform.result m m₁ with ⟨r, m', m₁', hrun, hrun₁⟩ | ⟨e, m', m₁', hrun, hrun₁⟩
  swap
  · rw [hrun, hrun₁]
    rfl
  · rw [hrun] at hstored ⊢
    rw [hrun₁] at hstored₁ ⊢
    have hbelow : ∀ a < st.st.out, m₁'.byte a = m'.byte a := fun a ha =>
      (hstored₁.frame a (.inl ha)).trans ((hmem a ha).trans (hstored.frame a (.inl ha)).symm)
    rcases r with ⟨s | k, tables'⟩
    · exact ⟨rfl, rfl, hbelow⟩
    · refine @advance_alike unaligned { st with tables := tables' } _ _ last _ _ fun a ha => ?_
      obtain ⟨l, ss, hcontents, hrefines, -⟩ := decompressBlock_refines hord.window hout hrun
      obtain ⟨l₁, ss₁, hcontents₁, hrefines₁, -⟩ := decompressBlock_refines hord.window hout hrun₁
      rw [hcontents] at hcontents₁
      cases hcontents₁
      -- both outputs are the execution of the same sequences behind the same window
      rcases lt_or_ge a st.st.windowStart with hlt | hge
      · exact hbelow a (lt_of_lt_of_le hlt hord.window)
      · have hwindow : m₁.bytes st.st.windowStart (st.st.out - st.st.windowStart) =
            m.bytes st.st.windowStart (st.st.out - st.st.windowStart) :=
          bytesAt_congr fun i hi => hmem _ (by omega)
        have hbytes := hrefines₁.bytes
        rw [hwindow, ← hrefines.bytes] at hbytes
        have hget := congrArg (·.getD (a - st.st.windowStart) 0) hbytes
        dsimp only [Mem.bytes] at hget
        dsimp only at ha
        rw [bytesAt_getD _ (by omega), bytesAt_getD _ (by omega)] at hget
        rwa [Nat.add_sub_cancel' hge] at hget

end

/-- A block that ran out of space, decoded again with more of it, becomes what it would have
become with that space at once: return value, tables, history, checksum, step and output. -/
theorem decodeBlock_retry (unaligned : Bool) (inp : Nat → UInt8) {st st' : ZstdDecState}
    (hst : (zstdDecompressor unaligned).Reachable st) (start stop : Nat) {n k : Nat} (hnk : n < k)
    {m m' : Mem} (h : (decodeBlock unaligned inp (st.withSpace n) start stop).run m =
      .ok (.status .needMoreSpace, st') m') :
    Alike ((decodeBlock unaligned inp (st'.withSpace k) start stop).run m')
      ((decodeBlock unaligned inp (st.withSpace k) start stop).run m) := by
  have hwindow := (reachable_ordered hst).window
  have hord : ∀ n, (st.withSpace n).st.Ordered := fun n => ⟨hwindow, Nat.le_add_right _ _⟩
  have hstored : Stored m ((decodeBlock unaligned inp (st.withSpace n) start stop).run m).mem _ _ :=
    (decodeBlock_ends (hord n)).1
  rw [h] at hstored
  have hsame : st' = st.withSpace n → m' = m →
      Alike ((decodeBlock unaligned inp (st'.withSpace k) start stop).run m')
        ((decodeBlock unaligned inp (st.withSpace k) start stop).run m) := by
    rintro rfl rfl
    exact .refl _
  unfold decodeBlock at h
  dsimp only at h
  split at h
  · cases h
  rename_i h3
  split at h
  · cases h
    exact hsame rfl rfl
  rename_i hspace
  split at h
  · unfold rawBlock at h
    split at h
    · cases h
      exact hsame rfl rfl
    split at h
    · cases h
    · obtain ⟨_, m₁, -, h⟩ := bind_eq_ok h
      obtain ⟨st₁, m₂, -, h⟩ := bind_eq_ok h
      cases h
  split at h
  · unfold rleBlock at h
    split at h
    · cases h
      exact hsame rfl rfl
    split at h
    · cases h
    · obtain ⟨_, m₁, -, h⟩ := bind_eq_ok h
      obtain ⟨st₁, m₂, -, h⟩ := bind_eq_ok h
      cases h
  split at h
  · rename_i h2
    unfold compressedBlock at h
    split at h
    · cases h
    rename_i hdata
    obtain ⟨⟨res, tables⟩, m₁, hblock, h⟩ := bind_eq_ok h
    cases res with
    | consumed d =>
      obtain ⟨st₁, m₂, -, h⟩ := bind_eq_ok h
      cases h
    | status s =>
      cases h
      have hspace' : ¬ (st.withSpace k).st.outEnd - (st.withSpace k).st.out ≤ lzcommonBlock := by
        simp only [ZstdDecState.withSpace, lzcommonBlock] at hspace ⊢
        omega
      have hle : (st.withSpace n).st.outEnd - lzcommonBlock ≤ (st.withSpace k).st.outEnd - lzcommonBlock := by
        simp only [ZstdDecState.withSpace]
        omega
      rw [decodeBlock_compressed hspace' h3 h2, decodeBlock_compressed (by exact hspace') h3 h2]
      exact compressedBlock_alike (hord k) hspace' hdata _ (decompressBlock_again hle hblock)
        fun a ha => hstored.frame a (.inl ha)
  · cases h

/-- A frame of one block, that of `tailBlock`. -/
def tailFrame (a : Nat) : UInt8 :=
  [0x28, 0xb5, 0x2f, 0xfd, 0x20, 8, 0x45, 0, 0, 0x29, 0x61, 1, 0x54, 2, 0, 0, 1].getD a 0

/-- The decoder behind the header of `tailFrame`. -/
def tailState : ZstdDecState :=
  ⟨some .decodeBlock, ⟨0, 0, 100⟩, noTables, xxh64Init ⟨fun _ => 0, 0, 0, 0, 0, 0, 0, false⟩, 8, false⟩

/-- The literals fit, the match does not; by then all tables are built. -/
theorem decodeBlock_retry_tail : ∃ st m,
    (decodeBlock false tailFrame (tailState.withSpace 14) 6 17).run ⟨fun _ => 0, []⟩ =
      .ok (.status .needMoreSpace, st) m ∧
    Alike ((decodeBlock false tailFrame (st.withSpace 30) 6 17).run m)
      ((decodeBlock false tailFrame (tailState.withSpace 30) 6 17).run ⟨fun _ => 0, []⟩) := by
  have hst : (zstdDecompressor false).Reachable tailState :=
    @Decompressor.Reachable.init (zstdDecompressor false) tailFrame 0 17 6
      { tailState with decode := none } _ ⟨fun _ => 0, []⟩ _ ⟨0, 0, 100⟩ (by decide) rfl
      ⟨by decide, by decide⟩
  have h : (((decodeBlock false tailFrame (tailState.withSpace 14) 6 17).run
      ⟨fun _ => 0, []⟩).value.map Prod.fst) = some (.status .needMoreSpace) := by decide +kernel
  obtain ⟨⟨res, st⟩, hvalue, hres⟩ := Option.map_eq_some_iff.mp h
  cases hres
  obtain ⟨m, hrun⟩ := Res.eq_ok_of_value hvalue
  exact ⟨st, m, hrun, decodeBlock_retry false tailFrame hst 6 17 (by decide) hrun⟩

end Rkboot.Compression.Zstd
