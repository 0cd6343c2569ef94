import Rkboot.Compression.ZstdAssertions
import Rkboot.Compression.ZstdOffsets

/-! # The bit container of sequences

`DECODE3` takes the bits of three values from a container that a refill tops up from the bytes before
its pointer. Both refills leave up to 64 bits in it, and only 57 if the container was not empty in whole
bytes. As long as that is enough the values are the next bits of the stream. -/
namespace Rkboot.Compression.Zstd
open Lib Nat List

/-! ## Refills -/

/-- The bits held are the lowest of the container, and stand in memory behind the pointer. -/
structure SeqBits.Holds (inp : Nat → UInt8) (start : Nat) (b : SeqBits) (held : List Bool) : Prop where
  length : b.numBits = held.length
  low : HeldLow held b.bits
  mem : InMemory inp start b.ptr held

/-- How many bits a refill makes of `numBits`, with `avail` bytes before the pointer. -/
def refillLevel (unaligned : Bool) (numBits avail total : Nat) : Nat :=
  if unaligned then numBits + 8 * min (8 - (numBits + 7) / 8) avail
  else if total ≤ numBits then numBits
  else if 56 < numBits then numBits + 8
  else numBits + 8 * min ((64 - numBits) / 8) avail

/-- What a refill checks. -/
def RefillOk (unaligned : Bool) (numBits avail total : Nat) : Prop :=
  if unaligned then total ≤ refillLevel unaligned numBits avail total else total ≤ numBits + 8 * avail

section
variable {unaligned : Bool} {inp : Nat → UInt8} {lo hi start : Nat} {b : SeqBits} {held : List Bool}
  {total : Nat}

theorem SeqBits.Holds.push (h : b.Holds inp start held) (hptr : start < b.ptr) (hbits : b.numBits ≤ 56) :
    (b.push inp).Holds inp start (held ++ highBits (inp (b.ptr - 1)).toNat 8) := by
  have hlength := h.length
  refine ⟨?_, ?_, h.mem.push hptr (by omega)⟩
  · rw [length_append, highBits_length, ← hlength]
    rfl
  · exact h.low.push (inp (b.ptr - 1)).toNat_lt (by omega)

/-- Bytes are pushed until no more of them fits, or none is left. -/
theorem fill_spec (fuel : Nat) (h : b.Holds inp start held) (hfuel : 56 < b.numBits + 8 * fuel) :
    ∃ held', (b.fill inp start fuel).Holds inp start held' ∧
      (b.fill inp start fuel).numBits = b.numBits + 8 * min ((64 - b.numBits) / 8) (b.ptr - start) ∧
      (b.fill inp start fuel).ptr = b.ptr - min ((64 - b.numBits) / 8) (b.ptr - start) ∧
      unread inp start (b.fill inp start fuel).ptr held' = unread inp start b.ptr held := by
  induction fuel generalizing b held with
  | zero =>
    have hzero : min ((64 - b.numBits) / 8) (b.ptr - start) = 0 := by omega
    rw [hzero]
    exact ⟨held, h, rfl, rfl, rfl⟩
  | succ fuel ih =>
    rw [SeqBits.fill]
    by_cases hmore : b.numBits ≤ 56 ∧ start < b.ptr
    · rw [if_pos hmore]
      have hpush : (b.push inp).numBits = b.numBits + 8 ∧ (b.push inp).ptr = b.ptr - 1 := ⟨rfl, rfl⟩
      obtain ⟨held', hheld, hbits, hptr, hunread⟩ := ih (h.push hmore.2 hmore.1) (by omega)
      refine ⟨held', hheld, by omega, by omega, ?_⟩
      rw [hunread, unread_push hmore.2]
      rfl
    · have hzero : min ((64 - b.numBits) / 8) (b.ptr - start) = 0 := by omega
      rw [if_neg hmore, hzero]
      exact ⟨held, h, rfl, rfl, rfl⟩

theorem refill_some (h : b.Holds inp start held)
    (hmem : unaligned = true → lo ≤ start ∧ b.ptr + 8 ≤ hi)
    (hok : RefillOk unaligned b.numBits (b.ptr - start) total) :
    ∃ b', b.refill unaligned inp lo hi start total = .ok (some b') ∧ b'.ptr ≤ b.ptr ∧
      b'.numBits = refillLevel unaligned b.numBits (b.ptr - start) total ∧
      (b'.numBits ≤ 64 → ∃ held', b'.Holds inp start held' ∧
        unread inp start b'.ptr held' = unread inp start b.ptr held) := by
  have hstart := h.mem.start_le
  have hlength := h.length
  have hle := h.mem.length_le
  rw [RefillOk] at hok
  cases unaligned with
  | true =>
    obtain ⟨hlo, hhi⟩ := hmem rfl
    rw [if_pos rfl] at hok
    rw [SeqBits.refill, if_pos rfl]
    generalize hlevel : refillLevel true b.numBits (b.ptr - start) total = level at hok ⊢
    rw [refillLevel, if_pos rfl] at hlevel
    rw [if_neg (by omega), if_neg (by omega), hlevel]
    refine ⟨_, rfl, sub_le _ _, rfl, fun _ => ?_⟩
    obtain ⟨held', hlength', hheld, hunread⟩ := h.mem.pushes
      (min_le_right (8 - (b.numBits + 7) / 8) (b.ptr - start)) (by omega)
    exact ⟨held', ⟨by dsimp only; omega, hheld.low, hheld⟩, hunread⟩
  | false =>
    rw [if_neg Bool.false_ne_true] at hok
    rw [SeqBits.refill, if_neg Bool.false_ne_true, refillLevel, if_neg Bool.false_ne_true]
    by_cases henough : total ≤ b.numBits
    · rw [if_pos henough, if_pos henough]
      exact ⟨b, rfl, le_rfl, rfl, fun _ => ⟨held, h, rfl⟩⟩
    rw [if_neg henough, if_neg henough, if_neg (by omega)]
    refine ⟨_, rfl, ?_⟩
    have hptr : start < b.ptr := by omega
    by_cases hfull : 56 < b.numBits
    · -- one byte is pushed in any case, and then too many bits are held
      have hfill : (b.push inp).fill inp start 8 = b.push inp := by
        rw [SeqBits.fill, if_neg fun h => absurd h.1 (show ¬ b.numBits + 8 ≤ 56 by omega)]
      rw [if_pos hfull, hfill]
      refine ⟨sub_le _ _, rfl, fun hbits => ?_⟩
      exact absurd hbits (show ¬ b.numBits + 8 ≤ 64 by omega)
    · have hpush : (b.push inp).numBits = b.numBits + 8 ∧ (b.push inp).ptr = b.ptr - 1 := ⟨rfl, rfl⟩
      obtain ⟨held', hheld, hbits, hptr', hunread⟩ := fill_spec 8 (h.push hptr (by omega)) (by omega)
      rw [if_neg hfull]
      refine ⟨by omega, by omega, fun _ => ⟨held', hheld, ?_⟩⟩
      rw [hunread, unread_push hptr]
      rfl

end

/-! ## Three values -/

section
variable {unaligned : Bool} {inp : Nat → UInt8} {lo hi start : Nat} {b : SeqBits} {held : List Bool}

theorem mod_word_masked (x : Nat) {n} (hn : n < 31) :
    x % 2 ^ 32 &&& (1 <<< n - 1) = x &&& (1 <<< n - 1) := by
  rw [one_shiftLeft, and_two_pow_sub_one_eq_mod, and_two_pow_sub_one_eq_mod,
    mod_mod_of_dvd _ (pow_dvd_pow 2 (by omega))]

/-- Three values are the next bits of the stream, if the container has them behind the refill. -/
theorem decode3_some (h : b.Holds inp start held)
    (hmem : unaligned = true → lo ≤ start ∧ b.ptr + 8 ≤ hi) {bitsA bitsB bitsC}
    (hbitsA : bitsA < 31) (hbitsB : bitsB < 31) (hbitsC : bitsC < 31)
    (hok : RefillOk unaligned b.numBits (b.ptr - start) (bitsA + bitsB + bitsC))
    (hfull : refillLevel unaligned b.numBits (b.ptr - start) (bitsA + bitsB + bitsC) ≤ 64)
    (henough : bitsA + bitsB + bitsC ≤
      refillLevel unaligned b.numBits (b.ptr - start) (bitsA + bitsB + bitsC)) :
    ∃ fa fb fc b' held', decode3 unaligned inp lo hi start bitsA bitsB bitsC b =
        .ok (some ((bigNat fa, bigNat fb, bigNat fc), b')) ∧
      fa.length = bitsA ∧ fb.length = bitsB ∧ fc.length = bitsC ∧
      b'.Holds inp start held' ∧ b'.ptr ≤ b.ptr ∧
      unread inp start b.ptr held = fa ++ (fb ++ (fc ++ unread inp start b'.ptr held')) := by
  obtain ⟨b₁, hrefill, hptr, hlevel, hholds⟩ := refill_some h hmem hok
  rw [← hlevel] at hfull henough
  obtain ⟨held₁, h₁, hunread⟩ := hholds hfull
  have hlength := h₁.length
  -- the bits held, in four parts
  obtain ⟨fa, rest, rfl, rfl⟩ := exists_append_length (show bitsA ≤ held₁.length by omega)
  rw [length_append] at hlength
  obtain ⟨fb, rest, rfl, rfl⟩ := exists_append_length (show bitsB ≤ rest.length by omega)
  rw [length_append] at hlength
  obtain ⟨fc, held', rfl, rfl⟩ := exists_append_length (show bitsC ≤ rest.length by omega)
  rw [length_append] at hlength
  have htake := h₁.low.take.2
  have htake' := htake.take.2
  refine ⟨fa, fb, fc, ⟨b₁.ptr, b₁.bits, b₁.numBits - (fa.length + fb.length + fc.length)⟩, held', ?_,
    rfl, rfl, rfl, ⟨?_, htake'.take.2, h₁.mem.start_le, ?_, ?_⟩, hptr, ?_⟩
  · rw [decode3, hrefill]
    have ha := h₁.low.masked (show b₁.numBits - fa.length = (fb ++ (fc ++ held')).length by
      simp only [length_append]; omega)
    have hb := htake.masked (show b₁.numBits - (fa.length + fb.length + fc.length) + fc.length =
      (fc ++ held').length by rw [length_append]; omega)
    have hc := htake'.masked (show b₁.numBits - (fa.length + fb.length + fc.length) = held'.length by
      omega)
    change (if _ then _ else _ : Except Fault _) = _
    rw [if_neg (by omega)]
    rw [mod_word_masked _ hbitsA, mod_word_masked _ hbitsB, ← shiftRight_add, ha, hb, hc]
    rfl
  · dsimp only
    omega
  · omega
  · exact h₁.mem.low.take.2.take.2.take.2
  · rw [← hunread, unread, unread]
    simp only [append_assoc]

/-- Up to 57 bits are there behind a refill, if the stream has them. -/
theorem refillLevel_enough {unaligned numBits avail total} (hbits : numBits ≤ 64)
    (htotal : total ≤ 57) (hrest : total ≤ numBits + 8 * avail) :
    RefillOk unaligned numBits avail total ∧ refillLevel unaligned numBits avail total ≤ 64 ∧
      total ≤ refillLevel unaligned numBits avail total := by
  have hlevel : refillLevel unaligned numBits avail total ≤ 64 ∧
      total ≤ refillLevel unaligned numBits avail total := by
    unfold refillLevel
    split
    · omega
    · split
      · omega
      · split <;> omega
  refine ⟨?_, hlevel⟩
  unfold RefillOk
  split
  · exact hlevel.2
  · exact hrest

/-- Values that are next in the stream are read. -/
theorem decode3_next (h : b.Holds inp start held)
    (hmem : unaligned = true → lo ≤ start ∧ b.ptr + 8 ≤ hi) {bitsA bitsB bitsC x y z}
    (hbitsA : bitsA < 31) (hbitsB : bitsB < 31) (hbitsC : bitsC < 31)
    (htotal : bitsA + bitsB + bitsC ≤ 57) (hx : x < 2 ^ bitsA) (hy : y < 2 ^ bitsB) (hz : z < 2 ^ bitsC)
    {rest} (hbits : unread inp start b.ptr held =
      highBits x bitsA ++ (highBits y bitsB ++ (highBits z bitsC ++ rest))) :
    ∃ b' held', decode3 unaligned inp lo hi start bitsA bitsB bitsC b = .ok (some ((x, y, z), b')) ∧
      b'.Holds inp start held' ∧ b'.ptr ≤ b.ptr ∧ unread inp start b'.ptr held' = rest := by
  have hlength := congrArg List.length hbits
  simp only [unread_length, length_append, highBits_length, ← h.length] at hlength
  obtain ⟨hok, hfull, henough⟩ := @refillLevel_enough unaligned b.numBits (b.ptr - start)
    (bitsA + bitsB + bitsC) (h.length ▸ h.mem.length_le) htotal (by omega)
  obtain ⟨fa, fb, fc, b', held', hrun, hfa, hfb, hfc, h', hptr, hread⟩ :=
    decode3_some h hmem hbitsA hbitsB hbitsC hok hfull henough
  -- the same bits are the same numbers
  rw [hbits] at hread
  obtain ⟨rfl, hreadB⟩ := append_inj hread (by rw [highBits_length, hfa])
  obtain ⟨rfl, hreadC⟩ := append_inj hreadB (by rw [highBits_length, hfb])
  obtain ⟨rfl, hrest⟩ := append_inj hreadC (by rw [highBits_length, hfc])
  rw [bigNat_highBits, bigNat_highBits, bigNat_highBits, mod_eq_of_lt hx, mod_eq_of_lt hy,
    mod_eq_of_lt hz] at hrun
  exact ⟨b', held', hrun, h', hptr, hrest.symm⟩

/-- The container that `init_sequences` fills up. -/
theorem initial_holds {stop bits} (hbits : inputBits inp start (stop - start) = sealBits bits) :
    start < stop ∧ (inp (stop - 1)).toNat ≠ 0 ∧ ∃ held b,
      SeqBits.fill inp start 8 ⟨stop - 1, (inp (stop - 1)).toNat, Nat.log2 (inp (stop - 1)).toNat⟩ = b ∧
        b.Holds inp start held ∧ (b.ptr + 8 ≤ stop ∨ b.ptr = start) ∧
        unread inp start b.ptr held = bits := by
  obtain ⟨k, hk, hlast, rfl⟩ := inputBits_eq_sealBits_iff.mp hbits
  have hstop : stop - 1 = start + k := by omega
  rw [← hstop] at hlast ⊢
  have hbyte := (inp (stop - 1)).toNat_lt
  have hlog : Nat.log2 (inp (stop - 1)).toNat < 8 := (log2_lt hlast).mpr hbyte
  have hlow := heldLow_highBits (inp (stop - 1)).toNat (Nat.log2 (inp (stop - 1)).toNat)
  have hheld : SeqBits.Holds inp start
      ⟨stop - 1, (inp (stop - 1)).toNat, Nat.log2 (inp (stop - 1)).toNat⟩
      (highBits (inp (stop - 1)).toNat (Nat.log2 (inp (stop - 1)).toNat)) := by
    refine ⟨by rw [highBits_length], hlow, show start ≤ stop - 1 by omega, ?_, ?_⟩
    · rw [highBits_length]
      omega
    · -- the first of the eight bytes is the last byte of the stream
      refine HeldLow.of_mod (w := 8) ?_ (by rw [highBits_length]; omega)
      have hfirst : leWord inp (stop - 1) 8 % 2 ^ 8 = (inp (stop - 1)).toNat := by
        refine (leWord_mod inp (stop - 1) 1 7).trans ?_
        rw [leWord, leWord, zero_shiftLeft, or_zero]
      rw [hfirst]
      exact hlow
  obtain ⟨held, hfill, hnum, hptr, hunread⟩ := fill_spec 8 hheld (by dsimp only; omega)
  dsimp only at hnum hptr hunread
  refine ⟨by omega, hlast, held, _, rfl, hfill, by omega, ?_⟩
  rw [hunread]

end

/-! ## Streams of sequences

A stream of sequences begins with a state of each of three tables. The states say the codes of the first
sequence, whose extra bits follow, and then come the bits that lead from each state to the next one. Read
backwards it gives the sequences it was made of, in whatever rounds, and nothing may be left of it. -/

/-- A table of a block: built for a distribution by `fse_build_table`, or with one entry, `RLE_Mode`. -/
def BuiltTable (settings : TableSettings) (log : Nat) (table : Nat → Nat) : Prop :=
  (∃ d t, 5 ≤ log ∧ log ≤ settings.maxLog ∧ given d settings.sym = 2 ^ log ∧
      fseBuildTable log settings.sym d t = .ok table) ∨
    log = 0 ∧ ∃ sym < settings.sym, table 0 = sym <<< 5

/-- What the entries of a table are good for: each leads to some of the states, and those of one symbol to
all of them. -/
structure StateTable (log numSym : Nat) (table : Nat → Nat) : Prop where
  sym : ∀ i < 2 ^ log, fseSym (table i) < numSym
  end_le : ∀ i < 2 ^ log, fseBase (table i) + 2 ^ fseBits (table i) ≤ 2 ^ log
  reach : ∀ i < 2 ^ log, ∀ state < 2 ^ log, ∃ j < 2 ^ log, fseSym (table j) = fseSym (table i) ∧
    fseBase (table j) ≤ state ∧ state < fseBase (table j) + 2 ^ fseBits (table j)

section
variable {settings : TableSettings} {log numSym : Nat} {table : Nat → Nat}

theorem StateTable.bits_le (h : StateTable log numSym table) {i} (hi : i < 2 ^ log) :
    fseBits (table i) ≤ log := by
  have hle := h.end_le i hi
  exact (Nat.pow_le_pow_iff_right (by decide)).mp (by omega : 2 ^ fseBits (table i) ≤ 2 ^ log)

theorem BuiltTable.log_le (h : BuiltTable settings log table) : log ≤ settings.maxLog := by
  rcases h with ⟨d, t, -, hlog, -⟩ | ⟨hlog, -⟩
  · exact hlog
  · omega

theorem rle_entry {sym} (hsym : sym < 64) :
    fseBits (sym <<< 5) = 0 ∧ fseSym (sym <<< 5) = sym ∧ fseBase (sym <<< 5) = 0 := by
  have hentry : fseBits (fseEntryOf 0 sym 0) = 0 ∧ fseSym (fseEntryOf 0 sym 0) = sym ∧
      fseBase (fseEntryOf 0 sym 0) = 0 := fseEntryOf_eq (by decide) hsym
  rwa [fseEntryOf, zero_or, zero_shiftLeft, or_zero] at hentry

theorem BuiltTable.stateTable (h : BuiltTable settings log table) (hs : settings.Sound) :
    StateTable log settings.sym table := by
  rcases h with ⟨d, t, hlog, hmax, hgiven, hbuild⟩ | ⟨rfl, sym, hsym, hentry⟩
  · have hlog20 := hmax.trans hs.maxLog
    have htable := fseBuildTable_table ⟨hlog, hlog20⟩ hs.sym hgiven hbuild
    refine ⟨htable.sym, fun i hi => htable.end_le hlog20 hs.sym hgiven hi, fun i hi state hstate => ?_⟩
    have hsym := htable.sym i hi
    have hne : d (fseSym (table i)) ≠ 1 := by
      intro hone
      have hcount := htable.count _ hsym
      rw [hone] at hcount
      have hrank : rank (fun i => fseSym (table i)) i < fseSlots 1 := hcount ▸ rank_lt hi rfl
      exact Nat.not_lt_zero _ hrank
    obtain ⟨j, ⟨hj, hsymj, hlead⟩, -⟩ := htable.partition _ hsym hne state hstate
    exact ⟨j, hj, hsymj, hlead⟩
  · have hsym64 := lt_of_lt_of_le hsym hs.sym
    obtain ⟨hbits, hsymEq, hbase⟩ := rle_entry hsym64
    have hzero {i : Nat} (hi : i < 2 ^ 0) : table i = sym <<< 5 := by
      rw [lt_one_iff.mp hi, hentry]
    refine ⟨fun i hi => ?_, fun i hi => ?_, fun i hi state hstate => ⟨i, hi, rfl, ?_⟩⟩
    · rw [hzero hi, hsymEq]
      exact hsym
    · rw [hzero hi, hbits, hbase]
      exact le_refl 1
    · rw [hzero hi, hbits, hbase]
      omega

end
/-- The three tables of a block. -/
structure SequenceTables (tables : DecTables) : Prop where
  copy : BuiltTable copySettings tables.copyLog tables.copyTable
  length : BuiltTable lengthSettings tables.lengthLog tables.lengthTable
  dist : BuiltTable distSettings tables.distLog tables.distTable

/-! ## The format -/

/-- `Literals_Length_Code`: baselines and numbers of extra bits. -/
def literalsLengthCodes : List (Nat × Nat) :=
  (List.range 16).map (fun n => (n, 0)) ++ [
    (16, 1), (18, 1), (20, 1), (22, 1), (24, 2), (28, 2), (32, 3), (40, 3),
    (48, 4), (64, 6), (128, 7), (256, 8), (512, 9), (1024, 10), (2048, 11), (4096, 12),
    (8192, 13), (16384, 14), (32768, 15), (65536, 16)]

/-- `Match_Length_Code`. -/
def matchLengthCodes : List (Nat × Nat) :=
  (List.range 32).map (fun n => (n + 3, 0)) ++ [
    (35, 1), (37, 1), (39, 1), (41, 1), (43, 2), (47, 2), (51, 3), (59, 3),
    (67, 4), (83, 4), (99, 5), (131, 7), (259, 8), (515, 9), (1027, 10), (2051, 11),
    (4099, 12), (8195, 13), (16387, 14), (32771, 15), (65539, 16)]

/-- A sequence by its codes and their extra bits. -/
structure CodedSequence where
  copyCode : Nat
  lengthCode : Nat
  offsetCode : Nat
  copyExtra : Nat
  lengthExtra : Nat
  offsetExtra : Nat

namespace CodedSequence
variable (q : CodedSequence)

def copyClass : Nat × Nat := literalsLengthCodes.getD q.copyCode (0, 0)

def lengthClass : Nat × Nat := matchLengthCodes.getD q.lengthCode (3, 0)

structure Valid : Prop where
  copyCode : q.copyCode < 36
  lengthCode : q.lengthCode < 53
  offsetCode : q.offsetCode ≤ 25
  copyExtra : q.copyExtra < 2 ^ q.copyClass.2
  lengthExtra : q.lengthExtra < 2 ^ q.lengthClass.2
  offsetExtra : q.offsetExtra < 2 ^ q.offsetCode

/-- The values of the sequence. -/
def raw : RawSequence :=
  ⟨q.copyClass.1 + q.copyExtra, q.lengthClass.1 - 3 + q.lengthExtra, 2 ^ q.offsetCode + q.offsetExtra⟩

def extraBits : List Bool :=
  highBits q.offsetExtra q.offsetCode ++
    (highBits q.lengthExtra q.lengthClass.2 ++ highBits q.copyExtra q.copyClass.2)

end CodedSequence

/-- A state of each table. -/
structure SeqStates where
  copy : Nat
  length : Nat
  dist : Nat

namespace SeqStates
variable (tables : DecTables) (s s' : SeqStates)

structure InRange : Prop where
  copy : s.copy < 2 ^ tables.copyLog
  length : s.length < 2 ^ tables.lengthLog
  dist : s.dist < 2 ^ tables.distLog

/-- The states that stand for the codes of a sequence. -/
structure Emits (q : CodedSequence) : Prop where
  copy : fseSym (tables.copyTable s.copy) = q.copyCode
  length : fseSym (tables.lengthTable s.length) = q.lengthCode
  dist : fseSym (tables.distTable s.dist) = q.offsetCode

def initialBits : List Bool :=
  highBits s.copy tables.copyLog ++ (highBits s.dist tables.distLog ++ highBits s.length tables.lengthLog)

end SeqStates

/-- The three entries a loop turn begins with. -/
structure SeqEntries where
  copy : Nat
  length : Nat
  dist : Nat

structure SeqEntries.Leads (e : SeqEntries) (s : SeqStates) : Prop where
  copy : Zstd.Leads e.copy s.copy
  length : Zstd.Leads e.length s.length
  dist : Zstd.Leads e.dist s.dist

def SeqEntries.updateBits (e : SeqEntries) (s : SeqStates) : List Bool :=
  leadBits e.copy s.copy ++ (leadBits e.length s.length ++ leadBits e.dist s.dist)

def SeqStates.entries (tables : DecTables) (s : SeqStates) : SeqEntries :=
  ⟨tables.copyTable s.copy, tables.lengthTable s.length, tables.distTable s.dist⟩

/-- The stream behind the states of its first sequence. -/
inductive SequenceBits (tables : DecTables) : SeqStates → List CodedSequence → List Bool → Prop where
  | last {s : SeqStates} {q : CodedSequence} : s.InRange tables → s.Emits tables q →
      SequenceBits tables s [q] q.extraBits
  | next {s s' : SeqStates} {q : CodedSequence} {qs : List CodedSequence} {bits : List Bool} :
      s.InRange tables → s.Emits tables q → (s.entries tables).Leads s' → SequenceBits tables s' qs bits →
      SequenceBits tables s (q :: qs) (q.extraBits ++ ((s.entries tables).updateBits s' ++ bits))

def EncodesSequences (tables : DecTables) (qs : List CodedSequence) (bits : List Bool) : Prop :=
  ∃ s rest, SequenceBits tables s qs rest ∧ bits = s.initialBits tables ++ rest

section
variable {tables : DecTables} {s : SeqStates} {qs : List CodedSequence} {q : CodedSequence}
  {bits : List Bool}

theorem SequenceBits.inRange (h : SequenceBits tables s qs bits) : s.InRange tables := by
  cases h with
  | last h => exact h
  | next h => exact h

/-- Each symbol of a table has an entry that leads to any state. -/
theorem SequenceTables.exists_before (h : SequenceTables tables) {s s' : SeqStates}
    (hs : s.InRange tables) (hs' : s'.InRange tables) (hq : s.Emits tables q) :
    ∃ s₁ : SeqStates, s₁.InRange tables ∧ s₁.Emits tables q ∧ (s₁.entries tables).Leads s' := by
  obtain ⟨c, hc, hcsym, hclead⟩ := (h.copy.stateTable copySettings_sound).reach _ hs.copy _ hs'.copy
  obtain ⟨l, hl, hlsym, hllead⟩ := (h.length.stateTable lengthSettings_sound).reach _ hs.length _ hs'.length
  obtain ⟨d, hd, hdsym, hdlead⟩ := (h.dist.stateTable distSettings_sound).reach _ hs.dist _ hs'.dist
  exact ⟨⟨c, l, d⟩, ⟨hc, hl, hd⟩, ⟨hcsym.trans hq.copy, hlsym.trans hq.length, hdsym.trans hq.dist⟩,
    ⟨hclead, hllead, hdlead⟩⟩

/-- All sequences that the tables have entries for can be encoded. -/
theorem exists_encoded (h : SequenceTables tables) (hne : qs ≠ [])
    (hqs : ∀ q ∈ qs, ∃ s : SeqStates, s.InRange tables ∧ s.Emits tables q) :
    ∃ s bits, SequenceBits tables s qs bits := by
  induction qs with
  | nil => exact absurd rfl hne
  | cons q qs ih =>
    obtain ⟨⟨s, hs, hq⟩, htail⟩ := forall_mem_cons.mp hqs
    cases qs with
    | nil => exact ⟨s, _, .last hs hq⟩
    | cons q' qs =>
      obtain ⟨s', bits, hbits⟩ := ih (by simp) htail
      obtain ⟨s₁, hs₁, hq₁, hlead⟩ := h.exists_before hs hbits.inRange hq
      exact ⟨s₁, _, .next hs₁ hq₁ hlead hbits⟩

end

/-! ## The code tables -/

/-- An entry that is or-ed together is taken apart by a shift and a mask. -/
theorem ctable_classes : (∀ c ∈ literalsLengthCodes, ctableEntry c.1 c.2 >>> 24 = c.2 ∧
      ctableEntry c.1 c.2 &&& 0xffffff = c.1 ∧ c.2 ≤ 16) ∧
    ∀ c ∈ matchLengthCodes, ctableEntry (c.1 - 3) c.2 >>> 24 = c.2 ∧
      ctableEntry (c.1 - 3) c.2 &&& 0xffffff = c.1 - 3 ∧ c.2 ≤ 16 := by decide

theorem constEntry_map (codes : List (Nat × Nat)) (f : Nat × Nat → Nat) (d : Nat × Nat) {i}
    (hi : i < codes.length) :
    constEntry (codes.map f) i = .ok (f (codes.getD i d)) ∧ codes.getD i d ∈ codes := by
  rw [constEntry, List.getElem?_map, List.getElem?_eq_getElem hi, getD_eq_getElem _ _ hi]
  exact ⟨rfl, getElem_mem hi⟩

namespace CodedSequence
variable {q : CodedSequence}

theorem copy_entry (h : q.copyCode < 36) : ∃ v, constEntry ctableCopy q.copyCode = .ok v ∧
    v >>> 24 = q.copyClass.2 ∧ v &&& 0xffffff = q.copyClass.1 ∧ q.copyClass.2 ≤ 16 := by
  obtain ⟨hentry, hmem⟩ := constEntry_map literalsLengthCodes (fun c => ctableEntry c.1 c.2) (0, 0) h
  exact ⟨_, hentry, ctable_classes.1 _ hmem⟩

theorem length_entry (h : q.lengthCode < 53) : ∃ v, constEntry ctableLength q.lengthCode = .ok v ∧
    v >>> 24 = q.lengthClass.2 ∧ v &&& 0xffffff = q.lengthClass.1 - 3 ∧ q.lengthClass.2 ≤ 16 := by
  obtain ⟨hentry, hmem⟩ := constEntry_map matchLengthCodes (fun c => ctableEntry (c.1 - 3) c.2) (3, 0) h
  exact ⟨_, hentry, ctable_classes.2 _ hmem⟩

end CodedSequence

/-! ## Decoding -/

/-- A state with another place in the stream. -/
def SequencesState.placed (s : SequencesState) (b : SeqBits) (e : SeqEntries) : SequencesState :=
  { s with bits := b, entryCopy := e.copy, entryLength := e.length, entryDist := e.dist }

def SequencesState.entries (s : SequencesState) : SeqEntries := ⟨s.entryCopy, s.entryLength, s.entryDist⟩

theorem usedDist_placed (s : SequencesState) (b : SeqBits) (e : SeqEntries) (copy dist : Nat) :
    usedDist (s.placed b e) copy dist = (usedDist s copy dist).map fun r => (r.1, r.2.placed b e) := by
  unfold usedDist
  split_ifs <;> rfl

/-- What is packed does not depend on the place in the stream. -/
theorem packSequence_placed (s : SequencesState) (b : SeqBits) (e : SeqEntries) (copy length dist : Nat) :
    packSequence (s.placed b e) copy length dist =
      (packSequence s copy length dist).map (Option.map fun r => (r.1, r.2.placed b e)) := by
  rw [packSequence, packSequence, usedDist_placed]
  cases usedDist s copy dist with
  | error f => rfl
  | ok r =>
    change (if r.1 = 0 then _ else _) = Except.map _ (if r.1 = 0 then _ else _)
    split
    · rfl
    · split <;> rfl

section
variable {unaligned : Bool} {inp : Nat → UInt8} {lo hi start : Nat} {tables : DecTables}
  {s : SequencesState} {held : List Bool}

/-- The entries of a loop turn need few bits. -/
structure SeqEntries.Short (e : SeqEntries) : Prop where
  copy : fseBits e.copy ≤ 9
  length : fseBits e.length ≤ 9
  dist : fseBits e.dist ≤ 8

theorem SequenceTables.short (h : SequenceTables tables) {st : SeqStates} (hst : st.InRange tables) :
    (st.entries tables).Short :=
  ⟨((h.copy.stateTable copySettings_sound).bits_le hst.copy).trans h.copy.log_le,
    ((h.length.stateTable lengthSettings_sound).bits_le hst.length).trans h.length.log_le,
    ((h.dist.stateTable distSettings_sound).bits_le hst.dist).trans h.dist.log_le⟩

theorem arrayEntry_of_lt {table : Nat → Nat} {size i} (h : i < size) :
    arrayEntry table size i = .ok (table i) := if_pos h

/-- One turn of the loop reads the states that the entries lead to and the sequence they stand for. -/
theorem decodeSequence_spec (ht : SequenceTables tables) (h : s.bits.Holds inp start held)
    (hmem : unaligned = true → lo ≤ start ∧ s.bits.ptr + 8 ≤ hi) (hshort : s.entries.Short)
    {st : SeqStates} {q : CodedSequence} (hq : q.Valid) (hst : st.InRange tables)
    (hemits : st.Emits tables q) (hleads : s.entries.Leads st) {rest}
    (hbits : unread inp start s.bits.ptr held = s.entries.updateBits st ++ (q.extraBits ++ rest)) :
    ∃ b held', b.Holds inp start held' ∧ b.ptr ≤ s.bits.ptr ∧ unread inp start b.ptr held' = rest ∧
      decodeSequence unaligned inp lo hi start tables s =
        packSequence (s.placed b (st.entries tables)) q.raw.copy q.raw.length q.raw.offset := by
  have hlead {entry state : Nat} (h : Leads entry state) :
      state - fseBase entry < 2 ^ fseBits entry ∧ state - fseBase entry + fseBase entry = state := by
    obtain ⟨hle, hlt⟩ := h
    omega
  obtain ⟨hcopy, hcopyState⟩ := hlead hleads.copy
  obtain ⟨hlength, hlengthState⟩ := hlead hleads.length
  obtain ⟨hdist, hdistState⟩ := hlead hleads.dist
  simp only [SeqEntries.updateBits, CodedSequence.extraBits, append_assoc] at hbits
  have hshortCopy := hshort.copy
  have hshortLength := hshort.length
  have hshortDist := hshort.dist
  obtain ⟨b₁, held₁, hrun₁, h₁, hptr₁, hrest₁⟩ := decode3_next h hmem (by omega) (by omega) (by omega)
    (by omega) hcopy hlength hdist hbits
  have hmem₁ : unaligned = true → lo ≤ start ∧ b₁.ptr + 8 ≤ hi := fun h => by
    have hle := hmem h
    omega
  obtain ⟨lengthEntry, hlengthEntry, hlengthBits, hlengthBase, hlength16⟩ :=
    CodedSequence.length_entry hq.lengthCode
  obtain ⟨copyEntry, hcopyEntry, hcopyBits, hcopyBase, hcopy16⟩ := CodedSequence.copy_entry hq.copyCode
  have hoffset25 := hq.offsetCode
  obtain ⟨b₂, held₂, hrun₂, h₂, hptr₂, hrest₂⟩ := decode3_next h₁ hmem₁ (by omega) (by omega) (by omega)
    (by omega) hq.offsetExtra hq.lengthExtra hq.copyExtra hrest₁
  refine ⟨b₂, held₂, h₂, le_trans hptr₂ hptr₁, hrest₂, ?_⟩
  have hcopySize : st.copy < 512 := lt_of_lt_of_le hst.copy
    (Nat.pow_le_pow_right (by decide) ht.copy.log_le)
  have hlengthSize : st.length < 512 := lt_of_lt_of_le hst.length
    (Nat.pow_le_pow_right (by decide) ht.length.log_le)
  have hdistSize : st.dist < 256 := lt_of_lt_of_le hst.dist
    (Nat.pow_le_pow_right (by decide) ht.dist.log_le)
  change decode3 unaligned inp lo hi start (fseBits s.entryCopy) (fseBits s.entryLength)
    (fseBits s.entryDist) s.bits = _ at hrun₁
  rw [decodeSequence, hrun₁]
  change (arrayEntry tables.copyTable 512 (st.copy - fseBase s.entries.copy + fseBase s.entries.copy) >>=
    _) = _
  rw [hcopyState, arrayEntry_of_lt hcopySize]
  change (arrayEntry tables.distTable 256 (st.dist - fseBase s.entries.dist + fseBase s.entries.dist) >>=
    _) = _
  rw [hdistState, arrayEntry_of_lt hdistSize]
  change (arrayEntry tables.lengthTable 512
    (st.length - fseBase s.entries.length + fseBase s.entries.length) >>= _) = _
  rw [hlengthState, arrayEntry_of_lt hlengthSize]
  change (constEntry ctableLength (fseSym (tables.lengthTable st.length)) >>= _) = _
  rw [hemits.length, hlengthEntry]
  rw [hemits.copy, hcopyEntry]
  change (decode3 unaligned inp lo hi start (fseSym (tables.distTable st.dist)) (lengthEntry >>> 24)
    (copyEntry >>> 24) b₁ >>= _) = _
  rw [hemits.dist, hlengthBits, hcopyBits, hrun₂]
  change packSequence (s.placed b₂ (st.entries tables)) (q.copyExtra + (copyEntry &&& 0xffffff))
    (q.lengthExtra + (lengthEntry &&& 0xffffff)) (q.offsetExtra + 1 <<< q.offsetCode) = _
  rw [hcopyBase, hlengthBase, one_shiftLeft, add_comm q.copyExtra,
    add_comm q.lengthExtra, add_comm q.offsetExtra]
  rfl

theorem packSequences_cons_some {q : RawSequence} {w s'}
    (h : packSequence s q.copy q.length q.offset = .ok (some (w, s'))) (qs : List RawSequence) :
    packSequences s (q :: qs) = (packSequences s' qs).map (Option.map fun r => (w :: r.1, r.2)) := by
  rw [packSequences, packLoop, packOne, h]
  change (packLoop packOne s' qs >>= _) = _
  cases packLoop packOne s' qs with
  | error f => rfl
  | ok r => cases r <;> rfl

theorem packSequences_cons_none {q : RawSequence} (qs : List RawSequence)
    (h : packSequence s q.copy q.length q.offset = .ok none) : packSequences s (q :: qs) = .ok none := by
  rw [packSequences, packLoop, packOne, h]
  rfl

theorem packSequences_cons_error {q : RawSequence} {f} (qs : List RawSequence)
    (h : packSequence s q.copy q.length q.offset = .error f) : packSequences s (q :: qs) = .error f := by
  rw [packSequences, packLoop, packOne, h]
  rfl

theorem packSequences_placed (s : SequencesState) (b : SeqBits) (e : SeqEntries) (qs : List RawSequence) :
    packSequences (s.placed b e) qs =
      (packSequences s qs).map (Option.map fun r => (r.1, r.2.placed b e)) := by
  induction qs generalizing s with
  | nil => rfl
  | cons q qs ih =>
    have hplaced := packSequence_placed s b e q.copy q.length q.offset
    cases hpack : packSequence s q.copy q.length q.offset with
    | error f =>
      rw [hpack] at hplaced
      rw [packSequences_cons_error qs hpack, packSequences_cons_error qs hplaced]
      rfl
    | ok r =>
      rw [hpack] at hplaced
      cases r with
      | none =>
        rw [packSequences_cons_none qs hpack, packSequences_cons_none qs hplaced]
        rfl
      | some r =>
        rw [packSequences_cons_some hpack, packSequences_cons_some hplaced, ih]
        cases packSequences r.2 qs with
        | error f => rfl
        | ok r => cases r <;> rfl

/-- All turns of the loop. -/
theorem decodeSequences_spec (ht : SequenceTables tables) {st} {qs : List CodedSequence}
    {bits rest} (henc : SequenceBits tables st qs bits) (hqs : ∀ q ∈ qs, q.Valid)
    (h : s.bits.Holds inp start held) (hmem : unaligned = true → lo ≤ start ∧ s.bits.ptr + 8 ≤ hi)
    (hshort : s.entries.Short) (hleads : s.entries.Leads st)
    (hbits : unread inp start s.bits.ptr held = s.entries.updateBits st ++ (bits ++ rest)) :
    ∃ b e held', b.Holds inp start held' ∧ unread inp start b.ptr held' = rest ∧
      decodeSequences unaligned inp lo hi start tables qs.length s =
        (packSequences s (qs.map CodedSequence.raw)).map (Option.map fun r => (r.1, r.2.placed b e)) := by
  induction henc generalizing s held with
  | @last st q hst hemits =>
    obtain ⟨b, held', hb, -, hrest, hrun⟩ := decodeSequence_spec ht h hmem hshort (hqs q (by simp)) hst
      hemits hleads hbits
    refine ⟨b, st.entries tables, held', hb, hrest, ?_⟩
    rw [packSequence_placed] at hrun
    rw [length_singleton, decodeSequences, hrun, map_singleton]
    cases hpack : packSequence s q.raw.copy q.raw.length q.raw.offset with
    | error f =>
      rw [packSequences_cons_error [] hpack]
      rfl
    | ok r =>
      cases r with
      | none =>
        rw [packSequences_cons_none [] hpack]
        rfl
      | some r =>
        rw [packSequences_cons_some hpack]
        rfl
  | @next st st' q qs bits hst hemits hnext henc ih =>
    obtain ⟨hq, htail⟩ := forall_mem_cons.mp hqs
    rw [append_assoc, append_assoc] at hbits
    obtain ⟨b₁, held₁, hb₁, hptr, hrest, hrun⟩ := decodeSequence_spec ht h hmem hshort hq hst hemits hleads
      hbits
    have hmem₁ : unaligned = true → lo ≤ start ∧ b₁.ptr + 8 ≤ hi := fun h => by
      have hle := hmem h
      omega
    have hshort₁ := ht.short hst
    rw [packSequence_placed] at hrun
    rw [length_cons, decodeSequences, hrun, map_cons]
    -- what is behind the first sequence does not depend on what is packed
    have htailSpec (s' : SequencesState) := ih (s := s'.placed b₁ (st.entries tables)) htail hb₁ hmem₁
      hshort₁ hnext hrest
    cases hpack : packSequence s q.raw.copy q.raw.length q.raw.offset with
    | error f =>
      obtain ⟨b, e, held', hb, hrest', -⟩ := htailSpec s
      refine ⟨b, e, held', hb, hrest', ?_⟩
      rw [packSequences_cons_error _ hpack]
      rfl
    | ok r =>
      cases r with
      | none =>
        obtain ⟨b, e, held', hb, hrest', -⟩ := htailSpec s
        refine ⟨b, e, held', hb, hrest', ?_⟩
        rw [packSequences_cons_none _ hpack]
        rfl
      | some r =>
        obtain ⟨b, e, held', hb, hrest', hrun'⟩ := htailSpec r.2
        refine ⟨b, e, held', hb, hrest', ?_⟩
        rw [packSequences_placed] at hrun'
        rw [packSequences_cons_some hpack]
        change (decodeSequences unaligned inp lo hi start tables qs.length
          (r.2.placed b₁ (st.entries tables)) >>= _) = _
        rw [hrun']
        cases packSequences r.2 (qs.map CodedSequence.raw) with
        | error f => rfl
        | ok r => cases r <;> rfl

/-- Two rounds are as good as one. -/
theorem decodeSequences_add (n k : Nat) (s : SequencesState) :
    decodeSequences unaligned inp lo hi start tables (n + k) s =
      (decodeSequences unaligned inp lo hi start tables n s >>= fun r => r.elim (pure none) fun x =>
        (decodeSequences unaligned inp lo hi start tables k x.2).map
          (Option.map fun y => (x.1 ++ y.1, y.2))) := by
  induction n generalizing s with
  | zero =>
    rw [zero_add]
    change _ = (decodeSequences unaligned inp lo hi start tables k s).map _
    cases decodeSequences unaligned inp lo hi start tables k s with
    | error f => rfl
    | ok r => cases r <;> rfl
  | succ n ih =>
    rw [succ_add, decodeSequences, decodeSequences]
    cases decodeSequence unaligned inp lo hi start tables s with
    | error f => rfl
    | ok r =>
      rcases r with _ | ⟨w, s'⟩
      · rfl
      · change (decodeSequences unaligned inp lo hi start tables (n + k) s' >>= _) =
          ((decodeSequences unaligned inp lo hi start tables n s' >>= _) >>= _)
        rw [ih]
        cases decodeSequences unaligned inp lo hi start tables n s' with
        | error f => rfl
        | ok r =>
          rcases r with _ | ⟨ws, s''⟩
          · rfl
          · change (Except.map _ (decodeSequences unaligned inp lo hi start tables k s'') >>= _) =
              Except.map _ (decodeSequences unaligned inp lo hi start tables k s'')
            cases decodeSequences unaligned inp lo hi start tables k s'' with
            | error f => rfl
            | ok r => cases r <;> rfl

end

/-- The rounds of a block, by the numbers of their sequences. -/
def decodeRounds (unaligned : Bool) (inp : Nat → UInt8) (lo hi start : Nat) (tables : DecTables) :
    SequencesState → List Nat → Except Fault (Option (List Nat × SequencesState)) :=
  packLoop fun s n => decodeSequences unaligned inp lo hi start tables n s

section
variable {unaligned : Bool} {inp : Nat → UInt8} {lo hi start stop : Nat} {tables : DecTables}

theorem decodeRounds_eq (s : SequencesState) (sizes : List Nat) :
    decodeRounds unaligned inp lo hi start tables s sizes =
      decodeSequences unaligned inp lo hi start tables sizes.sum s := by
  induction sizes generalizing s with
  | nil => rfl
  | cons n sizes ih =>
    rw [decodeRounds, packLoop, sum_cons, decodeSequences_add]
    cases decodeSequences unaligned inp lo hi start tables n s with
    | error f => rfl
    | ok r =>
      rcases r with _ | ⟨ws, s'⟩
      · rfl
      · change (decodeRounds unaligned inp lo hi start tables s' sizes >>= _) =
          Except.map _ (decodeSequences unaligned inp lo hi start tables sizes.sum s')
        rw [ih]
        cases decodeSequences unaligned inp lo hi start tables sizes.sum s' with
        | error f => rfl
        | ok r => cases r <;> rfl

/-- The states that a stream begins with are entries which lead to themselves. -/
theorem initial_entry (x : Nat) : fseBits (x <<< 11) = 0 ∧ fseBase (x <<< 11) = x := by
  have hentry : fseBits (fseEntryOf 0 0 x) = 0 ∧ fseSym (fseEntryOf 0 0 x) = 0 ∧
      fseBase (fseEntryOf 0 0 x) = x := fseEntryOf_eq (by decide) (by decide)
  rw [fseEntryOf, zero_shiftLeft, zero_or, zero_or] at hentry
  exact ⟨hentry.1, hentry.2.2⟩

def SeqStates.initial (st : SeqStates) : SeqEntries := ⟨st.copy <<< 11, st.length <<< 11, st.dist <<< 11⟩

theorem SeqStates.initial_short (st : SeqStates) : st.initial.Short :=
  ⟨(initial_entry st.copy).1 ▸ Nat.zero_le 9, (initial_entry st.length).1 ▸ Nat.zero_le 9,
    (initial_entry st.dist).1 ▸ Nat.zero_le 8⟩

theorem SeqStates.initial_leads (st : SeqStates) :
    st.initial.Leads st ∧ st.initial.updateBits st = [] := by
  have hlead (x : Nat) : Leads (x <<< 11) x ∧ leadBits (x <<< 11) x = [] := by
    obtain ⟨hbits, hbase⟩ := initial_entry x
    rw [Leads, leadBits, hbits, hbase]
    exact ⟨⟨le_refl x, lt_succ_self x⟩, rfl⟩
  refine ⟨⟨(hlead _).1, (hlead _).1, (hlead _).1⟩, ?_⟩
  change leadBits (st.copy <<< 11) _ ++ (leadBits (st.length <<< 11) _ ++ leadBits (st.dist <<< 11) _) = []
  rw [(hlead _).2, (hlead _).2, (hlead _).2]
  rfl

theorem initSequences_spec (ht : SequenceTables tables)
    (hmem : unaligned = true → lo ≤ start ∧ stop ≤ hi ∧ start + 8 ≤ hi) {st : SeqStates}
    (hst : st.InRange tables) {rest}
    (hbits : inputBits inp start (stop - start) = sealBits (st.initialBits tables ++ rest)) :
    ∃ s held, initSequences unaligned inp lo hi start stop tables = .ok (some s) ∧
      s.bits.Holds inp start held ∧ (unaligned = true → lo ≤ start ∧ s.bits.ptr + 8 ≤ hi) ∧
      s.entries = st.initial ∧ unread inp start s.bits.ptr held = rest := by
  obtain ⟨hlt, hlast, held, b, hb, hheld, hptr, hunread⟩ := initial_holds hbits
  have hmemb : unaligned = true → lo ≤ start ∧ b.ptr + 8 ≤ hi := fun h => by
    have hbounds := hmem h
    omega
  have hcopy : tables.copyLog ≤ 9 := ht.copy.log_le
  have hlength : tables.lengthLog ≤ 9 := ht.length.log_le
  have hdist : tables.distLog ≤ 8 := ht.dist.log_le
  rw [SeqStates.initialBits, append_assoc, append_assoc] at hunread
  obtain ⟨b', held', hrun, hheld', hptr', hrest⟩ := decode3_next hheld hmemb (by omega) (by omega)
    (by omega) (by omega) hst.copy hst.dist hst.length hunread
  refine ⟨⟨b', tables.dist1 % 2 ^ 32, tables.dist2 % 2 ^ 32, tables.dist3 % 2 ^ 32, st.copy <<< 11,
    st.length <<< 11, st.dist <<< 11⟩, held', ?_, hheld', fun h => ?_, rfl, hrest⟩
  · rw [initSequences, if_neg (by omega)]
    dsimp only
    rw [if_neg hlast, hb, hrun]
    rfl
  · have hbounds := hmemb h
    dsimp only
    omega

end

/-- Sequences that the tables have entries for can be encoded, and however they are encoded they are read
back, in rounds of any sizes, and given to `pack_sequence`. The stream is accepted if nothing is left. -/
theorem sequences_roundtrip {unaligned : Bool} {inp : Nat → UInt8} {lo hi start stop : Nat}
    {tables : DecTables} (ht : SequenceTables tables)
    (hmem : unaligned = true → lo ≤ start ∧ stop ≤ hi ∧ start + 8 ≤ hi) {qs : List CodedSequence}
    (hne : qs ≠ []) (hqs : ∀ q ∈ qs, q.Valid) :
    ((∀ q ∈ qs, ∃ st : SeqStates, st.InRange tables ∧ st.Emits tables q) →
      ∃ bits, EncodesSequences tables qs bits) ∧
    ∀ bits rest sizes, EncodesSequences tables qs bits →
      inputBits inp start (stop - start) = sealBits (bits ++ rest) →
      (∀ n ∈ sizes, 0 < n) → sizes.sum = qs.length →
      ∃ s b e, initSequences unaligned inp lo hi start stop tables = .ok (some s) ∧ s = s.load tables ∧
        decodeRounds unaligned inp lo hi start tables s sizes =
          (packSequences s (qs.map CodedSequence.raw)).map (Option.map fun r => (r.1, r.2.placed b e)) ∧
        ∀ s' : SequencesState, finishSequences (s'.placed b e) start tables =
          if rest = [] then some (s'.save tables) else none := by
  constructor
  · intro hentries
    obtain ⟨st, bits, hbits⟩ := exists_encoded ht hne hentries
    exact ⟨_, st, bits, hbits, rfl⟩
  · rintro bits rest sizes ⟨st, tail, henc, rfl⟩ hinput - hsum
    rw [append_assoc] at hinput
    obtain ⟨s, held, hinit, hheld, hmems, hentries, hunread⟩ := initSequences_spec ht hmem henc.inRange hinput
    obtain ⟨hleads, hnil⟩ := st.initial_leads
    obtain ⟨b, e, held', hheld', hrest, hrun⟩ := decodeSequences_spec ht henc hqs hheld hmems
      (hentries ▸ st.initial_short) (hentries ▸ hleads) (by rw [hentries, hnil, hunread]; rfl)
    refine ⟨s, b, e, hinit, initSequences_load hinit, ?_, fun s' => ?_⟩
    · rw [decodeRounds_eq, hsum, hrun]
    · have hend : (b.numBits = 0 ∧ b.ptr = start) ↔ rest = [] := by
        have hstart := hheld'.mem.start_le
        rw [← hrest, eq_nil_iff_length_eq_zero, unread_length, hheld'.length]
        omega
      have hfinish : finishSequences (s'.placed b e) start tables =
          if b.numBits = 0 ∧ b.ptr = start then some (s'.save tables) else none := rfl
      rw [hfinish]
      by_cases hnone : rest = []
      · rw [if_pos hnone, if_pos (hend.mpr hnone)]
      · rw [if_neg hnone, if_neg fun h => hnone (hend.mp h)]

/-- What `fse_build_table` makes of the predefined distribution. -/
def predefinedTable (settings : TableSettings) : Nat → Nat :=
  (fseBuildTable settings.log settings.sym (predefWeight settings) fun _ => 0).toOption.getD fun _ => 0

def predefinedTables : DecTables :=
  { noTables with
    copyLog := copySettings.log, lengthLog := lengthSettings.log, distLog := distSettings.log
    copyTable := predefinedTable copySettings, lengthTable := predefinedTable lengthSettings
    distTable := predefinedTable distSettings }

theorem predefinedTable_built {settings : TableSettings} (h : settings.Sound) :
    BuiltTable settings settings.log (predefinedTable settings) := by
  obtain ⟨-, t, hbuild, -⟩ := fseBuildTable_built ⟨h.log, h.log_le.trans h.maxLog⟩ h.sym h.predef
    fun _ => 0
  refine .inl ⟨predefWeight settings, fun _ => 0, h.log, h.log_le, h.predef.given, ?_⟩
  rw [predefinedTable, hbuild]
  rfl

theorem predefinedTables_built : SequenceTables predefinedTables := by
  constructor <;> dsimp only [predefinedTables]
  · exact predefinedTable_built copySettings_sound
  · exact predefinedTable_built lengthSettings_sound
  · exact predefinedTable_built distSettings_sound

/-- Two sequences in five bytes, with codes of the predefined tables. -/
def twoSequences (a : Nat) : UInt8 := [0x77, 0x8f, 0x37, 0x28, 0x4b].getD a 0

theorem sequences_roundtrip_two :
    ∃ s b e, initSequences true twoSequences 0 8 0 5 predefinedTables = .ok (some s) ∧
      s = s.load predefinedTables ∧
      decodeRounds true twoSequences 0 8 0 predefinedTables s [1, 1] =
        (packSequences s [⟨17, 1, 13⟩, ⟨2, 35, 7⟩]).map (Option.map fun r => (r.1, r.2.placed b e)) ∧
      ∀ s' : SequencesState,
        finishSequences (s'.placed b e) 0 predefinedTables = some (s'.save predefinedTables) := by
  have hvalid : ∀ q ∈ [(⟨16, 1, 3, 1, 0, 5⟩ : CodedSequence), ⟨2, 33, 2, 0, 1, 3⟩], q.Valid := by
    simp only [forall_mem_cons, not_mem_nil, false_implies, implies_true, and_true]
    exact ⟨⟨by decide, by decide, by decide, by decide, by decide, by decide⟩,
      by decide, by decide, by decide, by decide, by decide, by decide⟩
  -- the states of both sequences, each from the tables
  have hlast : SequenceBits predefinedTables ⟨24, 15, 14⟩ [⟨2, 33, 2, 0, 1, 3⟩] _ :=
    .last ⟨by decide, by decide, by decide⟩
      ⟨by decide +kernel, by decide +kernel, by decide +kernel⟩
  have henc : SequenceBits predefinedTables ⟨11, 1, 5⟩ [⟨16, 1, 3, 1, 0, 5⟩, ⟨2, 33, 2, 0, 1, 3⟩] _ :=
    .next ⟨by decide, by decide, by decide⟩ ⟨by decide +kernel, by decide +kernel, by decide +kernel⟩
      ⟨⟨by decide +kernel, by decide +kernel⟩, ⟨by decide +kernel, by decide +kernel⟩,
        by decide +kernel, by decide +kernel⟩ hlast
  exact (sequences_roundtrip predefinedTables_built (fun _ => ⟨by decide, by decide, by decide⟩)
    (by simp) hvalid).2 _ [] [1, 1] ⟨_, _, henc, rfl⟩ (by decide +kernel) (by simp) rfl

end Rkboot.Compression.Zstd
