import Rkboot.Compression.ZstdLiteralStream
import Rkboot.Compression.ZstdAssertions

/-! # Malformed literals

What the block decoder does with literals it should refuse. The first three of four streams have a
quarter of the literals each, rounded up, and together that is more than all of them if there are 1, 2 or
5: nothing but the contents of the streams keeps them from being written. And a tree description that is
rejected does not end the block: its null pointer goes on to where the literals are decoded. -/
namespace Rkboot.Compression.Zstd
open Lib List Exec

/-! ## Four streams -/

section
variable (inp : Nat → UInt8) (start : Nat)

def secondStream : Nat := start + 6 + leWord inp start 2

def thirdStream : Nat := secondStream inp start + leWord inp (start + 2) 2

def fourthStream : Nat := thirdStream inp start + leWord inp (start + 4) 2

/-- The sizes of the first three streams, which leave something for the fourth. -/
structure FourHeader (stop : Nat) : Prop where
  length : 10 ≤ stop - start
  sizes : leWord inp start 2 + leWord inp (start + 2) 2 + leWord inp (start + 4) 2 + 1 ≤
    stop - (start + 6)

variable (stop n : Nat) (code len : UInt8 → Nat)

/-- A stream that begins with `n` literals. -/
def Begins : Prop := ∃ syms rest, syms.length = n ∧ Encodes inp start stop code len syms rest

/-- A stream of `n` literals and nothing else. -/
def Whole : Prop := ∃ syms, syms.length = n ∧ Encodes inp start stop code len syms []

/-- `n` literals in four streams. -/
structure FourStreams (syms₁ syms₂ syms₃ syms₄ : List UInt8) : Prop where
  first : syms₁.length = (n + 3) / 4 ∧
    Encodes inp (start + 6) (secondStream inp start) code len syms₁ []
  second : syms₂.length = (n + 3) / 4 ∧
    Encodes inp (secondStream inp start) (thirdStream inp start) code len syms₂ []
  third : syms₃.length = (n + 3) / 4 ∧
    Encodes inp (thirdStream inp start) (fourthStream inp start) code len syms₃ []
  fourth : syms₄.length = n - 3 * ((n + 3) / 4) ∧
    Encodes inp (fourthStream inp start) stop code len syms₄ []
  some_left : 3 * ((n + 3) / 4) < n

/-- The first three streams have more literals than there are to be, and begin with one too many. -/
structure Overrun : Prop where
  header : FourHeader inp start stop
  few : n < 3 * ((n + 3) / 4)
  first : Whole inp (start + 6) (secondStream inp start) ((n + 3) / 4) code len
  second : 2 * ((n + 3) / 4) ≤ n →
    Whole inp (secondStream inp start) (thirdStream inp start) ((n + 3) / 4) code len
  extra : if n < 2 * ((n + 3) / 4) then
      Begins inp (secondStream inp start) (thirdStream inp start) (n - (n + 3) / 4 + 1) code len
    else Begins inp (thirdStream inp start) (fourthStream inp start) (n - 2 * ((n + 3) / 4) + 1) code len

end

/-- All that is stored by a run is in the `n` bytes from `out` on, and if it succeeds each of them has
been stored to once, by four streams. -/
def FillsExactly (inp : Nat → UInt8) (start stop n : Nat) (code len : UInt8 → Nat) (out : Nat) (m : Mem)
    (r : Res Bool) : Prop :=
  ∃ new, r.mem.stores = new ++ m.stores ∧ (∀ a ∈ new, out ≤ a ∧ a < out + n) ∧
    ∀ m', r = .ok true m' → (∀ a, out ≤ a → a < out + n → new.count a = 1) ∧
      ∃ syms₁ syms₂ syms₃ syms₄, FourStreams inp start stop n code len syms₁ syms₂ syms₃ syms₄ ∧
        m' = m.put out (syms₁ ++ (syms₂ ++ (syms₃ ++ syms₄)))

section
variable {inp : Nat → UInt8} {lo hi start stop n : Nat} {table : Nat → UInt8 × Nat}
  {code len : UInt8 → Nat} {syms : List UInt8} {ok : Bool}

theorem StreamWrites.ok_iff_whole (ht : PrefixTable table code len)
    (h : StreamWrites inp start stop n code len syms ok) (hn : 0 < n) :
    ok = true ↔ Whole inp start stop n code len := by
  constructor
  · intro hok
    exact ⟨syms, h.ok_iff.mp hok⟩
  · rintro ⟨syms', hlength, hall⟩
    exact (h.whole ht hn hlength hall).2

/-- `k` literals are written if the stream begins with as many. -/
theorem StreamWrites.begins_iff (h : StreamWrites inp start stop n code len syms ok) {k}
    (hk : 0 < k) (hkn : k ≤ n) : k ≤ syms.length ↔ Begins inp start stop k code len := by
  constructor
  · intro hle
    obtain ⟨rest, hcoded, hbits⟩ := h.begins (length_pos_iff.mp (by omega))
    refine ⟨syms.take k, (syms.drop k).flatMap (literalBits code len) ++ rest, ?_,
      fun s hs => hcoded s (mem_of_mem_take hs), ?_⟩
    · rw [length_take, min_eq_left hle]
    · rw [← append_assoc, ← flatMap_append, take_append_drop]
      exact hbits
  · rintro ⟨syms', rest, rfl, hbegins⟩
    exact h.longest syms' rest hbegins hkn

/-- The first stream, which has no more literals than there are to be, does not fail where there is
too much. -/
theorem overrun_first {d} (ht : PrefixTable table code len) (hd : (n + 3) / 4 = d) (hpos : 0 < d)
    (h : StreamWrites inp (start + 6) (secondStream inp start) d code len syms false) :
    n < syms.length ↔ Overrun inp start stop n code len := by
  have hlength := h.length_le
  refine ⟨fun h => by omega, fun hover => ?_⟩
  exact absurd ((h.ok_iff_whole ht hpos).mpr (hd ▸ hover.first)) Bool.false_ne_true

/-- Whether the second stream, behind a whole one, writes too much. -/
theorem overrun_second {d} (ht : PrefixTable table code len) (hd : (n + 3) / 4 = d) (hpos : 0 < d)
    (hheader : FourHeader inp start stop)
    (hfirst : Whole inp (start + 6) (secondStream inp start) d code len)
    (h : StreamWrites inp (secondStream inp start) (thirdStream inp start) d code len syms ok)
    (hok : ok = true → n < 2 * d) : n < d + syms.length ↔ Overrun inp start stop n code len := by
  have hlength := h.length_le
  rcases lt_or_ge n (2 * d) with hlt | hge
  · have hbegins := h.begins_iff (show 0 < n - d + 1 by omega) (by omega)
    subst hd
    constructor
    · intro hmore
      refine ⟨hheader, by omega, hfirst, fun hle => absurd hle (by omega), ?_⟩
      rw [if_pos hlt]
      exact hbegins.mp (by omega)
    · intro hover
      have hextra := hover.extra
      rw [if_pos hlt, ← hbegins] at hextra
      omega
  · refine ⟨fun h => by omega, fun hover => ?_⟩
    have hsecond := hover.second
    rw [hd] at hsecond
    exact absurd (hok ((h.ok_iff_whole ht hpos).mpr (hsecond hge))) (not_lt.mpr hge)

/-- Whether the third stream, behind two whole ones, writes too much or follows what was too much. -/
theorem overrun_third {d} (ht : PrefixTable table code len) (hd : (n + 3) / 4 = d) (hpos : 0 < d)
    (hheader : FourHeader inp start stop)
    (hfirst : Whole inp (start + 6) (secondStream inp start) d code len) {syms₂}
    (h₂ : StreamWrites inp (secondStream inp start) (thirdStream inp start) d code len syms₂ true)
    (h : StreamWrites inp (thirdStream inp start) (fourthStream inp start) d code len syms ok) :
    n < 2 * d + syms.length ↔ Overrun inp start stop n code len := by
  have hlength := h.length_le
  have hsecond := h₂.ok_iff.mp rfl
  rcases lt_or_ge n (2 * d) with hlt | hge
  · have hover := overrun_second ht hd hpos hheader hfirst h₂ fun _ => hlt
    refine ⟨fun _ => hover.mp (by omega), fun _ => by omega⟩
  · subst hd
    constructor
    · intro hmore
      refine ⟨hheader, by omega, hfirst, fun _ => ⟨syms₂, hsecond⟩, ?_⟩
      rw [if_neg (not_lt.mpr hge)]
      exact (h.begins_iff (by omega) (by omega)).mp (by omega)
    · intro hover
      have hfew := hover.few
      have hextra := hover.extra
      rw [if_neg (not_lt.mpr hge), ← h.begins_iff (by omega) (by omega)] at hextra
      omega

/-- The literals that a run writes in the order of their addresses: more than there are to be if the
streams overrun, and those of four streams if it succeeds. -/
def HuffWrites (inp : Nat → UInt8) (start stop n : Nat) (code len : UInt8 → Nat) (out : Nat) (m : Mem)
    (r : Res Bool) : Prop :=
  ∃ syms, r.mem = m.put out syms ∧ (n < syms.length ↔ Overrun inp start stop n code len) ∧
    ∀ m', r = .ok true m' → ∃ syms₁ syms₂ syms₃ syms₄,
      FourStreams inp start stop n code len syms₁ syms₂ syms₃ syms₄ ∧
        syms = syms₁ ++ (syms₂ ++ (syms₃ ++ syms₄))

section
variable {d out : Nat} {m : Mem} {syms₁ syms₂ syms₃ : List UInt8}

/-- The fourth stream has to have some literals left. -/
theorem fourth_writes (ht : PrefixTable table code len) (hlo : lo ≤ fourthStream inp start)
    (hhi : stop ≤ hi) (hd : (n + 3) / 4 = d)
    (h₁ : StreamWrites inp (start + 6) (secondStream inp start) d code len syms₁ true)
    (h₂ : StreamWrites inp (secondStream inp start) (thirdStream inp start) d code len syms₂ true)
    (h₃ : StreamWrites inp (thirdStream inp start) (fourthStream inp start) d code len syms₃ true)
    (hover : n < (syms₁ ++ (syms₂ ++ syms₃)).length ↔ Overrun inp start stop n code len) :
    HuffWrites inp start stop n code len out m
      ((zstdDecompressLiteralStream inp lo hi (some (fourthStream inp start)) table stop (out + d + d + d)
        (out + n)).run (m.put out (syms₁ ++ (syms₂ ++ syms₃)))) := by
  have hfirst := h₁.ok_iff.mp rfl
  have hsecond := h₂.ok_iff.mp rfl
  have hthird := h₃.ok_iff.mp rfl
  have hlength : (syms₁ ++ (syms₂ ++ syms₃)).length = 3 * d := by
    simp only [length_append]
    omega
  rw [show out + d + d + d = out + (syms₁ ++ (syms₂ ++ syms₃)).length by omega]
  rcases lt_or_ge (3 * d) n with hleft | hfew
  · obtain ⟨syms₄, ok₄, hrun, h₄⟩ := stream_writes ht hlo hhi
      (show out + (syms₁ ++ (syms₂ ++ syms₃)).length < out + n by omega)
      (m.put out (syms₁ ++ (syms₂ ++ syms₃)))
    rw [hrun, ← Mem.put_append, append_assoc, append_assoc]
    rw [hlength, Nat.add_sub_add_left] at h₄
    have hlength₄ := h₄.length_le
    refine ⟨_, rfl, ⟨fun h => ?_, fun h => ?_⟩, fun m' h => ?_⟩
    · simp only [length_append] at h
      omega
    · have hfew := h.few
      omega
    · subst hd
      rw [Res.ok.injEq] at h
      exact ⟨syms₁, syms₂, syms₃, syms₄, ⟨hfirst, hsecond, hthird, h₄.ok_iff.mp h.1, hleft⟩, rfl⟩
  · rw [zstdDecompressLiteralStream, decide_eq_false (by omega)]
    exact ⟨_, rfl, hover, fun _ h => by cases h⟩

/-- The next of the first three streams, behind the literals `done`, if what comes after it is right. -/
theorem next_writes (done : List UInt8) {p q a} (ht : PrefixTable table code len) (hlo : lo ≤ p)
    (hhi : q ≤ hi) (hpos : 0 < d) (ha : a = out + done.length) {y : Exec Bool}
    (hfails : ∀ syms, StreamWrites inp p q d code len syms false →
      (n < (done ++ syms).length ↔ Overrun inp start stop n code len))
    (hy : ∀ syms, StreamWrites inp p q d code len syms true →
      HuffWrites inp start stop n code len out m (y.run (m.put out (done ++ syms)))) :
    HuffWrites inp start stop n code len out m
      ((do
        let ok ← zstdDecompressLiteralStream inp lo hi (some p) table q a (a + d)
        if !ok then pure false else y : Exec Bool).run (m.put out done)) := by
  obtain ⟨syms, ok, hrun, h⟩ :=
    stream_writes ht hlo hhi (Nat.lt_add_of_pos_right hpos) (m.put out done)
  rw [Nat.add_sub_cancel_left] at h
  rw [run_bind_of_ok hrun, ha, ← Mem.put_append]
  cases ok with
  | false => exact ⟨_, rfl, hfails syms h, fun _ h => nomatch h⟩
  | true => exact hy syms h

theorem huff4_writes (ht : PrefixTable table code len) (hlo : lo ≤ start) (hhi : stop ≤ hi) (n out : Nat)
    (m : Mem) : HuffWrites inp start stop n code len out m
      ((zstdDecodeHuff4streams inp lo hi (some start) stop out (out + n) table).run m) := by
  unfold zstdDecodeHuff4streams
  dsimp only
  have hnone (h : ¬ Overrun inp start stop n code len) :
      HuffWrites inp start stop n code len out m (.ok false m) :=
    ⟨[], rfl, ⟨fun h => absurd h (Nat.not_lt_zero n), fun h' => absurd h' h⟩, fun _ h => by cases h⟩
  by_cases hlength : stop - start < 10
  · rw [if_pos hlength]
    exact hnone fun h => absurd h.header.length (not_le.mpr hlength)
  by_cases hsizes : stop - (start + 6) <
      leWord inp start 2 + leWord inp (start + 2) 2 + leWord inp (start + 4) 2 + 1
  · rw [if_neg hlength, if_pos hsizes]
    exact hnone fun h => absurd h.header.sizes (not_le.mpr hsizes)
  rw [if_neg hlength, if_neg hsizes, Nat.add_sub_cancel_left]
  have hheader : FourHeader inp start stop := ⟨not_lt.mp hlength, not_lt.mp hsizes⟩
  rcases Nat.eq_zero_or_pos n with rfl | hn
  · -- the first stream is empty already
    refine ⟨[], ?_, ⟨fun h => absurd h (Nat.not_lt_zero 0), fun h => absurd h.few (by decide)⟩,
      fun m' h => ?_⟩
    · simp [zstdDecompressLiteralStream, Mem.put]
    · simp [zstdDecompressLiteralStream] at h
  · have hsecond : secondStream inp start = start + 6 + leWord inp start 2 := rfl
    have hthird : thirdStream inp start = secondStream inp start + leWord inp (start + 2) 2 := rfl
    have hfourth : fourthStream inp start = thirdStream inp start + leWord inp (start + 4) 2 := rfl
    have hpos : 0 < (n + 3) / 4 := by omega
    refine next_writes [] ht (Nat.le_add_right_of_le hlo) (show secondStream inp start ≤ hi by omega) hpos
      rfl (fun _ => overrun_first ht rfl hpos) fun syms₁ h₁ => ?_
    have hwhole := h₁.ok_iff.mp rfl
    refine next_writes syms₁ ht (show lo ≤ secondStream inp start by omega)
      (show thirdStream inp start ≤ hi by omega) hpos (by rw [hwhole.1]) (fun syms h => ?_) fun syms₂ h₂ => ?_
    · rw [length_append, hwhole.1]
      exact overrun_second ht rfl hpos hheader ⟨syms₁, hwhole⟩ h (by simp)
    have hlength := (h₂.ok_iff.mp rfl).1
    have hover {syms ok} (h : StreamWrites inp (thirdStream inp start) (fourthStream inp start)
        ((n + 3) / 4) code len syms ok) :
        n < (syms₁ ++ syms₂ ++ syms).length ↔ Overrun inp start stop n code len := by
      rw [length_append, length_append, hwhole.1, hlength, ← two_mul]
      exact overrun_third ht rfl hpos hheader ⟨syms₁, hwhole⟩ h₂ h
    refine next_writes (syms₁ ++ syms₂) ht (show lo ≤ thirdStream inp start by omega)
      (show fourthStream inp start ≤ hi by omega) hpos
      (by rw [length_append, hwhole.1, hlength, add_assoc]) (fun _ => hover) fun syms₃ h₃ => ?_
    have hover₃ := hover h₃
    rw [append_assoc] at hover₃ ⊢
    exact fourth_writes ht (show lo ≤ fourthStream inp start by omega) hhi rfl h₁ h₂ h₃ hover₃

end
end

/-- Literals in four streams are stored where they belong, and nowhere else, unless the first three
streams overrun. -/
theorem huff4_fills_iff {inp : Nat → UInt8} {lo hi start stop : Nat} {table : Nat → UInt8 × Nat}
    {code len : UInt8 → Nat} (ht : PrefixTable table code len) (hlo : lo ≤ start) (hhi : stop ≤ hi)
    (n out : Nat) (m : Mem) :
    FillsExactly inp start stop n code len out m
      ((zstdDecodeHuff4streams inp lo hi (some start) stop out (out + n) table).run m) ↔
      ¬ Overrun inp start stop n code len := by
  obtain ⟨syms, hmem, hover, hparts⟩ := huff4_writes ht hlo hhi n out m
  rw [← hover, not_lt]
  constructor
  · rintro ⟨new, hnew, hin, -⟩
    rw [hmem, Mem.put_log] at hnew
    obtain rfl := append_cancel_right hnew
    by_contra hlt
    have hmem : out + n ∈ (List.range' out syms.length).reverse := by
      rw [mem_reverse, mem_range'_1]
      omega
    exact lt_irrefl _ (hin _ hmem).2
  · intro hle
    refine ⟨(List.range' out syms.length).reverse, by rw [hmem, Mem.put_log], fun a ha => ?_,
      fun m' hok => ?_⟩
    · rw [mem_reverse, mem_range'_1] at ha
      omega
    · obtain ⟨syms₁, syms₂, syms₃, syms₄, hfour, rfl⟩ := hparts m' hok
      have hleft := hfour.some_left
      have hlength : (syms₁ ++ (syms₂ ++ (syms₃ ++ syms₄))).length = n := by
        rw [length_append, length_append, length_append, hfour.first.1, hfour.second.1,
          hfour.third.1, hfour.fourth.1]
        omega
      refine ⟨fun a hlo hhi => ?_, syms₁, syms₂, syms₃, syms₄, hfour, ?_⟩
      · refine count_eq_one_of_mem (nodup_reverse.mpr nodup_range') ?_
        rw [mem_reverse, mem_range'_1, hlength]
        exact ⟨hlo, hhi⟩
      · rw [hok] at hmem
        exact hmem

/-- Four streams of one literal each. -/
def fourLiterals (a : Nat) : UInt8 := [1, 0, 1, 0, 1, 0, 2, 2, 2, 2].getD a 0

theorem huff4_fills_four :
    FillsExactly fourLiterals 0 10 4 bitCode bitLen 0 ⟨fun _ => 0, []⟩
      ((zstdDecodeHuff4streams fourLiterals 0 10 (some 0) 10 0 4 bitTable).run ⟨fun _ => 0, []⟩) :=
  (huff4_fills_iff bitTable_prefixTable (le_refl 0) (le_refl 10) 4 0 _).mpr
    fun h => absurd h.few (by decide)

/-- A block of five literals, the sixth of which is stored behind them. -/
theorem huff4_overruns_five :
    zstdProbeLiterals fourFrame 9 25 = some ⟨12, 24, 5, .huff false false⟩ ∧
      ¬ FillsExactly fourFrame 14 24 5 bitCode bitLen 0 ⟨fun _ => 0, []⟩
        ((zstdDecodeHuff4streams fourFrame 0 25 (some 14) 24 0 5 bitTable).run ⟨fun _ => 0, []⟩) ∧
      5 ∈ ((decodeBlock false fourFrame smallState 6 25).run ⟨fun _ => 0, []⟩).mem.stores := by
  refine ⟨by decide +kernel, ?_, by decide +kernel⟩
  rintro ⟨new, hnew, hin, -⟩
  have hmem : 5 ∈ new := by
    rw [append_nil] at hnew
    rw [← hnew]
    decide +kernel
  exact absurd (hin 5 hmem).2 (by decide)

/-! ## Rejected trees -/

section
variable (decode : Option Nat → Nat → Nat → Nat → LiteralsKind → DecTables → Exec Bool)
variable (unaligned : Bool) (inp : Nat → UInt8) (lo hi : Nat) (outEnd windowStart out : Nat)

/-- `decompress_block` with another function in the place of `decode_literals`. -/
def decompressBlockVia (start stop : Nat) (tables : DecTables) : Exec (DecodeResult × DecTables) :=
  if stop - start < 1 then pure (.status .err, tables)
  else match zstdProbeLiterals inp start stop with
  | none => pure (.status .err, tables)
  | some probe => do
    match ← Exec.lift (literalTables inp probe tables) with
    | none => pure (.status .err, tables)
    | some (literalStart, tables) =>
      let ptr := probe.stop
      if outEnd - out < probe.size then pure (.status .needMoreSpace, tables)
      else if stop - ptr < 1 then pure (.status .err, tables)
      else
        let numSeq := (inp ptr).toNat
        if numSeq = 0 then do
          if ← decode literalStart probe.stop out (out + probe.size) probe.kind tables
          then pure (.consumed probe.size, tables)
          else pure (.status .err, tables)
        else do
          let place : Exec (Option (Space × Nat)) :=
            if probe.kind = .raw then pure (some (.input, probe.stop - probe.size))
            else do
              let ptr := outEnd + Lzcommon.lzcommonBlock - probe.size
              if ← decode literalStart probe.stop ptr (ptr + probe.size) probe.kind tables
              then pure (some (.output, ptr))
              else pure none
          match ← place with
          | none => pure (.status .err, tables)
          | some (sp, literalPtr) =>
            runSequences unaligned inp lo hi outEnd windowStart out (ptr + 1) stop numSeq sp literalPtr
              probe.size tables

end

section
variable {unaligned : Bool} {inp : Nat → UInt8} {lo hi outEnd windowStart out start stop : Nat}
  {tables tables' : DecTables}

theorem decompressBlockVia_decodeLiterals :
    decompressBlockVia (decodeLiterals inp lo hi) unaligned inp lo hi outEnd windowStart out start stop
      tables = decompressBlock unaligned inp lo hi outEnd windowStart out start stop tables := rfl

/-- The block is rejected, with nothing stored, and `decode_literals` is not run: whatever stands in its
place, the result is the same. -/
def RejectsBlock (unaligned : Bool) (inp : Nat → UInt8) (lo hi outEnd windowStart out start stop : Nat)
    (tables : DecTables) (m : Mem) : Prop :=
  ∃ tables', ∀ decode, (decompressBlockVia decode unaligned inp lo hi outEnd windowStart out start stop
    tables).run m = .ok (.status .err, tables') m

end

/-- A block whose tree is rejected is rejected only if it ends behind its literals and there is space
for them. -/
theorem rejected_tree_iff {unaligned : Bool} {inp : Nat → UInt8} {outEnd out start stop : Nat}
    {probe : LiteralsProbe} {one : Bool} {tables tables' : DecTables}
    (hprobe : zstdProbeLiterals inp start stop = some probe) (hkind : probe.kind = .huff false one)
    (hstart : start < stop)
    (htree : zstdDecodeTreeDescription inp probe.start probe.stop tables = .ok (none, tables'))
    (lo hi windowStart : Nat) (m : Mem) :
    RejectsBlock unaligned inp lo hi outEnd windowStart out start stop tables m ↔
      probe.size ≤ outEnd - out ∧ stop ≤ probe.stop := by
  have htables : literalTables inp probe tables = .ok (some (none, tables')) := by
    rw [literalTables, hkind]
    rw [htree]
    rfl
  have hblock : ¬ stop - start < 1 := by omega
  constructor
  · rintro ⟨tables'', hreject⟩
    -- a function that stops shows whether it is run
    have hstops := hreject fun _ _ _ _ _ _ => Exec.fault .assertion
    unfold decompressBlockVia at hstops
    rw [if_neg hblock, hprobe] at hstops
    dsimp only at hstops
    rw [htables, lift_ok, hkind, pure_bind] at hstops
    dsimp only at hstops
    by_cases hspace : outEnd - out < probe.size
    · rw [if_pos hspace] at hstops
      cases hstops
    · by_cases hend : stop - probe.stop < 1
      · omega
      · rw [if_neg hspace, if_neg hend] at hstops
        split at hstops <;> cases hstops
  · rintro ⟨hspace, hend⟩
    refine ⟨tables', fun decode => ?_⟩
    unfold decompressBlockVia
    rw [if_neg hblock, hprobe]
    dsimp only
    rw [htables, lift_ok, pure_bind]
    dsimp only
    rw [if_neg (not_lt.mpr hspace), if_pos (by omega)]
    rfl

/-- A block with one literal and a tree without weights, and what may come behind it. -/
def noTreeBlock (a : Nat) : UInt8 := [0x12, 0xc0, 0, 0x80, 0, 2, 0].getD a 0

set_option maxRecDepth 1000 in
theorem noTreeBlock_rejected :
    zstdProbeLiterals noTreeBlock 0 6 = some ⟨3, 6, 1, .huff false true⟩ ∧
      zstdDecodeTreeDescription noTreeBlock 3 6 noTables = .ok (none, noTables) :=
  ⟨by decide +kernel, rfl⟩

/-- The block ends behind its literals. -/
theorem rejected_tree_last :
    RejectsBlock false noTreeBlock 0 6 1 0 0 0 6 noTables ⟨fun _ => 0, []⟩ :=
  (rejected_tree_iff noTreeBlock_rejected.1 rfl (by decide) noTreeBlock_rejected.2 0 6 0 _).mpr
    ⟨by decide, by decide⟩

/-- With a byte behind them the literals are decoded, and without space there is no error. -/
theorem rejected_tree_goes_on :
    zstdDecodeTreeDescription noTreeBlock 3 6 noTables = .ok (none, noTables) ∧
      ¬ RejectsBlock false noTreeBlock 0 7 1 0 0 0 7 noTables ⟨fun _ => 0, []⟩ ∧
      ¬ RejectsBlock false noTreeBlock 0 7 0 0 0 0 7 noTables ⟨fun _ => 0, []⟩ := by
  refine ⟨noTreeBlock_rejected.2, ?_, ?_⟩
  · rintro ⟨tables, hreject⟩
    cases hreject fun _ _ _ _ _ _ => Exec.fault .assertion
  · rintro ⟨tables, hreject⟩
    cases hreject fun _ _ _ _ _ _ => Exec.fault .assertion

end Rkboot.Compression.Zstd
