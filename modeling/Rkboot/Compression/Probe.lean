import Rkboot.Compression.InflateSteps
import Rkboot.Compression.Lz4
import Rkboot.Compression.ZstdBlock

/-! # What a successful probe licenses

`init` may assume that the probe succeeded. For LZ4 that is enough. The zstd `init` asserts
one byte more than the probe asked for. The gzip `init` has the comparison of the extra field
the wrong way round, wants more than eight bytes behind the header, and compares the header
checksum without complementing it. -/
namespace Rkboot.Compression
open Lib Nat Exec
open Lz4 (lz4Decompressor)
open Inflate (gzipDecompressor strnlen fcomment fname fhcrc fextra skipIf skipExtra probeNames
  initContent headerCrc_eq blankState storedFile)
open Zstd (zstdDecompressor)

/-- On the slice `init` fails no assertion and returns a pointer into it, or null where that is
excused. -/
def Decompressor.Licensed (d : Decompressor) (Excused : Prop) (inp : Nat → UInt8)
    (start stop : Nat) : Prop :=
  ∀ st m, ∃ r st', (d.init inp st start stop).run m = .ok (r, st') m ∧
    ((∃ p, r = some p ∧ start < p ∧ p ≤ stop) ∨ (r = none ∧ Excused))

/-- A probe that succeeds has passed every check on the way. -/
theorem success_else {c : Prop} [Decidable c] {s t : ProbeStatus}
    (hs : s.success = false) (h : (if c then s else t).success = true) :
    ¬ c ∧ t.success = true := by
  by_cases hc : c
  · rw [if_pos hc, hs] at h
    cases h
  · rw [if_neg hc] at h
    exact ⟨hc, h⟩

section
variable {inp : Nat → UInt8} {start stop : Nat}

/-! ## LZ4 -/

theorem lz4_probe_room (h : (Lz4.probe inp start stop).success = true) :
    7 ≤ stop - start ∧ ((inp (start + 4)).toNat &&& Lz4.fcsize ≠ 0 → 15 ≤ stop - start) := by
  obtain ⟨-, h⟩ := success_else rfl h
  obtain ⟨-, h⟩ := success_else rfl h
  obtain ⟨h7, h⟩ := success_else rfl h
  obtain ⟨-, h⟩ := success_else rfl h
  obtain ⟨-, h⟩ := success_else rfl h
  obtain ⟨-, h⟩ := success_else rfl h
  obtain ⟨-, h⟩ := success_else rfl h
  obtain ⟨-, h⟩ := success_else rfl h
  refine ⟨by omega, fun hsize => ?_⟩
  rw [if_pos hsize] at h
  obtain ⟨h9, -⟩ := success_else rfl h
  omega

theorem lz4_init_run (st : Lz4.Lz4DecState) (m : Mem) (h : 7 ≤ stop - start) :
    ∃ st', (Lz4.init inp st start stop).run m = .ok (some ((if (inp (start + 4)).toNat &&& Lz4.fcsize ≠ 0
      then start + 8 else start) + 7), st') m := by
  unfold Lz4.init
  rw [decide_eq_true h, assert_true]
  exact ⟨_, rfl⟩

theorem lz4_licensed (h : (Lz4.probe inp start stop).success = true) :
    lz4Decompressor.Licensed False inp start stop := by
  intro st m
  obtain ⟨h7, h15⟩ := lz4_probe_room h
  obtain ⟨st', hrun⟩ := @lz4_init_run inp start stop st m h7
  refine ⟨_, st', hrun, .inl ⟨_, rfl, ?_⟩⟩
  split
  · omega
  · omega

/-! ## zstd -/

theorem zstd_probe_room (h : (Zstd.probe inp start stop).success = true) :
    6 ≤ stop - start ∧ 5 + Zstd.frameHeaderSize (inp (start + 4)).toNat ≤ stop - start := by
  obtain ⟨-, h⟩ := success_else rfl h
  obtain ⟨-, h⟩ := success_else rfl h
  obtain ⟨h6, h⟩ := success_else rfl h
  obtain ⟨-, h⟩ := success_else rfl h
  obtain ⟨-, h⟩ := success_else rfl h
  obtain ⟨hsize, -⟩ := success_else rfl h
  omega

theorem zstd_init_run (st : Zstd.ZstdDecState) (m : Mem) (h6 : 6 ≤ stop - start)
    (h : 5 + Zstd.frameHeaderSize (inp (start + 4)).toNat < stop - start) :
    ∃ st', (Zstd.init inp st start stop).run m =
      .ok (some (start + 5 + Zstd.frameHeaderSize (inp (start + 4)).toNat), st') m := by
  have hptr : (if (inp (start + 4)).toNat &&& Zstd.singleSegmentFlag ≠ 0 then start + 5
      else start + 5 + 1) + Zstd.fcsFieldSize (inp (start + 4)).toNat =
      start + 5 + Zstd.frameHeaderSize (inp (start + 4)).toNat := by
    rw [Zstd.frameHeaderSize]
    split <;> omega
  unfold Zstd.init
  rw [decide_eq_true h6, assert_true, pure_bind]
  dsimp only
  rw [decide_eq_true h, assert_true, pure_bind, hptr]
  exact ⟨_, rfl⟩

/-- The probe is content with the header alone. -/
theorem zstd_licensed_iff (unaligned : Bool) (h : (Zstd.probe inp start stop).success = true) :
    (zstdDecompressor unaligned).Licensed False inp start stop ↔
      5 + Zstd.frameHeaderSize (inp (start + 4)).toNat < stop - start := by
  obtain ⟨h6, hroom⟩ := zstd_probe_room h
  constructor
  · intro hlic
    by_contra hlt
    obtain ⟨r, st', hrun, -⟩ := hlic ⟨none, ⟨0, 0, 0⟩, Zstd.noTables, ⟨fun _ => 0, 0, 0, 0, 0, 0, 0, false⟩,
      0, false⟩ ⟨fun _ => 0, []⟩
    obtain ⟨-, hrun⟩ := bind_assert_eq_ok hrun
    obtain ⟨hp, -⟩ := bind_assert_eq_ok hrun
    exact hlt (of_decide_eq_true hp)
  · intro hlt st m
    obtain ⟨st', hrun⟩ := zstd_init_run st m h6 hlt
    exact ⟨_, st', hrun, .inl ⟨_, rfl, by omega, by omega⟩⟩

/-! ## gzip -/

/-- Behind a string of the header, if it is there. -/
def behindString (inp : Nat → UInt8) (flag : Prop) [Decidable flag] (content stop : Nat) : Nat :=
  if flag then content + strnlen inp content (stop - content) + 1 else content

theorem le_behindString (inp : Nat → UInt8) (flag : Prop) [Decidable flag] (content stop : Nat) :
    content ≤ behindString inp flag content stop := by
  unfold behindString
  split <;> omega

/-- Behind name and comment. -/
def namesEnd (inp : Nat → UInt8) (flags content stop : Nat) : Nat :=
  behindString inp (flags &&& fcomment ≠ 0)
    (behindString inp (flags &&& fname ≠ 0) content stop) stop

/-- The header has a checksum, and it is not that of the header. -/
def HeaderCrcWrong (inp : Nat → UInt8) (start stop : Nat) : Prop :=
  let flags := (inp (start + 3)).toNat
  let content := namesEnd inp flags (start + 10) stop
  flags &&& fhcrc ≠ 0 ∧
    leWord inp content 2 ≠ Crc.crc32 (bytesAt inp start (content - start)) % 2 ^ 16

instance (inp : Nat → UInt8) (start stop : Nat) : Decidable (HeaderCrcWrong inp start stop) :=
  inferInstanceAs (Decidable (_ ∧ _))

theorem skipString_eq {flag : Prop} [Decidable flag] {content}
    (h : flag → content + strnlen inp content (stop - content) < stop) :
    skipIf (decide flag) (Inflate.skipString inp · stop) content =
      .ok (behindString inp flag content stop) := by
  unfold skipIf behindString
  by_cases hf : flag
  · rw [decide_eq_true hf, if_pos rfl, if_pos hf]
    exact if_pos (h hf)
  · rw [decide_eq_false hf, if_neg Bool.false_ne_true, if_neg hf]

theorem probeNames_eq (inp : Nat → UInt8) (flags content stop : Nat) :
    probeNames inp flags content stop =
      if flags &&& fname ≠ 0 ∧ stop ≤ content + strnlen inp content (stop - content)
      then .notEnoughData
      else
        let content₁ := behindString inp (flags &&& fname ≠ 0) content stop
        if flags &&& fcomment ≠ 0 ∧
          stop ≤ content₁ + strnlen inp content₁ (stop - content₁) then .notEnoughData
        else if flags &&& fhcrc ≠ 0 ∧ stop - namesEnd inp flags content stop < 2
        then .notEnoughData
        else .sizeUnknown := rfl

/-- What the probe has found of name, comment and checksum. -/
theorem probeNames_room {flags content content₁}
    (hc : behindString inp (flags &&& fname ≠ 0) content stop = content₁)
    (h : (probeNames inp flags content stop).success = true) : (flags &&& fname ≠ 0 →
      content + strnlen inp content (stop - content) < stop) ∧ (flags &&& fcomment ≠ 0 →
      content₁ + strnlen inp content₁ (stop - content₁) < stop) ∧
    (flags &&& fhcrc ≠ 0 → 2 ≤ stop - namesEnd inp flags content stop) := by
  rw [probeNames_eq, hc] at h
  obtain ⟨hname, h⟩ := success_else rfl h
  obtain ⟨hcomment, h⟩ := success_else rfl h
  obtain ⟨hcrc, -⟩ := success_else rfl h
  exact ⟨fun hf => Nat.lt_of_not_le fun hle => hname ⟨hf, hle⟩,
    fun hf => Nat.lt_of_not_le fun hle => hcomment ⟨hf, hle⟩,
    fun hf => Nat.le_of_not_lt fun hlt => hcrc ⟨hf, hlt⟩⟩

theorem gzip_probe_room (h : (Inflate.probe inp start stop).success = true) :
    18 ≤ stop - start ∧ if (inp (start + 3)).toNat &&& fextra ≠ 0
      then leWord inp (start + 10) 2 ≤ stop - (start + 12) ∧ (probeNames inp (inp (start + 3)).toNat
          (start + 12 + leWord inp (start + 10) 2) stop).success = true
      else (probeNames inp (inp (start + 3)).toNat (start + 10) stop).success = true := by
  obtain ⟨-, h⟩ := success_else rfl h
  obtain ⟨-, h⟩ := success_else rfl h
  obtain ⟨h18, h⟩ := success_else rfl h
  obtain ⟨-, h⟩ := success_else rfl h
  obtain ⟨-, h⟩ := success_else rfl h
  refine ⟨by omega, ?_⟩
  by_cases hextra : (inp (start + 3)).toNat &&& fextra ≠ 0
  · rw [if_pos hextra] at h ⊢
    obtain ⟨hlen, h⟩ := success_else rfl h
    exact ⟨by omega, h⟩
  · rw [if_neg hextra] at h ⊢
    exact h

/-- What `init` compares is the complement of the checksum. -/
theorem crc32_low (message : List UInt8) : Crc.register 0xedb88320 0xffffffff message % 2 ^ 16 =
    Crc.crc32 message % 2 ^ 16 ^^^ 0xffff := by
  rw [Crc.crc32, xor_mod_two_pow, Nat.xor_assoc]
  exact (xor_zero _).symm

theorem crc32_low_ne (message : List UInt8) :
    Crc.register 0xedb88320 0xffffffff message % 2 ^ 16 ≠ Crc.crc32 message % 2 ^ 16 := by
  rw [crc32_low]
  intro h
  have hbit := congrArg (·.testBit 0) h
  rw [testBit_xor] at hbit
  revert hbit
  cases (Crc.crc32 message % 2 ^ 16).testBit 0 <;> decide

/-- The tables of a state in which `init` computes the checksum table first. -/
theorem gzip_init_eq {st content₁} (h18 : 18 ≤ stop - start)
    (hextra : (inp (start + 3)).toNat &&& fextra = 0)
    (hc : behindString inp ((inp (start + 3)).toNat &&& fname ≠ 0) (start + 10) stop = content₁)
    (hname : (inp (start + 3)).toNat &&& fname ≠ 0 →
      start + 10 + strnlen inp (start + 10) (stop - (start + 10)) < stop)
    (hcomment : (inp (start + 3)).toNat &&& fcomment ≠ 0 →
      content₁ + strnlen inp content₁ (stop - content₁) < stop) :
    ∃ st₁, Inflate.init inp st start stop = .ok (initContent inp st₁ (inp (start + 3)).toNat start
      (namesEnd inp (inp (start + 3)).toNat (start + 10) stop) stop) := by
  subst hc
  unfold Inflate.init
  rw [if_neg (by omega)]
  dsimp only
  have hskip : skipIf (decide ((inp (start + 3)).toNat &&& fextra ≠ 0))
      (skipExtra inp · stop) (start + 10) = .ok (start + 10) := by
    rw [decide_eq_false (not_not.mpr hextra)]
    rfl
  rw [hskip]
  dsimp only [bind, Except.bind]
  rw [skipString_eq hname]
  dsimp only
  rw [skipString_eq hcomment]
  exact ⟨_, rfl⟩

/-- A header with a checksum and enough behind it is accepted exactly with the right checksum, unless
the field has the checksum or its complement. -/
theorem gzip_headerCrc_iff {st : Inflate.GzipDecState} {content stored crc : Nat}
    (hcrc : (inp (start + 3)).toNat &&& fhcrc ≠ 0)
    (hextra : (inp (start + 3)).toNat &&& fextra = 0)
    (hcontent : content = namesEnd inp (inp (start + 3)).toNat (start + 10) stop)
    (hroom : content + 10 < stop) (hstored : stored = leWord inp content 2)
    (hright : crc = Crc.crc32 (bytesAt inp start (content - start)) % 2 ^ 16) :
    ((∃ ptr st', Inflate.init inp st start stop = .ok (some ptr, st')) ↔ stored = crc) ↔
      stored ≠ crc ∧ stored ≠ crc ^^^ 0xffff := by
  have hend : namesEnd inp (inp (start + 3)).toNat (start + 10) stop = behindString inp
    ((inp (start + 3)).toNat &&& fcomment ≠ 0) (behindString inp
      ((inp (start + 3)).toNat &&& fname ≠ 0) (start + 10) stop) stop := rfl
  generalize hc : behindString inp ((inp (start + 3)).toNat &&& fname ≠ 0) (start + 10) stop =
    content₁ at hend
  rw [hcontent, hend] at hroom
  -- a string that does not end in the slice ends behind it
  have hcomment : (inp (start + 3)).toNat &&& fcomment ≠ 0 →
      content₁ + strnlen inp content₁ (stop - content₁) < stop := by
    intro hf
    rw [behindString, if_pos hf] at hroom
    omega
  have hle : start + 10 ≤ content₁ ∧ content₁ + 10 < stop :=
    ⟨hc ▸ le_behindString .., lt_of_le_of_lt (Nat.add_le_add_right (le_behindString ..) 10) hroom⟩
  have hname : (inp (start + 3)).toNat &&& fname ≠ 0 →
      start + 10 + strnlen inp (start + 10) (stop - (start + 10)) < stop := by
    intro hf
    rw [← hc, behindString, if_pos hf] at hle
    omega
  obtain ⟨st₁, hinit⟩ := @gzip_init_eq inp start stop st _ (by omega) hextra hc hname hcomment
  rw [← hcontent] at hinit
  have hlow := crc32_low (bytesAt inp start (content - start))
  rw [← hright] at hlow
  have haccept : (∃ ptr st', Inflate.init inp st start stop = .ok (some ptr, st')) ↔
      stored = crc ^^^ 0xffff := by
    rw [hinit, initContent, if_pos hcrc, if_neg (by omega), headerCrc_eq, hlow, ← hstored]
    by_cases heq : stored = crc ^^^ 0xffff
    · rw [if_neg (not_not.mpr heq.symm), if_neg (by omega)]
      exact iff_of_true ⟨_, _, rfl⟩ heq
    · rw [if_pos (Ne.symm heq)]
      exact iff_of_false (by rintro ⟨_, _, ⟨⟩⟩) heq
  rw [haccept]
  have hne : crc ^^^ 0xffff ≠ crc := by
    rw [← hlow, hright]
    exact crc32_low_ne _
  constructor
  · intro hiff
    exact ⟨fun h => hne ((hiff.mpr h).symm.trans h), fun h => hne (h.symm.trans (hiff.mp h))⟩
  · rintro ⟨h, h'⟩
    exact iff_of_false h' h

/-- A header with its checksum, and sixteen bytes behind it. -/
def checkedHeader (hcrc : Nat) (i : Nat) : UInt8 :=
  [31, 139, 8, 2, 0, 0, 0, 0, 0, 3, UInt8.ofNat hcrc, UInt8.ofNat (hcrc / 256)].getD i 0

theorem gzip_headerCrc_iff_wrong :
    0x77a7 = Crc.crc32 (bytesAt (checkedHeader 0) 0 (10 - 0)) % 2 ^ 16 ∧
      ((∃ ptr st', Inflate.init (checkedHeader 0) blankState 0 28 = .ok (some ptr, st')) ↔
        0 = 0x77a7) := by
  have hcrc : 0x77a7 = Crc.crc32 (bytesAt (checkedHeader 0) 0 (10 - 0)) % 2 ^ 16 := by decide +kernel
  exact ⟨hcrc, (gzip_headerCrc_iff (by decide) (by decide) (by decide : 10 = _) (by decide)
    (by decide) hcrc).mpr (by decide)⟩

theorem checkedHeader_refused :
    Crc.crc32 (bytesAt (checkedHeader 0x77a7) 0 10) % 2 ^ 16 = 0x77a7 ∧
      (Inflate.init (checkedHeader 0x77a7) blankState 0 28).toOption.map Prod.fst = some none :=
  ⟨by decide +kernel, by decide +kernel⟩

/-- With an extra field `init` stops at its assertion, or has nothing left behind the field. -/
theorem gzip_extra_unlicensed (unaligned : Bool) (h : (Inflate.probe inp start stop).success = true)
    (hextra : (inp (start + 3)).toNat &&& fextra ≠ 0) :
    ¬ (gzipDecompressor unaligned).Licensed (HeaderCrcWrong inp start stop) inp start stop := by
  obtain ⟨h18, hroom⟩ := gzip_probe_room h
  rw [if_pos hextra] at hroom
  obtain ⟨hlen, hnames⟩ := hroom
  intro hlic
  obtain ⟨r, st', hrun, hr⟩ := hlic blankState ⟨fun _ => 0, []⟩
  obtain ⟨hinit, -⟩ := lift_eq_ok hrun
  unfold Inflate.init at hinit
  rw [if_neg (by omega)] at hinit
  obtain ⟨content₁, h₁, hinit⟩ := except_bind_eq_ok hinit
  obtain ⟨content₂, h₂, hinit⟩ := except_bind_eq_ok hinit
  obtain ⟨content₃, h₃, hinit⟩ := except_bind_eq_ok hinit
  -- the assertion leaves only an extra field up to the end of the slice
  rw [decide_eq_true hextra, skipIf, if_pos rfl, skipExtra] at h₁
  split at h₁
  swap
  · cases h₁
  rename_i hle
  have hstop : start + 10 + 2 + leWord inp (start + 10) 2 = stop := by
    clear hr
    omega
  cases h₁
  obtain ⟨hname, hcomment, hcrc⟩ := probeNames_room rfl hnames
  rw [hstop] at hname hcomment hcrc h₂
  have hname : ¬ (inp (start + 3)).toNat &&& fname ≠ 0 := fun hf => by
    omega
  have hb : behindString inp ((inp (start + 3)).toNat &&& fname ≠ 0) stop stop = stop :=
    if_neg hname
  have hcomment : ¬ (inp (start + 3)).toNat &&& fcomment ≠ 0 := fun hf => by
    omega
  have hend : namesEnd inp (inp (start + 3)).toNat stop stop = stop := by
    rw [namesEnd, hb]
    exact if_neg hcomment
  have hcrc : ¬ (inp (start + 3)).toNat &&& fhcrc ≠ 0 := fun hf => by
    omega
  rw [decide_eq_false hname] at h₂
  cases h₂
  rw [decide_eq_false hcomment] at h₃
  cases h₃
  rw [initContent, if_neg hcrc, if_pos (by omega)] at hinit
  cases hinit
  rcases hr with ⟨p, hp, -⟩ | ⟨-, hwrong⟩
  · cases hp
  · exact hcrc hwrong.1

theorem gzip_licensed_iff (unaligned : Bool) (h : (Inflate.probe inp start stop).success = true) :
    (gzipDecompressor unaligned).Licensed (HeaderCrcWrong inp start stop) inp start stop ↔
      (inp (start + 3)).toNat &&& fextra = 0 ∧
      if (inp (start + 3)).toNat &&& fhcrc ≠ 0 then HeaderCrcWrong inp start stop
      else 8 < stop - namesEnd inp (inp (start + 3)).toNat (start + 10) stop := by
  by_cases hextra : (inp (start + 3)).toNat &&& fextra = 0
  swap
  · exact ⟨fun hlic => absurd hlic (gzip_extra_unlicensed unaligned h hextra),
      fun hcond => absurd hcond.1 hextra⟩
  obtain ⟨h18, hroom⟩ := gzip_probe_room h
  rw [if_neg (not_not.mpr hextra)] at hroom
  obtain ⟨hname, hcomment, hcrcRoom⟩ := probeNames_room rfl hroom
  have hlt : start < namesEnd inp (inp (start + 3)).toNat (start + 10) stop :=
    lt_of_lt_of_le (by omega) (le_trans (le_behindString ..) (le_behindString ..))
  have hwrong : HeaderCrcWrong inp start stop ↔ (inp (start + 3)).toNat &&& fhcrc ≠ 0 ∧
      leWord inp (namesEnd inp (inp (start + 3)).toNat (start + 10) stop) 2 ≠ Crc.crc32
        (bytesAt inp start (namesEnd inp (inp (start + 3)).toNat (start + 10) stop - start)) % 2 ^ 16 :=
    Iff.rfl
  have hinit := fun st => @gzip_init_eq inp start stop st _ h18 hextra rfl hname hcomment
  generalize namesEnd inp (inp (start + 3)).toNat (start + 10) stop = content at *
  constructor
  · intro hlic
    refine ⟨hextra, ?_⟩
    obtain ⟨r, st', hrun, hr⟩ := hlic blankState ⟨fun _ => 0, []⟩
    obtain ⟨st₁, hst₁⟩ := hinit blankState
    have hcontent := Except.ok.inj (hst₁.symm.trans (lift_eq_ok hrun).1)
    unfold initContent at hcontent
    split at hcontent
    · rename_i hcrc
      rw [if_pos hcrc]
      -- the checksum of the header itself is not the one `init` computes
      by_contra hright
      have hfield := not_not.mp fun hne => hright (hwrong.mpr ⟨hcrc, hne⟩)
      rw [if_neg (by have := hcrcRoom hcrc; omega), headerCrc_eq, hfield,
        if_pos (crc32_low_ne _)] at hcontent
      cases hcontent
      rcases hr with ⟨p, hp, -⟩ | ⟨-, hr⟩
      · cases hp
      · exact hright hr
    · rename_i hcrc
      rw [if_neg hcrc]
      by_contra hshort
      rw [if_pos (by omega)] at hcontent
      cases hcontent
      rcases hr with ⟨p, hp, -⟩ | ⟨-, hr⟩
      · cases hp
      · exact hcrc (hwrong.mp hr).1
  · rintro ⟨-, hcond⟩ st m
    obtain ⟨st₁, hst₁⟩ := hinit st
    have hrun : ∀ r st', initContent inp st₁ (inp (start + 3)).toNat start content stop =
        (r, st') → ((gzipDecompressor unaligned).init inp st start stop).run m = .ok (r, st') m := by
      intro r st' he
      dsimp only
      rw [hst₁, he]
      rfl
    unfold initContent at hrun
    split at hrun
    · rename_i hcrc
      rw [if_pos hcrc] at hcond
      rw [if_neg (by omega)] at hrun
      split at hrun
      · exact ⟨_, _, hrun _ _ rfl, .inr ⟨rfl, hcond⟩⟩
      split at hrun
      · exact ⟨_, _, hrun _ _ rfl, .inr ⟨rfl, hcond⟩⟩
      · exact ⟨_, _, hrun _ _ rfl, .inl ⟨_, rfl, by omega, by omega⟩⟩
    · rename_i hcrc
      rw [if_neg hcrc] at hcond
      rw [if_neg (by omega)] at hrun
      exact ⟨_, _, hrun _ _ rfl, .inl ⟨_, rfl, hlt, by omega⟩⟩

end

/-! ## Probes of longer slices -/

/-- A probe that has made up its mind does not change it when it sees more. -/
def Decompressor.ProbeStable (d : Decompressor) : Prop :=
  ∀ inp start stop stop', stop ≤ stop' → d.probe inp start stop ≠ .notEnoughData →
    d.probe inp start stop' = d.probe inp start stop

section
variable {c c' : Prop} [Decidable c] [Decidable c'] {s t t' : ProbeStatus}

/-- A check that does not depend on the slice. -/
theorem same_else (h : (if c then s else t) ≠ .notEnoughData)
    (ht : t ≠ .notEnoughData → t' = t) : (if c then s else t') = if c then s else t := by
  by_cases hc : c
  · rw [if_pos hc, if_pos hc]
  · rw [if_neg hc] at h
    rw [if_neg hc, if_neg hc, ht h]

/-- A check that the slice is long enough. -/
theorem short_else (hcc : c' → c) (h : (if c then .notEnoughData else t) ≠ .notEnoughData)
    (ht : ¬ c → t ≠ .notEnoughData → t' = t) :
    (if c' then .notEnoughData else t') = if c then .notEnoughData else t := by
  by_cases hc : c
  · rw [if_pos hc] at h
    exact absurd rfl h
  · rw [if_neg hc] at h
    rw [if_neg hc, if_neg fun hc' => hc (hcc hc'), ht hc h]

end

theorem lz4_probe_stable : lz4Decompressor.ProbeStable := by
  intro inp start stop stop' hle h
  refine short_else (by omega) h fun _ h => same_else h fun h => ?_
  refine short_else (by omega) h fun _ h => same_else h fun h => ?_
  refine same_else h fun h => same_else h fun h => ?_
  refine same_else h fun h => same_else h fun h => ?_
  by_cases hsize : (inp (start + 4)).toNat &&& Lz4.fcsize ≠ 0
  · rw [if_pos hsize] at h ⊢
    rw [if_pos hsize]
    exact short_else (by omega) h fun _ _ => rfl
  · rw [if_neg hsize, if_neg hsize]

theorem zstd_probe_stable (unaligned : Bool) : (zstdDecompressor unaligned).ProbeStable := by
  intro inp start stop stop' hle h
  refine short_else (by omega) h fun _ h => same_else h fun h => ?_
  refine short_else (by omega) h fun _ h => same_else h fun h => ?_
  refine same_else h fun h => ?_
  exact short_else (by omega) h fun _ _ => rfl

/-- A string whose end was found is as long in a longer slice. -/
theorem strnlen_of_lt {inp a n n'} (h : strnlen inp a n < n)
    (hle : n ≤ n') : strnlen inp a n' = strnlen inp a n := by
  induction n generalizing a n' with
  | zero => omega
  | succ n ih =>
    obtain ⟨k, rfl⟩ := exists_eq_succ_of_ne_zero (by omega : n' ≠ 0)
    rw [strnlen] at h ⊢
    rw [strnlen]
    by_cases hz : inp a = 0
    · rw [if_pos hz, if_pos hz]
    · rw [if_neg hz] at h
      rw [if_neg hz, if_neg hz, ih (by omega) (by omega)]

theorem behindString_extend {inp} {flag : Prop} [Decidable flag] {content stop stop'}
    (hle : stop ≤ stop') (h : flag → content + strnlen inp content (stop - content) < stop) :
    behindString inp flag content stop' = behindString inp flag content stop := by
  unfold behindString
  by_cases hf : flag
  · have := h hf
    rw [if_pos hf, if_pos hf, strnlen_of_lt (by omega) (by omega : stop - content ≤ stop' - content)]
  · rw [if_neg hf, if_neg hf]

theorem string_short {inp content stop stop'} (hle : stop ≤ stop')
    (h : stop' ≤ content + strnlen inp content (stop' - content)) :
    stop ≤ content + strnlen inp content (stop - content) := by
  by_contra hlt
  rw [strnlen_of_lt (by omega) (by omega : stop - content ≤ stop' - content)] at h
  omega

theorem probeNames_stable {inp flags content stop stop'} (hle : stop ≤ stop')
    (h : probeNames inp flags content stop ≠ .notEnoughData) :
    probeNames inp flags content stop' = probeNames inp flags content stop := by
  rw [probeNames_eq, probeNames_eq] at *
  refine short_else (fun h => ⟨h.1, string_short hle h.2⟩) h fun hname h => ?_
  have hname := fun hf => Nat.lt_of_not_le fun hle => hname ⟨hf, hle⟩
  have hend : namesEnd inp flags content stop' = behindString inp (flags &&& fcomment ≠ 0)
      (behindString inp (flags &&& fname ≠ 0) content stop) stop' := by
    rw [namesEnd, behindString_extend hle hname]
  rw [hend, behindString_extend hle hname]
  refine short_else (fun h => ⟨h.1, string_short hle h.2⟩) h fun hcomment h => ?_
  rw [behindString_extend hle fun hf => Nat.lt_of_not_le fun hle => hcomment ⟨hf, hle⟩]
  refine short_else (fun h => ⟨h.1, ?_⟩) h fun _ _ => rfl
  rw [namesEnd]
  omega

theorem gzip_probe_stable (unaligned : Bool) : (gzipDecompressor unaligned).ProbeStable := by
  intro inp start stop stop' hle h
  refine short_else (by omega) h fun _ h => same_else h fun h => ?_
  refine short_else (by omega) h fun _ h => same_else h fun h => ?_
  refine same_else h fun h => ?_
  by_cases hextra : (inp (start + 3)).toNat &&& fextra ≠ 0
  · rw [if_pos hextra] at h ⊢
    rw [if_pos hextra]
    exact short_else (by omega) h fun _ h => probeNames_stable hle h
  · rw [if_neg hextra] at h ⊢
    rw [if_neg hextra]
    exact probeNames_stable hle h

/-! ## The three formats -/

/-- After a successful probe `init` does what it should: for LZ4 always; for gzip if there is no extra
field and either a header checksum that is not that of the header, or none and more than eight
bytes behind the header; for zstd if there is at least one byte behind the header. -/
theorem probe_licenses_init_iff (unaligned : Bool) (inp : Nat → UInt8) (start stop : Nat) :
    ((lz4Decompressor.probe inp start stop).success = true →
      lz4Decompressor.Licensed False inp start stop) ∧
    (((gzipDecompressor unaligned).probe inp start stop).success = true →
      ((gzipDecompressor unaligned).Licensed (HeaderCrcWrong inp start stop) inp start stop ↔
        (inp (start + 3)).toNat &&& fextra = 0 ∧
        if (inp (start + 3)).toNat &&& fhcrc ≠ 0 then HeaderCrcWrong inp start stop
        else 8 < stop - namesEnd inp (inp (start + 3)).toNat (start + 10) stop)) ∧
    (((zstdDecompressor unaligned).probe inp start stop).success = true →
      ((zstdDecompressor unaligned).Licensed False inp start stop ↔
        5 + Zstd.frameHeaderSize (inp (start + 4)).toNat < stop - start)) :=
  ⟨lz4_licensed, gzip_licensed_iff unaligned, zstd_licensed_iff unaligned⟩

theorem probe_licenses_init_iff_stored :
    ((gzipDecompressor false).probe storedFile 0 24).success = true ∧
    (gzipDecompressor false).Licensed (HeaderCrcWrong storedFile 0 24) storedFile 0
      24 := by
  have hprobe : ((gzipDecompressor false).probe storedFile 0 24).success = true := by decide
  exact ⟨hprobe, ((probe_licenses_init_iff false storedFile 0 24).2.1 hprobe).mpr (by decide)⟩

/-- A gzip header with an extra field of no bytes, and ten bytes behind it. -/
def extraHeader (a : Nat) : UInt8 := [31, 139, 8, 4].getD a 0

/-- A zstd header with nothing behind it. -/
def bareHeader (a : Nat) : UInt8 := [0x28, 0xb5, 0x2f, 0xfd, 0x20, 0].getD a 0

/-- With an extra field the gzip `init` stops at an assertion; from the first 18 bytes of a file it
returns null; and with nothing behind the header the zstd `init` stops at an assertion. -/
theorem extraHeader_asserts :
    (((gzipDecompressor false).probe extraHeader 0 22).success = true ∧
      ∀ m, ((gzipDecompressor false).init extraHeader blankState 0 22).run m =
        .fault .assertion m) ∧
    (((gzipDecompressor false).probe storedFile 0 18).success = true ∧
      (storedFile 3).toNat &&& fhcrc = 0 ∧
      ∀ m, ∃ st, ((gzipDecompressor false).init storedFile blankState 0 18).run m =
        .ok (none, st) m) ∧
    ((zstdDecompressor false).probe bareHeader 0 6).success = true ∧
      ∀ st m, ((zstdDecompressor false).init bareHeader st 0 6).run m = .fault .assertion m :=
  ⟨⟨by decide, fun _ => rfl⟩, ⟨by decide, by decide, fun _ => ⟨_, rfl⟩⟩, by decide, fun _ _ => rfl⟩

end Rkboot.Compression
