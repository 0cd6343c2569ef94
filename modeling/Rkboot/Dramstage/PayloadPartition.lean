import Rkboot.Dramstage.BootBlockdev

/-! # Which partition is booted from

The scan keeps the first valid entry of every payload type, and the types that are there decide which
of them is used. -/
namespace Rkboot.Dramstage
open Lib Drivers Function Nat List

/-! ## Numbers at two places -/

section
variable {f g : Nat → UInt8} {p q : Nat}

theorem leWord_moved {n} (h : ∀ i < n, f (p + i) = g (q + i)) : leWord f p n = leWord g q n := by
  induction n generalizing p q with
  | zero => rfl
  | succ n ih =>
    rw [leWord, leWord, ih (p := p + 1) (q := q + 1) fun i hi => ?_]
    · have h0 := h 0 (succ_pos n)
      rw [add_zero, add_zero] at h0
      rw [h0]
    · rw [add_assoc, add_assoc, add_comm 1 i]
      exact h (i + 1) (succ_lt_succ hi)

theorem beAt_moved {n} (h : ∀ i < n, f (p + i) = g (q + i)) : beAt f p n = beAt g q n := by
  rw [beAt, beAt, bytesAt, bytesAt]
  congr 1
  exact map_congr_left fun i hi => h i (mem_range.mp hi)

/-- A part of a record that two places share. -/
theorem moved_add {n k m} (h : ∀ i < n, f (p + i) = g (q + i)) (hk : k + m ≤ n) :
    ∀ i < m, f (p + k + i) = g (q + k + i) := by
  intro i hi
  rw [add_assoc, add_assoc]
  exact h (k + i) (by omega)

theorem payloadIndex_moved (h : ∀ i < 128, f (p + i) = g (q + i)) : payloadIndex f p = payloadIndex g q := by
  rw [payloadIndex, payloadIndex, leWord_moved fun i hi => h i (by omega),
    beAt_moved (moved_add (k := 8) h (by decide))]

theorem entryFirst_moved (h : ∀ i < 128, f (p + i) = g (q + i)) : entryFirst f p = entryFirst g q :=
  leWord_moved (moved_add (k := 32) h (by decide))

theorem entryLast_moved (h : ∀ i < 128, f (p + i) = g (q + i)) : entryLast f p = entryLast g q :=
  leWord_moved (moved_add (k := 40) h (by decide))

theorem mbrOk_moved (h : ∀ i < 512, f (p + i) = g (q + i)) : mbrOk f p = mbrOk g q := by
  rw [mbrOk, mbrOk, h 510 (by decide), h 511 (by decide)]
  congr 1
  rw [Bool.eq_iff_iff, any_eq_true, any_eq_true]
  refine exists_congr fun partition => and_congr_right fun hmem => ?_
  have hlt := mem_range.mp hmem
  have hbyte := h (446 + 16 * partition + 4) (by omega)
  rw [← add_assoc, ← add_assoc, ← add_assoc, ← add_assoc] at hbyte
  rw [hbyte]

theorem gptNumEntries_moved (h : ∀ i < 512, f (p + i) = g (q + i)) : gptNumEntries f p = gptNumEntries g q :=
  leWord_moved (moved_add (k := 80) h (by decide))

theorem gptLastUsable_moved (h : ∀ i < 512, f (p + i) = g (q + i)) : gptLastUsable f p = gptLastUsable g q :=
  leWord_moved (moved_add (k := 48) h (by decide))

theorem gptHeaderOk_moved (blockSize numBlocks : Nat) (h : ∀ i < 512, f (p + i) = g (q + i)) :
    gptHeaderOk blockSize numBlocks f p = gptHeaderOk blockSize numBlocks g q := by
  have hword : ∀ k n, k + n ≤ 512 → leWord f (p + k) n = leWord g (q + k) n :=
    fun k n hk => leWord_moved (moved_add h hk)
  rw [gptHeaderOk, gptHeaderOk, gptNumEntries_moved h, gptLastUsable_moved h, hword 8 4 (by decide),
    hword 12 4 (by decide), hword 24 8 (by decide), hword 32 8 (by decide), hword 40 8 (by decide),
    leWord_moved fun i hi => h i (by omega)]

/-- The type of a payload partition is not empty. -/
theorem entryExists_of_payload (h : payloadIndex f p < 3) : entryExists f p = true := by
  by_contra hnone
  have hzero : ∀ i < 8, f (p + i) = 0 := by
    intro i hi
    by_contra hne
    refine hnone (any_eq_true.mpr ⟨i, mem_range.mpr (by omega), ?_⟩)
    simpa using hne
  rw [payloadIndex, leWord_zero hzero] at h
  simp at h

end

/-! ## The choice -/

/-- Where an entry is on a device with 512-byte blocks. -/
def entryAt (i : Nat) : Nat := 1024 + 128 * i

/-- An entry that can be used as payload of type `k`. -/
def Usable (content : Nat → UInt8) (lastUsable k i : Nat) : Prop :=
  payloadIndex content (entryAt i) = k ∧ entryFirst content (entryAt i) ≤ entryLast content (entryAt i) ∧
    entryLast content (entryAt i) ≤ lastUsable

instance (content : Nat → UInt8) (lastUsable k i : Nat) : Decidable (Usable content lastUsable k i) :=
  inferInstanceAs (Decidable (_ ∧ _ ∧ _))

/-- The first LBA of the first usable entry of type `k` among the first `n`. -/
def payloadOf (content : Nat → UInt8) (lastUsable n k : Nat) : Option Nat :=
  ((List.range n).find? fun i => decide (Usable content lastUsable k i)).map fun i =>
    entryFirst content (entryAt i)

/-- Which of the payloads of the types A, B and C is used. -/
def payloadChoice : (a b c : Option Nat) → Option Nat
  | some a, none, none => some a
  | some a, some _, none => some a
  | some a, some _, some _ => some a
  | none, some b, none => some b
  | none, some b, some _ => some b
  | none, none, some c => some c
  | some _, none, some c => some c
  | none, none, none => none

/-- What the scan has found in the first `i` entries. -/
structure Tallied {S : Type} (content : Nat → UInt8) (lastUsable i : Nat) (t : Scan S) : Prop where
  mask_lt : t.mask < 8
  slot : ∀ k < 3, (t.mask &&& 1 <<< k ≠ 0 ↔ (payloadOf content lastUsable i k).isSome) ∧
    ∀ first, payloadOf content lastUsable i k = some first → t.first k = first

theorem payloadOf_succ (content : Nat → UInt8) (lastUsable n k : Nat) :
    payloadOf content lastUsable (n + 1) k = (payloadOf content lastUsable n k).or
      (if Usable content lastUsable k n then some (entryFirst content (entryAt n)) else none) := by
  rw [payloadOf, payloadOf, range_succ, List.find?_append]
  cases (List.range n).find? fun i => decide (Usable content lastUsable k i) with
  | some i => rfl
  | none =>
    by_cases h : Usable content lastUsable k n
    · simp [h]
    · simp [h]

section
variable {S : Type} {content f : Nat → UInt8} {lastUsable i : Nat} {t : Scan S}

theorem mask_or {mask k k'} (hmask : mask < 8) (hk : k < 3) (hk' : k' < 3) :
    mask ||| 1 <<< k < 8 ∧ ((mask ||| 1 <<< k) &&& 1 <<< k' ≠ 0 ↔ k' = k ∨ mask &&& 1 <<< k' ≠ 0) := by
  have hall : ∀ mask < 8, ∀ k < 3, ∀ k' < 3, mask ||| 1 <<< k < 8 ∧
      ((mask ||| 1 <<< k) &&& 1 <<< k' ≠ 0 ↔ k' = k ∨ mask &&& 1 <<< k' ≠ 0) := by decide
  exact hall mask hmask k hk k' hk'

/-- A mask from its bits. -/
theorem mask_eq {mask} (h : mask < 8) : mask = (if mask &&& 1 <<< 0 ≠ 0 then 1 else 0) +
    (if mask &&& 1 <<< 1 ≠ 0 then 2 else 0) + (if mask &&& 1 <<< 2 ≠ 0 then 4 else 0) := by
  have hall : ∀ mask < 8, mask = (if mask &&& 1 <<< 0 ≠ 0 then 1 else 0) +
    (if mask &&& 1 <<< 1 ≠ 0 then 2 else 0) + (if mask &&& 1 <<< 2 ≠ 0 then 4 else 0) := by decide
  exact hall mask h

/-- Entries that cannot be used as payload of type `k` do not count for it. -/
theorem payloadOf_of_not_usable {k} (h : ¬ Usable content lastUsable k i) :
    payloadOf content lastUsable (i + 1) k = payloadOf content lastUsable i k := by
  rw [payloadOf_succ, if_neg h, Option.or_none]

theorem payloadOf_of_isSome {k} (h : (payloadOf content lastUsable i k).isSome) :
    payloadOf content lastUsable (i + 1) k = payloadOf content lastUsable i k := by
  obtain ⟨first, hfirst⟩ := Option.isSome_iff_exists.mp h
  rw [payloadOf_succ, hfirst]
  rfl

theorem payloadOf_of_usable {k} (h : Usable content lastUsable k i)
    (hnone : payloadOf content lastUsable i k = none) :
    payloadOf content lastUsable (i + 1) k = some (entryFirst content (entryAt i)) := by
  rw [payloadOf_succ, hnone, if_pos h]
  rfl

/-- If the counts of all types stay as they are, so does the tally. -/
theorem Tallied.same (h : Tallied content lastUsable i t)
    (hsame : ∀ k < 3, payloadOf content lastUsable (i + 1) k = payloadOf content lastUsable i k) :
    Tallied content lastUsable (i + 1) t :=
  ⟨h.mask_lt, fun k hk => by rw [hsame k hk]; exact h.slot k hk⟩

theorem Tallied.examine (h : Tallied content lastUsable i t)
    (hbytes : ∀ j < 128, f (t.buf.start + j) = content (entryAt i + j)) :
    Tallied content lastUsable (i + 1) (t.examine f lastUsable) := by
  have hindex := payloadIndex_moved hbytes
  have hfirst := entryFirst_moved hbytes
  have hlast := entryLast_moved hbytes
  have hother : ∀ {k}, k ≠ payloadIndex content (entryAt i) → ¬ Usable content lastUsable k i :=
    fun hne huse => hne huse.1.symm
  rw [Scan.examine]
  dsimp only
  rw [hindex, hfirst, hlast]
  generalize hk₀ : payloadIndex content (entryAt i) = k₀ at hindex hother
  by_cases hthree : 3 ≤ k₀
  · have hsame : Tallied content lastUsable (i + 1) t :=
      h.same fun k hk => payloadOf_of_not_usable (hother (by omega))
    rw [if_pos hthree, ite_self]
    exact hsame
  rw [if_neg (by rw [entryExists_of_payload (by omega)]; simp), if_neg hthree]
  have hk₀' : k₀ < 3 := Nat.lt_of_not_le hthree
  split
  · -- a duplicate
    rename_i hset
    refine h.same fun k hk => ?_
    by_cases hkk : k = k₀
    · rw [hkk]
      exact payloadOf_of_isSome ((h.slot k₀ hk₀').1.mp hset)
    · exact payloadOf_of_not_usable (hother hkk)
  · rename_i hclear
    have hnone : payloadOf content lastUsable i k₀ = none :=
      Option.not_isSome_iff_eq_none.mp fun hsome => hclear ((h.slot k₀ hk₀').1.mpr hsome)
    by_cases hbogus : entryLast content (entryAt i) < entryFirst content (entryAt i) ∨
        lastUsable < entryLast content (entryAt i)
    · have hnot : ¬ Usable content lastUsable k₀ i := fun huse => by
        have hle := huse.2
        omega
      refine ⟨by rw [if_pos hbogus]; exact h.mask_lt, fun k hk => ?_⟩
      dsimp only
      rw [if_pos hbogus]
      by_cases hkk : k = k₀
      · rw [hkk, payloadOf_of_not_usable hnot, hnone]
        exact ⟨by simpa using hclear, by simp⟩
      · rw [payloadOf_of_not_usable (hother hkk), update_of_ne hkk]
        exact h.slot k hk
    · have huse : Usable content lastUsable k₀ i := ⟨hk₀, by omega, by omega⟩
      refine ⟨by rw [if_neg hbogus]; exact (mask_or h.mask_lt hk₀' hk₀').1, fun k hk => ?_⟩
      dsimp only
      rw [if_neg hbogus, (mask_or h.mask_lt hk₀' hk).2]
      by_cases hkk : k = k₀
      · rw [hkk, payloadOf_of_usable huse hnone, update_self]
        exact ⟨by simp, fun first hsome => Option.some.inj hsome⟩
      · rw [payloadOf_of_not_usable (hother hkk), update_of_ne hkk]
        simp only [hkk, false_or]
        exact h.slot k hk

/-- Which payload `used_index` stands for. -/
theorem Tallied.choice (h : Tallied content lastUsable i t) :
    payloadChoice (payloadOf content lastUsable i 0) (payloadOf content lastUsable i 1)
      (payloadOf content lastUsable i 2) =
    if t.mask = 0 then none else some (t.first (usedIndex t.mask)) := by
  have hmask := mask_eq h.mask_lt
  obtain ⟨ha, hfirstA⟩ := h.slot 0 (by decide)
  obtain ⟨hb, hfirstB⟩ := h.slot 1 (by decide)
  obtain ⟨hc, hfirstC⟩ := h.slot 2 (by decide)
  simp only [ha, hb, hc] at hmask
  revert hmask hfirstA hfirstB hfirstC
  cases payloadOf content lastUsable i 0 <;> cases payloadOf content lastUsable i 1 <;>
    cases payloadOf content lastUsable i 2 <;> intro hfirstA hfirstB hfirstC hmask <;>
    simp [hmask, payloadChoice, usedIndex, hfirstA, hfirstB, hfirstC]

end

/-! ## The whole scan -/

section
variable {blk : AsyncBlockdev} {content : Nat → UInt8}
  {At : blk.State → Nat → AsyncBuf → AsyncBuf → Prop} {table : Nat} {junk : Nat → Nat × Nat}
  {numEntries lastUsable i : Nat} {s : blk.State} {t : Scan blk.State}

theorem AsyncBlockdev.Faithful.checkedStart_ok (hF : blk.Faithful content At) (s : blk.State)
    (addr buf bufEnd : Nat) (hle : buf ≤ bufEnd) (hmod : (bufEnd - buf) % blk.blockSize = 0)
    (haddr : addr < blk.numBlocks) :
    ∃ s', blk.checkedStart s addr buf bufEnd = .ok s' ∧ At s' addr ⟨buf, bufEnd⟩ ⟨buf, buf⟩ := by
  obtain ⟨s', hstart, hat⟩ := hF.start s addr buf bufEnd hle hmod haddr
  refine ⟨s', ?_, hat⟩
  rw [AsyncBlockdev.checkedStart, hstart]
  rfl

theorem tableSize_mod (table : Nat) : (table + tableSize - table) % 512 = 0 := by
  rw [Nat.add_sub_cancel_left]
  rfl

section
variable (hF : blk.Faithful content At) (hsize : blk.blockSize = 512)
include hF hsize

theorem AtEntry.reachEntry_ok (h : AtEntry At table i t) (hfit : 2 + i / 4 < blk.numBlocks) :
    ∃ t', Dramstage.reachEntry blk table i t = .ok t' := by
  rw [Dramstage.reachEntry, if_neg (not_lt.mpr (hF.range h.stream).2.1), refill]
  split
  · exact ⟨_, rfl⟩
  · obtain ⟨s₁, hstart, hat⟩ := hF.checkedStart_ok t.dev (2 + i / (blk.blockSize / 128))
      table (table + tableSize) (Nat.le_add_right ..)
      (by rw [hsize]; exact tableSize_mod table) (by rw [hsize]; exact hfit)
    obtain ⟨b, s₂, hpump, -⟩ := hF.checkedPump hat 0 128 (Nat.zero_le _)
    exact ⟨_, (bind_of_ok hstart _).trans (bind_of_ok hpump _)⟩

theorem AtEntry.bytes
    (h : AtEntry At table i t) (hfull : 128 ≤ t.buf.size) (hin : 8 + i < 4 * blk.numBlocks) :
    ∀ j < 128, blk.mem t.dev (t.buf.start + j) = content (entryAt i + j) := by
  intro j hj
  have hoffset := h.offset
  obtain ⟨hlo, -⟩ := hF.range h.stream
  rw [AsyncBuf.size] at hfull
  dsimp only at hlo
  rw [hF.bytes h.stream (t.buf.start + j) (by dsimp only; omega) (by omega)
    (by rw [hsize]; dsimp only; omega), hsize, entryAt]
  congr 1
  dsimp only
  omega

/-- All rounds are made, and each one counts its entry. -/
theorem scanEntries_ok (hfit : 2 + (numEntries + 3) / 4 ≤ blk.numBlocks) (h : AtEntry At table 0 t)
    (htally : Tallied content lastUsable 0 t) (hi : i ≤ numEntries) :
    ∃ t', scanEntries blk table numEntries lastUsable i t = .ok t' ∧ Tallied content lastUsable i t' := by
  induction i with
  | zero => exact ⟨t, rfl, htally⟩
  | succ i ih =>
    obtain ⟨t₁, hrun, htally₁⟩ := ih (by omega)
    have hat₁ := h.scanEntries hF hsize (by omega) hrun
    obtain ⟨t₂, hreach⟩ := hat₁.reachEntry_ok hF hsize (by omega)
    obtain ⟨hat₂, hfull, hmask, hfirst, hlast⟩ := hat₁.reachEntry hF hsize hreach
    have htally₂ : Tallied content lastUsable i t₂ :=
      ⟨by rw [hmask]; exact htally₁.mask_lt, fun k hk => by rw [hmask, hfirst]; exact htally₁.slot k hk⟩
    have htally₃ := htally₂.examine (hat₂.bytes hF hsize hfull (by omega))
    obtain ⟨hdev, hbuf, hlba⟩ := t₂.examine_frame (blk.mem t₂.dev) lastUsable
    have hat₃ : AtEntry At table i (t₂.examine (blk.mem t₂.dev) lastUsable) :=
      ⟨by rw [hdev, hbuf, hlba]; exact hat₂.stream, by rw [hbuf, hlba]; exact hat₂.offset,
        by rw [hbuf]; exact hat₂.enough⟩
    obtain ⟨t₄, hadv, -, hmask₄, hfirst₄, -⟩ :=
      hat₃.advance hF numEntries (by rw [hbuf]; exact hfull)
    refine ⟨t₄, (bind_of_ok hrun _).trans ((bind_of_ok hreach _).trans hadv), ?_, fun k hk => ?_⟩
    · rw [hmask₄]
      exact htally₃.mask_lt
    · rw [hmask₄, hfirst₄]
      exact htally₃.slot k hk

/-- The checks succeed for a device that passes them. -/
theorem openTable_ok (table : Nat) (junk : Nat → Nat × Nat) (s : blk.State)
    (hblocks : 2 ≤ blk.numBlocks) (hmbr : mbrOk content 0 = true)
    (hheader : gptHeaderOk 512 blk.numBlocks content 512 = true) : ∃ t,
    openTable blk table junk s = .ok (gptNumEntries content 512, gptLastUsable content 512, t) ∧
      AtEntry At table 0 t ∧ t.mask = 0 := by
  obtain ⟨s₁, hstart, hat₁⟩ := hF.checkedStart_ok s 0 table (table + tableSize)
    (Nat.le_add_right ..) (by rw [hsize]; exact tableSize_mod table) (by omega)
  obtain ⟨b₂, s₂, hpump₂, hat₂, hb₂, hmin₂⟩ := hF.checkedPump hat₁ 0 blk.blockSize (Nat.zero_le _)
  have hlen₂ : 512 ≤ b₂.size := by
    rw [AsyncBuf.size, hsize, tableSize] at hmin₂
    dsimp only at hb₂ hmin₂
    rw [AsyncBuf.size]
    omega
  obtain ⟨b₃, s₃, hpump₃, hat₃, hb₃, hmin₃⟩ := hF.checkedPump hat₂ 512
    ((2 * blk.blockSize + 2 ^ 32 - 512) % 2 ^ 32) hlen₂
  have hlen₃ : 512 ≤ b₃.size := by
    rw [AsyncBuf.size, hsize, tableSize] at hmin₃
    dsimp only at hb₂ hb₃ hmin₃
    rw [AsyncBuf.size]
    omega
  obtain ⟨b₄, s₄, hpump₄, hat₄, hb₄, hmin₄⟩ := hF.checkedPump hat₃ blk.blockSize 128
    (by rw [hsize]; exact hlen₃)
  rw [AsyncBuf.size] at hlen₂ hlen₃
  dsimp only at hb₂ hb₃ hb₄
  have hboot : mbrOk (blk.mem s₂) b₂.start = true := by
    rw [← hmbr]
    refine mbrOk_moved fun j hj => ?_
    rw [hF.bytes hat₂ (b₂.start + j) (by dsimp only; omega) (by omega)
      (by rw [hsize]; dsimp only; omega)]
    refine congrArg content ?_
    dsimp only
    omega
  have hzero : (blk.blockSize + 2 ^ 32 - 512) % 2 ^ 32 = 0 := by omega
  have hbytes : ∀ j < 512, blk.mem s₃ (b₃.start + (blk.blockSize + 2 ^ 32 - 512) % 2 ^ 32 + j) =
      content (512 + j) := by
    intro j hj
    rw [hzero, add_zero, hF.bytes hat₃ (b₃.start + j) (by dsimp only; omega) (by omega)
      (by rw [hsize]; dsimp only; omega)]
    refine congrArg content ?_
    dsimp only
    omega
  have hopen : openTable blk table junk s = .ok
      (gptNumEntries (blk.mem s₃) (b₃.start + (blk.blockSize + 2 ^ 32 - 512) % 2 ^ 32),
        gptLastUsable (blk.mem s₃) (b₃.start + (blk.blockSize + 2 ^ 32 - 512) % 2 ^ 32),
        ⟨s₄, b₄, 0, 0, fun i => (junk i).1, fun i => (junk i).2⟩) := by
    rw [openTable, if_neg (by rw [hsize]; decide)]
    refine (bind_of_ok hstart _).trans ((bind_of_ok hpump₂ _).trans ((if_neg ?_).trans
      ((bind_of_ok hpump₃ _).trans ((if_neg ?_).trans (bind_of_ok hpump₄ _)))))
    · rw [hboot]
      simp
    · rw [gptHeaderOk_moved _ _ hbytes, hsize, hheader]
      simp
  rw [gptNumEntries_moved hbytes, gptLastUsable_moved hbytes] at hopen
  refine ⟨_, hopen, ⟨hat₄, ?_, ?_⟩, rfl⟩
  · dsimp only
    omega
  · exact hmin₄

end

theorem payloadOf_le {k first} (h : payloadOf content lastUsable numEntries k = some first) :
    first ≤ lastUsable := by
  obtain ⟨i, hfind, rfl⟩ := Option.map_eq_some_iff.mp h
  have huse : Usable content lastUsable k i := by simpa using List.find?_some hfind
  exact huse.2.1.trans huse.2.2

theorem payloadChoice_eq_some {a b c first} (h : payloadChoice a b c = some first) :
    a = some first ∨ b = some first ∨ c = some first := by
  cases a <;> cases b <;> cases c <;> simp_all [payloadChoice]

/-- A header that passes the checks reserves the blocks of its table at the end of the device. -/
theorem gptLastUsable_lt {numBlocks} (h : gptHeaderOk 512 numBlocks content 512 = true)
    (hfit : 2 + (gptNumEntries content 512 + 3) / 4 ≤ numBlocks) :
    gptLastUsable content 512 < numBlocks := by
  obtain ⟨-, -, -, -, -, -, hlast, hnum⟩ := of_decide_eq_true h
  omega

/-- The payload read begins with the first block of the partition that the types present select. If
there is none, `boot_blockdev` returns before the payload read. -/
theorem boot_selects_payload (hF : blk.Faithful content At) (hsize : blk.blockSize = 512)
    (hmbr : mbrOk content 0 = true) (hheader : gptHeaderOk 512 blk.numBlocks content 512 = true)
    (hfit : 2 + (gptNumEntries content 512 + 3) / 4 ≤ blk.numBlocks) :
    match payloadChoice (payloadOf content (gptLastUsable content 512) (gptNumEntries content 512) 0)
      (payloadOf content (gptLastUsable content 512) (gptNumEntries content 512) 1)
      (payloadOf content (gptLastUsable content 512) (gptNumEntries content 512) 2) with
    | some first => ∃ s', startPayload blk table junk s = .ok (first, s') ∧
        At s' first blobBuffer ⟨blobBuffer.start, blobBuffer.start⟩
    | none => selectPartition blk table junk s = .error (.returned iostInvalid) := by
  obtain ⟨t, hopen, hat, hmask⟩ := openTable_ok hF hsize table junk s (by omega) hmbr hheader
  have htally : Tallied content (gptLastUsable content 512) 0 t := by
    refine ⟨by omega, fun k hk => ⟨?_, nofun⟩⟩
    rw [hmask, zero_and]
    exact ⟨fun h => absurd rfl h, nofun⟩
  obtain ⟨t', hscan, htally'⟩ := scanEntries_ok hF hsize hfit hat htally le_rfl
  have hchoice := htally'.choice
  split
  · rename_i first hsome
    have hlt : first < blk.numBlocks := by
      have hlast := gptLastUsable_lt hheader hfit
      rcases payloadChoice_eq_some hsome with h | h | h
      · exact (payloadOf_le h).trans_lt hlast
      · exact (payloadOf_le h).trans_lt hlast
      · exact (payloadOf_le h).trans_lt hlast
    rw [hsome] at hchoice
    split at hchoice
    · cases hchoice
    rename_i hne
    obtain ⟨s', hstart, hat'⟩ := hF.checkedStart_ok t'.dev first blobBuffer.start
      blobBuffer.stop (by decide)
      (by rw [hsize]; decide) hlt
    have hselect : selectPartition blk table junk s = .ok (usedPartition blk t', t'.dev) :=
      (bind_of_ok hopen _).trans ((bind_of_ok hscan _).trans (if_neg hne))
    have hfirst : (usedPartition blk t').1 = first := (Option.some.inj hchoice).symm
    refine ⟨s', (bind_of_ok hselect _).trans ?_, hat'⟩
    dsimp only
    rw [hfirst]
    exact bind_of_ok hstart _
  · rename_i hnone
    rw [hnone] at hchoice
    split at hchoice
    · rename_i hzero
      exact (bind_of_ok hopen _).trans ((bind_of_ok hscan _).trans (if_pos hzero))
    · cases hchoice

end

section
variable {numBlocks numEntries lastUsable first last : Nat}

theorem smallGpt_behind {a} (ha : 1152 ≤ a) :
    smallGpt 512 numBlocks numEntries lastUsable first last a = 0 := by
  have hskip : ∀ off len v (f : Nat → UInt8), off + len ≤ 1152 → putField off len v f a = f a :=
    fun off len v f hle => if_neg (by omega)
  unfold smallGpt
  repeat rw [hskip _ _ _ _ (by decide)]

/-- There is no payload of another type. -/
theorem payloadOf_smallGpt {k} (hk : k = 1 ∨ k = 2) (u n : Nat)
    (hfirst : payloadIndex (smallGpt 512 numBlocks numEntries lastUsable first last) 1024 = 0) :
    payloadOf (smallGpt 512 numBlocks numEntries lastUsable first last) u n k = none := by
  have hindex : ∀ i, payloadIndex (smallGpt 512 numBlocks numEntries lastUsable first last) (entryAt i) =
      if i = 0 then 0 else 3 := by
    intro i
    split
    · next hi =>
      subst hi
      exact hfirst
    · next hi =>
      have hzero : leWord (smallGpt 512 numBlocks numEntries lastUsable first last) (entryAt i) 8 = 0 :=
        leWord_zero fun j _ => smallGpt_behind (by unfold entryAt; omega)
      rw [payloadIndex, hzero]
      rfl
  have hnone : (List.range n).find? (fun i => decide (Usable
      (smallGpt 512 numBlocks numEntries lastUsable first last) u k i)) = none := by
    refine List.find?_eq_none.mpr fun i _ h => ?_
    have heq := (of_decide_eq_true h).1
    rw [hindex] at heq
    split at heq <;> omega
  rw [payloadOf, hnone]
  rfl

end

/-- 200 entries, the first of them a payload of type A from block 64 on. -/
theorem boot_selects_payload_a : ∃ s',
    startPayload (ramDisk (smallGpt 512 256 200 128 64 127) 512 256) 0x1000 (fun _ => (0, 0))
      ⟨0, ⟨0, 0⟩, ⟨0, 0⟩⟩ = .ok (64, s') ∧
    RamDisk.At s' 64 blobBuffer ⟨blobBuffer.start, blobBuffer.start⟩ := by
  have hmbr : mbrOk (smallGpt 512 256 200 128 64 127) 0 = true := by decide +kernel
  have hheader : gptHeaderOk 512 256 (smallGpt 512 256 200 128 64 127) 512 = true := by decide +kernel
  have hfit : 2 + (gptNumEntries (smallGpt 512 256 200 128 64 127) 512 + 3) / 4 ≤ 256 := by
    decide +kernel
  have ha : payloadOf (smallGpt 512 256 200 128 64 127)
      (gptLastUsable (smallGpt 512 256 200 128 64 127) 512)
      (gptNumEntries (smallGpt 512 256 200 128 64 127) 512) 0 = some 64 := by
    decide +kernel
  have hnone (k u n : Nat) (hk : k = 1 ∨ k = 2) :
      payloadOf (smallGpt 512 256 200 128 64 127) u n k = none :=
    payloadOf_smallGpt hk u n (by decide +kernel)
  -- the theorem is applied to any device like this one, or its statement is evaluated
  generalize smallGpt 512 256 200 128 64 127 = content at *
  have h := @boot_selects_payload (ramDisk content 512 256) _ _ 0x1000 (fun _ => (0, 0))
    ⟨0, ⟨0, 0⟩, ⟨0, 0⟩⟩ (ramDisk_faithful content 512 256) rfl hmbr hheader hfit
  rw [ha, hnone 1 _ _ (.inl rfl), hnone 2 _ _ (.inr rfl)] at h
  exact h

/-- The error of a run that has one. -/
def errorOf {α : Type} : Except Stop α → Option Stop
  | .ok _ => none
  | .error e => some e

theorem eq_error {α : Type} {x : Except Stop α} {e : Stop} (h : errorOf x = some e) : x = .error e := by
  cases x with
  | ok a => cases h
  | error e' => exact congrArg _ (Option.some.inj h)

/-- 121 entries on a device of 32 blocks: the header passes, but the last entry is in a block that the
device does not have, and the payload of the first entry is not read. -/
theorem boot_misses_payload :
    (ramDisk (smallGpt 512 32 121 0 0 0) 512 32).Faithful (smallGpt 512 32 121 0 0 0) RamDisk.At ∧
    mbrOk (smallGpt 512 32 121 0 0 0) 0 = true ∧
    gptHeaderOk 512 32 (smallGpt 512 32 121 0 0 0) 512 = true ∧
    gptLastUsable (smallGpt 512 32 121 0 0 0) 512 = 0 ∧ gptNumEntries (smallGpt 512 32 121 0 0 0) 512 = 121 ∧
    payloadChoice (payloadOf (smallGpt 512 32 121 0 0 0) 0 121 0)
      (payloadOf (smallGpt 512 32 121 0 0 0) 0 121 1)
      (payloadOf (smallGpt 512 32 121 0 0 0) 0 121 2) = some 0 ∧
    selectPartition (ramDisk (smallGpt 512 32 121 0 0 0) 512 32) 0x1000 (fun _ => (0, 0))
      ⟨0, ⟨0, 0⟩, ⟨0, 0⟩⟩ = .error (.returned iostInvalid) :=
  ⟨ramDisk_faithful .., by decide +kernel, by decide +kernel, by decide +kernel, by decide +kernel,
    by rw [payloadOf_smallGpt (.inl rfl) _ _ (by decide +kernel),
      payloadOf_smallGpt (.inr rfl) _ _ (by decide +kernel)]; decide +kernel,
    eq_error (by decide +kernel)⟩

end Rkboot.Dramstage
