import Rkboot.Lib.Buffer
import Rkboot.Dramstage.Blockdev

/-! # Finding the payload partition

`boot_blockdev`: the checks of the MBR and of the primary GPT header, the scan of the partition
entries through a buffer of 16 KiB, and the choice of a payload partition. -/
namespace Rkboot.Dramstage
open Lib Drivers Function

/-- `struct async_blockdev`; `mem` is the memory that its pump fills. -/
structure AsyncBlockdev extends AsyncTransfer where
  blockSize : Nat
  numBlocks : Nat
  start : State → Nat → Nat → Nat → Option (Iost × State)
  mem : State → Nat → UInt8

/-- How `boot_blockdev` ends early. -/
inductive Stop where
  | assertion
  | returned (code : Nat)
  deriving DecidableEq, Repr

/-! ## What is read -/

/-- The signature and one of the four partitions of an MBR. -/
def mbrOk (f : Nat → UInt8) (p : Nat) : Bool :=
  f (p + 510) == 0x55 && f (p + 511) == 0xaa &&
    (List.range 4).any fun partition => f (p + 446 + 16 * partition + 4) == 0xee

def gptLastUsable (f : Nat → UInt8) (p : Nat) : Nat := leWord f (p + 48) 8

def gptNumEntries (f : Nat → UInt8) (p : Nat) : Nat := leWord f (p + 80) 4

/-- The checks of a GPT header. The sizes are those of the table in whole blocks. -/
def gptHeaderOk (blockSize numBlocks : Nat) (f : Nat → UInt8) (p : Nat) : Bool :=
  let partitionTableSize := gptNumEntries f p / (blockSize / 128)
  leWord f p 8 = 0x5452415020494645 ∧
  leWord f (p + 8) 4 = 0x00010000 ∧
  leWord f (p + 12) 4 = 92 ∧
  leWord f (p + 24) 8 = 1 ∧
  leWord f (p + 32) 8 = (numBlocks + 2 ^ 64 - 1) % 2 ^ 64 ∧
  (2 + partitionTableSize) % 2 ^ 32 ≤ leWord f (p + 40) 8 ∧
  gptLastUsable f p ≤ (numBlocks + 2 ^ 64 - 2 - partitionTableSize) % 2 ^ 64 ∧
  gptNumEntries f p ≤ 0x10000

/-- `index`, from the type GUID of the entry at `p`. -/
def payloadIndex (f : Nat → UInt8) (p : Nat) : Nat :=
  let head := leWord f p 8
  let tail := beAt f (p + 8) 8
  if head = 0x4b78d766c195cc59 ∧ tail = 0x813fa0e1519099d8 then 2
  else if head = 0x4b6dc9205f04b556 ∧ tail = 0xbd77804efe6fae01 then 1
  else if head = 0x46f68e5ee5ab07a0 ∧ tail = 0x9ce841a518929b7c then 0
  else 3

def entryExists (f : Nat → UInt8) (p : Nat) : Bool := (List.range 16).any fun j => f (p + j) != 0

def entryFirst (f : Nat → UInt8) (p : Nat) : Nat := leWord f (p + 32) 8

def entryLast (f : Nat → UInt8) (p : Nat) : Nat := leWord f (p + 40) 8

/-! ## The scan -/

/-- What the loop over the entries works on. `lba` is the block that the stream in the buffer began
with; the code does not keep it. -/
structure Scan (S : Type) where
  dev : S
  buf : AsyncBuf
  lba : Nat
  mask : Nat
  first : Nat → Nat
  last : Nat → Nat

section
variable (blk : AsyncBlockdev) (table : Nat)

def tableSize : Nat := 4 * 4096

/-- A call of `pump` and the check of what it returned. -/
def AsyncBlockdev.checkedPump (s : blk.State) (consume minSize : Nat) : Except Stop (AsyncBuf × blk.State) :=
  match blk.pump s consume minSize with
  | none => .error .assertion
  | some (buf, s) => if buf.stop < buf.start then .error (.returned (buf.start - buf.stop)) else .ok (buf, s)

/-- A call of `start` and the check of what it returned. -/
def AsyncBlockdev.checkedStart (s : blk.State) (addr buf bufEnd : Nat) : Except Stop blk.State :=
  match blk.start s addr buf bufEnd with
  | none => .error .assertion
  | some (res, s) => if res ≠ .ok then .error (.returned res.code) else .ok s

/-- Up to the loop. What `first` and `last` hold then is whatever was in their place. -/
def openTable (junk : Nat → Nat × Nat) (s : blk.State) : Except Stop (Nat × Nat × Scan blk.State) := do
  if ¬ (blk.blockSize ≤ 8192 ∧ 128 ≤ blk.blockSize ∧ blk.blockSize % 128 = 0) then
    throw .assertion
  let s ← blk.checkedStart s 0 table (table + tableSize)
  let (buf, s) ← blk.checkedPump s 0 blk.blockSize
  if mbrOk (blk.mem s) buf.start = false then throw (.returned iostInvalid)
  let (buf, s) ← blk.checkedPump s 512 ((2 * blk.blockSize + 2 ^ 32 - 512) % 2 ^ 32)
  let header := buf.start + (blk.blockSize + 2 ^ 32 - 512) % 2 ^ 32
  if gptHeaderOk blk.blockSize blk.numBlocks (blk.mem s) header = false then throw (.returned iostInvalid)
  let lastUsable := gptLastUsable (blk.mem s) header
  let numEntries := gptNumEntries (blk.mem s) header
  let (buf, s) ← blk.checkedPump s blk.blockSize 128
  return (numEntries, lastUsable, ⟨s, buf, 0, 0, fun i => (junk i).1, fun i => (junk i).2⟩)

variable {S : Type}

/-- The buffer is filled again, from the block of entry `i` on, when it has no whole entry left. -/
def refill (i : Nat) (t : Scan blk.State) : Except Stop (Scan blk.State) := do
  if 128 ≤ t.buf.size then return t
  let lba := 2 + i / (blk.blockSize / 128)
  let s ← blk.checkedStart t.dev lba table (table + tableSize)
  let (buf, s) ← blk.checkedPump s 0 128
  return { t with dev := s, buf := buf, lba := lba }

/-- What an entry does to `mask`, `first` and `last`. -/
def Scan.examine (f : Nat → UInt8) (lastUsable : Nat) (t : Scan S) : Scan S :=
  if entryExists f t.buf.start = false then t
  else
    let index := payloadIndex f t.buf.start
    if 3 ≤ index then t
    else if t.mask &&& 1 <<< index ≠ 0 then t
    else
      let first := entryFirst f t.buf.start
      let last := entryLast f t.buf.start
      { t with
        first := update t.first index first, last := update t.last index last
        mask := if last < first ∨ lastUsable < last then t.mask else t.mask ||| 1 <<< index }

/-- To the next entry; only the next round looks at what `pump` returned. -/
def advance (numEntries i : Nat) (t : Scan blk.State) : Except Stop (Scan blk.State) :=
  match blk.pump t.dev 128 (if i < numEntries - 1 then 128 else 0) with
  | none => .error .assertion
  | some (buf, s) => .ok { t with dev := s, buf := buf }

/-- One round of the loop up to where the entry is in the buffer. -/
def reachEntry (i : Nat) (t : Scan blk.State) : Except Stop (Scan blk.State) :=
  if t.buf.stop < t.buf.start then .error (.returned (t.buf.start - t.buf.stop))
  else refill blk table i t

def scanEntry (numEntries lastUsable i : Nat) (t : Scan blk.State) : Except Stop (Scan blk.State) := do
  let t ← reachEntry blk table i t
  advance blk numEntries i (t.examine (blk.mem t.dev) lastUsable)

/-- The first rounds of the loop. -/
def scanEntries (numEntries lastUsable : Nat) : Nat → Scan blk.State → Except Stop (Scan blk.State)
  | 0, t => .ok t
  | i + 1, t => do
    let t ← scanEntries numEntries lastUsable i t
    scanEntry blk table numEntries lastUsable i t

/-- `used_index`. -/
def usedIndex (mask : Nat) : Nat :=
  if mask = 4 ∨ mask = 5 then 2 else if mask = 2 ∨ mask = 6 then 1 else 0

/-- `used_first` and `used_last`, with what is clipped from a partition larger than the buffer. -/
def usedPartition (t : Scan S) : Nat × Nat :=
  let first := t.first (usedIndex t.mask)
  let last := t.last (usedIndex t.mask)
  let maxLength := (60 <<< 20 + blk.blockSize - 1) / blk.blockSize
  (first, if maxLength ≤ last - first then first + maxLength - 1 else last)

/-- Up to the payload read: the partition and the device. -/
def selectPartition (junk : Nat → Nat × Nat) (s : blk.State) :
    Except Stop ((Nat × Nat) × blk.State) := do
  let (numEntries, lastUsable, t) ← openTable blk table junk s
  let t ← scanEntries blk table numEntries lastUsable numEntries t
  if t.mask = 0 then throw (.returned iostInvalid)
  return (usedPartition blk t, t.dev)

/-- The start of the payload read, which does not use `used_last`. -/
def startPayload (junk : Nat → Nat × Nat) (s : blk.State) : Except Stop (Nat × blk.State) := do
  let ((usedFirst, _), s) ← selectPartition blk table junk s
  let s ← blk.checkedStart s usedFirst blobBuffer.start blobBuffer.stop
  return (usedFirst, s)

def bootBlockdev (decompressPayload : blk.State → Option Nat) (junk : Nat → Nat × Nat)
    (s : blk.State) : Except Stop Nat := do
  let (_, s) ← startPayload blk table junk s
  match decompressPayload s with
  | none => throw .assertion
  | some res => return if res ≠ iostOk then iostInvalid else iostOk

end

/-! ## The scan of the partition entries

Where the entry of every round is on the device, and which partition is chosen in the end. -/

/-- A device that delivers its contents. In the states `At s lba whole cur` the stream to `whole` began
with block `lba`, and `cur` has been delivered and not consumed. -/
structure AsyncBlockdev.Faithful (blk : AsyncBlockdev) (content : Nat → UInt8)
    (At : blk.State → Nat → AsyncBuf → AsyncBuf → Prop) : Prop where
  start : ∀ s addr buf bufEnd, buf ≤ bufEnd → (bufEnd - buf) % blk.blockSize = 0 → addr < blk.numBlocks →
    ∃ s', blk.start s addr buf bufEnd = some (.ok, s') ∧ At s' addr ⟨buf, bufEnd⟩ ⟨buf, buf⟩
  refuse : ∀ s addr buf bufEnd, ¬ (buf ≤ bufEnd ∧ (bufEnd - buf) % blk.blockSize = 0 ∧ addr < blk.numBlocks) →
    ∃ s', blk.start s addr buf bufEnd = some (.invalid, s')
  pump : ∀ {s lba whole cur} consume minSize, At s lba whole cur → consume ≤ cur.size →
    ∃ b s', blk.pump s consume minSize = some (b, s') ∧ At s' lba whole b ∧
      b.start = cur.start + consume ∧ (minSize ≤ b.size ∨ b.stop = whole.stop)
  range : ∀ {s lba whole cur}, At s lba whole cur →
    whole.start ≤ cur.start ∧ cur.start ≤ cur.stop ∧ cur.stop ≤ whole.stop
  bytes : ∀ {s lba whole cur}, At s lba whole cur → ∀ a, whole.start ≤ a → a < cur.stop →
    blk.blockSize * lba + (a - whole.start) < blk.blockSize * blk.numBlocks →
    blk.mem s a = content (blk.blockSize * lba + (a - whole.start))

section
variable {blk : AsyncBlockdev} {content : Nat → UInt8}
  {At : blk.State → Nat → AsyncBuf → AsyncBuf → Prop} {table : Nat} {junk : Nat → Nat × Nat}
  {numEntries lastUsable i : Nat} {s : blk.State} {t t' : Scan blk.State}

theorem AsyncBlockdev.Faithful.checkedPump (hF : blk.Faithful content At) {lba} {whole cur : AsyncBuf}
    (h : At s lba whole cur) (consume minSize : Nat) (hc : consume ≤ cur.size) : ∃ b s',
    blk.checkedPump s consume minSize = .ok (b, s') ∧ At s' lba whole b ∧
      b.start = cur.start + consume ∧ (minSize ≤ b.size ∨ b.stop = whole.stop) := by
  obtain ⟨b, s', hpump, hat, hstart, hmin⟩ := hF.pump consume minSize h hc
  refine ⟨b, s', ?_, hat, hstart, hmin⟩
  rw [AsyncBlockdev.checkedPump, hpump]
  exact if_neg (not_lt.mpr (hF.range hat).2.1)

theorem AsyncBlockdev.Faithful.checkedStart (hF : blk.Faithful content At) {addr buf bufEnd s'}
    (h : blk.checkedStart s addr buf bufEnd = .ok s') :
    At s' addr ⟨buf, bufEnd⟩ ⟨buf, buf⟩ := by
  rw [AsyncBlockdev.checkedStart] at h
  by_cases hacc : buf ≤ bufEnd ∧ (bufEnd - buf) % blk.blockSize = 0 ∧ addr < blk.numBlocks
  · obtain ⟨s₁, hstart, hat⟩ := hF.start s addr buf bufEnd hacc.1 hacc.2.1 hacc.2.2
    rw [hstart] at h
    cases h
    exact hat
  · obtain ⟨s₁, hstart⟩ := hF.refuse s addr buf bufEnd hacc
    rw [hstart] at h
    cases h

/-- The buffer at the top of round `i`: it holds the entry, or it is used up. -/
structure AtEntry (At : blk.State → Nat → AsyncBuf → AsyncBuf → Prop) (table i : Nat)
    (t : Scan blk.State) : Prop where
  stream : At t.dev t.lba ⟨table, table + tableSize⟩ t.buf
  offset : 512 * t.lba + (t.buf.start - table) = 1024 + 128 * i
  enough : 128 ≤ t.buf.size ∨ t.buf.stop = table + tableSize

/-- What a round looks at. -/
theorem AtEntry.reachEntry (hF : blk.Faithful content At) (hsize : blk.blockSize = 512)
    (h : AtEntry At table i t) (hrun : reachEntry blk table i t = .ok t') :
    AtEntry At table i t' ∧ 128 ≤ t'.buf.size ∧
      t'.mask = t.mask ∧ t'.first = t.first ∧ t'.last = t.last := by
  obtain ⟨hlo, hle, hhi⟩ := hF.range h.stream
  rw [Dramstage.reachEntry, if_neg (not_lt.mpr hle), refill] at hrun
  split at hrun
  · rename_i hfull
    cases hrun
    exact ⟨h, hfull, rfl, rfl, rfl⟩
  · rename_i hshort
    obtain ⟨s₁, hstart, hrun⟩ := except_bind_eq_ok hrun
    have hat := hF.checkedStart hstart
    obtain ⟨b, s₂, hpump, hat', hb, hmin⟩ := hF.checkedPump hat 0 128 (Nat.zero_le _)
    cases (bind_of_ok hpump _).symm.trans hrun
    have hoffset := h.offset
    have henough := h.enough.resolve_left hshort
    rw [AsyncBuf.size] at hshort
    dsimp only at hlo hhi hb hmin
    -- all of the buffer has been consumed, so the entry is the first of a block
    have hlba : 512 * (2 + i / (blk.blockSize / 128)) = 1024 + 128 * i := by
      rw [hsize, tableSize] at *
      omega
    have hfull : 128 ≤ b.size := by
      rw [AsyncBuf.size] at hmin ⊢
      rw [tableSize] at hmin
      omega
    exact ⟨⟨hat', by dsimp only; omega, Or.inl hfull⟩, hfull, rfl, rfl, rfl⟩

theorem Scan.examine_frame {S : Type} (f : Nat → UInt8) (lastUsable : Nat) (t : Scan S) :
    (t.examine f lastUsable).dev = t.dev ∧ (t.examine f lastUsable).buf = t.buf ∧
      (t.examine f lastUsable).lba = t.lba := by
  rw [Scan.examine]
  split
  · exact ⟨rfl, rfl, rfl⟩
  · dsimp only
    split
    · exact ⟨rfl, rfl, rfl⟩
    · split
      · exact ⟨rfl, rfl, rfl⟩
      · exact ⟨rfl, rfl, rfl⟩

theorem AtEntry.advance (hF : blk.Faithful content At) (h : AtEntry At table i t) (numEntries : Nat)
    (hfull : 128 ≤ t.buf.size) : ∃ t', advance blk numEntries i t = .ok t' ∧
      (i + 1 < numEntries → AtEntry At table (i + 1) t') ∧
      t'.mask = t.mask ∧ t'.first = t.first ∧ t'.last = t.last := by
  obtain ⟨b, s, hpump, hat, hstart, hmin⟩ :=
    hF.pump 128 (if i < numEntries - 1 then 128 else 0) h.stream hfull
  refine ⟨{ t with dev := s, buf := b }, by rw [Dramstage.advance, hpump], fun hi => ?_, rfl, rfl, rfl⟩
  have hlo := (hF.range h.stream).1
  have hoffset := h.offset
  rw [if_pos (by omega)] at hmin
  refine ⟨hat, ?_, hmin⟩
  dsimp only at hlo ⊢
  omega

/-- The entry of every round is where the table has it. -/
theorem AtEntry.scanEntries (hF : blk.Faithful content At) (hsize : blk.blockSize = 512)
    (h : AtEntry At table 0 t) (hi : i < numEntries)
    (hrun : scanEntries blk table numEntries lastUsable i t = .ok t') : AtEntry At table i t' := by
  induction i generalizing t' with
  | zero =>
    cases hrun
    exact h
  | succ i ih =>
    obtain ⟨t₁, hrun₁, hrun⟩ := except_bind_eq_ok hrun
    obtain ⟨t₂, hreach, hadv⟩ := except_bind_eq_ok hrun
    obtain ⟨hat, hfull, -⟩ := (ih (by omega) hrun₁).reachEntry hF hsize hreach
    obtain ⟨hdev, hbuf, hlba⟩ := t₂.examine_frame (blk.mem t₂.dev) lastUsable
    have hat' : AtEntry At table i (t₂.examine (blk.mem t₂.dev) lastUsable) :=
      ⟨by rw [hdev, hbuf, hlba]; exact hat.stream, by rw [hbuf, hlba]; exact hat.offset,
        by rw [hbuf]; exact hat.enough⟩
    obtain ⟨t₃, hok, hnext, -⟩ := hat'.advance hF numEntries (by rw [hbuf]; exact hfull)
    obtain rfl : t₃ = t' := Except.ok.inj (hok.symm.trans hadv)
    exact hnext hi

/-- Where the loop begins: 512 bytes and a block into the stream from block 0. -/
theorem AsyncBlockdev.Faithful.openTable (hF : blk.Faithful content At)
    (hsize : 512 ≤ blk.blockSize ∧ blk.blockSize ≤ 4096)
    (h : openTable blk table junk s = .ok (numEntries, lastUsable, t)) :
    At t.dev 0 ⟨table, table + tableSize⟩ t.buf ∧ t.lba = 0 ∧
      t.buf.start = table + 512 + blk.blockSize ∧ 128 ≤ t.buf.size := by
  rw [Dramstage.openTable] at h
  split at h
  · cases h
  obtain ⟨s₁, hstart, h⟩ := except_bind_eq_ok h
  have hat := hF.checkedStart hstart
  obtain ⟨b₁, s₂, hpump₁, hat₁, hb₁, hmin₁⟩ := hF.checkedPump hat 0 blk.blockSize (Nat.zero_le _)
  replace h := (bind_of_ok hpump₁ _).symm.trans h
  dsimp only at h hb₁ hmin₁
  split at h
  · cases h
  rw [AsyncBuf.size, tableSize] at hmin₁
  obtain ⟨b₂, s₃, hpump₂, hat₂, hb₂, hmin₂⟩ := hF.checkedPump hat₁ 512
    ((2 * blk.blockSize + 2 ^ 32 - 512) % 2 ^ 32) (by rw [AsyncBuf.size]; omega)
  replace h := (bind_of_ok hpump₂ _).symm.trans h
  dsimp only at h hb₂ hmin₂
  split at h
  · cases h
  rw [AsyncBuf.size, tableSize] at hmin₂
  obtain ⟨b₃, s₄, hpump₃, hat₃, hb₃, hmin₃⟩ := hF.checkedPump hat₂ blk.blockSize 128
    (by rw [AsyncBuf.size]; omega)
  replace h := (bind_of_ok hpump₃ _).symm.trans h
  cases h
  dsimp only at hb₃ hmin₃ ⊢
  refine ⟨hat₃, rfl, by omega, ?_⟩
  rw [AsyncBuf.size, tableSize] at hmin₃
  rw [AsyncBuf.size]
  omega

/-- Round `i` looks at the 128 bytes at `2 * block_size + 128 * i` of the device. -/
def LooksAt (blk : AsyncBlockdev) (content : Nat → UInt8) (table i : Nat) (t : Scan blk.State) : Prop :=
  128 ≤ t.buf.size ∧ blk.blockSize * t.lba + (t.buf.start - table) = 2 * blk.blockSize + 128 * i ∧
  ∀ j < 128, 2 * blk.blockSize + 128 * i + j < blk.blockSize * blk.numBlocks →
    blk.mem t.dev (t.buf.start + j) = content (2 * blk.blockSize + 128 * i + j)

/-- Every round of a scan looks at its entry if and only if the blocks have 512 bytes, or there are no
entries. -/
theorem scan_looks_at (hF : blk.Faithful content At)
    (hsize : blk.blockSize = 512 ∨ blk.blockSize = 1024 ∨ blk.blockSize = 2048 ∨ blk.blockSize = 4096)
    (hopen : openTable blk table junk s = .ok (numEntries, lastUsable, t)) :
    (∀ i < numEntries, ∀ t₁ t₂, scanEntries blk table numEntries lastUsable i t = .ok t₁ →
      reachEntry blk table i t₁ = .ok t₂ → LooksAt blk content table i t₂) ↔
    blk.blockSize = 512 ∨ numEntries = 0 := by
  obtain ⟨hat, hlba, hstart, hfull⟩ := hF.openTable (by omega) hopen
  constructor
  · intro h
    by_contra hcond
    obtain ⟨hbig, hsome⟩ := not_or.mp hcond
    have hreach : reachEntry blk table 0 t = .ok t := by
      rw [reachEntry, if_neg (not_lt.mpr (hF.range hat).2.1), refill, if_pos hfull]
      rfl
    obtain ⟨-, hoffset, -⟩ := h 0 (pos_of_ne_zero hsome) t t rfl hreach
    rw [hlba, hstart] at hoffset
    omega
  · rintro (h512 | rfl) i hi t₁ t₂ hscan hreach
    · have h0 : AtEntry At table 0 t := by
        refine ⟨?_, ?_, Or.inl hfull⟩
        · rw [hlba]
          exact hat
        · omega
      obtain ⟨hentry, hfull₂, -⟩ := (h0.scanEntries hF h512 hi hscan).reachEntry hF h512 hreach
      have hoffset := hentry.offset
      obtain ⟨hlo, -⟩ := hF.range hentry.stream
      refine ⟨hfull₂, by rw [h512]; omega, fun j hj hin => ?_⟩
      rw [AsyncBuf.size] at hfull₂
      dsimp only at hlo
      rw [hF.bytes hentry.stream (t₂.buf.start + j) (by dsimp only; omega) (by omega)
        (by rw [h512] at hin ⊢; dsimp only; omega)]
      congr 1
      rw [h512]
      dsimp only
      omega
    · exact absurd hi (Nat.not_lt_zero i)

end

/-! ## A device in memory -/

structure RamDisk where
  lba : Nat
  whole : AsyncBuf
  cur : AsyncBuf

/-- A device that delivers all of a stream at once. -/
def ramDisk (content : Nat → UInt8) (blockSize numBlocks : Nat) : AsyncBlockdev where
  State := RamDisk
  pump s consume _ :=
    let cur : AsyncBuf := ⟨s.cur.start + consume, s.whole.stop⟩
    some (cur, { s with cur := cur })
  blockSize := blockSize
  numBlocks := numBlocks
  start s addr buf bufEnd :=
    if buf ≤ bufEnd ∧ (bufEnd - buf) % blockSize = 0 ∧ addr < numBlocks then
      some (.ok, ⟨addr, ⟨buf, bufEnd⟩, ⟨buf, buf⟩⟩)
    else some (.invalid, s)
  mem s a := content (blockSize * s.lba + (a - s.whole.start))

def RamDisk.At (s : RamDisk) (lba : Nat) (whole cur : AsyncBuf) : Prop :=
  s = ⟨lba, whole, cur⟩ ∧ whole.start ≤ cur.start ∧ cur.start ≤ cur.stop ∧ cur.stop ≤ whole.stop

theorem ramDisk_faithful (content : Nat → UInt8) (blockSize numBlocks : Nat) :
    (ramDisk content blockSize numBlocks).Faithful content RamDisk.At where
  start s addr buf bufEnd hle hmod hlt := ⟨_, if_pos ⟨hle, hmod, hlt⟩, rfl, le_rfl, le_rfl, hle⟩
  refuse s addr buf bufEnd h := ⟨_, if_neg h⟩
  pump := by
    rintro s lba whole cur consume minSize ⟨rfl, hlo, hle, hhi⟩ hc
    rw [AsyncBuf.size] at hc
    exact ⟨_, _, rfl, ⟨rfl, by dsimp only; omega, by dsimp only; omega, le_rfl⟩, rfl, Or.inr rfl⟩
  range h := h.2
  bytes := by
    rintro s lba whole cur ⟨rfl, -⟩ a - - -
    rfl

/-- `len` bytes of a number at `off`. -/
def putField (off len v : Nat) (f : Nat → UInt8) (a : Nat) : UInt8 :=
  if off ≤ a ∧ a < off + len then UInt8.ofNat (v >>> (8 * (a - off))) else f a

/-- A device with a GPT whose first entry is a payload partition of type A. -/
def smallGpt (blockSize numBlocks numEntries lastUsable first last : Nat) : Nat → UInt8 :=
  putField 450 1 0xee <| putField 510 2 0xaa55 <|
  putField blockSize 8 0x5452415020494645 <| putField (blockSize + 8) 4 0x10000 <|
  putField (blockSize + 12) 4 92 <| putField (blockSize + 24) 8 1 <|
  putField (blockSize + 32) 8 (numBlocks - 1) <|
  putField (blockSize + 40) 8 (2 + numEntries / (blockSize / 128)) <|
  putField (blockSize + 48) 8 lastUsable <| putField (blockSize + 80) 4 numEntries <|
  putField (2 * blockSize) 8 0x46f68e5ee5ab07a0 <| putField (2 * blockSize + 8) 8 0x7c9b9218a541e89c <|
  putField (2 * blockSize + 32) 8 first <| putField (2 * blockSize + 40) 8 last <| fun _ => 0

/-- 200 entries with 512-byte blocks, after the first 120 of them the buffer is filled again. -/
theorem scan_looks_at_restart : ∃ t lastUsable,
    openTable (ramDisk (smallGpt 512 256 200 128 64 127) 512 256) 0x1000 (fun _ => (0, 0))
      ⟨0, ⟨0, 0⟩, ⟨0, 0⟩⟩ = .ok (200, lastUsable, t) ∧
    ∀ i < 200, ∀ t₁ t₂, scanEntries (ramDisk (smallGpt 512 256 200 128 64 127) 512 256) 0x1000 200
        lastUsable i t = .ok t₁ →
      reachEntry (ramDisk (smallGpt 512 256 200 128 64 127) 512 256) 0x1000 i t₁ = .ok t₂ →
      LooksAt (ramDisk (smallGpt 512 256 200 128 64 127) 512 256) (smallGpt 512 256 200 128 64 127)
        0x1000 i t₂ := by
  obtain ⟨⟨n, lastUsable, t⟩, hopen, hn⟩ := exists_ok
    (x := openTable (ramDisk (smallGpt 512 256 200 128 64 127) 512 256) 0x1000 (fun _ => (0, 0))
      ⟨0, ⟨0, 0⟩, ⟨0, 0⟩⟩) (f := Prod.fst) (b := 200) (by decide +kernel)
  obtain rfl : n = 200 := hn
  exact ⟨t, lastUsable, hopen,
    (scan_looks_at (ramDisk_faithful ..) (Or.inl rfl) hopen).mpr (Or.inl rfl)⟩

/-- With 4096-byte blocks the first round looks at byte 4608 of the device and not at byte 8192. -/
theorem scan_looks_before_table : ∃ lastUsable t,
    (ramDisk (smallGpt 4096 256 1 128 64 127) 4096 256).Faithful (smallGpt 4096 256 1 128 64 127)
      RamDisk.At ∧
    openTable (ramDisk (smallGpt 4096 256 1 128 64 127) 4096 256) 0x1000 (fun _ => (0, 0))
      ⟨0, ⟨0, 0⟩, ⟨0, 0⟩⟩ = .ok (1, lastUsable, t) ∧
    reachEntry (ramDisk (smallGpt 4096 256 1 128 64 127) 4096 256) 0x1000 0 t = .ok t ∧
    t.lba = 0 ∧ t.buf.start = 0x1000 + 4608 ∧
    ¬ LooksAt (ramDisk (smallGpt 4096 256 1 128 64 127) 4096 256) (smallGpt 4096 256 1 128 64 127)
      0x1000 0 t := by
  obtain ⟨⟨n, lastUsable, t⟩, hopen, hn⟩ := exists_ok
    (x := openTable (ramDisk (smallGpt 4096 256 1 128 64 127) 4096 256) 0x1000 (fun _ => (0, 0))
      ⟨0, ⟨0, 0⟩, ⟨0, 0⟩⟩)
    (f := fun r => (r.1, r.2.2.lba, r.2.2.buf.start, r.2.2.buf.stop))
    (b := (1, 0, 0x1000 + 4608, 0x5000)) (by decide +kernel)
  simp only [Prod.mk.injEq] at hn
  obtain ⟨rfl, hlba, hstart, hstop⟩ := hn
  refine ⟨lastUsable, t, ramDisk_faithful .., hopen, ?_, hlba, hstart, ?_⟩
  · rw [reachEntry, if_neg (by omega), refill, if_pos (by rw [AsyncBuf.size]; omega)]
    rfl
  · rintro ⟨-, hoffset, -⟩
    rw [hlba, hstart] at hoffset
    exact absurd hoffset (by decide)

end Rkboot.Dramstage
