import Rkboot.Drivers.Request

/-! # Transfers of the SD host controller

`sdhci_reset_xfer`, `sdhci_add_phys_buffer`, `sdhci_start_xfer` and `sdhci_wait_xfer`, with the
registers of the controller left out. -/
namespace Rkboot.Drivers
open Lib Function Nat List

/-- `struct sdhci_adma2_desc8`. -/
structure Adma2Desc where
  cmd : Nat
  addr : Nat
  deriving DecidableEq, Repr

/-- `struct sdhci_xfer`. -/
structure SdhciXfer where
  status : XferStatus
  descCap : Nat
  descSize : Nat
  xferBytes : Nat
  desc8 : Nat → Adma2Desc

def descTran : Nat := 32
def descEnd : Nat := 2
def descValid : Nat := 1

/-- The compare-exchange is a strong one, and the interrupt handler leaves an object alone that has
ended, so it succeeds. -/
def sdhciResetXfer (xfer : SdhciXfer) : Except Trap (Bool × SdhciXfer) :=
  match xfer.status with
  | .ended _ => .ok (true, { xfer with status := .creating, descSize := 0, xferBytes := 0 })
  | _ => .error .assertion

/-- The loop of `sdhci_add_phys_buffer`; `size` counts the descriptors. -/
def SdhciXfer.addSegments : Nat → SdhciXfer → Nat → Nat → Nat → Except Trap (Bool × SdhciXfer)
  | 0, _, _, _, _ => .error .endless
  | fuel + 1, xfer, size, buf, bufEnd =>
    if bufEnd ≤ buf then .ok (true, { xfer with descSize := size })
    else if xfer.descCap ≤ size then .ok (false, xfer)
    else
      let segSize := if 2 ^ 16 ≤ bufEnd - buf then 0 else bufEnd - buf
      let step := if 2 ^ 16 ≤ bufEnd - buf then 2 ^ 16 else bufEnd - buf
      let cmd := segSize <<< 16 ||| descTran ||| if size ≠ 0 then descValid else 0
      addSegments fuel
        { xfer with desc8 := update xfer.desc8 size ⟨cmd, buf⟩, xferBytes := xfer.xferBytes + step }
        (size + 1) (buf + step) bufEnd

def sdhciAddPhysBuffer (xfer : SdhciXfer) (buf bufEnd : Nat) : Except Trap (Bool × SdhciXfer) := do
  check (xfer.status = .creating)
  check (buf ≤ bufEnd)
  check (bufEnd ≤ 0xffffffff)
  if buf % 4 ≠ 0 ∨ bufEnd % 4 ≠ 0 then return (false, xfer)
  xfer.addSegments (bufEnd - buf + 1) xfer.descSize buf bufEnd

/-- `r` is what the descriptors describe. -/
def sdhciStartXfer (c : Controller) (r : Request) (xfer : SdhciXfer) (bus : Bus) :
    Except Trap (Iost × SdhciXfer × Bus) := do
  check (xfer.status = .creating)
  if xfer.descSize = 0 then return (.invalid, xfer, bus)
  let last := xfer.descSize - 1
  let desc8 := update xfer.desc8 last
    { xfer.desc8 last with cmd := (xfer.desc8 last).cmd ||| descEnd }
  let desc8 := update desc8 0 { desc8 0 with cmd := (desc8 0).cmd ||| descValid }
  let xfer := { xfer with desc8 := desc8, status := .submitted }
  check (xfer.xferBytes % 512 = 0)
  if bus.flight ≠ [] then return (.transient, xfer, bus)
  return (c.command bus.sent.length, xfer, bus.send r)

/-- `sdhci_wait_xfer`, with the interrupt handler where it sleeps. -/
def sdhciWaitXfer (c : Controller) (content : Nat → UInt8) (xfer : SdhciXfer) (bus : Bus) :
    Except Trap (Iost × SdhciXfer × Bus) :=
  match xfer.status with
  | .ended res => .ok (res, xfer, bus)
  | .creating => .error .assertion
  | .submitted =>
    let res := c.completion (bus.sent.length - 1)
    .ok (res, { xfer with status := .ended res }, bus.complete content 512 res)

/-! ## What the calls do -/

section
variable {xfer xfer' : SdhciXfer} {size buf bufEnd : Nat} {ok : Bool}

theorem SdhciXfer.addSegments_status {fuel}
    (h : xfer.addSegments fuel size buf bufEnd = .ok (ok, xfer')) : xfer'.status = xfer.status := by
  induction fuel generalizing xfer size buf with
  | zero => cases h
  | succ fuel ih =>
    rw [addSegments] at h
    split at h
    · cases h
      rfl
    · split at h
      · cases h
        rfl
      · have hst := ih h
        exact hst

/-- Enough descriptors take a buffer of any length. -/
theorem SdhciXfer.addSegments_ok (xfer : SdhciXfer) (size buf bufEnd fuel : Nat) {n}
    (hfuel : n < fuel) (hn : bufEnd - buf ≤ 2 ^ 16 * n) (hcap : size + n ≤ xfer.descCap) : ∃ xfer',
    xfer.addSegments fuel size buf bufEnd = .ok (true, xfer') := by
  induction fuel generalizing xfer size buf n with
  | zero => cases hfuel
  | succ fuel ih =>
    rw [addSegments]
    split
    · exact ⟨_, rfl⟩
    · rename_i hlt
      rw [if_neg (by omega)]
      generalize hstep : (if 2 ^ 16 ≤ bufEnd - buf then 2 ^ 16 else bufEnd - buf) = step
      have hbound : step = bufEnd - buf ∨ step = 2 ^ 16 := by
        split at hstep <;> omega
      refine @ih _ (size + 1) (buf + step) (n - 1) (by omega) (by omega) ?_
      dsimp only
      omega

end

/-! ## The descriptors -/

/-- The bytes of a segment; a length of 0 stands for 64 KiB. -/
def Adma2Desc.addresses (d : Adma2Desc) : List Nat :=
  List.range' d.addr (if d.cmd >>> 16 = 0 then 2 ^ 16 else d.cmd >>> 16)

/-- The controller transfers to the segments of the first `n` descriptors. -/
def adma2Addresses (desc8 : Nat → Adma2Desc) (n : Nat) : List Nat :=
  (List.range n).flatMap fun i => (desc8 i).addresses

/-- The first `n` descriptors stand for the addresses; only the first one is not valid yet. -/
structure SdhciXfer.Covers (xfer : SdhciXfer) (n : Nat) (addrs : List Nat) : Prop where
  addresses : adma2Addresses xfer.desc8 n = addrs
  bytes : xfer.xferBytes = addrs.length
  flags : ∀ i, i < n → (xfer.desc8 i).cmd % 2 ^ 16 = if i = 0 then 32 else 33

section
variable {xfer xfer' : SdhciXfer} {size buf bufEnd : Nat} {addrs : List Nat}

theorem descCmd_eq (seg size : Nat) : seg <<< 16 ||| descTran ||| (if size ≠ 0 then descValid else 0) =
    seg * 2 ^ 16 + if size = 0 then 32 else 33 := by
  by_cases h : size = 0
  · rw [if_neg (not_not.mpr h), if_pos h, or_zero,
      ← shiftLeft_add_eq_or_of_lt (by decide : descTran < 2 ^ 16), shiftLeft_eq]
    rfl
  · rw [if_pos h, if_neg h, Nat.or_assoc,
      ← shiftLeft_add_eq_or_of_lt (by decide : descTran ||| descValid < 2 ^ 16), shiftLeft_eq]
    rfl

/-- A segment of up to 64 KiB is put behind the others. -/
theorem SdhciXfer.Covers.segment (h : xfer.Covers size addrs) {step : Nat} (h0 : 0 < step)
    (h16 : step ≤ 2 ^ 16) : SdhciXfer.Covers { xfer with
      desc8 := update xfer.desc8 size ⟨(if step = 2 ^ 16 then 0 else step) <<< 16 ||| descTran |||
        if size ≠ 0 then descValid else 0, buf⟩
      xferBytes := xfer.xferBytes + step } (size + 1) (addrs ++ List.range' buf step) := by
  have hlow : (if size = 0 then 32 else 33) < 2 ^ 16 := by split <;> decide
  rw [descCmd_eq]
  generalize hseg : (if step = 2 ^ 16 then 0 else step) = seg
  constructor
  · have hlen : (if seg = 0 then 2 ^ 16 else seg) = step := by
      split at hseg <;> split <;> omega
    rw [adma2Addresses, flatMap_range_update, ← adma2Addresses, h.addresses, Adma2Desc.addresses,
      shiftRight_eq_div_pow,
      (by omega : (seg * 2 ^ 16 + if size = 0 then 32 else 33) / 2 ^ 16 = seg), hlen]
  · rw [length_append, length_range', ← h.bytes]
  · intro i hi
    by_cases his : i = size
    · subst his
      simpa using mod_eq_of_lt hlow
    · simpa [his] using h.flags i (by omega)

theorem SdhciXfer.Covers.addSegments {fuel : Nat} (h : xfer.Covers size addrs)
    (hrun : xfer.addSegments fuel size buf bufEnd = .ok (true, xfer')) :
    xfer'.Covers xfer'.descSize (addrs ++ List.range' buf (bufEnd - buf)) := by
  induction fuel generalizing xfer size buf addrs with
  | zero => cases hrun
  | succ fuel ih =>
    rw [SdhciXfer.addSegments] at hrun
    split at hrun
    · rename_i hle
      cases hrun
      rw [Nat.sub_eq_zero_of_le hle]
      exact ⟨by simpa using h.addresses, by simpa using h.bytes, h.flags⟩
    · split at hrun
      · cases hrun
      · rename_i hlt _
        generalize hstep : (if 2 ^ 16 ≤ bufEnd - buf then 2 ^ 16 else bufEnd - buf) = step at hrun
        have hseg : (if 2 ^ 16 ≤ bufEnd - buf then 0 else bufEnd - buf) =
            if step = 2 ^ 16 then 0 else step := by
          split at hstep <;> split <;> split <;> omega
        have hbound : 0 < step ∧ step ≤ 2 ^ 16 ∧ step ≤ bufEnd - buf := by
          split at hstep <;> omega
        rw [hseg] at hrun
        have hcovers := ih (h.segment hbound.1 hbound.2.1) hrun
        rwa [append_assoc, range'_append_1, (by omega : step + (bufEnd - (buf + step)) =
          bufEnd - buf)] at hcovers

end

theorem sdhciAddPhysBuffer_covers {xfer xfer' : SdhciXfer} {buf bufEnd : Nat} {addrs : List Nat}
    (h : xfer.Covers xfer.descSize addrs ∧ xfer.status = .creating)
    (hrun : sdhciAddPhysBuffer xfer buf bufEnd = .ok (true, xfer')) :
    xfer'.Covers xfer'.descSize (addrs ++ List.range' buf (bufEnd - buf)) ∧
      xfer'.status = .creating := by
  obtain ⟨-, -, hrun⟩ := except_bind_eq_ok hrun
  obtain ⟨-, -, hrun⟩ := except_bind_eq_ok hrun
  obtain ⟨-, -, hrun⟩ := except_bind_eq_ok hrun
  split at hrun
  · cases hrun
  · exact ⟨h.1.addSegments hrun, (SdhciXfer.addSegments_status hrun).trans h.2⟩

/-- What `sdhci_start_xfer` adds to the command of a descriptor. -/
def startFlags (size i : Nat) : Nat :=
  (if i = size - 1 then descEnd else 0) ||| if i = 0 then descValid else 0

theorem startFlags_lt (size i : Nat) : startFlags size i < 2 ^ 16 := by
  unfold startFlags
  split <;> split <;> decide

/-- A transfer of blocks is given to the controller with flags at both ends of its descriptors. -/
theorem sdhciStartXfer_run {xfer : SdhciXfer} (hst : xfer.status = .creating) (h0 : xfer.descSize ≠ 0)
    (hmod : xfer.xferBytes % 512 = 0) (c : Controller) (r : Request) (bus : Bus) :
    ∃ res xfer' bus', sdhciStartXfer c r xfer bus = .ok (res, xfer', bus') ∧
      xfer'.descSize = xfer.descSize ∧ xfer'.xferBytes = xfer.xferBytes ∧ ∀ i, xfer'.desc8 i =
        ⟨(xfer.desc8 i).cmd ||| startFlags xfer.descSize i, (xfer.desc8 i).addr⟩ := by
  have hdesc : ∀ (desc8 : Nat → Adma2Desc) (last i : Nat),
      update (update desc8 last { desc8 last with cmd := (desc8 last).cmd ||| descEnd }) 0
        { update desc8 last { desc8 last with cmd := (desc8 last).cmd ||| descEnd } 0 with
          cmd := (update desc8 last { desc8 last with cmd := (desc8 last).cmd ||| descEnd } 0).cmd |||
            descValid } i =
      ⟨(desc8 i).cmd ||| ((if i = last then descEnd else 0) ||| if i = 0 then descValid else 0),
        (desc8 i).addr⟩ := by
    intro desc8 last i
    by_cases hi : i = 0
    · subst hi
      by_cases hl : 0 = last
      · subst hl
        simp [Nat.or_assoc]
      · simp [hl]
    · by_cases hl : i = last
      · subst hl
        simp [hi]
      · simp [hi, hl]
  unfold sdhciStartXfer
  rw [bind_of_ok (check_of hst), if_neg h0, bind_of_ok (check_of hmod)]
  split
  · exact ⟨_, _, _, rfl, rfl, rfl, hdesc _ _⟩
  · exact ⟨_, _, _, rfl, rfl, rfl, hdesc _ _⟩

/-- The descriptors a started transfer has: they stand for the bytes of the buffers, in order and
without an empty segment; all are valid transfers, and the last one, and no other, ends the list. -/
structure Adma2List (desc8 : Nat → Adma2Desc) (n : Nat) (addrs : List Nat) : Prop where
  addresses : adma2Addresses desc8 n = addrs
  nonempty : ∀ i, i < n → (desc8 i).addresses ≠ []
  valid : ∀ i, i < n → (desc8 i).cmd &&& descValid = descValid
  tran : ∀ i, i < n → (desc8 i).cmd &&& descTran = descTran
  ends : ∀ i, i < n → ((desc8 i).cmd &&& descEnd = descEnd ↔ i + 1 = n)

theorem SdhciXfer.Covers.started {xfer : SdhciXfer} {desc8 : Nat → Adma2Desc} {n : Nat}
    {addrs : List Nat} (h : xfer.Covers n addrs)
    (hdesc : ∀ i, desc8 i = ⟨(xfer.desc8 i).cmd ||| startFlags n i, (xfer.desc8 i).addr⟩) :
    Adma2List desc8 n addrs := by
  have haddr : ∀ i, (desc8 i).addresses = (xfer.desc8 i).addresses := by
    intro i
    have hzero : startFlags n i >>> 16 = 0 :=
      (shiftRight_eq_div_pow _ _).trans (div_eq_of_lt (startFlags_lt n i))
    simp only [Adma2Desc.addresses, hdesc, shiftRight_or_distrib, hzero, or_zero]
  have hflags : ∀ i < n, (desc8 i).cmd % 2 ^ 16 = if i + 1 = n then 35 else 33 := by
    intro i hi
    rw [hdesc, or_mod_two_pow, h.flags i hi, mod_eq_of_lt (startFlags_lt n i), startFlags]
    simp only [show i = n - 1 ↔ i + 1 = n by omega]
    split_ifs <;> rfl
  have hand : ∀ i m, m < 2 ^ 16 → (desc8 i).cmd &&& m = (desc8 i).cmd % 2 ^ 16 &&& m := by
    intro i m hm
    nth_rewrite 1 [← mod_eq_of_lt (lt_of_le_of_lt and_le_right hm)]
    rw [and_mod_two_pow, mod_eq_of_lt hm]
  constructor
  · rw [← h.addresses]
    simp only [adma2Addresses, haddr]
  · intro i _
    rw [Adma2Desc.addresses, ne_eq, range'_eq_nil_iff]
    split <;> simp_all
  all_goals
    intro i hi
    rw [hand i _ (by decide), hflags i hi]
    by_cases hl : i + 1 = n
    · simp [hl, descValid, descTran, descEnd]
    · simp [hl, descValid, descTran, descEnd]

/-- After a reset and any successful calls with a positive number of blocks in all, the first
descriptor is not valid; `sdhci_start_xfer` completes the descriptors of the buffers; and a call
fails only for a buffer that is not aligned or with too few descriptors. -/
theorem sdhci_descriptors {xfer₀ xfer₁ xfer₂ : SdhciXfer} {bufs : List (Nat × Nat)}
    (hreset : sdhciResetXfer xfer₀ = .ok (true, xfer₁))
    (hadd : addAll sdhciAddPhysBuffer bufs xfer₁ = .ok (true, xfer₂)) (h0 : 0 < (bufferAddresses bufs).length)
    (hmod : (bufferAddresses bufs).length % 512 = 0) (c : Controller) (r : Request) (bus : Bus) :
    (xfer₂.desc8 0).cmd &&& descValid = 0 ∧
    (∃ res xfer bus', sdhciStartXfer c r xfer₂ bus = .ok (res, xfer, bus') ∧
      Adma2List xfer.desc8 xfer.descSize (bufferAddresses bufs) ∧
      xfer.xferBytes = (bufferAddresses bufs).length) ∧
    ∀ xfer xfer' buf bufEnd, sdhciAddPhysBuffer xfer buf bufEnd = .ok (false, xfer') →
      buf % 4 ≠ 0 ∨ bufEnd % 4 ≠ 0 ∨
        xfer.descCap < xfer.descSize + (bufEnd - buf + 0xffff) / 2 ^ 16 := by
  have hinit : xfer₁.Covers xfer₁.descSize [] ∧ xfer₁.status = .creating := by
    unfold sdhciResetXfer at hreset
    split at hreset
    · cases hreset
      exact ⟨⟨rfl, rfl, fun i hi => absurd hi (Nat.not_lt_zero i)⟩, rfl⟩
    · cases hreset
  obtain ⟨hcovers, hst⟩ := addAll_inv
    (P := fun xfer addrs => xfer.Covers xfer.descSize addrs ∧ xfer.status = .creating)
    sdhciAddPhysBuffer_covers hinit hadd
  rw [nil_append] at hcovers
  have hsize : xfer₂.descSize ≠ 0 := by
    intro hz
    have hnil := hcovers.addresses
    rw [hz] at hnil
    rw [← hnil] at h0
    exact absurd h0 (lt_irrefl 0)
  refine ⟨?_, ?_, ?_⟩
  · have hflags := hcovers.flags 0 (Nat.pos_of_ne_zero hsize)
    rw [if_pos rfl] at hflags
    rw [descValid, and_one_is_mod]
    omega
  · obtain ⟨res, xfer, bus', hrun, hn, hbytes, hdesc⟩ := sdhciStartXfer_run hst hsize
      (by rw [hcovers.bytes, hmod]) c r bus
    exact ⟨res, xfer, bus', hrun, hn ▸ hcovers.started hdesc, hbytes.trans hcovers.bytes⟩
  · intro xfer xfer' buf bufEnd hfail
    by_contra hgood
    obtain ⟨-, -, hfail⟩ := except_bind_eq_ok hfail
    obtain ⟨-, -, hfail⟩ := except_bind_eq_ok hfail
    obtain ⟨-, -, hfail⟩ := except_bind_eq_ok hfail
    rw [if_neg (by omega)] at hfail
    obtain ⟨_, hrun⟩ := xfer.addSegments_ok xfer.descSize buf bufEnd (bufEnd - buf + 1)
      (by omega : (bufEnd - buf + 0xffff) / 2 ^ 16 < bufEnd - buf + 1) (by omega) (by omega)
    rw [hrun] at hfail
    cases hfail

theorem sdhci_descriptors_two : ∃ xfer₂, addAll sdhciAddPhysBuffer [(0x1000, 0x1100), (0x3000, 0x3100)]
      ⟨.creating, 2, 0, 0, fun _ => ⟨35, 0⟩⟩ = .ok (true, xfer₂) ∧
    xfer₂.descSize = 2 ∧ (xfer₂.desc8 0).cmd &&& descValid = 0 := by
  obtain ⟨⟨ok, xfer₂⟩, hadd, hsize⟩ : ∃ p, addAll sdhciAddPhysBuffer [(0x1000, 0x1100), (0x3000, 0x3100)]
      ⟨.creating, 2, 0, 0, fun _ => ⟨35, 0⟩⟩ = .ok p ∧ (p.1, p.2.descSize) = (true, 2) :=
    exists_ok (by decide)
  obtain ⟨rfl, hsize⟩ := Prod.mk.inj hsize
  have hreset : sdhciResetXfer ⟨.ended .ok, 2, 7, 9, fun _ => ⟨35, 0⟩⟩ =
      .ok (true, ⟨.creating, 2, 0, 0, fun _ => ⟨35, 0⟩⟩) := rfl
  exact ⟨xfer₂, hadd, hsize, (sdhci_descriptors hreset hadd (by simp [bufferAddresses])
    (by simp [bufferAddresses]) ⟨fun _ => .ok, fun _ => .ok, fun _ _ => false⟩ ⟨0, 0, 0⟩
    ⟨fun _ => 0, [], [], 0⟩).1⟩

end Rkboot.Drivers
