import Rkboot.Drivers.Request

/-! # Transfers of the DesignWare MMC controller

`dwmmc_start_request`, `dwmmc_add_phys_buffer`, `dwmmc_start_xfer` and `dwmmc_wait_xfer`. The
controller's registers are not part of the model: a request that `dwmmc_start_xfer` has made the
active one is with the hardware. -/
namespace Rkboot.Drivers
open Lib Function

/-- `struct dwmmc_idmac_desc`. -/
structure IdmacDesc where
  control : Nat
  sizes : Nat
  ptr1 : Nat
  ptr2 : Nat
  deriving DecidableEq, Repr

/-- `struct dwmmc_xfer`; `descPtr` is the pointer `desc`, `desc` the array behind it. -/
structure DwmmcXfer where
  status : XferStatus
  alwaysUseChaining : Bool
  secondBuf : Bool
  blockAddr : Nat
  descCap : Nat
  descSize : Nat
  xferBytes : Nat
  descPtr : Nat
  desc : Nat → IdmacDesc

def desOwn : Nat := 1 <<< 31
def desEndOfRing : Nat := 32
def desChainPtr : Nat := 16
def desFirst : Nat := 8
def desLast : Nat := 4
def desDisableInterrupt : Nat := 2

/-- `plat_virt_to_phys`. -/
def virtToPhys (ptr : Nat) : Nat := if 0xffe00000 ≤ ptr then 0xffffffff else ptr

def platIsPageAligned (ptr : Nat) : Bool := ptr % 4096 = 0

def dwmmcStartRequest (spurious : Nat → Bool) (fuel : Nat) (xfer : DwmmcXfer) (blockAddr : Nat) :
    Except Trap (Iost × DwmmcXfer) := do
  let (res, status) ← claim .submitted .creating spurious fuel xfer.status xfer.status
  if res ≠ .ok then return (res, { xfer with status := status })
  return (.ok, { xfer with
    status := status, blockAddr := blockAddr, descSize := 0, xferBytes := 0, secondBuf := false })

/-- One round of the loop of `dwmmc_add_phys_buffer`. -/
def DwmmcXfer.addDesc (xfer : DwmmcXfer) (start size : Nat) : DwmmcXfer :=
  let idx := xfer.descSize
  let desc := xfer.desc idx
  let flags := desDisableInterrupt ||| if idx ≠ 0 then desOwn else desFirst
  if xfer.secondBuf then
    { xfer with
      desc := update xfer.desc idx
        { desc with control := flags, ptr2 := start, sizes := desc.sizes ||| size <<< 13 }
      descSize := idx + 1, secondBuf := false, xferBytes := xfer.xferBytes + size }
  else if platIsPageAligned (xfer.descPtr + 16 * (idx + 1)) || xfer.alwaysUseChaining then
    { xfer with
      desc := update xfer.desc idx
        ⟨flags ||| desChainPtr, size, start, virtToPhys (xfer.descPtr + 16 * idx)⟩
      descSize := idx + 1, secondBuf := false, xferBytes := xfer.xferBytes + size }
  else
    { xfer with
      desc := update xfer.desc idx { desc with control := flags, sizes := size, ptr1 := start }
      secondBuf := true, xferBytes := xfer.xferBytes + size }

def DwmmcXfer.addBuffers : Nat → DwmmcXfer → Nat → Nat → Except Trap (Bool × DwmmcXfer)
  | 0, _, _, _ => .error .endless
  | fuel + 1, xfer, start, stop =>
    if stop ≤ start then .ok (true, xfer)
    else if xfer.descCap ≤ xfer.descSize then .ok (false, xfer)
    else
      let size := if stop - start < 4096 then stop - start else 4096
      addBuffers fuel (xfer.addDesc start size) (start + size) stop

def dwmmcAddPhysBuffer (xfer : DwmmcXfer) (start stop : Nat) : Except Trap (Bool × DwmmcXfer) := do
  check (xfer.status = .creating)
  if start % 4 ≠ 0 ∨ stop % 4 ≠ 0 then return (false, xfer)
  xfer.addBuffers (stop - start + 1) start stop

/-- The descriptors get their last flags. -/
def DwmmcXfer.closeDescs (xfer : DwmmcXfer) : DwmmcXfer :=
  let last := xfer.descSize + (if xfer.secondBuf then 1 else 0) - 1
  let desc := update xfer.desc last { xfer.desc last with
    control := ((xfer.desc last).control - ((xfer.desc last).control &&& desDisableInterrupt)) |||
      desLast ||| desEndOfRing }
  { xfer with desc := update desc 0 { desc 0 with control := (desc 0).control ||| desOwn } }

/-- `r` is what the descriptors describe. -/
def dwmmcStartXfer (c : Controller) (r : Request) (xfer : DwmmcXfer) (bus : Bus) :
    Except Trap (Iost × DwmmcXfer × Bus) := do
  if xfer.xferBytes = 0 ∨ xfer.descSize = 0 ∧ xfer.secondBuf = false then
    return (.invalid, xfer, bus)
  let xfer := xfer.closeDescs
  check (xfer.status = .creating)
  let xfer := { xfer with status := .submitted }
  check (bus.flight = [])
  check (xfer.xferBytes % 512 = 0)
  return (c.command bus.sent.length, xfer, bus.send r)

/-- `dwmmc_wait_xfer`, with the interrupt handler where it sleeps. -/
def dwmmcWaitXfer (c : Controller) (content : Nat → UInt8) (xfer : DwmmcXfer) (bus : Bus) :
    Except Trap (Iost × DwmmcXfer × Bus) :=
  match xfer.status with
  | .ended res => .ok (res, xfer, bus)
  | .creating => .error .assertion
  | .submitted =>
    let res := c.completion (bus.sent.length - 1)
    .ok (res, { xfer with status := .ended res }, bus.complete content 512 res)

/-! ## What the calls do -/

section
variable {xfer xfer' : DwmmcXfer} {start stop : Nat} {ok : Bool}

/-- A round uses up at most one descriptor, and leaves one begun or complete. -/
theorem DwmmcXfer.addDesc_status (xfer : DwmmcXfer) (start size : Nat) :
    (xfer.addDesc start size).status = xfer.status := by
  rw [addDesc]
  split
  · rfl
  · split <;> rfl

theorem DwmmcXfer.addBuffers_status {fuel} (h : xfer.addBuffers fuel start stop = .ok (ok, xfer')) :
    xfer'.status = xfer.status := by
  induction fuel generalizing xfer start with
  | zero => cases h
  | succ fuel ih =>
    rw [addBuffers] at h
    split at h
    · cases h
      rfl
    · split at h
      · cases h
        rfl
      · exact (ih h).trans (addDesc_status ..)

end
end Rkboot.Drivers
