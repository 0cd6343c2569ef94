import Rkboot.Dramstage.Decompression
import Rkboot.Drivers.SdhciXfer
import Rkboot.Drivers.NvmeQueue

/-! # The block devices of the boot media

`start` and `pump` of the SD, eMMC and NVMe drivers. A pump hands out what has arrived, and has the
next request on its way before it returns. The three pumps are one definition over what waits for a
transfer and what submits one. -/
namespace Rkboot.Dramstage
open Lib Drivers

/-- `struct sd_blockdev`, `struct emmc_blockdev` and `struct nvme_blockdev`; `T` is the transfer
object. -/
structure Blockdev (T : Type) where
  blockSize : Nat
  numBlocks : Nat
  consumePtr : Nat
  endPtr : Nat
  nextEndPtr : Nat
  stopPtr : Nat
  nextLba : Nat
  xfer : T
  bus : Bus

/-- `blob_buffer`. -/
def blobBuffer : AsyncBuf := ⟨0x4400000, 0x8000000⟩

/-- What the drivers differ in: `REQUEST_SIZE`, the range of `next_lba`, the address of `iost_u8`,
and the calls that wait for a transfer and submit one. -/
structure Backend (T : Type) where
  requestSize : Nat
  lbaRange : Nat
  iostU8 : Nat
  wait : T → Bus → Except Trap (Iost × T × Bus)
  submit : Nat → T → Bus → Request → Except Trap (Iost × T × Bus)

section
variable {T : Type} (B : Backend T)

/-- `(struct async_buf) {iost_u8 + res, iost_u8}`. -/
def Backend.errorBuf (res : Iost) : AsyncBuf := ⟨B.iostU8 + res.code, B.iostU8⟩

def Blockdev.waitXfer (dev : Blockdev T) : Except Trap (Iost × Blockdev T) := do
  let (res, xfer, bus) ← B.wait dev.xfer dev.bus
  let dev := { dev with xfer := xfer, bus := bus }
  if res ≠ .ok then return (res, dev)
  return (.ok, { dev with endPtr := dev.nextEndPtr })

/-- `if (dev->end_ptr != dev->next_end_ptr) {.. wait_xfer(dev) ..}`. -/
def Blockdev.catchUp (dev : Blockdev T) : Except Trap (Iost × Blockdev T) :=
  if dev.endPtr ≠ dev.nextEndPtr then dev.waitXfer B else .ok (.ok, dev)

/-- Where the next request ends. -/
def Blockdev.requestEnd (dev : Blockdev T) : Nat :=
  if dev.stopPtr - dev.endPtr > B.requestSize then dev.endPtr + B.requestSize else dev.stopPtr

/-- The next request, up to `dev->next_end_ptr = end`. -/
def Blockdev.submit (fuel : Nat) (dev : Blockdev T) : Except Trap (Iost × Blockdev T) := do
  let stop := dev.requestEnd B
  let (res, xfer, bus) ← B.submit fuel dev.xfer dev.bus ⟨dev.nextLba, dev.endPtr, stop⟩
  let dev := { dev with xfer := xfer, bus := bus }
  if res ≠ .ok then return (res, dev)
  return (.ok, { dev with
    nextLba := (dev.nextLba + B.requestSize / dev.blockSize) % B.lbaRange, nextEndPtr := stop })

def Blockdev.pumpLoop (minSize : Nat) : Nat → Blockdev T → Except Trap (AsyncBuf × Blockdev T)
  | 0, _ => .error .endless
  | fuel + 1, dev => do
    if minSize ≤ dev.endPtr - dev.consumePtr then return (⟨dev.consumePtr, dev.endPtr⟩, dev)
    let (res, dev) ← dev.catchUp B
    if res ≠ .ok then return (B.errorBuf res, dev)
    if dev.stopPtr = dev.endPtr then return (⟨dev.consumePtr, dev.endPtr⟩, dev)
    let (res, dev) ← dev.submit B (fuel + 1)
    if res ≠ .ok then return (B.errorBuf res, dev)
    Blockdev.pumpLoop minSize fuel dev

def Blockdev.pump (fuel : Nat) (dev : Blockdev T) (consume minSize : Nat) :
    Except Trap (AsyncBuf × Blockdev T) := do
  check (consume ≤ dev.endPtr - dev.consumePtr)
  Blockdev.pumpLoop B minSize fuel { dev with consumePtr := dev.consumePtr + consume }

/-- The checks of `start`. -/
def Blockdev.Accepts (dev : Blockdev T) (addr buf bufEnd : Nat) : Prop :=
  buf ≤ bufEnd ∧ (bufEnd - buf) % dev.blockSize = 0 ∧ addr < dev.numBlocks

instance (dev : Blockdev T) (addr buf bufEnd : Nat) : Decidable (dev.Accepts addr buf bufEnd) :=
  inferInstanceAs (Decidable (_ ∧ _ ∧ _))

/-- `next_lba` and the pointers as `start` sets them; `addr` is cast to a `u32` on the way. -/
def Blockdev.rewind (dev : Blockdev T) (addr buf bufEnd : Nat) : Blockdev T :=
  { dev with
    nextLba := addr % 2 ^ 32, consumePtr := buf, endPtr := buf, nextEndPtr := buf, stopPtr := bufEnd }

/-- `start` of the SD and eMMC drivers. -/
def Blockdev.start (dev : Blockdev T) (addr buf bufEnd : Nat) : Except Trap (Iost × Blockdev T) := do
  if ¬ dev.Accepts addr buf bufEnd then return (.invalid, dev)
  let (res, dev) ← dev.waitXfer B
  if res ≠ .ok then return (res, dev)
  return (.ok, dev.rewind addr buf bufEnd)

end

/-! ## SD -/

/-- The part of `pump` that submits a transfer. -/
def Sd.submit (c : Controller) (fuel : Nat) (xfer : DwmmcXfer) (bus : Bus) (r : Request) :
    Except Trap (Iost × DwmmcXfer × Bus) := do
  let (res, xfer) ← dwmmcStartRequest (c.spurious bus.claims) fuel xfer r.lba
  let bus := { bus with claims := bus.claims + 1 }
  if res ≠ .ok then return (res, xfer, bus)
  let (success, xfer) ← dwmmcAddPhysBuffer xfer (virtToPhys r.start) (virtToPhys r.stop)
  check (success = true)
  dwmmcStartXfer c r xfer bus

def Sd.backend (c : Controller) (content : Nat → UInt8) (iostU8 : Nat) : Backend DwmmcXfer where
  requestSize := 1 <<< 19
  lbaRange := 2 ^ 32
  iostU8 := iostU8
  wait := dwmmcWaitXfer c content
  submit := Sd.submit c

/-- `blk.num_blocks` in `parse_cardinfo`, from two words of the CSD. -/
def Sd.numBlocks (csd1 csd2 : Nat) : Nat := (csd1 >>> 16 ||| csd2 <<< 16 &&& 0x3f0000) * 1024 + 1024

/-- The device `boot_sd` starts with, with descriptors at `descPtr`. -/
def Sd.initial (csd1 csd2 descPtr : Nat) (desc : Nat → IdmacDesc) (mem : Nat → UInt8) :
    Blockdev DwmmcXfer where
  blockSize := 512
  numBlocks := Sd.numBlocks csd1 csd2
  consumePtr := 0
  endPtr := 0
  nextEndPtr := 0
  stopPtr := 0
  nextLba := 0
  xfer := {
    status := .ended .ok, alwaysUseChaining := false, secondBuf := false, blockAddr := 0
    descCap := 256, descSize := 0, xferBytes := 0, descPtr := descPtr, desc := desc }
  bus := ⟨mem, [], [], 0⟩

/-! ## eMMC -/

/-- The part of `pump` that submits a transfer. -/
def Emmc.submit (c : Controller) (_fuel : Nat) (xfer : SdhciXfer) (bus : Bus) (r : Request) :
    Except Trap (Iost × SdhciXfer × Bus) := do
  let (success, xfer) ← sdhciResetXfer xfer
  if success = false then return (.invalid, xfer, bus)
  let (success, xfer) ← sdhciAddPhysBuffer xfer (virtToPhys r.start) (virtToPhys r.stop)
  check (success = true)
  sdhciStartXfer c r xfer bus

def Emmc.backend (c : Controller) (content : Nat → UInt8) (iostU8 : Nat) : Backend SdhciXfer where
  requestSize := 2 <<< 20
  lbaRange := 2 ^ 32
  iostU8 := iostU8
  wait := sdhciWaitXfer c content
  submit := Emmc.submit c

/-- `mmc_sector_count`. -/
def mmcSectorCount (b0 b1 b2 b3 : UInt8) : Nat :=
  b0.toNat ||| b1.toNat <<< 8 ||| b2.toNat <<< 16 ||| b3.toNat <<< 24

/-- `blk.block_size` in `parse_cardinfo`, from two bytes of the extended CSD; there is none for a card
that is not booted from. -/
def Emmc.blockSize (rev dataSectorSize : UInt8) : Option Nat :=
  if rev < 2 then none
  else if 6 ≤ rev then
    if dataSectorSize = 1 then some 4096 else if dataSectorSize ≠ 0 then none else some 512
  else some 512

/-- The device `boot_emmc` starts with. -/
def Emmc.initial (blockSize : Nat) (b0 b1 b2 b3 : UInt8) (desc8 : Nat → Adma2Desc) (mem : Nat → UInt8) :
    Blockdev SdhciXfer where
  blockSize := blockSize
  numBlocks := mmcSectorCount b0 b1 b2 b3
  consumePtr := 0
  endPtr := 0
  nextEndPtr := 0
  stopPtr := 0
  nextLba := 0
  xfer := { status := .ended .ok, descCap := 512, descSize := 0, xferBytes := 0, desc8 := desc8 }
  bus := ⟨mem, [], [], 0⟩

/-! ## NVMe -/

/-- What `nvme_submit_single_command` finds. -/
inductive NvmeQueue where
  | free
  | full
  | noCid
  deriving DecidableEq, Repr

/-- The queues and the drive: how every submission goes and the status of every completion; none is
a controller that fails. -/
structure NvmeController where
  queue : Nat → NvmeQueue
  cqe : Nat → Option Nat
  spurious : Nat → Nat → Bool

/-- The transfer object with the namespace it reads and the commands written to the queue so far,
each with the memory of its transfer. -/
structure NvmePort where
  xfer : NvmeXfer
  lbaShift : Nat
  nsid : Nat
  emitted : List (NvmeCmd × Nat × Nat)

/-- `nvme_wait_req`, with the completion where it polls. -/
def nvmeWaitReq (c : NvmeController) (port : NvmePort) (bus : Bus) :
    Except Trap (Iost × NvmePort × Bus) :=
  let status := if port.xfer.status = nvmeSubmitted then (c.cqe (bus.sent.length - 1)).map (· ||| 1)
    else some port.xfer.status
  match status with
  | none => .ok (.globalFault, port, bus)
  | some status =>
    .ok (if status ≤ 1 then .ok else .localFault,
      { port with xfer := { port.xfer with status := status } }, { bus with flight := [] })

/-- The part of `pump` that submits a transfer. -/
def Nvme.submit (c : NvmeController) (fuel : Nat) (port : NvmePort) (bus : Bus) (r : Request) :
    Except Trap (Iost × NvmePort × Bus) := do
  let (res, xfer) ← nvmeResetXfer (c.spurious bus.claims) fuel port.xfer
  let bus := { bus with claims := bus.claims + 1 }
  if res ≠ .ok then return (res, { port with xfer := xfer }, bus)
  let (success, xfer) ← nvmeAddPhysBuffer xfer (virtToPhys r.start) (virtToPhys r.stop)
  check (success = true)
  match nvmeEmitRead port.lbaShift xfer port.nsid r.lba with
  | none => return (.invalid, { port with xfer := xfer }, bus)
  | some (cmd, xfer) =>
    let port := { port with
      xfer := xfer, emitted := (cmd, virtToPhys r.start, virtToPhys r.stop) :: port.emitted }
    let submitted := { port with xfer := { xfer with status := nvmeSubmitted } }
    match c.queue bus.sent.length with
    | .full => return (.transient, port, bus)
    | .noCid => return (.transient, submitted, bus)
    | .free => return (.ok, submitted, bus.send r)

/-- The largest transfer of `boot_nvme`, as a power of two. -/
def nvmeReadShift (mdts mpsmin : Nat) : Nat :=
  if mdts ≠ 0 ∧ mdts + (mpsmin + 12) < 17 then mdts + (mpsmin + 12) else 17

def Nvme.backend (c : NvmeController) (xferShift iostU8 : Nat) : Backend NvmePort where
  requestSize := 1 <<< xferShift
  lbaRange := 2 ^ 64
  iostU8 := iostU8
  wait := nvmeWaitReq c
  submit := Nvme.submit c

/-- `start` of the NVMe driver, which does not wait for the last transfer. -/
def Nvme.start (dev : Blockdev NvmePort) (addr buf bufEnd : Nat) : Iost × Blockdev NvmePort :=
  if dev.Accepts addr buf bufEnd then (.ok, dev.rewind addr buf bufEnd) else (.invalid, dev)

/-- `nvme_blk` before `boot_nvme` has looked for namespaces; `prp_cap` is a page of the list. -/
def Nvme.initial (prpListAddr prpListPtr : Nat) (prpList : Nat → Nat) (mem : Nat → UInt8) :
    Blockdev NvmePort where
  blockSize := 0
  numBlocks := 0
  consumePtr := 0
  endPtr := 0
  nextEndPtr := 0
  stopPtr := 0
  nextLba := 0
  xfer := {
    xfer := {
      status := nvmeCreating, prpListAddr := prpListAddr, firstPrpEntry := 0, lastPrpEntry := 0
      prpSize := 0, prpCap := 512, xferBytes := 0, prpListPtr := prpListPtr, prpList := prpList }
    lbaShift := 0, nsid := 0, emitted := [] }
  bus := ⟨mem, [], [], 0⟩

/-- `boot_nvme` goes on to a namespace. -/
def Nvme.identify (dev : Blockdev NvmePort) (lbaShift numBlocks nsid : Nat) : Blockdev NvmePort :=
  { dev with
    blockSize := 2 ^ lbaShift, numBlocks := numBlocks
    xfer := { dev.xfer with lbaShift := lbaShift, nsid := nsid } }

end Rkboot.Dramstage
