import Rkboot.Drivers.DwmmcXfer
import Rkboot.Lib.PhaseRing

/-! # NVMe read commands

`nvme_reset_xfer`, `nvme_add_phys_buffer` and `nvme_emit_read`. A physical address is a `u32`. -/
namespace Rkboot.Drivers
open Lib Function

def nvmeCreating : Nat := 0
def nvmeSubmitted : Nat := 2

/-- `struct nvme_xfer` with the status of its request; `prpListPtr` is the pointer `prp_list`,
`prpList` the array behind it. -/
structure NvmeXfer where
  status : Nat
  prpListAddr : Nat
  firstPrpEntry : Nat
  lastPrpEntry : Nat
  prpSize : Nat
  prpCap : Nat
  xferBytes : Nat
  prpListPtr : Nat
  prpList : Nat → Nat

/-- The fields of `struct nvme_cmd` that a read sets; `cmdSpec` is `cmd_spec[0]`. -/
structure NvmeCmd where
  opc : Nat
  fusePsdt : Nat
  nsid : Nat
  dptr0 : Nat
  dptr1 : Nat
  cmdSpec : Nat
  dw12 : Nat
  deriving DecidableEq, Repr

def nvmeResetXfer (spurious : Nat → Bool) (fuel : Nat) (xfer : NvmeXfer) :
    Except Trap (Iost × NvmeXfer) := do
  let (res, status) ← claim nvmeSubmitted nvmeCreating spurious fuel xfer.status xfer.status
  if res ≠ .ok then return (res, { xfer with status := status })
  return (.ok, { xfer with status := status, prpSize := 0, firstPrpEntry := 0, lastPrpEntry := 0 })

def NvmeXfer.putEntry (xfer : NvmeXfer) (idx start : Nat) : NvmeXfer :=
  { xfer with
    prpList := update xfer.prpList idx xfer.lastPrpEntry, prpSize := idx + 3, lastPrpEntry := start }

/-- `prp_cap - 1`, a `size_t`. -/
def prpLimit (cap : Nat) : Nat := if cap = 0 then 2 ^ 64 - 1 else cap - 1

/-- The last entry goes to the list, after a pointer to the next page of the list where one is
needed, and `start` is the last entry; false if the list is full. -/
def NvmeXfer.nextEntry (xfer : NvmeXfer) (start : Nat) : Bool × NvmeXfer :=
  let idx := xfer.prpSize - 2
  if prpLimit xfer.prpCap ≤ idx then (false, xfer)
  else if platIsPageAligned (xfer.prpListPtr + 8 * (idx + 1)) then
    let xfer := { xfer with
      prpList := update xfer.prpList idx (virtToPhys (xfer.prpListPtr + 8 * (idx + 1))) }
    if prpLimit xfer.prpCap ≤ idx + 1 then (false, xfer) else (true, xfer.putEntry (idx + 1) start)
  else (true, xfer.putEntry idx start)

/-- The loop of `nvme_add_phys_buffer`. -/
def NvmeXfer.addPages : Nat → NvmeXfer → Nat → Nat → Except Trap (Bool × NvmeXfer)
  | 0, _, _, _ => .error .endless
  | fuel + 1, xfer, start, stop =>
    match xfer.nextEntry start with
    | (false, xfer) => .ok (false, xfer)
    | (true, xfer) =>
      if stop - start ≤ 4096 then
        .ok (true, { xfer with xferBytes := xfer.xferBytes + (stop - start) })
      else addPages fuel { xfer with xferBytes := xfer.xferBytes + 4096 } (start + 4096) stop

/-- From the second page on. -/
def NvmeXfer.addRest (xfer : NvmeXfer) (start stop : Nat) : Except Trap (Bool × NvmeXfer) := do
  check (start % 4096 = 0)
  if stop ≤ start then return (true, xfer)
  if xfer.prpSize < 2 then
    check (xfer.prpSize = 1)
    let xfer := { xfer with lastPrpEntry := start, prpSize := 2 }
    if stop - start ≤ 4096 then
      return (true, { xfer with xferBytes := xfer.xferBytes + (stop - start) })
    NvmeXfer.addPages (stop - start + 1) { xfer with xferBytes := xfer.xferBytes + 4096 }
      (start + 4096) stop
  else xfer.addPages (stop - start + 1) start stop

def nvmeAddPhysBuffer (xfer : NvmeXfer) (start stop : Nat) : Except Trap (Bool × NvmeXfer) := do
  check (xfer.status = nvmeCreating)
  check (start % 4 = 0 ∧ stop % 4 = 0 ∧ start ≤ stop)
  if xfer.prpSize = 0 then
    let xfer := { xfer with firstPrpEntry := start, prpSize := 1 }
    if stop / 4096 ≤ start / 4096 then return (true, { xfer with xferBytes := stop - start })
    NvmeXfer.addRest { xfer with xferBytes := 4096 - start % 4096 } (start / 4096 * 4096 + 4096) stop
  else
    check (xfer.xferBytes % 4096 = 4096 - xfer.firstPrpEntry % 4096)
    xfer.addRest start stop

/-- The command, or none if the transfer is not a number of blocks. -/
def nvmeEmitRead (lbaShift : Nat) (xfer : NvmeXfer) (nsid lba : Nat) : Option (NvmeCmd × NvmeXfer) :=
  if xfer.xferBytes % 2 ^ lbaShift ≠ 0 then none
  else
    let cmd : NvmeCmd := {
      opc := 2, fusePsdt := 0, nsid := nsid, dptr0 := xfer.firstPrpEntry
      dptr1 := if xfer.prpSize = 2 then xfer.lastPrpEntry
        else if 2 < xfer.prpSize then xfer.prpListAddr else 0
      cmdSpec := lba, dw12 := (xfer.xferBytes / 2 ^ lbaShift + 2 ^ 32 - 1) % 2 ^ 32 }
    some (cmd, if 2 < xfer.prpSize then
      { xfer with prpList := update xfer.prpList (xfer.prpSize - 2) xfer.lastPrpEntry }
    else xfer)

/-! ## The length of a transfer -/

section
variable {xfer xfer' : NvmeXfer} {start stop : Nat}

theorem NvmeXfer.nextEntry_bytes (xfer : NvmeXfer) (start : Nat) :
    (xfer.nextEntry start).2.xferBytes = xfer.xferBytes := by
  rw [nextEntry]
  split
  · rfl
  · split
    · dsimp only
      split <;> rfl
    · rfl

theorem NvmeXfer.addPages_bytes {fuel} (hlt : start < stop)
    (h : xfer.addPages fuel start stop = .ok (true, xfer')) :
    xfer'.xferBytes = xfer.xferBytes + (stop - start) := by
  induction fuel generalizing xfer start with
  | zero => cases h
  | succ fuel ih =>
    have hsame := nextEntry_bytes xfer start
    rw [addPages] at h
    generalize xfer.nextEntry start = next at h hsame
    obtain ⟨_ | _, next⟩ := next
    · cases h
    · dsimp only at h hsame
      split at h
      · cases h
        exact congrArg (· + _) hsame
      · rename_i hmore
        have hbytes := ih (by omega) h
        dsimp only at hbytes
        omega

theorem NvmeXfer.addRest_bytes (h : xfer.addRest start stop = .ok (true, xfer')) :
    xfer'.xferBytes = xfer.xferBytes + (stop - start) := by
  obtain ⟨-, -, h⟩ := except_bind_eq_ok h
  split at h
  · cases h
    omega
  · rename_i hlt
    have hlt : start < stop := Nat.lt_of_not_le hlt
    split at h
    · obtain ⟨-, -, h⟩ := except_bind_eq_ok h
      split at h
      · cases h
        rfl
      · rename_i hmore
        have hbytes := addPages_bytes (by omega) h
        dsimp only at hbytes
        omega
    · exact addPages_bytes hlt h

/-- A transfer that has just been reset gets the length of its buffer. -/
theorem nvmeAddPhysBuffer_bytes (hsize : xfer.prpSize = 0)
    (h : nvmeAddPhysBuffer xfer start stop = .ok (true, xfer')) : xfer'.xferBytes = stop - start := by
  obtain ⟨-, -, h⟩ := except_bind_eq_ok h
  obtain ⟨_, hargs, h⟩ := except_bind_eq_ok h
  rw [if_pos hsize] at h
  split at h
  · cases h
    rfl
  · have hbytes := NvmeXfer.addRest_bytes h
    dsimp only at hbytes
    omega

/-! ## Transfers that fit -/

/-- An entry takes up to two places of the list. -/
theorem NvmeXfer.nextEntry_ok (start : Nat) (hsize : 2 ≤ xfer.prpSize)
    (hcap : xfer.prpSize + 1 < xfer.prpCap) :
    ∃ xfer', xfer.nextEntry start = (true, xfer') ∧ 2 ≤ xfer'.prpSize ∧
      xfer'.prpSize ≤ xfer.prpSize + 2 ∧ xfer'.prpCap = xfer.prpCap := by
  have hlimit : prpLimit xfer.prpCap = xfer.prpCap - 1 := if_neg (by omega)
  rw [nextEntry]
  dsimp only
  rw [if_neg (by omega)]
  split
  · rw [if_neg (by omega)]
    exact ⟨_, rfl, Nat.le_add_left .., by dsimp only [putEntry]; omega, rfl⟩
  · exact ⟨_, rfl, Nat.le_add_left .., by dsimp only [putEntry]; omega, rfl⟩

theorem NvmeXfer.addPages_ok {fuel n} (hfuel : stop - start < fuel) (hn : stop - start ≤ 4096 * n)
    (hsize : 2 ≤ xfer.prpSize) (hcap : xfer.prpSize + 2 * n + 1 < xfer.prpCap) :
    ∃ xfer', xfer.addPages fuel start stop = .ok (true, xfer') := by
  induction fuel generalizing xfer start n with
  | zero => cases hfuel
  | succ fuel ih =>
    obtain ⟨next, hnext, hsize', hle, hcap'⟩ := xfer.nextEntry_ok start hsize (by omega)
    rw [addPages, hnext]
    dsimp only
    split
    · exact ⟨_, rfl⟩
    · rename_i hmore
      exact ih (n := n - 1) (by omega) (by omega) hsize' (by dsimp only; omega)

theorem NvmeXfer.addRest_ok {n} (hsize : xfer.prpSize = 1) (hcap : 2 * n + 3 < xfer.prpCap)
    (hmod : start % 4096 = 0) (hlen : stop - start ≤ 4096 * n) :
    ∃ xfer', xfer.addRest start stop = .ok (true, xfer') := by
  by_cases hdone : stop ≤ start
  · exact ⟨_, (bind_of_ok (check_of hmod) _).trans (if_pos hdone)⟩
  have hlt : xfer.prpSize < 2 := by omega
  by_cases hone : stop - start ≤ 4096
  · exact ⟨_, (bind_of_ok (check_of hmod) _).trans ((if_neg hdone).trans ((if_pos hlt).trans
      ((bind_of_ok (check_of hsize) _).trans (if_pos hone))))⟩
  · obtain ⟨xfer', hpages⟩ : ∃ xfer', NvmeXfer.addPages (stop - start + 1) { xfer with
        lastPrpEntry := start, prpSize := 2, xferBytes := xfer.xferBytes + 4096 }
        (start + 4096) stop = .ok (true, xfer') :=
      addPages_ok (n := n) (by omega) (by omega) le_rfl (by dsimp only; omega)
    exact ⟨xfer', (bind_of_ok (check_of hmod) _).trans ((if_neg hdone).trans ((if_pos hlt).trans
      ((bind_of_ok (check_of hsize) _).trans ((if_neg hone).trans hpages))))⟩

/-- A list of one page is enough for transfers of up to 128 KiB. -/
theorem nvmeAddPhysBuffer_ok (hst : xfer.status = nvmeCreating) (hsize : xfer.prpSize = 0)
    (hcap : xfer.prpCap = 512) (hargs : start % 4 = 0 ∧ stop % 4 = 0 ∧ start ≤ stop)
    (hlen : stop - start ≤ 2 ^ 17) :
    ∃ xfer', nvmeAddPhysBuffer xfer start stop = .ok (true, xfer') := by
  by_cases hpage : stop / 4096 ≤ start / 4096
  · exact ⟨_, (bind_of_ok (check_of hst) _).trans ((bind_of_ok (check_of hargs) _).trans
      ((if_pos hsize).trans (if_pos hpage)))⟩
  · obtain ⟨xfer', hrest⟩ : ∃ xfer', NvmeXfer.addRest { xfer with
        firstPrpEntry := start, prpSize := 1, xferBytes := 4096 - start % 4096 }
        (start / 4096 * 4096 + 4096) stop = .ok (true, xfer') :=
      NvmeXfer.addRest_ok (n := 32) rfl (by dsimp only; omega) (by omega) (by omega)
    exact ⟨xfer', (bind_of_ok (check_of hst) _).trans ((bind_of_ok (check_of hargs) _).trans
      ((if_pos hsize).trans ((if_neg hpage).trans hrest)))⟩

end

/-! ## NVMe queues

`nvme_process_cqe` as the sequence of its accesses to shared memory, `nvme_submit_single_command`, and
a device that completes commands whenever it wants. A ring has `size + 1` slots. -/

/-- `struct nvme_completion`, in the byte order of the CPU. -/
structure NvmeCompletion where
  cmdSpec : Nat
  reserved : Nat
  sqhd : Nat
  sqid : Nat
  cid : Nat
  status : Nat
  deriving DecidableEq, Repr

def NvmeCompletion.zero : NvmeCompletion := ⟨0, 0, 0, 0, 0, 0⟩

/-- The phase tag of an entry. -/
def NvmeCompletion.phase (c : NvmeCompletion) : Bool := c.status.testBit 0

/-- The command that an entry completes. -/
def NvmeCompletion.slot (c : NvmeCompletion) : Nat × Nat := (c.sqid, c.cid)

/-- `struct nvme_req`. -/
structure NvmeReq where
  data0 : Nat
  data1 : Nat
  aux : Nat
  status : Nat

/-- `struct nvme_sq` with the array behind `cmd`, which may be a null pointer. -/
structure NvmeSq where
  doorbell : Nat
  size : Nat
  tail : Nat
  cq : Nat
  head : Nat
  maxCid : Nat
  cmd : Option (Nat → Option Nat)

structure NvmeCq where
  doorbell : Nat
  buf : Nat → NvmeCompletion
  phase : Bool
  size : Nat
  pos : Nat

/-- `struct nvme_state` as far as the queues go, and the requests. -/
structure NvmeState where
  numIosq : Nat
  sq : Nat → NvmeSq
  cq : Nat → NvmeCq
  req : Nat → NvmeReq

namespace NvmeState

def setSq (st : NvmeState) (i : Nat) (sq : NvmeSq) : NvmeState := { st with sq := update st.sq i sq }

def setCq (st : NvmeState) (i : Nat) (cq : NvmeCq) : NvmeState := { st with cq := update st.cq i cq }

def setReq (st : NvmeState) (i : Nat) (req : NvmeReq) : NvmeState :=
  { st with req := update st.req i req }

/-- The request that a command belongs to. -/
def slot (st : NvmeState) (x : Nat × Nat) : Option Nat := (st.sq x.1).cmd.bind fun cmd => cmd x.2

def setSlot (st : NvmeState) (x : Nat × Nat) (v : Option Nat) : NvmeState :=
  let sq := st.sq x.1
  st.setSq x.1 { sq with cmd := sq.cmd.map fun cmd => update cmd x.2 v }

/-- A request has got a command ID, and the tail of its queue moves on. -/
def submitted (st : NvmeState) (x : Nat × Nat) (req tail : Nat) : NvmeState :=
  let st := (st.setReq req { st.req req with status := nvmeSubmitted }).setSlot x (some req)
  st.setSq x.1 { st.sq x.1 with tail := tail, doorbell := tail }

end NvmeState

/-! ## Submission -/

/-- `nvme_submit_single_command`. A command ID is taken with a compare-exchange, the lowest free one
if nobody interferes. -/
def nvmeSubmitSingleCommand (st : NvmeState) (sqid req : Nat) : Except Fault (Bool × NvmeState) :=
  let sq := st.sq sqid
  let next := if sq.tail = sq.size then 0 else sq.tail + 1
  if st.numIosq < sqid then .error .assertion
  else if next = sq.head then .ok (false, st)
  else if sq.cmd.isNone then .error .undefined
  else match (List.range (sq.maxCid + 1)).find? fun i => (st.slot (sqid, i)).isNone with
  | none => .ok (false, st.setReq req { st.req req with status := nvmeSubmitted })
  | some cid => .ok (true, st.submitted (sqid, cid) req next)

/-! ## Completion -/

/-- The local variables of `nvme_process_cqe`; what it has read of the entry is in `cqe`. -/
structure CqeLocals where
  pos : Nat
  phase : Bool
  cqe : NvmeCompletion
  cmd : Nat

/-- The next access of `nvme_process_cqe`. -/
inductive CqePc where
  | entry
  | readSqid (l : CqeLocals)
  | readCid (l : CqeLocals)
  | readData (l : CqeLocals)
  | freeSlot (l : CqeLocals)
  | storeStatus (l : CqeLocals)
  | storeHead (l : CqeLocals)
  | advance (l : CqeLocals)
  | ring (l : CqeLocals)

/-- A step of a call: it goes on, returns, or uses a null pointer. -/
inductive CqeStep where
  | goto (pc : CqePc) (st : NvmeState)
  | ret (res : Iost) (st : NvmeState)
  | fault

def nvmeProcessCqe (st : NvmeState) (cqid : Nat) : CqePc → CqeStep
  | .entry =>
    let cq := st.cq cqid
    let cmdSt := (cq.buf cq.pos).status
    if cmdSt.testBit 0 ≠ cq.phase then .ret .transient st
    else .goto (.readSqid ⟨cq.pos, cq.phase, { NvmeCompletion.zero with status := cmdSt }, 0⟩) st
  | .readSqid l =>
    let sqid := ((st.cq cqid).buf l.pos).sqid
    if st.numIosq < sqid then .ret .globalFault st
    else if (st.sq sqid).cq ≠ cqid then .ret .globalFault st
    else .goto (.readCid { l with cqe := { l.cqe with sqid := sqid } }) st
  | .readCid l =>
    let sq := st.sq l.cqe.sqid
    let cid := ((st.cq cqid).buf l.pos).cid
    if sq.cmd.isNone ∨ sq.maxCid < cid then .ret .globalFault st
    else match st.slot (l.cqe.sqid, cid) with
    | none => .fault
    | some cmd => .goto (.readData { l with cqe := { l.cqe with cid := cid }, cmd := cmd }) st
  | .readData l =>
    let cqe := (st.cq cqid).buf l.pos
    let l := { l with cqe := { l.cqe with
      cmdSpec := cqe.cmdSpec, reserved := cqe.reserved, sqhd := cqe.sqhd } }
    let req := { st.req l.cmd with data0 := cqe.cmdSpec, data1 := cqe.reserved, aux := 0 }
    .goto (.freeSlot l) (st.setReq l.cmd req)
  | .freeSlot l => .goto (.storeStatus l) (st.setSlot l.cqe.slot none)
  | .storeStatus l =>
    let req := { st.req l.cmd with status := l.cqe.status ||| 1 }
    .goto (.storeHead l) (st.setReq l.cmd req)
  | .storeHead l =>
    .goto (.advance l) (st.setSq l.cqe.sqid { st.sq l.cqe.sqid with head := l.cqe.sqhd })
  | .advance l =>
    let cq := st.cq cqid
    if l.pos < cq.size then
      .goto (.ring { l with pos := l.pos + 1 }) (st.setCq cqid { cq with pos := l.pos + 1 })
    else .goto (.ring { l with pos := 0 }) (st.setCq cqid { cq with pos := 0, phase := !l.phase })
  | .ring l => .ret .ok (st.setCq cqid { st.cq cqid with doorbell := l.pos })

/-! ## The system -/

/-- The driver's memory, where the calls for each completion queue are, the device, and what has
happened: the entries written to each queue, those that calls have returned `IOST_OK` for, and the
commands whose slots have been freed on their behalf. -/
structure NvmeSystem where
  st : NvmeState
  pc : Nat → CqePc
  producer : Nat → Nat
  producerPhase : Nat → Bool
  outstanding : Nat × Nat → Bool
  written : Nat → List NvmeCompletion
  accepted : Nat → List NvmeCompletion
  freed : Nat → List (Nat × Nat)

/-- The local variables of a call that has found an entry. -/
def CqePc.locals : CqePc → Option CqeLocals
  | .entry => none
  | .readSqid l | .readCid l | .readData l | .freeSlot l | .storeStatus l | .storeHead l
  | .advance l | .ring l => some l

/-- The freed slots after a call of the queue goes on. -/
def NvmeSystem.freedNext (s : NvmeSystem) (cqid : Nat) : Nat → List (Nat × Nat) :=
  match s.pc cqid with
  | .freeSlot l => update s.freed cqid (s.freed cqid ++ [l.cqe.slot])
  | _ => s.freed

/-- The accepted entries after a call of the queue returns. -/
def NvmeSystem.acceptedNext (s : NvmeSystem) (cqid : Nat) (res : Iost) : Nat → List NvmeCompletion :=
  match res, (s.pc cqid).locals with
  | .ok, some l => update s.accepted cqid (s.accepted cqid ++ [l.cqe])
  | _, _ => s.accepted

inductive NvmeSystem.Step : NvmeSystem → NvmeSystem → Prop where
  /-- A command ID that is free is taken and the command given to the device. -/
  | submit {s : NvmeSystem} {x : Nat × Nat} (req tail : Nat) : x.1 ≤ s.st.numIosq →
      (s.st.sq x.1).cmd.isSome → x.2 ≤ (s.st.sq x.1).maxCid → s.st.slot x = none →
      Step s { s with
        st := s.st.submitted x req tail
        outstanding := update s.outstanding x true }
  /-- The device completes an outstanding command, unless the ring is full by its doorbell. -/
  | complete {s : NvmeSystem} {cqid : Nat} (c : NvmeCompletion) : s.outstanding c.slot →
      (s.st.sq c.sqid).cq = cqid → c.phase = s.producerPhase cqid →
      (s.producer cqid + 1) % ((s.st.cq cqid).size + 1) ≠ (s.st.cq cqid).doorbell →
      Step s { s with
        st := s.st.setCq cqid { s.st.cq cqid with
          buf := update (s.st.cq cqid).buf (s.producer cqid) c }
        producer := update s.producer cqid ((s.producer cqid + 1) % ((s.st.cq cqid).size + 1))
        producerPhase := update s.producerPhase cqid
          (if s.producer cqid < (s.st.cq cqid).size then s.producerPhase cqid
            else !s.producerPhase cqid)
        outstanding := update s.outstanding c.slot false
        written := update s.written cqid (s.written cqid ++ [c]) }
  /-- A call goes on. -/
  | goto {s : NvmeSystem} {cqid : Nat} {pc : CqePc} {st : NvmeState} :
      nvmeProcessCqe s.st cqid (s.pc cqid) = .goto pc st →
      Step s { s with st := st, pc := update s.pc cqid pc, freed := s.freedNext cqid }
  /-- A call returns; another one can begin. -/
  | ret {s : NvmeSystem} {cqid : Nat} {res : Iost} {st : NvmeState} :
      nvmeProcessCqe s.st cqid (s.pc cqid) = .ret res st →
      Step s { s with st := st, pc := update s.pc cqid .entry, accepted := s.acceptedNext cqid res }

/-- Queues as `nvme_init` and `nvme_init_queues` leave them, of any size. -/
structure NvmeSystem.Initial (s : NvmeSystem) : Prop where
  cq : ∀ q, (s.st.cq q).pos = 0 ∧ (s.st.cq q).phase = true ∧ (s.st.cq q).doorbell = 0 ∧
    ∀ i, (s.st.cq q).buf i = .zero
  slot : ∀ x, s.st.slot x = none
  pc : ∀ q, s.pc q = .entry
  device : ∀ q, s.producer q = 0 ∧ s.producerPhase q = true
  outstanding : ∀ x, s.outstanding x = false
  history : ∀ q, s.written q = [] ∧ s.accepted q = [] ∧ s.freed q = []

inductive NvmeSystem.Run : NvmeSystem → Prop where
  | initial {s : NvmeSystem} : s.Initial → Run s
  | step {s s' : NvmeSystem} : Run s → s.Step s' → Run s'

end Rkboot.Drivers
