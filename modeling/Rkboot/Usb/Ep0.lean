import Mathlib.Tactic.Common
import Mathlib.Data.Nat.Basic

/-! # The control endpoint of the USB device

`ep0_xfer_complete` takes a control transfer through its phases, `dwc3_dispatch_control_request`
answers the setup packets of the host with the `usbstage_ops` of the loader. What is written to the
controller is a log; the controller completes one transfer block (TRB) after the other. -/
namespace Rkboot.Usb
open Nat

/-! ## Requests -/

/-- `struct usb_setup`, in the byte order of the CPU. -/
structure UsbSetup where
  bRequestType : UInt8
  bRequest : UInt8
  wValue : UInt16
  wIndex : UInt16
  wLength : UInt16
  deriving DecidableEq, Repr

def UsbSetup.header (req : UsbSetup) : Nat :=
  req.bRequestType.toNat <<< 8 ||| req.bRequest.toNat

inductive UsbSpeed where
  | low
  | full
  | high
  | super
  | superPlus
  deriving DecidableEq, Repr

/-- `usb_max_packet_size`. -/
def UsbSpeed.maxPacketSize : UsbSpeed → Nat
  | .low => 8
  | .full => 64
  | .high => 512
  | .super => 1024
  | .superPlus => 1024

/-- `enum dwc3_ep0phase`. -/
inductive Ep0Phase where
  | setup
  | data
  | status2
  | status3
  | disconnected
  deriving DecidableEq, Repr

/-! ## The controller -/

/-- `DWC3_TRB_TYPE_*`, as far as they are used. -/
inductive TrbType where
  | normal
  | controlSetup
  | controlStatus2
  | controlStatus3
  | controlData
  deriving DecidableEq, Repr

/-- The buffers of `struct usbstage_bufs` that a TRB can name. -/
inductive TrbBuffer where
  | none
  | setupPacket
  | desc
  | header
  deriving DecidableEq, Repr

/-- What is written to the controller. -/
inductive Dwc3Write where
  | setStall (ep : Nat)
  | startXfer (ep : Nat) (type : TrbType) (buffer : TrbBuffer) (size : Nat)
  | configureBulk (ep maxPacketSize : Nat)
  | deviceConfig (val : Nat)
  | deviceControl (val : Nat)
  deriving DecidableEq, Repr

/-- The part of `struct dwc3_state` that the control endpoint uses, the descriptor buffer, and the
writes to the controller, the latest first. -/
structure Dwc3State where
  speed : UsbSpeed
  dcfg : Nat
  deviceControl : Nat
  ep0phase : Ep0Phase
  ep0Buf : Nat
  ep0BufAddr : TrbBuffer
  ep0BufSize : Nat
  desc : Nat → UInt8
  writes : List Dwc3Write

/-- A failed assertion, or `die`. -/
inductive Ep0Failure where
  | assertion
  | unexpectedPhase
  deriving DecidableEq, Repr

namespace Dwc3State

def write (st : Dwc3State) (w : Dwc3Write) : Dwc3State := { st with writes := w :: st.writes }

/-- `dwc3_submit_trb`. -/
def submitTrb (st : Dwc3State) (ep : Nat) (type : TrbType) (buffer : TrbBuffer) (size : Nat) :
    Dwc3State :=
  st.write (.startXfer ep type buffer size)

/-! ## The gadget -/

def deviceDesc : List UInt8 :=
  [0x12, 1, 0x00, 0x02, 0x00, 0x00, 0x00, 0x40, 0x07, 0x22, 0x0c, 0x33, 0x00, 0x01, 0x00, 0x00, 0x00,
    1]

def deviceQualifier : List UInt8 := [0x0a, 1, 0x00, 0x02, 0x00, 0x00, 0x00, 0x40, 1, 0]

def confDesc : List UInt8 :=
  [9, 2, 0x20, 0x00, 1, 1, 0, 0x80, 0xc8,
    9, 4, 0, 0, 2, 0xff, 6, 5, 0,
    7, 5, 0x81, 0x02, 0x00, 0x04, 0,
    7, 5, 0x02, 0x02, 0x00, 0x04, 0]

/-- `for_array(i, bytes) {buf[i] = bytes[i];}` -/
def fillDesc (buf : Nat → UInt8) (bytes : List UInt8) (i : Nat) : UInt8 := bytes.getD i (buf i)

/-- `prepare_descriptor`; the result is the buffer, or 0. -/
def prepareDescriptor (st : Dwc3State) (req : UsbSetup) : Nat × Dwc3State :=
  let descriptorType := req.wValue.toNat >>> 8
  let st := { st with ep0BufAddr := .desc }
  let maxPacketSize := st.speed.maxPacketSize
  let low := UInt8.ofNat (maxPacketSize &&& 0xff)
  let high := UInt8.ofNat (maxPacketSize >>> 8)
  if descriptorType = 1 then
    let buf := fillDesc st.desc deviceDesc
    let buf := if maxPacketSize < 64 then Function.update buf 7 low else buf
    (1, { st with desc := buf, ep0BufSize := 0x12 })
  else if descriptorType = 6 then
    (1, { st with desc := fillDesc st.desc deviceQualifier, ep0BufSize := 0x0a })
  else if descriptorType = 2 then
    let buf := fillDesc st.desc confDesc
    let buf := if maxPacketSize < 1024 then
        Function.update (Function.update (Function.update (Function.update buf 22 low) 23 high)
          29 low) 30 high
      else buf
    (1, { st with desc := buf, ep0BufSize := 0x20 })
  else (0, st)

/-- `set_configuration`, which always succeeds if it returns. -/
def setConfiguration (st : Dwc3State) (req : UsbSetup) : Except Ep0Failure Dwc3State :=
  if req.wValue ≠ 1 then .error .assertion
  else if 512 < st.speed.maxPacketSize then .error .assertion
  else .ok ((st.write (.configureBulk 4 st.speed.maxPacketSize)).submitTrb 4 .normal .header 512)

/-! ## Control transfers -/

def ep0Restart (st : Dwc3State) : Dwc3State :=
  { (st.write (.setStall 0)).submitTrb 0 .controlSetup .setupPacket 8 with ep0phase := .setup }

/-- The end of `dwc3_dispatch_control_request` for a request that is accepted. -/
def answer (st : Dwc3State) (req : UsbSetup) (len : Nat) : Except Ep0Failure Dwc3State :=
  if st.ep0phase ≠ .status2 then
    if st.ep0phase ≠ .data then .error .assertion
    else .ok (st.submitTrb (req.header >>> 15) .controlData st.ep0BufAddr len)
  else .ok (st.submitTrb 1 .controlStatus2 .none 0)

def dispatchControlRequest (st : Dwc3State) (req : UsbSetup) : Except Ep0Failure Dwc3State :=
  let len := req.wLength.toNat
  if req.header &&& 0xe0ff = 0x8006 then
    if req.wIndex ≠ 0 then .ok st.ep0Restart
    else
      let (buf, st) := st.prepareDescriptor req
      let st := { st with ep0Buf := buf }
      if buf = 0 then .ok st.ep0Restart
      else
        let len := if st.ep0BufSize < len then st.ep0BufSize else len
        { st with ep0phase := .data }.answer req len
  else if req.header &&& 0xe0ff = 0x0005 then
    if len ≠ 0 ∨ req.wIndex ≠ 0 ∨ 0x7f < req.wValue.toNat then .ok st.ep0Restart
    else
      let dcfg := st.dcfg &&& 0xfffffc07 ||| req.wValue.toNat <<< 3 &&& 0x3f8
      { st.write (.deviceConfig dcfg) with dcfg := dcfg, ep0phase := .status2 }.answer req len
  else if req.header &&& 0xe0ff = 0x0009 then
    if len ≠ 0 ∨ req.wIndex ≠ 0 then .ok st.ep0Restart
    else do
      let st ← st.setConfiguration req
      let val := st.deviceControl ||| 1 <<< 9 ||| 1 <<< 11
      { st.write (.deviceControl val) with
        deviceControl := val, ep0phase := .status2 }.answer req len
  else .ok st.ep0Restart

/-- `ep0_xfer_complete` without its last assertion; `ep` is the endpoint of the event. -/
def ep0Advance (st : Dwc3State) (ep : Nat) (req : UsbSetup) : Except Ep0Failure Dwc3State :=
  match st.ep0phase with
  | .setup => st.dispatchControlRequest req
  | .data =>
    if ep ≠ 1 then .error .assertion
    else .ok ({ st with ep0Buf := 0, ep0phase := .status3 }.submitTrb (1 - ep) .controlStatus3 .none 0)
  | .status2 | .status3 =>
    .ok { st.submitTrb 0 .controlSetup .setupPacket 8 with ep0phase := .setup }
  | .disconnected => .error .unexpectedPhase

def ep0XferComplete (st : Dwc3State) (ep : Nat) (req : UsbSetup) : Except Ep0Failure Dwc3State := do
  let st' ← st.ep0Advance ep req
  if st'.ep0phase = st.ep0phase then .error .assertion else .ok st'

/-! ## Sequences of requests -/

/-- The endpoint of the control TRB that was submitted last. -/
def pendingEp (st : Dwc3State) : Option Nat :=
  st.writes.findSome? fun
    | .startXfer ep _ _ _ => if ep ≤ 1 then some ep else none
    | _ => none

/-- The controller completes it; behind a setup TRB the packet is what the host has sent. -/
def completeNext (st : Dwc3State) (req : UsbSetup) : Except Ep0Failure Dwc3State :=
  match st.pendingEp with
  | none => .ok st
  | some ep => st.ep0XferComplete ep req

/-- What follows a setup packet, until the next one is awaited: `fuel` completions at most. -/
def finishTransfer (req : UsbSetup) : Nat → Dwc3State → Except Ep0Failure Dwc3State
  | 0, st => .ok st
  | fuel + 1, st =>
    if st.ep0phase = .setup then .ok st
    else do finishTransfer req fuel (← st.completeNext req)

/-- One request of the host. -/
def serve (st : Dwc3State) (req : UsbSetup) : Except Ep0Failure Dwc3State := do
  finishTransfer req 2 (← st.completeNext req)

end Dwc3State

/-- The requests that are supported. -/
inductive ControlRequest where
  | getDescriptor
  | setAddress
  | setConfiguration
  deriving DecidableEq, Repr

def UsbSetup.kind (req : UsbSetup) : Option ControlRequest :=
  let descriptorType := req.wValue.toNat >>> 8
  if req.header &&& 0xe0ff = 0x8006 ∧ req.wIndex = 0 ∧
      (descriptorType = 1 ∨ descriptorType = 2 ∨ descriptorType = 6) then some .getDescriptor
  else if req.header &&& 0xe0ff = 0x0005 ∧ req.wLength.toNat = 0 ∧ req.wIndex = 0 ∧
      req.wValue.toNat ≤ 0x7f then some .setAddress
  else if req.header &&& 0xe0ff = 0x0009 ∧ req.wLength.toNat = 0 ∧ req.wIndex = 0 ∧ req.wValue = 1 then
    some .setConfiguration
  else none

/-- What the host sees on the control endpoint. -/
inductive Ep0Event where
  | stall
  | trb (type : TrbType)
  deriving DecidableEq, Repr

def Dwc3Write.ep0Event : Dwc3Write → Option Ep0Event
  | .setStall 0 => some .stall
  | .startXfer 0 type _ _ | .startXfer 1 type _ _ => some (.trb type)
  | _ => none

/-- The events of a request, in the order in which they happen. -/
def UsbSetup.expected (req : UsbSetup) : List Ep0Event :=
  match req.kind with
  | none => [.stall, .trb .controlSetup]
  | some .getDescriptor => [.trb .controlData, .trb .controlStatus3, .trb .controlSetup]
  | some _ => [.trb .controlStatus2, .trb .controlSetup]

/-- The next setup packet is awaited. -/
structure Dwc3State.Ready (st : Dwc3State) : Prop where
  phase : st.ep0phase = .setup
  pending : st.pendingEp = some 0

/-- The request has been answered as it should be, and the next one is awaited. -/
structure Answered (req : UsbSetup) (st st' : Dwc3State) : Prop where
  ready : st'.Ready
  events : st'.writes.filterMap Dwc3Write.ep0Event =
    req.expected.reverse ++ st.writes.filterMap Dwc3Write.ep0Event

/-- Every request of the sequence is answered. -/
def Survives : Dwc3State → List UsbSetup → Prop
  | _, [] => True
  | st, req :: reqs => ∃ st', st.serve req = .ok st' ∧ Answered req st st' ∧ Survives st' reqs

/-- A supported request; the header of the bulk endpoint has room for 512 bytes. -/
def UsbSetup.Handled (speed : UsbSpeed) (req : UsbSetup) : Prop :=
  req.kind ≠ none ∧ (req.kind = some .setConfiguration → speed.maxPacketSize ≤ 512)

instance (speed : UsbSpeed) (req : UsbSetup) : Decidable (req.Handled speed) :=
  inferInstanceAs (Decidable (_ ∧ _))

/-! ## One request -/

namespace Dwc3State
variable {st st' : Dwc3State} {req : UsbSetup}

theorem prepareDescriptor_buf (st : Dwc3State) (req : UsbSetup) :
    (st.prepareDescriptor req).1 ≠ 0 ↔ req.wValue.toNat >>> 8 = 1 ∨ req.wValue.toNat >>> 8 = 2 ∨
      req.wValue.toNat >>> 8 = 6 := by
  unfold prepareDescriptor
  dsimp only
  split
  · simp_all
  split
  · simp_all
  split
  · simp_all
  · simp_all

theorem prepareDescriptor_same (st : Dwc3State) (req : UsbSetup) :
    (st.prepareDescriptor req).2.writes = st.writes ∧ (st.prepareDescriptor req).2.speed = st.speed := by
  unfold prepareDescriptor
  dsimp only
  split
  · exact ⟨rfl, rfl⟩
  split
  · exact ⟨rfl, rfl⟩
  split
  · exact ⟨rfl, rfl⟩
  · exact ⟨rfl, rfl⟩

/-- A device-to-host request goes on with the endpoint for that direction. -/
theorem header_direction (h : req.header &&& 0xe0ff = 0x8006) : req.header >>> 15 = 1 := by
  have hlt : req.header < 2 ^ 16 := by
    refine or_lt_two_pow ?_ (lt_trans req.bRequest.toNat_lt (by decide))
    have := req.bRequestType.toNat_lt
    omega
  have hbit : req.header.testBit 15 = true := by
    have hand : (req.header &&& 0xe0ff).testBit 15 = true := by rw [h]; decide
    exact (Bool.and_eq_true_iff.mp ((testBit_and ..).symm.trans hand)).1
  have hge : 2 ^ 15 ≤ req.header := ge_two_pow_of_testBit hbit
  omega

/-- A control TRB of the given type has been submitted, and the endpoint is in the given phase. -/
structure Submitted (st st' : Dwc3State) (ep : Nat) (phase : Ep0Phase) (type : TrbType) : Prop where
  phase : st'.ep0phase = phase
  pending : st'.pendingEp = some ep
  events : st'.writes.filterMap Dwc3Write.ep0Event =
    .trb type :: st.writes.filterMap Dwc3Write.ep0Event
  speed : st'.speed = st.speed

theorem kind_cases (req : UsbSetup) :
    (req.kind = some .getDescriptor ∧ req.header &&& 0xe0ff = 0x8006 ∧ req.wIndex = 0 ∧
      (req.wValue.toNat >>> 8 = 1 ∨ req.wValue.toNat >>> 8 = 2 ∨ req.wValue.toNat >>> 8 = 6)) ∨
    (req.kind = some .setAddress ∧ req.header &&& 0xe0ff = 0x0005 ∧ req.wLength.toNat = 0 ∧
      req.wIndex = 0 ∧ req.wValue.toNat ≤ 0x7f) ∨
    (req.kind = some .setConfiguration ∧ req.header &&& 0xe0ff = 0x0009 ∧ req.wLength.toNat = 0 ∧
      req.wIndex = 0 ∧ req.wValue = 1) ∨ req.kind = none := by
  unfold UsbSetup.kind
  dsimp only
  split
  · exact .inl ⟨rfl, ‹_›⟩
  split
  · exact .inr (.inl ⟨rfl, ‹_›⟩)
  split
  · exact .inr (.inr (.inl ⟨rfl, ‹_›⟩))
  · exact .inr (.inr (.inr rfl))

theorem dispatch_getDescriptor (st : Dwc3State) (hheader : req.header &&& 0xe0ff = 0x8006)
    (hindex : req.wIndex = 0)
    (htype : req.wValue.toNat >>> 8 = 1 ∨ req.wValue.toNat >>> 8 = 2 ∨ req.wValue.toNat >>> 8 = 6) :
    ∃ st', st.dispatchControlRequest req = .ok st' ∧ Submitted st st' 1 .data .controlData := by
  have hbuf := (prepareDescriptor_buf st req).mpr htype
  obtain ⟨hwrites, hspeed⟩ := prepareDescriptor_same st req
  unfold dispatchControlRequest
  simp only [hheader, hindex, hbuf, ne_eq, not_true_eq_false, if_true, if_false, answer,
    header_direction hheader, reduceCtorEq, not_false_eq_true]
  refine ⟨_, rfl, rfl, rfl, ?_, hspeed⟩
  simp [submitTrb, write, hwrites, Dwc3Write.ep0Event]

theorem dispatch_setAddress (st : Dwc3State) (hheader : req.header &&& 0xe0ff = 0x0005)
    (hlength : req.wLength.toNat = 0) (hindex : req.wIndex = 0) (hvalue : req.wValue.toNat ≤ 0x7f) :
    ∃ st', st.dispatchControlRequest req = .ok st' ∧
      Submitted st st' 1 .status2 .controlStatus2 := by
  unfold dispatchControlRequest
  simp only [hheader, hlength, hindex, not_lt.mpr hvalue, ne_eq, not_true_eq_false, or_self,
    if_true, if_false, answer, Nat.reduceEqDiff]
  exact ⟨_, rfl, rfl, rfl, rfl, rfl⟩

theorem dispatch_setConfiguration (hheader : req.header &&& 0xe0ff = 0x0009)
    (hlength : req.wLength.toNat = 0) (hindex : req.wIndex = 0) (hvalue : req.wValue = 1)
    (hsize : st.speed.maxPacketSize ≤ 512) : ∃ st', st.dispatchControlRequest req = .ok st' ∧
      Submitted st st' 1 .status2 .controlStatus2 := by
  unfold dispatchControlRequest setConfiguration
  simp only [hheader, hlength, hindex, hvalue, not_lt.mpr hsize, ne_eq, not_true_eq_false, or_self,
    if_true, if_false, answer, Nat.reduceEqDiff]
  exact ⟨_, rfl, rfl, rfl, rfl, rfl⟩

/-- Any other request ends in a failed assertion, or in the phase in which it came. -/
theorem dispatch_unhandled (hreq : ¬ req.Handled st.speed) :
    st.dispatchControlRequest req = .error .assertion ∨
      ∃ st', st.dispatchControlRequest req = .ok st' ∧ st'.ep0phase = .setup := by
  unfold dispatchControlRequest
  dsimp only
  split
  · rename_i hheader
    split
    · exact .inr ⟨_, rfl, rfl⟩
    · rename_i hindex
      split
      · exact .inr ⟨_, rfl, rfl⟩
      · rename_i hbuf
        have htype := (prepareDescriptor_buf st req).mp hbuf
        refine absurd ⟨?_, ?_⟩ hreq
        all_goals simp [UsbSetup.kind, hheader, not_not.mp hindex, htype]
  split
  · rename_i hheader
    split
    · exact .inr ⟨_, rfl, rfl⟩
    · rename_i hargs
      simp only [not_or, not_not, not_lt] at hargs
      refine absurd ⟨?_, ?_⟩ hreq
      all_goals simp [UsbSetup.kind, hheader, hargs]
  split
  · rename_i hheader
    split
    · exact .inr ⟨_, rfl, rfl⟩
    · rename_i hargs
      simp only [not_or, not_not] at hargs
      unfold setConfiguration
      split
      · exact .inl rfl
      · rename_i hvalue
        split
        · exact .inl rfl
        · rename_i hsize
          refine absurd ⟨?_, ?_⟩ hreq
          · simp [UsbSetup.kind, hheader, hargs, not_not.mp hvalue]
          · exact fun _ => not_lt.mp hsize
  · exact .inr ⟨_, rfl, rfl⟩

theorem completeNext_eq {ep} (hpending : st.pendingEp = some ep) (req : UsbSetup) :
    st.completeNext req = (st.ep0Advance ep req).bind fun st' =>
      if st'.ep0phase = st.ep0phase then .error .assertion else .ok st' := by
  unfold completeNext
  rw [hpending]
  rfl

/-- A status phase ends, and the next setup packet is awaited. -/
theorem completeNext_status {ep} (hpending : st.pendingEp = some ep)
    (hphase : st.ep0phase = .status2 ∨ st.ep0phase = .status3) (req : UsbSetup) :
    ∃ st', st.completeNext req = .ok st' ∧ Submitted st st' 0 .setup .controlSetup := by
  rw [completeNext_eq hpending, ep0Advance]
  rcases hphase with hphase | hphase <;> rw [hphase] <;> exact ⟨_, rfl, rfl, rfl, rfl, rfl⟩

/-- The data phase ends, and the status phase begins. -/
theorem completeNext_data (hpending : st.pendingEp = some 1) (hphase : st.ep0phase = .data)
    (req : UsbSetup) :
    ∃ st', st.completeNext req = .ok st' ∧ Submitted st st' 0 .status3 .controlStatus3 := by
  rw [completeNext_eq hpending, ep0Advance, hphase]
  exact ⟨_, rfl, rfl, rfl, rfl, rfl⟩

/-- A setup packet has come. -/
theorem completeNext_setup (hready : st.Ready) (h : st.dispatchControlRequest req = .ok st')
    (hphase : st'.ep0phase ≠ .setup) : st.completeNext req = .ok st' := by
  rw [completeNext_eq hready.pending, ep0Advance, hready.phase]
  rw [h]
  dsimp only [Except.bind]
  rw [if_neg hphase]

theorem completeNext_unhandled (hready : st.Ready) (hreq : ¬ req.Handled st.speed) :
    st.completeNext req = .error .assertion := by
  rw [completeNext_eq hready.pending, ep0Advance, hready.phase]
  rcases dispatch_unhandled hreq with h | ⟨st', h, hphase⟩
  · rw [h]
    rfl
  · rw [h]
    exact if_pos hphase

theorem finishTransfer_ready {fuel} (hphase : st.ep0phase = .setup) :
    finishTransfer req fuel st = .ok st := by
  cases fuel with
  | zero => rfl
  | succ fuel => exact if_pos hphase

theorem finishTransfer_step {fuel} (hphase : st.ep0phase ≠ .setup)
    (h : st.completeNext req = .ok st') :
    finishTransfer req (fuel + 1) st = finishTransfer req fuel st' := by
  rw [finishTransfer, if_neg hphase, h]
  rfl

/-- A request without data. -/
theorem serve_status2 (hready : st.Ready) (h : st.dispatchControlRequest req = .ok st')
    (hst' : Submitted st st' 1 .status2 .controlStatus2) :
    ∃ st'', st.serve req = .ok st'' ∧ st''.Ready ∧ st''.speed = st.speed ∧
      st''.writes.filterMap Dwc3Write.ep0Event =
        [.trb .controlSetup, .trb .controlStatus2] ++ st.writes.filterMap Dwc3Write.ep0Event := by
  obtain ⟨st'', hstatus, hst''⟩ := completeNext_status hst'.pending (.inl hst'.phase) req
  refine ⟨st'', ?_, ⟨hst''.phase, hst''.pending⟩, hst''.speed.trans hst'.speed, ?_⟩
  · have hphase : st'.ep0phase ≠ .setup := by rw [hst'.phase]; nofun
    rw [serve, completeNext_setup hready h hphase]
    exact (finishTransfer_step hphase hstatus).trans (finishTransfer_ready hst''.phase)
  · rw [hst''.events, hst'.events]
    rfl

/-- A request for data. -/
theorem serve_data (hready : st.Ready) (h : st.dispatchControlRequest req = .ok st')
    (hst' : Submitted st st' 1 .data .controlData) :
    ∃ st'', st.serve req = .ok st'' ∧ st''.Ready ∧ st''.speed = st.speed ∧
      st''.writes.filterMap Dwc3Write.ep0Event =
        [.trb .controlSetup, .trb .controlStatus3, .trb .controlData] ++
          st.writes.filterMap Dwc3Write.ep0Event := by
  obtain ⟨st₁, hdata, hst₁⟩ := completeNext_data hst'.pending hst'.phase req
  obtain ⟨st₂, hstatus, hst₂⟩ := completeNext_status hst₁.pending (.inr hst₁.phase) req
  refine ⟨st₂, ?_, ⟨hst₂.phase, hst₂.pending⟩, hst₂.speed.trans (hst₁.speed.trans hst'.speed), ?_⟩
  · have hphase : st'.ep0phase ≠ .setup := by rw [hst'.phase]; nofun
    have hphase₁ : st₁.ep0phase ≠ .setup := by rw [hst₁.phase]; nofun
    rw [serve, completeNext_setup hready h hphase]
    exact (finishTransfer_step hphase hdata).trans (finishTransfer_step hphase₁ hstatus)
  · rw [hst₂.events, hst₁.events, hst'.events]
    rfl

theorem serve_handled (hready : st.Ready) (hreq : req.Handled st.speed) :
    ∃ st', st.serve req = .ok st' ∧ Answered req st st' ∧ st'.speed = st.speed := by
  rcases kind_cases req with ⟨hkind, hheader, hindex, htype⟩ |
    ⟨hkind, hheader, hlength, hindex, hvalue⟩ | ⟨hkind, hheader, hlength, hindex, hvalue⟩ | hkind
  · obtain ⟨st', hdispatch, hst'⟩ := dispatch_getDescriptor st hheader hindex htype
    obtain ⟨st'', hserve, hready', hspeed, hevents⟩ := serve_data hready hdispatch hst'
    refine ⟨st'', hserve, ⟨hready', ?_⟩, hspeed⟩
    rw [hevents, UsbSetup.expected, hkind]
    rfl
  · obtain ⟨st', hdispatch, hst'⟩ := dispatch_setAddress st hheader hlength hindex hvalue
    obtain ⟨st'', hserve, hready', hspeed, hevents⟩ := serve_status2 hready hdispatch hst'
    refine ⟨st'', hserve, ⟨hready', ?_⟩, hspeed⟩
    rw [hevents, UsbSetup.expected, hkind]
    rfl
  · obtain ⟨st', hdispatch, hst'⟩ :=
      dispatch_setConfiguration hheader hlength hindex hvalue (hreq.2 hkind)
    obtain ⟨st'', hserve, hready', hspeed, hevents⟩ := serve_status2 hready hdispatch hst'
    refine ⟨st'', hserve, ⟨hready', ?_⟩, hspeed⟩
    rw [hevents, UsbSetup.expected, hkind]
    rfl
  · exact absurd hkind hreq.1

theorem serve_unhandled (hready : st.Ready) (hreq : ¬ req.Handled st.speed) :
    st.serve req = .error .assertion := by
  rw [serve, completeNext_unhandled hready hreq]
  rfl

end Dwc3State

/-! ## Every sequence -/

/-- The control endpoint survives exactly the sequences of requests that it handles. -/
theorem ep0_survives_iff {st : Dwc3State} (hready : st.Ready) (reqs : List UsbSetup) :
    Survives st reqs ↔ ∀ req ∈ reqs, req.Handled st.speed := by
  induction reqs generalizing st with
  | nil => exact iff_of_true trivial nofun
  | cons req reqs ih =>
    constructor
    · rintro ⟨st', hserve, hanswered, hrest⟩
      have hreq : req.Handled st.speed := by
        by_contra hreq
        rw [Dwc3State.serve_unhandled hready hreq] at hserve
        cases hserve
      obtain ⟨st'', hserve', -, hspeed⟩ := Dwc3State.serve_handled hready hreq
      obtain rfl : st' = st'' := Except.ok.inj (hserve.symm.trans hserve')
      intro r hr
      rcases List.mem_cons.mp hr with rfl | hr
      · exact hreq
      · exact hspeed ▸ (ih hanswered.ready).mp hrest r hr
    · intro h
      obtain ⟨st', hserve, hanswered, hspeed⟩ :=
        Dwc3State.serve_handled hready (h req (List.mem_cons_self ..))
      refine ⟨st', hserve, hanswered, (ih hanswered.ready).mpr ?_⟩
      intro r hr
      exact hspeed.symm ▸ h r (List.mem_cons_of_mem _ hr)

/-- The loader behind a USB reset, connected at high speed. -/
def loaderStart : Dwc3State where
  speed := .high
  dcfg := 0
  deviceControl := 0
  ep0phase := .setup
  ep0Buf := 0
  ep0BufAddr := .none
  ep0BufSize := 0
  desc := fun _ => 0
  writes := [.startXfer 0 .controlSetup .setupPacket 8]

/-- A host asks for the device descriptor, assigns an address and sets the configuration. -/
def enumeration : List UsbSetup :=
  [⟨0x80, 6, 0x0100, 0, 64⟩, ⟨0, 5, 17, 0, 0⟩, ⟨0x80, 6, 0x0200, 0, 255⟩, ⟨0, 9, 1, 0, 0⟩]

theorem ep0_survives_enumeration : loaderStart.Ready ∧ Survives loaderStart enumeration := by
  have hready : loaderStart.Ready := ⟨rfl, rfl⟩
  exact ⟨hready, (ep0_survives_iff hready enumeration).mpr (by decide)⟩

/-- A request for a string descriptor is answered with a stall and a new setup TRB, and then the last
assertion of `ep0_xfer_complete` fails; so does that of `set_configuration` for configuration 0. -/
theorem ep0_fails : loaderStart.Ready ∧
    ¬ Survives loaderStart [⟨0x80, 6, 0x0300, 0, 255⟩] ∧
    (loaderStart.ep0Advance 0 ⟨0x80, 6, 0x0300, 0, 255⟩).map (·.writes) =
      .ok [.startXfer 0 .controlSetup .setupPacket 8, .setStall 0,
        .startXfer 0 .controlSetup .setupPacket 8] ∧
    loaderStart.ep0XferComplete 0 ⟨0x80, 6, 0x0300, 0, 255⟩ = .error .assertion ∧
    loaderStart.ep0XferComplete 0 ⟨0, 9, 0, 0, 0⟩ = .error .assertion := by
  refine ⟨⟨rfl, rfl⟩, ?_, rfl, rfl, rfl⟩
  rintro ⟨st', hserve, -⟩
  cases hserve

end Rkboot.Usb
