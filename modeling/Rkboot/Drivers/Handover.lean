import Rkboot.Drivers.NvmeCompletions
import Rkboot.Drivers.SdhciXfer

/-! # Claiming a transfer object and handing it over

`nvme_reset_xfer` and `dwmmc_start_request` claim an object while other threads change its status;
`nvme_submit_single_command` and `sdhci_start_xfer` give it to the hardware or refuse it. -/
namespace Rkboot.Drivers
open Function

/-! ## Claims among other threads -/

/-- How a claim ends: its result, the status, the value read last, and whether one of its exchanges
has succeeded. -/
structure ClaimEnd (S : Type) where
  res : Iost
  status : S
  lastRead : S
  exchanged : Bool

/-- The loop of `claim` with strong exchanges; `others n` is what other threads store before its
`n`-th access. -/
def claimAmong {S : Type} [DecidableEq S] (submitted creating : S) (others : Nat → Option S) :
    Nat → Nat → S → S → Bool → Except Trap (ClaimEnd S)
  | 0, _, _, _, _ => .error .endless
  | fuel + 1, n, status, expected, exchanged =>
    if expected = submitted then .ok ⟨.transient, status, expected, exchanged⟩
    else
      let status := (others n).getD status
      if status = expected then
        claimAmong submitted creating others fuel (n + 1) creating expected true
      else .ok ⟨.ok, status, status, exchanged⟩

section
variable {S : Type} [DecidableEq S] {submitted creating : S} {others : Nat → Option S}

theorem claimAmong_alone (fuel n : Nat) (status expected : S) (exchanged : Bool) :
    (claimAmong submitted creating (fun _ => none) fuel n status expected exchanged).map
        (fun e => (e.res, e.status)) =
      claim submitted creating (fun _ => false) fuel status expected := by
  induction fuel generalizing n status exchanged with
  | zero => rfl
  | succ fuel ih =>
    rw [claimAmong, claim]
    by_cases hexp : expected = submitted
    · simp [hexp, Except.map]
    · by_cases hstatus : status = expected
      · simp [hexp, hstatus, ih]
      · simp [hexp, hstatus, Except.map]

/-- The result says what was read last, and a claimed object is being created. -/
def ClaimEnd.Right (submitted creating : S) (e : ClaimEnd S) : Prop :=
  (e.res = .transient ↔ e.lastRead = submitted) ∧
    (e.res ≠ .transient → e.res = .ok ∧ e.exchanged = true ∧ e.status = creating)

/-- The claim of an object, from the load on, ends and is right. -/
def ClaimsRight (submitted creating : S) (others : Nat → Option S) (status : S) : Prop :=
  let read := (others 0).getD status
  ∃ fuel e, claimAmong submitted creating others fuel 1 read read false = .ok e ∧
    e.Right submitted creating

/-- Others at most put the value first read back, right before an exchange. -/
def Undisturbed (submitted creating : S) (others : Nat → Option S) (status : S) : Prop :=
  let read := (others 0).getD status
  read = submitted ∨ read ≠ creating ∧ (others 1).getD read = read ∧
    ∃ k, (∀ i, i < k → others (2 + i) = some read) ∧ (others (2 + k)).getD creating = creating

/-- Behind a first exchange the loop ends right where the next value it finds is its own. -/
theorem claimAmong_exchanged {v n} (hv : v ≠ submitted) (hne : creating ≠ submitted) :
    (∃ fuel e, claimAmong submitted creating others fuel n creating v true = .ok e ∧
      e.Right submitted creating) ↔ v ≠ creating ∧ ∃ k, (∀ i < k, others (n + i) = some v) ∧
      (others (n + k)).getD creating = creating := by
  constructor
  · rintro ⟨fuel, e, hrun, hright⟩
    induction fuel generalizing n with
    | zero => cases hrun
    | succ fuel ih =>
      rw [claimAmong, if_neg hv] at hrun
      dsimp only at hrun
      split at hrun
      · rename_i hsame
        obtain ⟨hcre, k, hback, hend⟩ := ih hrun
        have hn : others n = some v := by
          cases ho : others n with
          | none => simp [ho, hcre.symm] at hsame
          | some w => simpa [ho] using hsame
        refine ⟨hcre, k + 1, fun i hi => ?_, by rwa [(by omega : n + (k + 1) = n + 1 + k)]⟩
        cases i with
        | zero => exact hn
        | succ i =>
          rw [(by omega : n + (i + 1) = n + 1 + i)]
          exact hback i (by omega)
      · rename_i hdiff
        cases hrun
        have hown := (hright.2 (by simp)).2.2
        exact ⟨fun h => hdiff (hown.trans h.symm), 0, by simp, hown⟩
  · rintro ⟨hcre, k, hback, hend⟩
    induction k generalizing n with
    | zero =>
      refine ⟨1, ⟨.ok, creating, creating, true⟩, ?_, by simp [ClaimEnd.Right, hne]⟩
      rw [claimAmong, if_neg hv]
      simp_all [hcre.symm]
    | succ k ih =>
      have hn := hback 0 (Nat.succ_pos k)
      obtain ⟨fuel, e, hrun, hright⟩ := ih (n := n + 1)
        (fun i hi => by simpa [add_assoc, add_comm 1] using hback (i + 1) (by omega))
        (by simpa [add_assoc, add_comm 1] using hend)
      refine ⟨fuel + 1, e, ?_, hright⟩
      rw [claimAmong, if_neg hv]
      simpa [show others n = some v from hn] using hrun

theorem claimsRight_iff (hne : creating ≠ submitted) (status : S) :
    ClaimsRight submitted creating others status ↔ Undisturbed submitted creating others status := by
  unfold ClaimsRight Undisturbed
  generalize (others 0).getD status = read
  by_cases hsub : read = submitted
  · refine iff_of_true ⟨1, ⟨.transient, read, read, false⟩, ?_, by simp [ClaimEnd.Right, hsub]⟩ (.inl hsub)
    rw [claimAmong, if_pos hsub]
  by_cases hsame : (others 1).getD read = read
  · have hexchanged := @claimAmong_exchanged S _ submitted creating others read 2 hsub hne
    simp only [hsub, false_or, hsame, true_and, ← hexchanged]
    constructor
    · rintro ⟨_ | fuel, e, hrun, hright⟩
      · cases hrun
      · rw [claimAmong, if_neg hsub, hsame, if_pos rfl] at hrun
        exact ⟨fuel, e, hrun, hright⟩
    · rintro ⟨fuel, e, hrun, hright⟩
      refine ⟨fuel + 1, e, ?_, hright⟩
      rwa [claimAmong, if_neg hsub, hsame, if_pos rfl]
  · refine iff_of_false ?_ (by simp [hsub, hsame])
    rintro ⟨_ | fuel, e, hrun, hright⟩
    · cases hrun
    · -- the first exchange has failed, and the loop ends with it
      rw [claimAmong, if_neg hsub, if_neg hsame] at hrun
      cases hrun
      exact absurd (hright.2 (by simp)).2.1 Bool.false_ne_true

end

/-- For any status at the beginning and any changes by other threads, both claims end and are right
exactly where the object is submitted, or it is not being created and nobody disturbs them. -/
theorem claims_right_iff (nvmeOthers : Nat → Option Nat) (nvmeStatus : Nat)
    (others : Nat → Option XferStatus) (status : XferStatus) :
    (ClaimsRight nvmeSubmitted nvmeCreating nvmeOthers nvmeStatus ↔
      Undisturbed nvmeSubmitted nvmeCreating nvmeOthers nvmeStatus) ∧
    (ClaimsRight .submitted .creating others status ↔ Undisturbed .submitted .creating others status) :=
  ⟨claimsRight_iff (by decide) nvmeStatus, claimsRight_iff (by decide) status⟩

/-- An NVMe transfer that is being created is claimed forever, and a transfer that somebody submits
between the load and the exchange is claimed all the same. -/
theorem claims_endless_and_stolen :
    (∀ fuel, (claimAmong nvmeSubmitted nvmeCreating (fun _ => none) fuel 1 0 0 false).toOption.isNone) ∧
    (claimAmong XferStatus.submitted .creating (fun n => if n = 1 then some .submitted else none) 2 1
      (.ended .ok) (.ended .ok) false).toOption.map (fun e => (e.res, e.status)) =
        some (.ok, .submitted) := by
  refine ⟨fun fuel => ?_, by decide⟩
  have hloop : ∀ n exchanged, (claimAmong nvmeSubmitted nvmeCreating (fun _ => none) fuel n 0 0
      exchanged).toOption = none := by
    induction fuel with
    | zero => exact fun _ _ => rfl
    | succ fuel ih => exact fun n _ => ih (n + 1) true
  rw [hloop]
  rfl

/-! ## Refused submissions -/

def NvmeState.Registered (st : NvmeState) (req : Nat) : Prop := ∃ x, st.slot x = some req

/-- A wait for a submitted request is a wait for the device. -/
def NvmeState.SubmittedRegistered (st : NvmeState) : Prop :=
  ∀ req, (st.req req).status = nvmeSubmitted → st.Registered req

/-- A refused request stays as it was, and nothing has reached the queue. -/
structure NvmeState.Refused (st st' : NvmeState) (sqid req : Nat) : Prop where
  status : (st'.req req).status = nvmeCreating
  unregistered : ¬ st'.Registered req
  tail : (st'.sq sqid).tail = (st.sq sqid).tail
  doorbell : (st'.sq sqid).doorbell = (st.sq sqid).doorbell

/-- `nvme_submit_single_command` gives a request to the device or leaves it usable. -/
def NvmeHandsOver (st : NvmeState) (sqid req : Nat) : Prop :=
  ∀ ok st', nvmeSubmitSingleCommand st sqid req = .ok (ok, st') →
    (ok = false → st.Refused st' sqid req) ∧ (st.SubmittedRegistered → st'.SubmittedRegistered)

/-- `sdhci_start_xfer` makes a transfer the active one or leaves it usable. -/
def SdhciHandsOver (c : Controller) (r : Request) (xfer : SdhciXfer) (bus : Bus) : Prop :=
  ∀ res xfer' bus', sdhciStartXfer c r xfer bus = .ok (res, xfer', bus') →
    (bus.flight ≠ [] → res = .transient → xfer'.status = .creating ∧ bus' = bus) ∧
    (xfer'.status = .submitted → bus' = bus.send r)

theorem NvmeState.SubmittedRegistered.submitted {st : NvmeState} (h : st.SubmittedRegistered)
    {x} (hcmd : (st.sq x.1).cmd.isSome) (hfree : st.slot x = none) (req tail : Nat) :
    (st.submitted x req tail).SubmittedRegistered := by
  intro r hr
  by_cases hreq : r = req
  · exact ⟨x, by rw [slot_submitted hcmd, if_pos rfl, hreq]⟩
  · -- another request keeps the slot it has
    have hstatus : (st.req r).status = nvmeSubmitted := by
      simpa [NvmeState.submitted, setReq, setSlot, setSq, hreq] using hr
    obtain ⟨y, hy⟩ := h r hstatus
    refine ⟨y, ?_⟩
    rw [slot_submitted hcmd, if_neg (by rintro rfl; simp [hfree] at hy), hy]

theorem nvmeHandsOver_iff {st : NvmeState} {sqid req}
    (hcre : (st.req req).status = nvmeCreating) (hfree : ¬ st.Registered req) :
    NvmeHandsOver st sqid req ↔ ¬ st.NoIdFree sqid := by
  constructor
  · intro h hbusy
    have hrun : nvmeSubmitSingleCommand st sqid req =
        .ok (false, st.setReq req { st.req req with status := nvmeSubmitted }) := by
      have hnone : (List.range ((st.sq sqid).maxCid + 1)).find?
          (fun i => (st.slot (sqid, i)).isNone) = none := by
        simpa [List.find?_eq_none, Nat.lt_succ_iff] using hbusy.busy
      rw [nvmeSubmitSingleCommand, if_neg (not_lt.mpr hbusy.queue), if_neg hbusy.room,
        if_neg (by simp [Option.isSome_iff_ne_none.mp hbusy.cmd]), hnone]
    have hstatus := ((h _ _ hrun).1 rfl).status
    simp [NvmeState.setReq, nvmeSubmitted, nvmeCreating] at hstatus
  · intro hbusy ok st' hrun
    obtain ⟨rfl, rfl⟩ | ⟨-, -, h⟩ | ⟨rfl, cid, tail, rfl, -, hcmd, -, hnone⟩ :=
      nvmeSubmitSingleCommand_cases hrun
    · exact ⟨fun _ => ⟨hcre, hfree, rfl, rfl⟩, id⟩
    · exact absurd h hbusy
    · exact ⟨(fun h => nomatch h), fun h => h.submitted hcmd hnone req tail⟩

theorem sdhciHandsOver_iff {c r} {xfer : SdhciXfer} {bus : Bus}
    (hcre : xfer.status = .creating) : SdhciHandsOver c r xfer bus ↔
      ¬ (xfer.descSize ≠ 0 ∧ xfer.xferBytes % 512 = 0 ∧ bus.flight ≠ []) := by
  unfold SdhciHandsOver sdhciStartXfer
  by_cases hsize : xfer.descSize = 0
  · simp [hcre, hsize, bind, Except.bind, pure, Except.pure]
  · by_cases hmod : xfer.xferBytes % 512 = 0
    · by_cases hflight : bus.flight = []
      · simp [hcre, hsize, hmod, hflight, bind, Except.bind, pure, Except.pure]
      · simp [hcre, hsize, hmod, hflight, bind, Except.bind, pure, Except.pure]
    · simp [hcre, hsize, hmod, bind, Except.bind, check]

/-- A request that is being created is handed over or left usable, unless all command IDs are in use
while the queue has room, or another transfer of the SD host controller is active. -/
theorem handsOver_iff {st : NvmeState} {sqid req : Nat} {c : Controller} {r : Request}
    {xfer : SdhciXfer} {bus : Bus} (hreq : (st.req req).status = nvmeCreating)
    (hfree : ¬ st.Registered req) (hxfer : xfer.status = .creating) :
    (NvmeHandsOver st sqid req ↔ ¬ st.NoIdFree sqid) ∧
    (SdhciHandsOver c r xfer bus ↔
      ¬ (xfer.descSize ≠ 0 ∧ xfer.xferBytes % 512 = 0 ∧ bus.flight ≠ [])) :=
  ⟨nvmeHandsOver_iff hreq hfree, sdhciHandsOver_iff hxfer⟩

/-- The first command ID of every queue belongs to the request 1. -/
def busyNvme (maxCid : Nat) : NvmeState where
  numIosq := 0
  sq _ := ⟨0, 3, 0, 0, 2, maxCid, some fun i => if i = 0 then some 1 else none⟩
  cq _ := ⟨0, fun _ => .zero, true, 0, 0⟩
  req _ := ⟨0, 0, 0, nvmeCreating⟩

def oneBlockXfer : SdhciXfer := ⟨.creating, 1, 1, 512, fun _ => ⟨512 <<< 16 ||| descTran, 0⟩⟩

def busWith (flight : List Request) : Bus := ⟨fun _ => 0, flight, flight, 0⟩

def readyController : Controller := ⟨fun _ => .ok, fun _ => .ok, fun _ _ => false⟩

theorem busyNvme_unregistered (maxCid : Nat) : ¬ (busyNvme maxCid).Registered 0 := by
  rintro ⟨x, hx⟩
  by_cases hcid : x.2 = 0 <;> simp [NvmeState.slot, busyNvme, hcid] at hx

theorem handsOver_iff_free : NvmeHandsOver (busyNvme 1) 0 0 ∧
    SdhciHandsOver readyController ⟨0, 0, 512⟩ oneBlockXfer (busWith []) := by
  obtain ⟨hnvme, hsdhci⟩ := @handsOver_iff (busyNvme 1) 0 0 readyController ⟨0, 0, 512⟩ oneBlockXfer
    (busWith []) rfl (busyNvme_unregistered 1) rfl
  exact ⟨hnvme.mpr fun h => h.busy 1 (by decide) rfl, hsdhci.mpr fun h => h.2.2 rfl⟩

/-- Without a free command ID the request is refused as a submitted one; so is a transfer while
another one is active. -/
theorem refused_submitted :
    (nvmeSubmitSingleCommand (busyNvme 0) 0 0).toOption.map (fun p => (p.1, (p.2.req 0).status)) =
      some (false, nvmeSubmitted) ∧
    (sdhciStartXfer readyController ⟨0, 0, 512⟩ oneBlockXfer (busWith [⟨8, 0, 512⟩])).toOption.map
      (fun p => (p.1, p.2.1.status, p.2.2.flight)) = some (.transient, .submitted, [⟨8, 0, 512⟩]) := by
  decide

end Rkboot.Drivers
