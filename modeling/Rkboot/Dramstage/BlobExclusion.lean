import Rkboot.Dramstage.BootMonitor
import Rkboot.Dramstage.PayloadReads

/-! # Who may write to the blob buffer

`boot_sd` and `boot_emmc` with the transfers they have in flight. The media share `blob_buffer`: it is
for the one that is cued. -/
namespace Rkboot.Dramstage
open Lib Drivers Function

/-- The target of the request is in `blob_buffer`, in whole or in part. -/
def InBlob (r : Request) : Prop := r.start < blobBuffer.stop ∧ blobBuffer.start < r.stop

instance (r : Request) : Decidable (InBlob r) := inferInstanceAs (Decidable (_ ∧ _))

/-- The media and the monitor, what `boot_blockdev` has returned, and the transfers that have been
started and have not ended. -/
structure BlobSystem where
  sys : System
  result : BootMedium → Option Iost
  flight : BootMedium → List Request

inductive BlobAction where
  | boot (a : BootAction)
  | submit (m : BootMedium) (r : Request)
  | interrupt (m : BootMedium)
  | finish (m : BootMedium) (res : Iost)
  | stop (m : BootMedium)

namespace BlobSystem

def initial : BlobSystem := ⟨System.initial sdAndEmmc, fun _ => none, fun _ => []⟩

/-- `boot_sd` has come to `out`: from `boot_blockdev`, from `shut_down_mshc`, or after
`dwmmc_wait_xfer`. -/
def sdExits (s : BlobSystem) : Prop :=
  match s.sys.media .sd with
  | .booting => match s.result .sd with
    | none | some .ok => False
    | some .globalFault => s.flight .sd = []
    | some _ => True
  | .reported => s.flight .sd = []
  | _ => True

/-- `boot_emmc` has come to one of its calls of `boot_medium_exit`. Behind `boot_blockdev` all of
them follow `sdhci_try_abort` or `shut_down_emmc`. -/
def emmcExits (s : BlobSystem) : Prop :=
  match s.sys.media .emmc with
  | .booting => s.flight .emmc = [] ∧ s.result .emmc ≠ none ∧ s.result .emmc ≠ some .ok
  | .reported => s.flight .emmc = []
  | _ => True

instance (s : BlobSystem) : Decidable s.sdExits := by
  unfold sdExits
  split <;> first | infer_instance | (split <;> infer_instance)

instance (s : BlobSystem) : Decidable s.emmcExits := by
  unfold emmcExits
  split <;> infer_instance

/-- The two threads wait for the cue once, and report what `boot_blockdev` has returned. -/
def Permits (s : BlobSystem) : BootAction → Prop
  | .medium m .wait => s.sys.media m = .init
  | .medium m .loaded => s.result m = some .ok
  | .medium .sd .exit => s.sdExits
  | .medium .emmc .exit => s.emmcExits
  | _ => True

instance (s : BlobSystem) (a : BootAction) : Decidable (s.Permits a) := by
  unfold Permits
  split <;> infer_instance

/-- Where the controller is shut down or its transfer aborted. -/
def Stops (s : BlobSystem) : BootMedium → Prop
  | .sd => s.sys.media .sd = .booting ∧ s.result .sd = some .globalFault
  | .emmc => s.sys.media .emmc = .reported ∨
    s.sys.media .emmc = .booting ∧ s.result .emmc ≠ none ∧ s.result .emmc ≠ some .ok
  | _ => False

instance (s : BlobSystem) (m : BootMedium) : Decidable (s.Stops m) := by
  unfold Stops
  split <;> infer_instance

def step : BlobAction → BlobSystem → Option (Option BootEvent × BlobSystem)
  | .boot a, s =>
    if s.Permits a then (bootStep sdAndEmmc a s.sys).map fun r => (r.1, { s with sys := r.2 })
    else none
  | .submit m r, s =>
    -- The drivers start a transfer when the one before has ended.
    if s.sys.media m = .booting ∧ s.result m = none ∧ s.flight m = [] then
      some (none, { s with flight := update s.flight m [r] })
    else none
  | .interrupt m, s => some (none, { s with flight := update s.flight m [] })
  | .finish m res, s =>
    if s.sys.media m = .booting ∧ s.result m = none then
      some (none, { s with result := update s.result m (some res) })
    else none
  | .stop m, s => if s.Stops m then some (none, { s with flight := update s.flight m [] }) else none

end BlobSystem

/-- Runs all of whose steps are as the condition has them. -/
inductive BlobRun (P : BlobAction → BlobSystem → Prop) : List BootEvent → BlobSystem → Prop where
  | initial : BlobRun P [] .initial
  | step {trace : List BootEvent} {s s' : BlobSystem} {e : Option BootEvent} (a : BlobAction) :
      BlobRun P trace s → P a s → s.step a = some (e, s') → BlobRun P (e.toList ++ trace) s'

/-- The medium is cued and has reported nothing since. -/
def IsCued (s : System) (m : BootMedium) : Prop :=
  s.currentBootCue = .medium m ∧ ¬ Reported s.bootState m .loaded ∧ ¬ Reported s.bootState m .exit

/-- No transfer of another medium than the cued one is on its way to `blob_buffer`. -/
def BlobExclusive (s : BlobSystem) : Prop :=
  ∀ m, IsCued s.sys m → ∀ m', m' ≠ m → ∀ r ∈ s.flight m', ¬ InBlob r

/-- A medium makes its report when none of its transfers is on its way to `blob_buffer`. -/
def QuietReport : BlobAction → BlobSystem → Prop
  | .boot (.medium m .loaded), s | .boot (.medium m .exit), s => ∀ r ∈ s.flight m, ¬ InBlob r
  | _, _ => True

section
variable {P : BlobAction → BlobSystem → Prop} {trace : List BootEvent} {s s' : BlobSystem}

/-- The transfers do not disturb the boot order. -/
theorem BlobRun.bootRun (h : BlobRun P trace s) : BootRun sdAndEmmc trace s.sys := by
  induction h with
  | initial => exact .initial
  | step a _ _ hstep ih =>
    cases a with
    | boot a =>
      obtain ⟨-, hstep⟩ := Option.ite_none_right_eq_some.mp hstep
      obtain ⟨⟨e, sys⟩, hboot, he⟩ := Option.map_eq_some_iff.mp hstep
      cases he
      exact ih.step a hboot
    | interrupt m => cases hstep; exact ih
    | submit m r | finish m res | stop m =>
      obtain ⟨-, hstep⟩ := Option.ite_none_right_eq_some.mp hstep
      cases hstep
      exact ih

/-- While a transfer is on its way to `blob_buffer`, `boot_blockdev` runs or has just returned. -/
def FlightsOwned (s : BlobSystem) : Prop :=
  ∀ m, ∀ r ∈ s.flight m, InBlob r → s.sys.media m = .booting

theorem FlightsOwned.clear (h : FlightsOwned s) (m : BootMedium) :
    FlightsOwned { s with flight := update s.flight m [] } := by
  intro m' r hr
  by_cases hne : m' = m
  · subst hne
    simp at hr
  · exact h m' r (by simpa [hne] using hr)

theorem FlightsOwned.step {a e} (h : FlightsOwned s)
    (hquiet : QuietReport a s) (hstep : s.step a = some (e, s')) : FlightsOwned s' := by
  cases a with
  | boot a =>
    obtain ⟨hpermits, hstep⟩ := Option.ite_none_right_eq_some.mp hstep
    obtain ⟨⟨e, sys⟩, hboot, he⟩ := Option.map_eq_some_iff.mp hstep
    cases he
    intro m r hr hblob
    have hbooting := h m r hr hblob
    rcases bootStep_booting hboot hbooting with hstill | rfl | rfl | rfl
    · exact hstill
    · exact absurd hblob (hquiet r hr)
    · exact absurd hblob (hquiet r hr)
    · exact nomatch hbooting.symm.trans hpermits
  | submit m r =>
    obtain ⟨hguard, hstep⟩ := Option.ite_none_right_eq_some.mp hstep
    cases hstep
    intro m' r' hr'
    by_cases hne : m' = m
    · subst hne
      exact fun _ => hguard.1
    · exact h m' r' (by simpa [hne] using hr')
  | interrupt m => cases hstep; exact h.clear m
  | finish m res =>
    obtain ⟨-, hstep⟩ := Option.ite_none_right_eq_some.mp hstep
    cases hstep
    exact h
  | stop m =>
    obtain ⟨-, hstep⟩ := Option.ite_none_right_eq_some.mp hstep
    cases hstep
    exact h.clear m

theorem BlobRun.flightsOwned (h : BlobRun QuietReport trace s) : FlightsOwned s := by
  induction h with
  | initial => intro m r hr; cases hr
  | step a _ hquiet hstep ih => exact ih.step hquiet hstep

/-- In a run in which every report is made with nothing on its way to `blob_buffer`, the buffer
belongs to the cued medium. -/
theorem blob_exclusive (h : BlobRun QuietReport trace s) : BlobExclusive s := by
  intro m hcued m' hne r hr hblob
  have hactive : (s.sys.media m').Active m' := by
    rw [h.flightsOwned m' r hr hblob]
    exact .inl trivial
  have hcue := h.bootRun.invariant.active m' hactive
  exact hne (BootCue.medium.inj (hcue.symm.trans hcued.1))

end

section

/-- The run of a schedule, if its steps are as the condition has them. -/
def blobExec (P : BlobAction → BlobSystem → Prop) [∀ a s, Decidable (P a s)] :
    List BlobAction → List BootEvent × BlobSystem → Option (List BootEvent × BlobSystem)
  | [], r => some r
  | a :: as, (trace, s) => if P a s then
      (s.step a).bind fun (e, s') => blobExec P as (e.toList ++ trace, s')
    else none

theorem BlobRun.exec {P : BlobAction → BlobSystem → Prop} [∀ a s, Decidable (P a s)] {as r r'}
    (h : BlobRun P r.1 r.2) (hexec : blobExec P as r = some r') : BlobRun P r'.1 r'.2 := by
  induction as generalizing r with
  | nil => cases hexec; exact h
  | cons a as ih =>
    obtain ⟨hP, hexec⟩ := Option.ite_none_right_eq_some.mp hexec
    obtain ⟨⟨e, s'⟩, hstep, hexec⟩ := Option.bind_eq_some_iff.mp hexec
    exact ih (h.step a hP hstep) hexec

instance (a : BlobAction) (s : BlobSystem) : Decidable (QuietReport a s) := by
  unfold QuietReport
  split <;> infer_instance

/-- The first two requests of a payload at block 8192 of an SD card. -/
def firstRequest : Request := ⟨8192, 0x4400000, 0x4480000⟩

def readAhead : Request := ⟨9216, 0x4480000, 0x4500000⟩

/-- SD is cued and reads the first request; the next is on its way. -/
def sdReads : List BlobAction :=
  (.monitor false :: cueMedium .sd).map .boot ++
    [.submit .sd firstRequest, .interrupt .sd, .submit .sd readAhead]

/-- The payload is none, and `boot_sd` exits; eMMC is next. -/
def sdFails : List BlobAction :=
  .finish .sd .invalid ::
    (.medium .sd .exit :: .monitor false :: .monitor false :: cueMedium .emmc).map .boot

/-- The same when the card has been quick. -/
theorem blob_exclusive_quick : ∃ trace s, BlobRun QuietReport trace s ∧ IsCued s.sys .emmc ∧
    BlobExclusive s := by
  have hexec : (blobExec QuietReport (sdReads ++ .interrupt .sd :: sdFails) ([], .initial)).map
      (fun r => (r.2.sys.currentBootCue, r.2.sys.bootState)) = some (.medium .emmc, 0x1123) := by
    decide
  obtain ⟨⟨trace, s⟩, hrun, hres⟩ := Option.map_eq_some_iff.mp hexec
  obtain ⟨hcue, hword⟩ := Prod.mk.inj hres
  have h : BlobRun QuietReport trace s := BlobRun.initial.exec hrun
  refine ⟨trace, s, h, ⟨hcue, ?_⟩, blob_exclusive h⟩
  rw [hword]
  decide

/-- The pump of the SD driver leaves a request in flight, `boot_sd` reports its exit without waiting
for it, and eMMC is cued while the card still writes to the buffer. -/
theorem blob_shared : ∃ b dev trace s,
    (largeCard.rewind 8192 blobBuffer.start blobBuffer.stop).pump
      (Sd.backend healthy firstByte 0) 5 0 1 = .ok (b, dev) ∧
    dev.bus.flight = [readAhead] ∧ BlobRun (fun _ _ => True) trace s ∧ s.flight .sd = dev.bus.flight ∧
    IsCued s.sys .emmc ∧ ¬ BlobExclusive s := by
  obtain ⟨⟨b, dev⟩, hpump, hflight⟩ := exists_ok
    (x := (largeCard.rewind 8192 blobBuffer.start blobBuffer.stop).pump
      (Sd.backend healthy firstByte 0) 5 0 1)
    (f := fun r => r.2.bus.flight) (b := [readAhead]) (by decide +kernel)
  have hexec : (blobExec (fun _ _ => True) (sdReads ++ sdFails) ([], .initial)).map
      (fun r => (r.2.flight .sd, r.2.sys.currentBootCue, r.2.sys.bootState)) =
        some ([readAhead], .medium .emmc, 0x1123) := by decide
  obtain ⟨⟨trace, s⟩, hrun, hres⟩ := Option.map_eq_some_iff.mp hexec
  simp only [Prod.mk.injEq] at hres
  obtain ⟨hsd, hcue, hword⟩ := hres
  have hcued : IsCued s.sys .emmc := ⟨hcue, by rw [hword]; decide⟩
  refine ⟨b, dev, trace, s, hpump, hflight, BlobRun.initial.exec hrun, hsd.trans hflight.symm, hcued, ?_⟩
  intro h
  refine h .emmc hcued .sd (by decide) readAhead ?_ (by decide)
  rw [hsd]
  exact .head _

end
end Rkboot.Dramstage
