import Mathlib.Data.Nat.Bitwise

/-! # Choosing the boot medium

`boot_monitor` and one thread per configured boot medium, stepping on `boot_state` and
`current_boot_cue`. A call of `sched_finish_u32` may return at any time: the loops around it load
the variable again. -/
namespace Rkboot.Dramstage
open Function List

/-- `enum boot_medium`. -/
inductive BootMedium where
  | sd
  | emmc
  | nvme
  | spi
  deriving DecidableEq, Repr

/-- What a medium reports in `boot_state`. -/
inductive Flag where
  | exit
  | ready
  | loaded
  deriving DecidableEq, Repr

/-- The values of `current_boot_cue`. -/
inductive BootCue where
  | none
  | medium (m : BootMedium)
  | exit
  deriving DecidableEq, Repr

namespace BootMedium
variable {m m' : BootMedium}

def all : List BootMedium := [.sd, .emmc, .nvme, .spi]

def index : BootMedium → Nat
  | .sd => 0
  | .emmc => 1
  | .nvme => 2
  | .spi => 3

/-- `1 << 4*medium`, `2 << 4*medium` and `4 << 4*medium`. -/
def bit (m : BootMedium) : Flag → Nat
  | .exit => 1 <<< (4 * m.index)
  | .ready => 2 <<< (4 * m.index)
  | .loaded => 4 <<< (4 * m.index)

theorem index_injective : Injective index := by
  intro m m' h
  cases m <;> cases m' <;> first | rfl | cases h

theorem eq_of_between (hle : m.index ≤ m'.index) (hlt : m'.index < m.index + 1) : m' = m :=
  index_injective ((Nat.le_of_lt_succ hlt).antisymm hle)

theorem index_lt (m : BootMedium) : m.index < 4 := by
  cases m <;> decide

theorem all_get {i} (h : all[i]? = some m) : m.index = i := by
  match i, h with
  | 0, h | 1, h | 2, h | 3, h => cases h; rfl

theorem bit_and_bit (m m' : BootMedium) (f f' : Flag) :
    m.bit f &&& m'.bit f' ≠ 0 ↔ m = m' ∧ f = f' := by
  cases m <;> cases m' <;> cases f <;> cases f' <;> decide

end BootMedium

/-- The value of `available_boot_media`. -/
def availableBootMedia (configured : BootMedium → Bool) : Nat :=
  BootMedium.all.foldl (fun w m => if configured m then w ||| m.bit .exit else w) 0

def allExitMask : Nat := BootMedium.all.foldl (fun w m => w ||| m.bit .exit) 0

/-- The flag is set in a value of `boot_state`. -/
def Reported (word : Nat) (m : BootMedium) (f : Flag) : Prop := word &&& m.bit f ≠ 0

instance (word : Nat) (m : BootMedium) (f : Flag) : Decidable (Reported word m f) :=
  inferInstanceAs (Decidable (_ ≠ _))

theorem reported_or {word} {f f'} :
    Reported (word ||| m.bit f) m' f' ↔ Reported word m' f' ∨ m = m' ∧ f = f' := by
  rw [← BootMedium.bit_and_bit]
  simp only [Reported, Nat.and_or_distrib_right, ne_eq, Nat.or_eq_zero_iff, not_and_or]

theorem and_bits_eq_zero {word} {f f'} :
    word &&& (m.bit f ||| m.bit f') = 0 ↔ ¬ Reported word m f ∧ ¬ Reported word m f' := by
  simp only [Reported, Nat.and_or_distrib_left, Nat.or_eq_zero_iff, ne_eq, not_not]

/-- Where `boot_monitor` is; `ready` and `loaded` are its two calls of `monitor_boot_state`. -/
inductive MonitorPc where
  | start
  | top (bootMedium : Nat)
  | ready (m : BootMedium)
  | cue (m : BootMedium)
  | loaded (m : BootMedium)
  | button (m : BootMedium)
  | commit (m : BootMedium)
  | done (m : BootMedium)
  | died
  | out
  deriving DecidableEq, Repr

/-- Where the thread of a medium is. `polling` and `polled` are in `wait_for_boot_cue`, before and
after its load of the cue; `again` if an earlier call has returned true. -/
inductive MediumPc where
  | init
  | polling (again : Bool)
  | polled (again : Bool) (curr : BootCue)
  | booting
  | refused
  | reported
  | done
  deriving DecidableEq, Repr

/-- The shared variables, the monitor's local `state` and where the threads are. -/
structure System where
  bootState : Nat
  currentBootCue : BootCue
  state : Nat
  monitor : MonitorPc
  media : BootMedium → MediumPc

inductive BootEvent where
  | reported (m : BootMedium) (f : Flag)
  | returned (m : BootMedium)
  | cued (m : BootMedium)
  | button (m : BootMedium) (held skipped : Bool)
  | exitCue
  deriving DecidableEq, Repr

inductive MediumOp where
  | exit
  | wait
  | poll
  | resume
  | loaded
  deriving DecidableEq, Repr

inductive BootAction where
  | monitor (held : Bool)
  | medium (m : BootMedium) (op : MediumOp)
  deriving DecidableEq, Repr

section
variable (configured : BootMedium → Bool)

def System.initial : System where
  bootState := availableBootMedia configured ^^^ allExitMask
  currentBootCue := .none
  state := 0
  monitor := .start
  media := fun _ => .init

/-- The button is held when the monitor looks, and the medium is not taken for the last one. -/
def overridden (held : Bool) (m : BootMedium) : Bool :=
  held && decide (availableBootMedia configured >>> 1 >>> m.index ≠ 0)

/-- `boot_monitor`, up to and including its next access to something shared. -/
def monitorStep (held : Bool) (s : System) : Option (Option BootEvent × System) :=
  match s.monitor with
  | .start =>
    if availableBootMedia configured = 0 then some (none, { s with monitor := .out })
    else some (none, { s with state := s.bootState, monitor := .top 0 })
  | .top i =>
    match BootMedium.all[i]? with
    | none => some (none, { s with monitor := .died })
    | some m => some (none, { s with monitor := if configured m then .ready m else .top (i + 1) })
  | .ready m =>
    if s.state &&& (m.bit .ready ||| m.bit .exit) = 0 then some (none, { s with state := s.bootState })
    else if Reported s.state m .exit then some (none, { s with monitor := .top (m.index + 1) })
    else some (none, { s with monitor := .cue m })
  | .cue m => some (some (.cued m), { s with currentBootCue := .medium m, monitor := .loaded m })
  | .loaded m =>
    if s.state &&& (m.bit .loaded ||| m.bit .exit) = 0 then
      some (none, { s with state := s.bootState })
    else if Reported s.state m .loaded then some (none, { s with monitor := .button m })
    else some (none, { s with monitor := .top (m.index + 1) })
  | .button m =>
    some (some (.button m held (overridden configured held m)),
      { s with monitor := if overridden configured held m then .top (m.index + 1) else .commit m })
  | .commit m => some (some .exitCue, { s with currentBootCue := .exit, monitor := .done m })
  | .done _ | .died | .out => none

/-- The thread of `m` goes on to `pc`. -/
def System.goto (s : System) (m : BootMedium) (pc : MediumPc) : System :=
  { s with media := update s.media m pc }

/-- The `atomic_fetch_or` of `boot_medium_exit`, `boot_medium_loaded` and `wait_for_boot_cue`. -/
def System.report (s : System) (m : BootMedium) (f : Flag) (pc : MediumPc) :
    Option BootEvent × System :=
  (some (.reported m f), { s with bootState := s.bootState ||| m.bit f }.goto m pc)

/-- A boot medium's thread, of which only the reports and the waits for the cue are shared. -/
def mediumStep (m : BootMedium) (op : MediumOp) (s : System) : Option (Option BootEvent × System) :=
  if configured m then
    match s.media m, op with
    | .init, .exit | .booting, .exit | .refused, .exit | .reported, .exit =>
      some (s.report m .exit .done)
    | .init, .wait => some (s.report m .ready (.polling false))
    | .booting, .wait => some (s.report m .ready (.polling true))
    | .booting, .loaded => some (s.report m .loaded .reported)
    | .polling again, .poll => some (none, s.goto m (.polled again s.currentBootCue))
    | .polled again curr, .resume =>
      if curr = .exit then some (none, s.goto m .refused)
      else if curr = .medium m then some (some (.returned m), s.goto m .booting)
      else some (none, s.goto m (.polling again))
    | _, _ => none
  else none

def bootStep : BootAction → System → Option (Option BootEvent × System)
  | .monitor held => monitorStep configured held
  | .medium m op => mediumStep configured m op

/-- A run of the threads, with what happened in it, the latest first. -/
inductive BootRun : List BootEvent → System → Prop where
  | initial : BootRun [] (System.initial configured)
  | step {trace : List BootEvent} {s s' : System} {e : Option BootEvent} (a : BootAction) :
      BootRun trace s → bootStep configured a s = some (e, s') → BootRun (e.toList ++ trace) s'

/-- The run of a schedule. -/
def bootExec : List BootAction → List BootEvent × System → Option (List BootEvent × System)
  | [], r => some r
  | a :: as, (trace, s) =>
    (bootStep configured a s).bind fun (e, s') => bootExec as (e.toList ++ trace, s')

variable {configured}

theorem BootRun.exec {as r r'}
    (h : BootRun configured r.1 r.2) (hexec : bootExec configured as r = some r') :
    BootRun configured r'.1 r'.2 := by
  induction as generalizing r with
  | nil => cases hexec; exact h
  | cons a as ih =>
    obtain ⟨⟨e, s'⟩, hstep, hexec⟩ := Option.bind_eq_some_iff.mp hexec
    exact ih (h.step a hstep) hexec

theorem monitorStep_media {held} {s s' : System} {e}
    (h : monitorStep configured held s = some (e, s')) : s'.media = s.media := by
  unfold monitorStep at h
  split at h <;> (try split at h) <;> (try split at h) <;> cases h <;> rfl

theorem mediumStep_media {op} {s s' : System} {e}
    (h : mediumStep configured m op s = some (e, s')) (hne : m' ≠ m) : s'.media m' = s.media m' := by
  unfold mediumStep at h
  split at h
  · split at h <;> (try split at h) <;> (try split at h) <;> cases h <;> exact update_of_ne hne ..
  · cases h

/-- A thread leaves `booting` with a report, or to wait for the cue once more. -/
theorem bootStep_booting {a} {s s' : System} {e}
    (h : bootStep configured a s = some (e, s')) (hm : s.media m = .booting) :
    s'.media m = .booting ∨ a = .medium m .exit ∨ a = .medium m .loaded ∨ a = .medium m .wait := by
  cases a with
  | monitor held => exact .inl ((congrFun (monitorStep_media h) m).trans hm)
  | medium m' op =>
    by_cases hne : m = m'
    · subst hne
      have hstep : mediumStep configured m op s = some (e, s') := h
      unfold mediumStep at hstep
      cases op <;> simp [hm] at hstep ⊢
    · exact .inl ((mediumStep_media h hne).trans hm)

end

/-! ## What holds in every run -/

/-- Between a true return of `wait_for_boot_cue` and the report that follows it. -/
def MediumPc.InSection : MediumPc → Prop
  | .booting | .polling true | .polled true _ => True
  | _ => False

instance (pc : MediumPc) : Decidable pc.InSection := by
  unfold MediumPc.InSection
  split <;> infer_instance

/-- In the section, or about to find out that it is cued. -/
def MediumPc.Active (m : BootMedium) (pc : MediumPc) : Prop :=
  pc.InSection ∨ ∃ again, pc = .polled again (.medium m)

/-- The media below have been dealt with. -/
def MonitorPc.passed : MonitorPc → Nat
  | .start | .out => 0
  | .top i => i
  | .ready m | .cue m | .loaded m | .button m | .commit m | .done m => m.index
  | .died => 4

/-- The medium that the monitor has cued and not gone past. -/
def MonitorPc.cued : MonitorPc → Option BootMedium
  | .loaded m | .button m | .commit m | .done m => some m
  | _ => none

/-- What the order of two events may be. -/
def InOrder : BootEvent → BootEvent → Prop
  | .cued m, .cued m' => m'.index < m.index
  | .returned m, .returned m' => m'.index ≤ m.index
  | .returned _, .exitCue => False
  | _, _ => True

section
variable {configured : BootMedium → Bool} {trace : List BootEvent} {s s' : System}

/-- The invariant of the threads and the monitor. -/
structure Invariant (configured : BootMedium → Bool) (trace : List BootEvent) (s : System) :
    Prop where
  word : ∀ m f, Reported s.bootState m f ↔
    .reported m f ∈ trace ∨ f = .exit ∧ configured m = false
  seen : ∀ m f, Reported s.state m f → Reported s.bootState m f
  -- A medium that exits without having loaded never loads, so the monitor may rely on old values.
  final : ∀ m, configured m → Reported s.state m .exit → ¬ Reported s.state m .loaded →
    ¬ Reported s.bootState m .loaded
  absent : ∀ m, configured m = false → s.media m = .init
  exited : ∀ m, configured m → (Reported s.bootState m .exit ↔ s.media m = .done)
  loaded : ∀ m, Reported s.bootState m .loaded →
    (s.media m = .reported ∨ s.media m = .done) ∧ .returned m ∈ trace
  active : ∀ m, (s.media m).Active m → s.currentBootCue = .medium m
  entered : ∀ m, (s.media m).InSection → .returned m ∈ trace
  cue : ∀ m, s.currentBootCue = .medium m →
    s.monitor = .loaded m ∨ Reported s.bootState m .exit ∨ Reported s.bootState m .loaded
  attends : ∀ m, s.monitor.cued = some m → .cued m ∈ trace
  chosen : ∀ m, s.monitor = .ready m ∨ s.monitor = .cue m ∨ s.monitor = .loaded m → configured m
  sawLoaded : ∀ m, s.monitor = .button m ∨ s.monitor = .commit m ∨ s.monitor = .done m →
    Reported s.bootState m .loaded
  limit : ∀ m, .cued m ∈ trace → m.index < s.monitor.passed ∨ s.monitor.cued = some m
  returned : ∀ m, .returned m ∈ trace → .cued m ∈ trace
  exitCue : .exitCue ∈ trace → ∃ m, s.monitor = .done m
  passed : ∀ m, configured m → m.index < s.monitor.passed →
    Reported s.bootState m .exit ∧ ¬ Reported s.bootState m .loaded ∨ .button m true true ∈ trace
  buttons : ∀ m held skipped, .button m held skipped ∈ trace →
    skipped = overridden configured held m ∧ configured m
  order : trace.Pairwise InOrder

theorem reported_initial (configured : BootMedium → Bool) (m : BootMedium) (f : Flag) :
    Reported (availableBootMedia configured ^^^ allExitMask) m f ↔
      f = .exit ∧ configured m = false := by
  unfold availableBootMedia BootMedium.all
  simp only [foldl_cons, foldl_nil]
  generalize hc : configured = c at *
  cases m <;> cases f <;> cases c .sd <;> cases c .emmc <;> cases c .nvme <;> cases c .spi <;> decide

theorem Invariant.initial (configured : BootMedium → Bool) :
    Invariant configured [] (System.initial configured) where
  word m f := by simp [System.initial, reported_initial]
  seen m f h := absurd (Nat.zero_and _) h
  final m _ h := absurd (Nat.zero_and _) h
  absent m _ := rfl
  exited m hm := by simp [System.initial, reported_initial, hm]
  loaded m h := by simp [System.initial, reported_initial] at h
  active m h := by simp [MediumPc.Active, MediumPc.InSection, System.initial] at h
  entered m h := by simp [MediumPc.InSection, System.initial] at h
  cue m h := by cases h
  attends m h := by cases h
  chosen m h := by simp [System.initial] at h
  sawLoaded m h := by simp [System.initial] at h
  limit m h := by cases h
  returned m h := by cases h
  exitCue h := by cases h
  passed m _ h := absurd h (Nat.not_lt_zero _)
  buttons m held skipped h := by cases h
  order := .nil

namespace Invariant
variable (h : Invariant configured trace s)
include h

theorem isConfigured (hm : s.media m ≠ .init) : configured m := by
  by_contra hc
  exact hm (h.absent m (Bool.eq_false_iff.mpr hc))

theorem isConfigured_of_loaded (hm : Reported s.bootState m .loaded) : configured m := by
  refine h.isConfigured fun hpc => ?_
  simpa [hpc] using (h.loaded m hm).1

theorem not_exited (hm : configured m) (hpc : s.media m ≠ .done) : ¬ Reported s.bootState m .exit :=
  fun hexit => hpc ((h.exited m hm).mp hexit)

/-- The monitor waits for a medium in the section. -/
theorem monitor_of_active (hm : (s.media m).Active m) : s.monitor = .loaded m := by
  have hinit : s.media m ≠ .init := by
    intro hpc
    simp [hpc, MediumPc.Active, MediumPc.InSection] at hm
  have hlive : s.media m ≠ .reported ∧ s.media m ≠ .done := by
    constructor <;>
    · intro hpc
      simp [hpc, MediumPc.Active, MediumPc.InSection] at hm
  rcases h.cue m (h.active m hm) with hmon | hexit | hloaded
  · exact hmon
  · exact absurd hexit (h.not_exited (h.isConfigured hinit) hlive.2)
  · exact absurd (h.loaded m hloaded).1 (not_or.mpr hlive)

theorem cued_lt {n} (hmon : s.monitor.cued = none) (hle : s.monitor.passed ≤ n)
    (hcued : .cued m ∈ trace) : m.index < n := by
  rcases h.limit m hcued with hlt | hsome
  · exact hlt.trans_le hle
  · rw [hmon] at hsome
    cases hsome

theorem cued_le (hmon : s.monitor.cued = some m)
    (hpassed : s.monitor.passed = m.index) (hcued : .cued m' ∈ trace) : m'.index ≤ m.index := by
  rcases h.limit m' hcued with hlt | hsame
  · exact hpassed ▸ hlt.le
  · rw [hmon] at hsame
    cases hsame
    exact le_rfl

/-! ### The monitor -/

theorem reload : Invariant configured trace { s with state := s.bootState } :=
  { h with seen := fun _ _ hf => hf, final := fun _ _ _ hf => hf }

/-- On to a place where no medium is cued. -/
theorem advance {pc : MonitorPc} (hpc : pc.cued = none)
    (hlimit : ∀ m, .cued m ∈ trace → m.index < pc.passed)
    (hcue : ∀ m, s.monitor = .loaded m →
      Reported s.bootState m .exit ∨ Reported s.bootState m .loaded)
    (hlive : ∀ m, s.monitor ≠ .done m)
    (hchosen : ∀ m, pc = .ready m ∨ pc = .cue m → configured m)
    (hpassed : ∀ m, configured m → s.monitor.passed ≤ m.index → m.index < pc.passed →
      Reported s.bootState m .exit ∧ ¬ Reported s.bootState m .loaded ∨
        .button m true true ∈ trace) :
    Invariant configured trace { s with monitor := pc } :=
  { h with
    cue := fun m hm => .inr ((h.cue m hm).elim (hcue m) id)
    attends := fun m hm => by rw [hpc] at hm; cases hm
    chosen := fun m hm => by
      rcases hm with hm | hm | hm
      · exact hchosen m (.inl hm)
      · exact hchosen m (.inr hm)
      · obtain rfl : pc = .loaded m := hm
        cases hpc
    sawLoaded := fun m hm => by
      rcases hm with hm | hm | hm <;>
      · obtain rfl := hm
        cases hpc
    limit := fun m hm => .inl (hlimit m hm)
    exitCue := fun he => absurd (h.exitCue he).choose_spec (hlive _)
    passed := fun m hm hlt =>
      if hold : m.index < s.monitor.passed then h.passed m hm hold
      else hpassed m hm (Nat.le_of_not_lt hold) hlt }

/-- Between two places where the cue is the same medium. -/
theorem attend {pc : MonitorPc} (hmon : s.monitor.cued = some m) (hpc : pc.cued = some m)
    (hsame : pc.passed = s.monitor.passed) (hlive : ∀ m, s.monitor ≠ .done m) (hne : pc ≠ .loaded m)
    (hloaded : Reported s.bootState m .loaded) :
    Invariant configured trace { s with monitor := pc } :=
  { h with
    cue := fun m' hm => by
      rcases h.cue m' hm with hmon' | hrep
      · rw [hmon'] at hmon
        cases hmon
        exact .inr (.inr hloaded)
      · exact .inr hrep
    attends := fun m' hm => h.attends m' (hmon.trans (hpc.symm.trans hm))
    chosen := fun m' hm => by
      rcases hm with hm | hm | hm <;> obtain rfl := hm <;> cases hpc
      exact absurd rfl hne
    sawLoaded := fun m' hm => by
      rcases hm with hm | hm | hm <;> obtain rfl := hm <;> cases hpc <;> exact hloaded
    limit := fun m' hm => by
      rw [hsame, hpc, ← hmon]
      exact h.limit m' hm
    exitCue := fun he => absurd (h.exitCue he).choose_spec (hlive _)
    passed := fun m' hm hlt => h.passed m' hm (hsame ▸ hlt) }

/-- Something happens that is no report and no cue. -/
theorem observe {e} (hreport : ∀ m f, e ≠ .reported m f) (hcued : ∀ m, e ≠ .cued m)
    (hreturned : ∀ m, e = .returned m → .cued m ∈ trace)
    (hexit : e = .exitCue → ∃ m, s.monitor = .done m)
    (hbutton : ∀ m held skipped, e = .button m held skipped →
      skipped = overridden configured held m ∧ configured m)
    (horder : ∀ e' ∈ trace, InOrder e e') : Invariant configured (e :: trace) s :=
  { h with
    word := fun m f => by rw [h.word, mem_cons, or_iff_right (hreport m f).symm]
    loaded := fun m hm => ⟨(h.loaded m hm).1, .tail _ (h.loaded m hm).2⟩
    entered := fun m hm => .tail _ (h.entered m hm)
    attends := fun m hm => .tail _ (h.attends m hm)
    limit := fun m hm => h.limit m (mem_of_ne_of_mem (hcued m).symm hm)
    returned := fun m hm => .tail _ ((mem_cons.mp hm).elim
      (fun he => hreturned m he.symm) (h.returned m))
    exitCue := fun hm => (mem_cons.mp hm).elim (fun he => hexit he.symm) h.exitCue
    passed := fun m hm hlt => (h.passed m hm hlt).imp_right (.tail _)
    buttons := fun m held skipped hm => (mem_cons.mp hm).elim
      (fun he => hbutton m held skipped he.symm) (h.buttons m held skipped)
    order := pairwise_cons.mpr ⟨horder, h.order⟩ }

theorem pressed (hm : configured m) (held : Bool) :
    Invariant configured (.button m held (overridden configured held m) :: trace) s := by
  refine h.observe (by simp) (by simp) (by simp) (by simp) ?_ (fun _ _ => trivial)
  intro m' held' skipped he
  cases he
  exact ⟨rfl, hm⟩

theorem store_cue (hmon : s.monitor = .cue m) :
    Invariant configured (.cued m :: trace)
      { s with currentBootCue := .medium m, monitor := .loaded m } := by
  have hbelow : ∀ m', .cued m' ∈ trace → m'.index < m.index := fun m' hm' => by
    simpa [hmon, MonitorPc.passed, MonitorPc.cued] using h.limit m' hm'
  have hinactive : ∀ m', ¬ (s.media m').Active m' := fun m' hm' => by
    have := h.monitor_of_active hm'
    rw [hmon] at this
    cases this
  exact { h with
    word := fun m' f => by rw [h.word, mem_cons]; simp
    loaded := fun m' hm => ⟨(h.loaded m' hm).1, .tail _ (h.loaded m' hm).2⟩
    active := fun m' hm => absurd hm (hinactive m')
    entered := fun m' hm => .tail _ (h.entered m' hm)
    cue := fun m' hm => .inl (by cases hm; rfl)
    attends := fun m' hm => by cases hm; exact .head _
    chosen := fun m' hm => by
      rcases hm with hm | hm | hm <;> cases hm
      exact h.chosen m (.inr (.inl hmon))
    sawLoaded := fun m' hm => by rcases hm with hm | hm | hm <;> cases hm
    limit := fun m' hm => by
      rcases mem_cons.mp hm with he | hm
      · cases he
        exact .inr rfl
      · exact .inl (hbelow m' hm)
    returned := fun m' hm => .tail _ (h.returned m' (mem_of_ne_of_mem (by simp) hm))
    exitCue := fun hm => by
      obtain ⟨m', hdone⟩ := h.exitCue (mem_of_ne_of_mem (by simp) hm)
      rw [hmon] at hdone
      cases hdone
    passed := fun m' hm hlt => (h.passed m' hm (by rw [hmon]; exact hlt)).imp_right (.tail _)
    buttons := fun m' held skipped hm => h.buttons m' held skipped (mem_of_ne_of_mem (by simp) hm)
    order := pairwise_cons.mpr ⟨fun e he => by cases e <;> first | trivial | exact hbelow _ he,
      h.order⟩ }

theorem store_exit (hmon : s.monitor = .commit m) :
    Invariant configured (.exitCue :: trace)
      { s with currentBootCue := .exit, monitor := .done m } := by
  have hinactive : ∀ m', ¬ (s.media m').Active m' := fun m' hm' => by
    have := h.monitor_of_active hm'
    rw [hmon] at this
    cases this
  have hdone : Invariant configured trace { s with currentBootCue := .exit, monitor := .done m } :=
    { h with
      active := fun m' hm' => absurd hm' (hinactive m')
      cue := fun m' hm => by cases hm
      attends := fun m' hm => h.attends m' (by rw [hmon]; exact hm)
      chosen := fun m' hm => by rcases hm with hm | hm | hm <;> cases hm
      sawLoaded := fun m' hm => by
        rcases hm with hm | hm | hm <;> cases hm
        exact h.sawLoaded m (.inr (.inl hmon))
      limit := fun m' hm => by
        have := h.limit m' hm
        rw [hmon] at this
        exact this
      exitCue := fun _ => ⟨m, rfl⟩
      passed := fun m' hm hlt => h.passed m' hm (by rw [hmon]; exact hlt) }
  exact hdone.observe (by simp) (by simp) (by simp) (fun _ => ⟨m, rfl⟩) (by simp)
    (fun _ _ => trivial)

section
variable {m : BootMedium} {held : Bool} {e : Option BootEvent}
  (hstep : monitorStep configured held s = some (e, s'))
include hstep

theorem step_start (hmon : s.monitor = .start) : Invariant configured (e.toList ++ trace) s' := by
  have hnone : ∀ n m, .cued m ∈ trace → m.index < n := fun n m hm =>
    (h.cued_lt (by rw [hmon]; rfl) (le_of_eq (by rw [hmon]; rfl)) hm).trans_le (Nat.zero_le n)
  simp only [monitorStep, hmon] at hstep
  split at hstep <;> cases hstep
  · exact h.advance rfl (hnone _) (by simp [hmon]) (by simp [hmon]) (by simp)
      (fun m _ _ hlt => absurd hlt (Nat.not_lt_zero _))
  · exact h.reload.advance rfl (hnone _) (by simp [hmon]) (by simp [hmon]) (by simp)
      (fun m _ _ hlt => absurd hlt (Nat.not_lt_zero _))

theorem step_top {i} (hmon : s.monitor = .top i) : Invariant configured (e.toList ++ trace) s' := by
  have hcued : s.monitor.cued = none := by rw [hmon]; rfl
  have hpassed : s.monitor.passed = i := by rw [hmon]; rfl
  simp only [monitorStep, hmon] at hstep
  cases hget : BootMedium.all[i]? with
  | none =>
    rw [hget] at hstep
    cases hstep
    have hi : 4 ≤ i := List.getElem?_eq_none_iff.mp hget
    refine h.advance rfl (fun m _ => m.index_lt) (by simp [hmon]) (by simp [hmon]) (by simp) ?_
    intro m _ hle
    exact absurd m.index_lt (not_lt.mpr (hi.trans (hpassed ▸ hle)))
  | some m =>
    rw [hget] at hstep
    cases hstep
    have hi := BootMedium.all_get hget
    by_cases hm : configured m
    · simp only [hm, if_true]
      refine h.advance rfl (fun _ => h.cued_lt hcued (hpassed.trans hi.symm).le) (by simp [hmon])
        (by simp [hmon]) (by rintro m' (he | he) <;> cases he; exact hm) ?_
      intro m' _ hle hlt
      exact absurd hlt (not_lt.mpr (hi.le.trans (hpassed ▸ hle)))
    · simp only [hm]
      refine h.advance rfl (fun _ => h.cued_lt hcued (hpassed.le.trans (Nat.le_succ i)))
        (by simp [hmon]) (by simp [hmon]) (by simp) ?_
      intro m' hm' hle hlt
      obtain rfl := BootMedium.eq_of_between (hi.le.trans (hpassed ▸ hle)) (hi.symm ▸ hlt)
      exact absurd hm' hm

theorem step_ready (hmon : s.monitor = .ready m) : Invariant configured (e.toList ++ trace) s' := by
  have hcued : s.monitor.cued = none := by rw [hmon]; rfl
  have hpassed : s.monitor.passed = m.index := by rw [hmon]; rfl
  simp only [monitorStep, hmon] at hstep
  split at hstep
  · cases hstep
    exact hmon ▸ h.reload
  · split at hstep <;> cases hstep
    next hexit =>
      refine h.advance rfl (fun _ => h.cued_lt hcued (hpassed.le.trans (Nat.le_succ _)))
        (by simp [hmon]) (by simp [hmon]) (by simp) ?_
      intro m' hm' hle hlt
      obtain rfl := BootMedium.eq_of_between (hpassed ▸ hle) hlt
      -- It has not been cued, so it cannot have loaded.
      refine .inl ⟨h.seen m' .exit hexit, fun hloaded => ?_⟩
      have := h.cued_lt hcued hpassed.le (h.returned m' (h.loaded m' hloaded).2)
      exact lt_irrefl _ this
    · refine h.advance rfl (fun _ => h.cued_lt hcued hpassed.le) (by simp [hmon]) (by simp [hmon])
        ?_ ?_
      · rintro m' (he | he) <;> cases he
        exact h.chosen m (.inl hmon)
      · intro m' _ hle hlt
        exact absurd (hpassed.symm.le.trans hle) (not_le.mpr hlt)

theorem step_loaded (hmon : s.monitor = .loaded m) : Invariant configured (e.toList ++ trace) s' := by
  have hcued : s.monitor.cued = some m := by rw [hmon]; rfl
  have hpassed : s.monitor.passed = m.index := by rw [hmon]; rfl
  simp only [monitorStep, hmon] at hstep
  split at hstep
  · cases hstep
    exact hmon ▸ h.reload
  next hmask =>
    rw [and_bits_eq_zero, not_and_or, not_not, not_not] at hmask
    split at hstep <;> cases hstep
    next hloaded =>
      exact h.attend hcued rfl hpassed.symm (by simp [hmon]) (by simp) (h.seen m .loaded hloaded)
    next hloaded =>
      have hm : configured m := h.chosen m (.inr (.inr hmon))
      have hexit : Reported s.state m .exit := hmask.resolve_left hloaded
      refine h.advance rfl (fun _ hm' => Nat.lt_succ_of_le (h.cued_le hcued hpassed hm')) ?_
        (by simp [hmon]) (by simp) ?_
      · intro m' hm'
        obtain rfl : m' = m := MonitorPc.loaded.inj (hm'.symm.trans hmon)
        exact .inl (h.seen m' .exit hexit)
      · intro m' _ hle hlt
        obtain rfl := BootMedium.eq_of_between (hpassed ▸ hle) hlt
        exact .inl ⟨h.seen m' .exit hexit, h.final m' hm hexit hloaded⟩

theorem step_button (hmon : s.monitor = .button m) : Invariant configured (e.toList ++ trace) s' := by
  have hcued : s.monitor.cued = some m := by rw [hmon]; rfl
  have hpassed : s.monitor.passed = m.index := by rw [hmon]; rfl
  have hloaded := h.sawLoaded m (.inl hmon)
  have hpressed := h.pressed (h.isConfigured_of_loaded hloaded) held
  simp only [monitorStep, hmon] at hstep
  cases hstep
  by_cases hover : overridden configured held m
  · simp only [hover, if_true]
    have hheld : held = true := (Bool.and_eq_true_iff.mp hover).1
    rw [hover] at hpressed
    refine hpressed.advance rfl (fun _ hm' => Nat.lt_succ_of_le (hpressed.cued_le hcued hpassed hm'))
      (by simp [hmon]) (by simp [hmon]) (by simp) ?_
    intro m' _ hle hlt
    obtain rfl := BootMedium.eq_of_between (hpassed ▸ hle) hlt
    exact .inr (hheld ▸ .head _)
  · simp only [hover]
    rw [Bool.eq_false_iff.mpr hover] at hpressed
    exact hpressed.attend hcued rfl hpassed.symm (by simp [hmon]) (by simp) hloaded

theorem step_monitor : Invariant configured (e.toList ++ trace) s' := by
  cases hmon : s.monitor with
  | start => exact h.step_start hstep hmon
  | top i => exact h.step_top hstep hmon
  | ready m => exact h.step_ready hstep hmon
  | cue m =>
    simp only [monitorStep, hmon] at hstep
    cases hstep
    exact h.store_cue hmon
  | loaded m => exact h.step_loaded hstep hmon
  | button m => exact h.step_button hstep hmon
  | commit m =>
    simp only [monitorStep, hmon] at hstep
    cases hstep
    exact h.store_exit hmon
  | done m | died | out =>
    simp only [monitorStep, hmon] at hstep
    cases hstep

end

/-! ### The media -/

/-- A thread of a medium that has reported nothing final goes on. -/
theorem goto {m} {pc : MediumPc} (hm : configured m)
    (hlive : s.media m ≠ .reported ∧ s.media m ≠ .done) (hpc : pc ≠ .done)
    (hactive : pc.Active m → s.currentBootCue = .medium m)
    (hsection : pc.InSection → .returned m ∈ trace) : Invariant configured trace (s.goto m pc) :=
  { h with
    absent := fun m' hm' => by
      have hne : m' ≠ m := fun he => by rw [he, hm] at hm'; cases hm'
      exact (update_of_ne hne ..).trans (h.absent m' hm')
    exited := fun m' hm' => by
      by_cases hne : m' = m
      · subst hne
        simp [System.goto, hpc, h.not_exited hm' hlive.2]
      · simpa [System.goto, hne] using h.exited m' hm'
    loaded := fun m' hm' => by
      by_cases hne : m' = m
      · subst hne
        exact absurd (h.loaded m' hm').1 (not_or.mpr hlive)
      · simpa [System.goto, hne] using h.loaded m' hm'
    active := fun m' hm' => by
      by_cases hne : m' = m
      · subst hne
        exact hactive (by simpa [System.goto] using hm')
      · exact h.active m' (by simpa [System.goto, hne] using hm')
    entered := fun m' hm' => by
      by_cases hne : m' = m
      · subst hne
        exact hsection (by simpa [System.goto] using hm')
      · exact h.entered m' (by simpa [System.goto, hne] using hm') }

theorem report {m : BootMedium} {f} {pc : MediumPc} (hm : configured m) (hlive : s.media m ≠ .done)
    (hexit : f = .exit ↔ pc = .done) (hboot : f = .loaded → s.media m = .booting)
    (hloaded : Reported s.bootState m .loaded ∨ f = .loaded → pc = .reported ∨ pc = .done)
    (hactive : pc.Active m → (s.media m).Active m) (hsection : pc.InSection → (s.media m).InSection)
    :
    Invariant configured (.reported m f :: trace)
      { s with bootState := s.bootState ||| m.bit f, media := update s.media m pc } := by
  have hmono : ∀ {m' f'}, Reported s.bootState m' f' → Reported (s.bootState ||| m.bit f) m' f' :=
    fun hr => reported_or.mpr (.inl hr)
  have hload : ∀ {m'}, ¬ Reported s.bootState m' .loaded → (m' = m → f ≠ .loaded) →
      ¬ Reported (s.bootState ||| m.bit f) m' .loaded := fun hnot hf hr => by
    rcases reported_or.mp hr with hr | ⟨rfl, hf'⟩
    · exact hnot hr
    · exact hf rfl hf'
  have hnot : ¬ Reported s.bootState m .exit := h.not_exited hm hlive
  exact { h with
    word := fun m' f' => by
      rw [reported_or, h.word, or_right_comm, mem_cons, BootEvent.reported.injEq, eq_comm,
        @eq_comm _ f, or_comm (b := m' = m ∧ f' = f)]
    seen := fun m' f' hr => hmono (h.seen m' f' hr)
    final := fun m' hm' hr hn => hload (h.final m' hm' hr hn) fun he _ =>
      hnot (he ▸ h.seen m' .exit hr)
    absent := fun m' hm' => by
      have hne : m' ≠ m := fun he => by rw [he, hm] at hm'; cases hm'
      exact (update_of_ne hne ..).trans (h.absent m' hm')
    exited := fun m' hm' => by
      by_cases hne : m' = m
      · subst hne
        simp [reported_or, hnot, hexit]
      · have hne' : m ≠ m' := Ne.symm hne
        simpa [reported_or, hne, hne'] using h.exited m' hm'
    loaded := fun m' hm' => by
      by_cases hne : m' = m
      · subst hne
        have hr : Reported s.bootState m' .loaded ∨ f = .loaded := by
          simpa [reported_or] using hm'
        refine ⟨by simpa using hloaded hr, .tail _ ?_⟩
        rcases hr with hr | hf
        · exact (h.loaded m' hr).2
        · exact h.entered m' (by rw [hboot hf]; trivial)
      · have hne' : m ≠ m' := Ne.symm hne
        obtain ⟨hpc, hret⟩ := h.loaded m' (by
          simpa [reported_or, hne'] using hm')
        exact ⟨by simpa [hne] using hpc, .tail _ hret⟩
    active := fun m' hm' => by
      by_cases hne : m' = m
      · subst hne
        exact h.active m' (hactive (by simpa using hm'))
      · exact h.active m' (by simpa [hne] using hm')
    entered := fun m' hm' => by
      by_cases hne : m' = m
      · subst hne
        exact .tail _ (h.entered m' (hsection (by simpa using hm')))
      · exact .tail _ (h.entered m' (by simpa [hne] using hm'))
    cue := fun m' hm' => (h.cue m' hm').imp_right (Or.imp hmono hmono)
    attends := fun m' hm' => .tail _ (h.attends m' hm')
    sawLoaded := fun m' hm' => hmono (h.sawLoaded m' hm')
    limit := fun m' hm' => h.limit m' (mem_of_ne_of_mem (by simp) hm')
    returned := fun m' hm' => .tail _ (h.returned m' (mem_of_ne_of_mem (by simp) hm'))
    exitCue := fun he => h.exitCue (mem_of_ne_of_mem (by simp) he)
    passed := fun m' hm' hlt => (h.passed m' hm' hlt).imp
      (fun hr => ⟨hmono hr.1, hload hr.2 fun he _ => hnot (he ▸ hr.1)⟩) (.tail _)
    buttons := fun m' held skipped hm' => h.buttons m' held skipped (mem_of_ne_of_mem (by simp) hm')
    order := pairwise_cons.mpr ⟨fun _ _ => trivial, h.order⟩ }

theorem report_exit {m} (hm : configured m) (hlive : s.media m ≠ .done) :
    Invariant configured (.reported m .exit :: trace)
      { s with bootState := s.bootState ||| m.bit .exit, media := update s.media m .done } :=
  h.report hm hlive (by simp) (by simp) (by simp) (by simp [MediumPc.Active, MediumPc.InSection])
    (by simp [MediumPc.InSection])

/-- `wait_for_boot_cue` returns true. -/
theorem enter {m again} (hpc : s.media m = .polled again (.medium m)) :
    Invariant configured (.returned m :: trace) s := by
  have hmon := h.monitor_of_active (.inr ⟨again, hpc⟩)
  have hcued : .cued m ∈ trace := h.attends m (by rw [hmon]; rfl)
  refine h.observe (by simp) (by simp) ?_ (by simp) (by simp) fun e he => ?_
  · intro m' he
    cases he
    exact hcued
  · cases e with
    | returned m' => exact h.cued_le (by rw [hmon]; rfl) (by rw [hmon]; rfl) (h.returned m' he)
    | exitCue =>
      obtain ⟨m', hdone⟩ := h.exitCue he
      rw [hmon] at hdone
      cases hdone
    | _ => trivial

theorem step_medium {m op} {e : Option BootEvent}
    (hstep : mediumStep configured m op s = some (e, s')) :
    Invariant configured (e.toList ++ trace) s' := by
  unfold mediumStep at hstep
  split at hstep
  case isFalse => cases hstep
  next hm =>
  -- The other operations are not what a thread at that place does.
  cases hpc : s.media m with
  | init =>
    have hnone : ¬ Reported s.bootState m .loaded := fun hr => by
      simpa [hpc] using (h.loaded m hr).1
    cases op <;> simp only [hpc] at hstep <;> cases hstep
    · exact h.report_exit hm (by simp [hpc])
    · exact h.report hm (by simp [hpc]) (by simp) (by simp) (by simp [hnone])
        (by simp [MediumPc.Active, MediumPc.InSection]) (by simp [MediumPc.InSection])
  | polling again =>
    cases op <;> simp only [hpc] at hstep <;> cases hstep
    refine h.goto hm (by simp [hpc]) (by simp) ?_ ?_
    · rintro (hsec | ⟨again', he⟩)
      · refine h.active m (.inl ?_)
        rw [hpc]
        cases again <;> exact hsec
      · exact (MediumPc.polled.inj he).2
    · intro hsec
      refine h.entered m ?_
      rw [hpc]
      cases again <;> exact hsec
  | polled again curr =>
    cases op <;> simp only [hpc] at hstep <;> try cases hstep
    have hlive : s.media m ≠ .reported ∧ s.media m ≠ .done := by simp [hpc]
    split at hstep
    · cases hstep
      exact h.goto hm hlive (by simp) (by simp [MediumPc.Active, MediumPc.InSection])
        (by simp [MediumPc.InSection])
    · split at hstep <;> cases hstep
      next hcurr =>
        subst hcurr
        refine (h.enter hpc).goto hm hlive (by simp) (fun _ => ?_) (fun _ => .head _)
        exact h.active m (.inr ⟨again, hpc⟩)
      · have hsec : (MediumPc.polling again).InSection → (s.media m).InSection := by
          rw [hpc]
          cases again <;> exact id
        refine h.goto hm hlive (by simp) ?_ (fun hs => h.entered m (hsec hs))
        rintro (hs | ⟨again', he⟩)
        · exact h.active m (.inl (hsec hs))
        · cases he
  | booting =>
    have hnone : ¬ Reported s.bootState m .loaded := fun hr => by
      simpa [hpc] using (h.loaded m hr).1
    cases op <;> simp only [hpc] at hstep <;> cases hstep
    · exact h.report_exit hm (by simp [hpc])
    · exact h.report hm (by simp [hpc]) (by simp) (by simp) (by simp [hnone])
        (by simp [hpc, MediumPc.Active, MediumPc.InSection]) (by simp [hpc, MediumPc.InSection])
    · exact h.report hm (by simp [hpc]) (by simp) (by simp [hpc]) (by simp)
        (by simp [MediumPc.Active, MediumPc.InSection]) (by simp [MediumPc.InSection])
  | refused | reported =>
    cases op <;> simp only [hpc] at hstep <;> cases hstep
    exact h.report_exit hm (by simp [hpc])
  | done => cases op <;> simp only [hpc] at hstep <;> cases hstep

end Invariant

theorem BootRun.invariant (h : BootRun configured trace s) : Invariant configured trace s := by
  induction h with
  | initial => exact .initial configured
  | step a _ hstep ih =>
    cases a with
    | monitor held => exact ih.step_monitor hstep
    | medium m op => exact ih.step_medium hstep

end

/-! ## The boot order

What the invariant of the boot media says about whole runs: they take turns in the order of their
numbers, and the payload that is booted is that of the medium that had the last turn. -/

section
variable {configured : BootMedium → Bool} {trace : List BootEvent} {s : System}

/-- `m` is the last medium for which `wait_for_boot_cue` returned true. -/
def LastReturned (trace : List BootEvent) (m : BootMedium) : Prop :=
  ∃ later earlier, trace = later ++ .returned m :: earlier ∧ ∀ m', .returned m' ∉ later

/-- How the media take turns, and which of them is booted. -/
structure BootOrder (configured : BootMedium → Bool) (trace : List BootEvent) (s : System) :
    Prop where
  exclusive : ∀ m m', (s.media m).InSection → (s.media m').InSection → m = m'
  increasing : trace.Pairwise fun later earlier =>
    ∀ m m', later = .cued m → earlier = .cued m' → m'.index < m.index
  closed : trace.Pairwise fun later earlier => earlier = .exitCue → ∀ m, later ≠ .returned m
  committed : ∀ m, s.monitor = .commit m ∨ s.monitor = .done m →
    LastReturned trace m ∧ .reported m .loaded ∈ trace
  lower : ∀ m, s.monitor = .commit m ∨ s.monitor = .done m →
    (∀ m' skipped, .button m' true skipped ∉ trace) →
    ∀ m', configured m' → m'.index < m.index →
      .reported m' .exit ∈ trace ∧ .reported m' .loaded ∉ trace

namespace Invariant

theorem reported_loaded (h : Invariant configured trace s) {m} :
    Reported s.bootState m .loaded ↔ .reported m .loaded ∈ trace := by
  simp [h.word]

theorem reported_exit (h : Invariant configured trace s) {m} (hm : configured m) :
    Reported s.bootState m .exit ↔ .reported m .exit ∈ trace := by
  simp [h.word, hm]

theorem lastReturned (h : Invariant configured trace s) {m : BootMedium}
    (hcued : s.monitor.cued = some m) (hpassed : s.monitor.passed = m.index)
    (hloaded : Reported s.bootState m .loaded) : LastReturned trace m := by
  obtain ⟨later, earlier, rfl, hlast⟩ := eq_append_cons_of_mem (h.loaded m hloaded).2
  refine ⟨later, earlier, rfl, fun m' hm' => ?_⟩
  -- The media return in their order, and none above `m` has been cued.
  have hle : m'.index ≤ m.index :=
    h.cued_le hcued hpassed (h.returned m' (mem_append_left _ hm'))
  have hge : m.index ≤ m'.index :=
    (pairwise_append.mp h.order).2.2 _ hm' _ mem_cons_self
  exact hlast (BootMedium.index_injective (hle.antisymm hge) ▸ hm')

end Invariant

theorem boot_order (h : BootRun configured trace s) : BootOrder configured trace s := by
  have hinv := h.invariant
  have hat : ∀ m, s.monitor = .commit m ∨ s.monitor = .done m →
      s.monitor.cued = some m ∧ s.monitor.passed = m.index := by
    rintro m (hm | hm) <;> rw [hm] <;> exact ⟨rfl, rfl⟩
  refine ⟨fun m m' hm hm' => ?_, ?_, ?_, fun m hm => ?_, fun m hm hbutton m' hm' hlt => ?_⟩
  · have hcue := hinv.active m (.inl hm)
    rw [hinv.active m' (.inl hm')] at hcue
    exact (BootCue.medium.inj hcue).symm
  · refine hinv.order.imp fun {later earlier} hord m m' hl he => ?_
    subst hl he
    exact hord
  · refine hinv.order.imp fun {later earlier} hord he m hl => ?_
    subst hl he
    exact hord
  · have hloaded := hinv.sawLoaded m (.inr hm)
    exact ⟨hinv.lastReturned (hat m hm).1 (hat m hm).2 hloaded, hinv.reported_loaded.mp hloaded⟩
  · rcases hinv.passed m' hm' ((hat m hm).2 ▸ hlt) with ⟨hexit, hloaded⟩ | hpressed
    · exact ⟨(hinv.reported_exit hm').mp hexit, fun hr => hloaded (hinv.reported_loaded.mpr hr)⟩
    · exact absurd hpressed (hbutton m' true)

/-- SD and eMMC. -/
def sdAndEmmc : BootMedium → Bool
  | .sd | .emmc => true
  | _ => false

/-- The thread of `m` waits for its cue and the monitor gives it. -/
def cueMedium (m : BootMedium) : List BootAction :=
  [.medium m .wait, .monitor false, .monitor false, .monitor false, .monitor false,
    .medium m .poll, .medium m .resume]

/-- SD is cued and fails, then eMMC is cued and loads. -/
def fallback : List BootAction :=
  .monitor false :: cueMedium .sd ++ [.medium .sd .exit, .monitor false, .monitor false] ++
    cueMedium .emmc ++ [.medium .emmc .loaded, .monitor false, .monitor false, .monitor false,
      .monitor false]

theorem boot_order_fallback : ∃ trace s, BootRun sdAndEmmc trace s ∧ s.monitor = .done .emmc ∧
    BootOrder sdAndEmmc trace s := by
  have hexec : (bootExec sdAndEmmc fallback ([], System.initial sdAndEmmc)).map (·.2.monitor) =
      some (.done .emmc) := by decide
  obtain ⟨⟨trace, s⟩, hrun, hmon⟩ := Option.map_eq_some_iff.mp hexec
  have h : BootRun sdAndEmmc trace s := BootRun.initial.exec hrun
  exact ⟨trace, s, h, hmon, boot_order h⟩

/-! ## The last medium -/

def IsLast (configured : BootMedium → Bool) (m : BootMedium) : Prop :=
  configured m ∧ ∀ m', configured m' → m'.index ≤ m.index

/-- The monitor alone, with the button released. -/
def monitorRun (configured : BootMedium → Bool) : Nat → System → Option System
  | 0, s => some s
  | n + 1, s => (monitorStep configured false s).bind fun r => monitorRun configured n r.2

/-- Left alone, the monitor boots the payload of `m`. -/
def Commits (configured : BootMedium → Bool) (s : System) (m : BootMedium) : Prop :=
  ∃ n s', monitorRun configured n s = some s' ∧ s'.monitor = .done m

theorem Commits.step {s s' m e}
    (hstep : monitorStep configured false s = some (e, s')) (h : Commits configured s' m) :
    Commits configured s m := by
  obtain ⟨n, s'', hrun, hmon⟩ := h
  exact ⟨n + 1, s'', by rw [monitorRun, hstep]; exact hrun, hmon⟩

/-- The shift of `available_boot_media` by the number of the medium, and not by four times it, keeps
the medium's own bit. -/
theorem available_shift {m : BootMedium} (hm : configured m) (hsd : m ≠ .sd) :
    availableBootMedia configured >>> 1 >>> m.index ≠ 0 := by
  unfold availableBootMedia BootMedium.all
  simp only [foldl_cons, foldl_nil]
  cases m
  case sd => exact absurd rfl hsd
  all_goals
    simp only [hm]
    cases configured .sd <;> cases configured .emmc <;> cases configured .nvme <;>
      cases configured .spi <;> decide

theorem available_shift_sd (h : availableBootMedia configured >>> 1 >>> BootMedium.sd.index ≠ 0) :
    ∃ m, configured m ∧ BootMedium.sd.index < m.index := by
  by_contra hnone
  have hfalse : ∀ m : BootMedium, 0 < m.index → configured m = false := fun m hlt =>
    Bool.eq_false_iff.mpr fun hm => hnone ⟨m, hm, hlt⟩
  refine h ?_
  simp only [availableBootMedia, BootMedium.all, foldl_cons, foldl_nil,
    hfalse .emmc (by decide), hfalse .nvme (by decide), hfalse .spi (by decide)]
  cases configured .sd <;> decide

theorem commits_of_commit {m} (hmon : s.monitor = .commit m) : Commits configured s m := by
  have hstep : monitorStep configured false s =
      some (some .exitCue, { s with currentBootCue := .exit, monitor := .done m }) := by
    rw [monitorStep, hmon]
  exact .step hstep ⟨0, _, rfl, rfl⟩

theorem commits_of_button {m} (hmon : s.monitor = .button m) : Commits configured s m := by
  have hstep : monitorStep configured false s =
      some (some (.button m false false), { s with monitor := .commit m }) := by
    rw [monitorStep, hmon]
    rfl
  exact .step hstep (commits_of_commit rfl)

theorem commits_of_seen {m} (hmon : s.monitor = .loaded m)
    (hseen : Reported s.state m .loaded) : Commits configured s m := by
  have hmask : ¬ s.state &&& (m.bit .loaded ||| m.bit .exit) = 0 := by
    rw [and_bits_eq_zero]
    exact fun hno => hno.1 hseen
  have hstep : monitorStep configured false s = some (none, { s with monitor := .button m }) := by
    rw [monitorStep, hmon]
    simp only [hmask, hseen, if_true, if_false]
  exact .step hstep (commits_of_button rfl)

theorem Invariant.commits (h : Invariant configured trace s) {m}
    (hmon : s.monitor.cued = some m) (hloaded : Reported s.bootState m .loaded) :
    Commits configured s m := by
  cases hat : s.monitor with
  | loaded m' =>
    obtain rfl : m' = m := by simpa [hat, MonitorPc.cued] using hmon
    by_cases hstate : Reported s.state m' .loaded
    · exact commits_of_seen hat hstate
    · -- It has not seen the report yet, and cannot have seen the medium exit without one.
      have hmask : s.state &&& (m'.bit .loaded ||| m'.bit .exit) = 0 :=
        and_bits_eq_zero.mpr ⟨hstate, fun hexit =>
          h.final m' (h.chosen m' (.inr (.inr hat))) hexit hstate hloaded⟩
      have hstep : monitorStep configured false s =
          some (none, { s with state := s.bootState, monitor := .loaded m' }) := by
        rw [monitorStep, hat]
        simp only [hmask, if_true]
      exact .step hstep (commits_of_seen rfl hloaded)
  | button m' =>
    obtain rfl : m' = m := by simpa [hat, MonitorPc.cued] using hmon
    exact commits_of_button hat
  | commit m' =>
    obtain rfl : m' = m := by simpa [hat, MonitorPc.cued] using hmon
    exact commits_of_commit hat
  | done m' =>
    obtain rfl : m' = m := by simpa [hat, MonitorPc.cued] using hmon
    exact ⟨0, s, rfl, hat⟩
  | _ => simp [hat, MonitorPc.cued] at hmon

/-- The button only ever overrides a medium that another one follows, and the last medium is booted
once it has loaded. The code sees to it for SD alone; elsewhere it takes a user who lets go. -/
theorem last_medium_boots (h : BootRun configured trace s) :
    ((∀ m, IsLast configured m → .reported m .loaded ∈ trace → Commits configured s m) ∧
      ∀ m held, .button m held true ∈ trace → ∃ m', configured m' ∧ m.index < m'.index) ↔
    ∀ m skipped, .button m true skipped ∈ trace →
      m = .sd ∨ ∃ m', configured m' ∧ m.index < m'.index := by
  have hinv := h.invariant
  constructor
  · rintro ⟨-, hskip⟩ m skipped hpressed
    obtain ⟨hskipped, hm⟩ := hinv.buttons m true skipped hpressed
    by_cases hsd : m = .sd
    · exact .inl hsd
    · have hover : overridden configured true m = true := by
        simp [overridden, available_shift hm hsd]
      rw [hskipped, hover] at hpressed
      exact .inr (hskip m true hpressed)
  · intro hcond
    have hskip : ∀ m held, .button m held true ∈ trace → ∃ m', configured m' ∧ m.index < m'.index := by
      intro m held hpressed
      obtain ⟨hover, hm⟩ := hinv.buttons m held true hpressed
      obtain ⟨rfl, hshift⟩ := Bool.and_eq_true_iff.mp hover.symm
      rcases hcond m true hpressed with rfl | hlater
      · exact available_shift_sd (of_decide_eq_true hshift)
      · exact hlater
    refine ⟨fun m hlast hmem => ?_, hskip⟩
    have hloaded := hinv.reported_loaded.mpr hmem
    rcases hinv.limit m (hinv.returned m (hinv.loaded m hloaded).2) with hlt | hcued
    · rcases hinv.passed m hlast.1 hlt with ⟨-, hnot⟩ | hpressed
      · exact absurd hloaded hnot
      · obtain ⟨m', hm', hlater⟩ := hskip m true hpressed
        exact absurd (hlast.2 m' hm') (not_le.mpr hlater)
    · exact hinv.commits hcued hloaded

/-- SD fails and eMMC has loaded; the button is not held. -/
theorem last_medium_boots_fallback : ∃ trace s, BootRun sdAndEmmc trace s ∧
    .reported .emmc .loaded ∈ trace ∧ Commits sdAndEmmc s .emmc := by
  have hexec : (bootExec sdAndEmmc fallback ([], System.initial sdAndEmmc)).map (·.1) =
      some [.exitCue, .button .emmc false false, .reported .emmc .loaded, .returned .emmc,
        .cued .emmc, .reported .emmc .ready, .reported .sd .exit, .returned .sd, .cued .sd,
        .reported .sd .ready] := by decide
  obtain ⟨⟨trace, s⟩, hrun, rfl⟩ := Option.map_eq_some_iff.mp hexec
  have h := BootRun.initial.exec hrun
  have hlast : IsLast sdAndEmmc .emmc := ⟨rfl, fun m hm => by cases m <;> first | decide | cases hm⟩
  refine ⟨_, s, h, by simp, ((last_medium_boots h).mpr ?_).1 .emmc hlast (by simp)⟩
  intro m skipped hpressed
  simp at hpressed

/-- SD and eMMC load with the button held. -/
def heldButton : List BootAction :=
  .monitor false :: cueMedium .sd ++ .medium .sd .loaded :: List.replicate 3 (.monitor true) ++
    cueMedium .emmc ++ .medium .emmc .loaded :: List.replicate 6 (.monitor true)

/-- The payload of the last medium is there, and `boot_monitor` dies for want of one. -/
theorem last_medium_overridden : ∃ trace s, BootRun sdAndEmmc trace s ∧ IsLast sdAndEmmc .emmc ∧
    .reported .emmc .loaded ∈ trace ∧ .button .emmc true true ∈ trace ∧ s.monitor = .died ∧
    ¬ Commits sdAndEmmc s .emmc := by
  have hexec : (bootExec sdAndEmmc heldButton ([], System.initial sdAndEmmc)).map
      (fun r => (decide (.reported .emmc .loaded ∈ r.1), decide (.button .emmc true true ∈ r.1),
        r.2.monitor)) = some (true, true, .died) := by decide
  obtain ⟨⟨trace, s⟩, hrun, hres⟩ := Option.map_eq_some_iff.mp hexec
  simp only [Prod.mk.injEq, decide_eq_true_eq] at hres
  obtain ⟨hloaded, hpressed, hdied⟩ := hres
  have hlast : IsLast sdAndEmmc .emmc := ⟨rfl, fun m hm => by cases m <;> first | decide | cases hm⟩
  refine ⟨trace, s, BootRun.initial.exec hrun, hlast, hloaded, hpressed, hdied, ?_⟩
  rintro ⟨n, s', hmon, hdone⟩
  cases n with
  | zero =>
    obtain rfl : s = s' := Option.some.inj hmon
    rw [hdied] at hdone
    cases hdone
  | succ n =>
    rw [monitorRun, monitorStep, hdied] at hmon
    cases hmon

end
end Rkboot.Dramstage
