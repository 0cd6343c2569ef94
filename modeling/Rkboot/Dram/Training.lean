import Mathlib.Logic.Function.Basic
import Mathlib.Tactic.Common

/-! # The hand-shake of the DDR training

`ddrinit_primary`, `ddrinit_secondary` and the interrupt handlers of the two channels, stepping on
the byte `sync` and the list of its waiters. A sleeping thread may wake up for no reason. -/
namespace Rkboot.Dram
open Function

inductive Channel where
  | c0
  | c1
  deriving DecidableEq, Repr

def Channel.other : Channel → Channel
  | .c0 => .c1
  | .c1 => .c0

/-- `ddrinit_irq` from the interrupt that makes its channel ready. -/
inductive HandlerPc where
  | before
  | check
  | notify
  | drain
  | done
  deriving DecidableEq, Repr

/-- `ddrinit_wait`: its load, and the steps of `sched_finish_u8`. -/
inductive WaitPc where
  | load
  | enqueue
  | check
  | requeue
  | asleep
  deriving DecidableEq, Repr

/-- The two calls of `switch_and_train`. -/
inductive Round where
  | first
  | second
  deriving DecidableEq, Repr

def Round.index : Round → Nat
  | .first => 0
  | .second => 1

/-- `ddrinit_primary` up to `ddrinit_notify(st, 3)`. The frequency changes in `switch`. -/
inductive PrimaryPc where
  | start (w : WaitPc)
  | clear (k : Round)
  | switch (k : Round)
  | notify (k : Round)
  | drain (k : Round)
  | train (k : Round)
  | wait (k : Round) (w : WaitPc)
  | notifyEnd
  | drainEnd
  | done
  | died
  deriving DecidableEq, Repr

/-- `ddrinit_secondary`; `sync` is its local variable. -/
inductive SecondaryPc where
  | wait (sync : Nat) (w : WaitPc)
  | train
  | notify
  | drain
  | done
  deriving DecidableEq, Repr

inductive TrainingThread where
  | primary
  | secondary
  deriving DecidableEq, Repr

/-- `struct ddrinit_state` as far as the hand-shake goes, who is on the list of waiters, where
everybody is, and how often channel 1 has begun and ended training. -/
structure TrainingState where
  sync : Nat
  ready : Channel → Bool
  listed : TrainingThread → Bool
  handler : Channel → HandlerPc
  primary : PrimaryPc
  secondary : SecondaryPc
  started : Nat
  finished : Nat

namespace TrainingState

def initial : TrainingState where
  sync := 0
  ready := fun _ => false
  listed := fun _ => false
  handler := fun _ => .before
  primary := .start .load
  secondary := .wait 0 .load
  started := 0
  finished := 0

/-- `sched_queue_list(CURRENT_RUNQUEUE, &st->waiters)`. -/
def wakeAll (s : TrainingState) : TrainingState := { s with listed := fun _ => false }

def list (s : TrainingState) (t : TrainingThread) (b : Bool) : TrainingState :=
  { s with listed := update s.listed t b }

def handlerStep (s : TrainingState) (c : Channel) : Option TrainingState :=
  match s.handler c with
  | .before => some { s with ready := update s.ready c true, handler := update s.handler c .check }
  | .check =>
    let next := if s.ready .c0 ∧ s.ready .c1 then HandlerPc.notify else .done
    some { s with handler := update s.handler c next }
  | .notify => some { s with sync := 1, handler := update s.handler c .drain }
  | .drain => some { s.wakeAll with handler := update s.handler c .done }
  | .done => none

/-- A step of `ddrinit_wait(st, val)`, for a thread that goes on at `goto` or returns a value. -/
def waitStep (s : TrainingState) (t : TrainingThread) (val : Nat) (w : WaitPc) (spurious : Bool)
    (goto : TrainingState → WaitPc → TrainingState) (ret : Nat → TrainingState) :
    Option TrainingState :=
  match w with
  | .load => some (if s.sync ≠ val then ret s.sync else goto s .enqueue)
  | .enqueue => some (goto (s.list t true) .check)
  | .check => some (goto s (if s.sync ≠ val then .requeue else .asleep))
  | .requeue => some (goto s.wakeAll .asleep)
  | .asleep => if s.listed t ∧ spurious = false then none else some (goto (s.list t false) .load)

def primaryStep (s : TrainingState) (spurious : Bool) : Option TrainingState :=
  match s.primary with
  | .start w =>
    s.waitStep .primary 0 w spurious (fun s w => { s with primary := .start w }) fun v =>
      { s with primary := if v ≠ 1 then .died else .clear .first }
  | .clear k => some { s with sync := 0, primary := .switch k }
  | .switch k => some { s with primary := .notify k }
  | .notify k => some { s with sync := 2, primary := .drain k }
  | .drain k => some { s.wakeAll with primary := .train k }
  | .train k => some { s with primary := .wait k .load }
  | .wait k w =>
    s.waitStep .primary 2 w spurious (fun s w => { s with primary := .wait k w }) fun v =>
      { s with primary :=
          if v ≠ 1 then .died else if k = .first then .clear .second else .notifyEnd }
  | .notifyEnd => some { s with sync := 3, primary := .drainEnd }
  | .drainEnd => some { s.wakeAll with primary := .done }
  | .done | .died => none

def secondaryStep (s : TrainingState) (spurious : Bool) : Option TrainingState :=
  match s.secondary with
  | .wait sync w =>
    s.waitStep .secondary sync w spurious (fun s w => { s with secondary := .wait sync w }) fun v =>
      if v = 3 then { s with secondary := .done }
      else if v ≠ 2 then { s with secondary := .wait v .load }
      else { s with secondary := .train, started := s.started + 1 }
  | .train => some { s with secondary := .notify, finished := s.finished + 1 }
  | .notify => some { s with sync := 1, secondary := .drain }
  | .drain => some { s.wakeAll with secondary := .wait 1 .load }
  | .done => none

end TrainingState

inductive Actor where
  | handler (c : Channel)
  | thread (t : TrainingThread) (spurious : Bool)
  deriving DecidableEq, Repr

def TrainingState.step (s : TrainingState) : Actor → Option TrainingState
  | .handler c => s.handlerStep c
  | .thread .primary spurious => s.primaryStep spurious
  | .thread .secondary spurious => s.secondaryStep spurious

/-- Runs all of whose steps are as the condition has them. -/
inductive TrainingRun (P : Actor → TrainingState → Prop) : TrainingState → Prop where
  | initial : TrainingRun P .initial
  | step {s s' : TrainingState} (a : Actor) : TrainingRun P s → P a s → s.step a = some s' →
      TrainingRun P s'

/-- A handler starts when the other one does not run. The interrupts of the two channels have the
same priority and the same target CPU. -/
def Serial : Actor → TrainingState → Prop
  | .handler c, s =>
    s.handler c = .before → s.handler c.other = .before ∨ s.handler c.other = .done
  | .thread _ _, _ => True

instance (a : Actor) (s : TrainingState) : Decidable (Serial a s) := by
  unfold Serial
  split <;> infer_instance

/-! ## One step -/

namespace TrainingState
variable {s s' : TrainingState} {t : TrainingThread} {val : Nat} {w : WaitPc} {spurious : Bool}
  {goto : TrainingState → WaitPc → TrainingState} {ret : Nat → TrainingState}

/-- A step of `ddrinit_wait` returns what it has read, or changes who is on the list and goes on. -/
theorem waitStep_cases (h : s.waitStep t val w spurious goto ret = some s') :
    (w = .load ∧ s.sync ≠ val ∧ s' = ret s.sync) ∨
    ∃ listed w', s' = goto { s with listed := listed } w' ∧ (∀ t' ≠ t, listed t' → s.listed t') ∧
      (w = .requeue → ∀ t', listed t' = false) ∧
      (w' = .asleep → s.sync = val ∨ ∀ t', listed t' = false) := by
  unfold waitStep at h
  cases w with
  | load =>
    cases h
    split
    · exact .inl ⟨rfl, ‹_›, rfl⟩
    · exact .inr ⟨s.listed, .enqueue, rfl, fun _ _ => id, nofun, nofun⟩
  | enqueue =>
    cases h
    refine .inr ⟨_, .check, rfl, fun t' ht' hl => ?_, nofun, nofun⟩
    rwa [update_of_ne ht'] at hl
  | check =>
    cases h
    refine .inr ⟨s.listed, _, rfl, fun _ _ => id, nofun, fun hw => .inl ?_⟩
    by_contra hne
    rw [if_pos hne] at hw
    cases hw
  | requeue =>
    cases h
    exact .inr ⟨_, .asleep, rfl, fun _ _ => nofun, fun _ _ => rfl, fun _ => .inr fun _ => rfl⟩
  | asleep =>
    dsimp only at h
    split at h
    · cases h
    · cases h
      refine .inr ⟨_, .load, rfl, fun t' ht' hl => ?_, nofun, nofun⟩
      rwa [update_of_ne ht'] at hl

end TrainingState

/-! ## The invariant -/

/-- Both channels are ready and `sync` has been told so. -/
def Released (s : TrainingState) : Prop := ∀ c, s.handler c = .drain ∨ s.handler c = .done

/-- Waiting for the next round. -/
def SecondaryPc.Idle : SecondaryPc → Prop
  | .wait v _ => v = 0 ∨ v = 1
  | .drain => True
  | _ => False

/-- Channel 1 has been trained in this round and `sync` has been told so. -/
def SecondaryPc.Reported : SecondaryPc → Prop
  | .wait v _ => v = 1
  | .drain => True
  | _ => False

theorem SecondaryPc.Reported.idle {pc : SecondaryPc} (h : pc.Reported) : pc.Idle := by
  cases pc with
  | wait v w => exact .inr h
  | drain => trivial
  | _ => cases h

def Trained (s : TrainingState) (started finished : Nat) : Prop :=
  s.started = started ∧ s.finished = finished

/-- How far the secondary can be, by where the primary is. -/
def Progress (s : TrainingState) : Prop :=
  match s.primary with
  | .start _ => Trained s 0 0 ∧ ∃ v w, s.secondary = .wait v w ∧ (v = 0 ∨ v = 1 ∧ s.sync = 1)
  | .clear k => s.sync = 1 ∧ Trained s k.index k.index ∧ s.secondary.Idle
  | .switch k | .notify k => s.sync = 0 ∧ Trained s k.index k.index ∧ s.secondary.Idle
  | .drain k | .train k | .wait k _ =>
    s.sync = 2 ∧ Trained s k.index k.index ∧ s.secondary.Idle ∨
    s.sync = 2 ∧ Trained s (k.index + 1) k.index ∧ s.secondary = .train ∨
    s.sync = 2 ∧ Trained s (k.index + 1) (k.index + 1) ∧ s.secondary = .notify ∨
    s.sync = 1 ∧ Trained s (k.index + 1) (k.index + 1) ∧ s.secondary.Reported
  | .notifyEnd => s.sync = 1 ∧ Trained s 2 2 ∧ s.secondary.Idle
  | .drainEnd | .done => s.sync = 3 ∧ Trained s 2 2 ∧ (s.secondary.Idle ∨ s.secondary = .done)
  | .died => False

/-- The first store of 1 comes from the handlers, and then they are at their end. -/
def Announced (s : TrainingState) : Prop :=
  match s.primary with
  | .start _ => s.sync = 0 ∧ ¬ Released s ∨ s.sync = 1 ∧ Released s
  | _ => Released s

/-- Where one handler can be while the other one is at `o`. -/
def HandlerPc.Beside : HandlerPc → HandlerPc → Prop
  | .before, o => o = .before ∨ o = .check ∨ o = .done
  | .check, o => o = .before ∨ o = .done
  | .notify, o | .drain, o => o = .done
  | .done, _ => True

theorem HandlerPc.Beside.symm {a b : HandlerPc} (h : a.Beside b) : b.Beside a := by
  cases a <;> cases b <;> simp_all [Beside]

/-- The handlers run one after the other. -/
structure Handlers (s : TrainingState) : Prop where
  ready : ∀ c, s.ready c = true ↔ s.handler c ≠ .before
  beside : ∀ c, (s.handler c).Beside (s.handler c.other)

section
variable {s s' : TrainingState} {c : Channel}

theorem Channel.other_ne (c : Channel) : c.other ≠ c := by
  cases c <;> exact nofun

theorem Channel.eq_or_other (c c' : Channel) : c' = c ∨ c' = c.other := by
  cases c <;> cases c' <;> simp [Channel.other]

theorem Channel.other_other (c : Channel) : c.other.other = c := by
  cases c <;> rfl

theorem Handlers.all_ready (h : Handlers s) (c : Channel) :
    (s.ready .c0 = true ∧ s.ready .c1 = true) ↔
      s.handler c ≠ .before ∧ s.handler c.other ≠ .before := by
  rw [← h.ready, ← h.ready]
  cases c <;> simp [Channel.other, and_comm]

/-- The handler of `c` goes on. -/
theorem Handlers.goto (h : Handlers s) (pc : HandlerPc) (hpc : pc ≠ .before)
    (hready : s'.ready = update s.ready c true) (hhandler : s'.handler = update s.handler c pc)
    (hbeside : pc.Beside (s.handler c.other)) : Handlers s' := by
  refine ⟨fun c' => ?_, fun c' => ?_⟩
  · rw [hready, hhandler]
    by_cases hc : c' = c
    · simp [hc, hpc]
    · simp [hc, h.ready]
  · rw [hhandler]
    rcases c.eq_or_other c' with rfl | rfl
    · rwa [update_self, update_of_ne c'.other_ne]
    · rw [c.other_other, update_self, update_of_ne c.other_ne]
      exact hbeside.symm

/-- What a handler does: it makes its channel ready, looks at the other one, tells `sync` that both
are ready, or empties the list. -/
inductive HandlerStep (s : TrainingState) (c : Channel) : TrainingState → Prop where
  | look {ready : Channel → Bool} {pc : HandlerPc} : s.handler c ≠ .drain → pc ≠ .drain →
      ¬ Released s → ¬ Released { s with handler := update s.handler c pc } →
      HandlerStep s c { s with ready := ready, handler := update s.handler c pc }
  | notify : s.handler c ≠ .drain → ¬ Released s →
      Released { s with handler := update s.handler c .drain } →
      HandlerStep s c { s with sync := 1, handler := update s.handler c .drain }
  | drain : (Released s ↔ Released { s with handler := update s.handler c .done }) →
      HandlerStep s c { s.wakeAll with handler := update s.handler c .done }

theorem not_released (h₁ : s.handler c ≠ .drain) (h₂ : s.handler c ≠ .done) : ¬ Released s :=
  fun hr => (hr c).elim h₁ h₂

theorem Handlers.step (h : Handlers s) (hserial : Serial (.handler c) s)
    (hstep : s.handlerStep c = some s') : Handlers s' ∧ HandlerStep s c s' := by
  have hbeside := h.beside c
  have hready : ∀ {pc}, s.handler c = pc → pc ≠ .before → s.ready = update s.ready c true :=
    fun hc hne => (update_eq_self_iff.mpr ((h.ready c).mpr (hc ▸ hne)).symm).symm
  unfold TrainingState.handlerStep at hstep
  cases hpc : s.handler c with
  | before =>
    simp only [hpc] at hstep
    cases hstep
    refine ⟨h.goto .check nofun rfl rfl (hserial hpc), .look (by simp [hpc]) nofun ?_ ?_⟩
    · exact not_released (c := c) (by simp [hpc]) (by simp [hpc])
    · exact not_released (c := c) (by simp) (by simp)
  | check =>
    simp only [hpc, h.all_ready c] at hstep
    rw [hpc] at hbeside
    have hlook : ¬ Released s := not_released (c := c) (by simp [hpc]) (by simp [hpc])
    rcases hbeside with hother | hother
    · -- The other channel is not ready; its handler will see that both are.
      simp only [hother, ne_eq, not_true_eq_false, and_false, if_false] at hstep
      cases hstep
      refine ⟨h.goto .done nofun (hready hpc nofun) rfl trivial,
        .look (by simp [hpc]) nofun hlook ?_⟩
      exact not_released (c := c.other) (by simp [c.other_ne, hother]) (by simp [c.other_ne, hother])
    · simp only [hother, ne_eq, reduceCtorEq, not_false_eq_true, and_self, if_true] at hstep
      cases hstep
      refine ⟨h.goto .notify nofun (hready hpc nofun) rfl hother,
        .look (by simp [hpc]) nofun hlook ?_⟩
      exact not_released (c := c) (by simp) (by simp)
  | notify =>
    simp only [hpc] at hstep
    rw [hpc] at hbeside
    cases hstep
    refine ⟨h.goto .drain nofun (hready hpc nofun) rfl hbeside, .notify (by simp [hpc]) ?_ ?_⟩
    · exact not_released (c := c) (by simp [hpc]) (by simp [hpc])
    · intro c'
      rcases c.eq_or_other c' with rfl | rfl
      · exact .inl (update_self ..)
      · exact .inr ((update_of_ne c.other_ne ..).trans hbeside)
  | drain =>
    simp only [hpc] at hstep
    cases hstep
    refine ⟨h.goto .done nofun (hready hpc nofun) rfl trivial, .drain (forall_congr' fun c' => ?_)⟩
    by_cases hc : c' = c
    · simp [hc, hpc]
    · simp [hc]
  | done =>
    simp only [hpc] at hstep
    cases hstep

theorem Handlers.same (h : Handlers s) (hready : s'.ready = s.ready)
    (hhandler : s'.handler = s.handler) : Handlers s' :=
  ⟨by rw [hready, hhandler]; exact h.ready, by rw [hhandler]; exact h.beside⟩

/-! ### How far everybody is -/

theorem Announced.start (h : Announced s) (hnot : ¬ Released s) :
    ∃ w, s.primary = .start w ∧ s.sync = 0 := by
  unfold Announced at h
  split at h
  · rename_i w hpc
    exact ⟨w, hpc, (h.resolve_right fun hr => hnot hr.2).1⟩
  · exact absurd h hnot

theorem Announced.handler (h : Announced s) (hstep : HandlerStep s c s') : Announced s' := by
  cases hstep with
  | look _ _ hnot hnot' =>
    obtain ⟨w, hpc, hsync⟩ := h.start hnot
    simp only [hpc]
    exact .inl ⟨hsync, hnot'⟩
  | notify _ hnot hrel =>
    obtain ⟨w, hpc, hsync⟩ := h.start hnot
    unfold Announced
    simp only [hpc]
    exact .inr ⟨trivial, hrel⟩
  | drain hiff =>
    have hsame : Released { s.wakeAll with handler := update s.handler c .done } ↔ Released s :=
      hiff.symm
    unfold Announced at h ⊢
    simp only [hsame]
    exact h

theorem Progress.handler (h : Progress s) (ha : Announced s) (hstep : HandlerStep s c s') :
    Progress s' := by
  cases hstep with
  | look => exact h
  | drain => exact h
  | notify _ hnot =>
    obtain ⟨w, hpc, -⟩ := ha.start hnot
    unfold Progress at h ⊢
    simp only [hpc] at h ⊢
    obtain ⟨htrained, v, w', hsec, hv⟩ := h
    exact ⟨htrained, v, w', hsec, hv.imp_right fun hv => ⟨hv.1, trivial⟩⟩

/-- The secondary sleeps, or is woken up. -/
theorem Progress.waiting (hp : Progress s) {v w w'}
    (hsec : s.secondary = .wait v w) (listed : TrainingThread → Bool) :
    Progress { s with listed := listed, secondary := .wait v w' } := by
  unfold Progress at hp ⊢
  cases hpc : s.primary with
  | start =>
    simp only [hpc] at hp ⊢
    obtain ⟨htrained, v', w₀, hsec', hv⟩ := hp
    rw [hsec] at hsec'
    cases hsec'
    exact ⟨htrained, v, w', rfl, hv⟩
  | died => simp only [hpc] at hp
  | drain | train | wait =>
    simp only [hpc, hsec, reduceCtorEq, and_false, false_or] at hp ⊢
    exact hp
  | drainEnd | done =>
    simp only [hpc, hsec, reduceCtorEq, or_false] at hp ⊢
    exact hp
  | _ =>
    simp only [hpc, hsec] at hp ⊢
    exact hp

/-- What the secondary reads while it waits. -/
theorem Progress.read (hp : Progress s) (ha : Announced s) {v w}
    (hsec : s.secondary = .wait v w) (hne : s.sync ≠ v) :
    s.sync = 3 ∧ Progress { s with secondary := .done } ∨
    s.sync = 2 ∧ Progress { s with secondary := .train, started := s.started + 1 } ∨
    (s.sync = 0 ∨ s.sync = 1) ∧ Progress { s with secondary := .wait s.sync .load } := by
  unfold Progress at hp ⊢
  cases hpc : s.primary with
  | start =>
    unfold Announced at ha
    simp only [hpc] at hp ha ⊢
    obtain ⟨htrained, -⟩ := hp
    have hsync : s.sync = 0 ∨ s.sync = 1 := ha.imp And.left And.left
    exact .inr (.inr ⟨hsync, htrained, _, _, rfl, hsync.imp_right fun h => ⟨h, h⟩⟩)
  | clear k | notifyEnd =>
    simp only [hpc] at hp ⊢
    exact .inr (.inr ⟨.inr hp.1, hp.1, hp.2.1, .inr hp.1⟩)
  | switch k | notify k =>
    simp only [hpc] at hp ⊢
    exact .inr (.inr ⟨.inl hp.1, hp.1, hp.2.1, .inl hp.1⟩)
  | drain k | train k | wait k =>
    simp only [hpc, hsec, reduceCtorEq, and_false, false_or] at hp ⊢
    rcases hp with ⟨hsync, htrained, -⟩ | ⟨hsync, -, hreported⟩
    · have htrains : Trained { s with started := s.started + 1 } (k.index + 1) k.index :=
        ⟨congrArg Nat.succ htrained.1, htrained.2⟩
      exact .inr (.inl ⟨hsync, .inr (.inl ⟨hsync, htrains, trivial⟩)⟩)
    · exact absurd (hsync.trans (Eq.symm hreported)) hne
  | drainEnd | done =>
    simp only [hpc] at hp ⊢
    exact .inl ⟨hp.1, hp.1, hp.2.1, .inr trivial⟩
  | died => simp only [hpc] at hp

/-- Channel 1 has been trained. -/
theorem Progress.trained (hp : Progress s) (hsec : s.secondary = .train) :
    Progress { s with secondary := .notify, finished := s.finished + 1 } := by
  unfold Progress at hp ⊢
  cases hpc : s.primary with
  | start =>
    simp only [hpc, hsec, reduceCtorEq, false_and, exists_false, and_false] at hp
  | drain k | train k | wait k =>
    simp only [hpc, hsec, SecondaryPc.Idle, SecondaryPc.Reported, reduceCtorEq, and_false, false_or,
      or_false, and_true] at hp ⊢
    exact ⟨hp.1, hp.2.1, congrArg Nat.succ hp.2.2⟩
  | _ => simp only [hpc, hsec, SecondaryPc.Idle, reduceCtorEq, and_false, or_false] at hp

/-- `ddrinit_notify(st, 1)` of the secondary comes in the middle of a round. -/
theorem Progress.reports (hp : Progress s) (ha : Announced s) (hsec : s.secondary = .notify) :
    Progress { s with sync := 1, secondary := .drain } ∧
      Announced { s with sync := 1, secondary := .drain } := by
  unfold Progress at hp ⊢
  unfold Announced at ha ⊢
  cases hpc : s.primary with
  | start =>
    simp only [hpc, hsec, reduceCtorEq, false_and, exists_false, and_false] at hp
  | drain k | train k | wait k =>
    simp only [hpc, hsec, SecondaryPc.Idle, SecondaryPc.Reported, reduceCtorEq, and_false, false_or,
      or_false, and_true] at hp ha ⊢
    exact ⟨.inr ⟨trivial, hp.2⟩, ha⟩
  | _ => simp only [hpc, hsec, SecondaryPc.Idle, reduceCtorEq, and_false, or_false] at hp

/-- The secondary waits again, with 1 as what it has seen. -/
theorem Progress.rests (hp : Progress s) (hsec : s.secondary = .drain) :
    Progress { s.wakeAll with secondary := .wait 1 .load } := by
  unfold Progress at hp ⊢
  cases hpc : s.primary with
  | start =>
    simp only [hpc, hsec, reduceCtorEq, false_and, exists_false, and_false] at hp
  | died => simp only [hpc] at hp
  | _ =>
    simp only [TrainingState.wakeAll, hpc, hsec, SecondaryPc.Idle, SecondaryPc.Reported,
      reduceCtorEq, and_false, false_or, or_false, and_true, or_true] at hp ⊢
    exact hp

/-! ### Who wakes a sleeper -/

/-- The value a sleeping thread has seen. -/
def PrimaryPc.sleepsOn : PrimaryPc → Option Nat
  | .start .asleep => some 0
  | .wait _ .asleep => some 2
  | _ => none

@[inherit_doc PrimaryPc.sleepsOn]
def SecondaryPc.sleepsOn : SecondaryPc → Option Nat
  | .wait v .asleep => some v
  | _ => none

/-- About to empty the list of waiters. -/
def PrimaryPc.Drains : PrimaryPc → Prop
  | .start w | .wait _ w => w = .requeue
  | .drain _ | .drainEnd => True
  | _ => False

@[inherit_doc PrimaryPc.Drains]
def SecondaryPc.Drains : SecondaryPc → Prop
  | .wait _ w => w = .requeue
  | .drain => True
  | _ => False

/-- The store of 0 wakes nobody up; the notification that follows does. -/
def PrimaryPc.Switches : PrimaryPc → Prop
  | .switch _ | .notify _ => True
  | _ => False

def Draining (s : TrainingState) : Prop :=
  (∃ c, s.handler c = .drain) ∨ s.primary.Drains ∨ s.secondary.Drains

/-- A listed sleeper has seen the present value, or is going to be woken up. -/
structure Attended (s : TrainingState) : Prop where
  primary : ∀ v, s.primary.sleepsOn = some v → s.listed .primary → s.sync = v ∨ Draining s
  secondary : ∀ v, s.secondary.sleepsOn = some v → s.listed .secondary →
    s.sync = v ∨ Draining s ∨ s.primary.Switches

theorem PrimaryPc.not_drains_of_sleepsOn {pc : PrimaryPc} {v} (h : pc.sleepsOn = some v) :
    ¬ pc.Drains := by
  unfold sleepsOn at h
  split at h <;> simp_all [Drains]

theorem SecondaryPc.not_drains_of_sleepsOn {pc : SecondaryPc} {v}
    (h : pc.sleepsOn = some v) : ¬ pc.Drains := by
  unfold sleepsOn at h
  split at h <;> simp_all [Drains]

theorem Attended.of_empty (h : ∀ t, s.listed t = false) : Attended s :=
  ⟨fun _ _ hl => absurd hl (by simp [h]), fun _ _ hl => absurd hl (by simp [h])⟩

theorem Attended.of_draining (h : Draining s) : Attended s :=
  ⟨fun _ _ _ => .inr h, fun _ _ _ => .inr (.inl h)⟩

/-- The primary stores 0 and changes the frequency. -/
theorem Attended.of_switches (h : s.primary.Switches) : Attended s := by
  refine ⟨fun v hv _ => ?_, fun _ _ _ => .inr (.inr h)⟩
  unfold PrimaryPc.Switches at h
  split at h <;> simp_all [PrimaryPc.sleepsOn]

theorem Attended.handler (h : Attended s) (hstep : HandlerStep s c s') : Attended s' := by
  cases hstep with
  | @look ready pc hc _ _ _ =>
    have hdrain : Draining s →
        Draining { s with ready := ready, handler := update s.handler c pc } := by
      refine Or.imp_left fun ⟨c', hc'⟩ => ⟨c', ?_⟩
      have hne : c' ≠ c := fun heq => hc (heq ▸ hc')
      exact (update_of_ne hne ..).trans hc'
    exact ⟨fun v hv hl => (h.primary v hv hl).imp_right hdrain,
      fun v hv hl => (h.secondary v hv hl).imp_right (Or.imp_left hdrain)⟩
  | notify => exact .of_draining (.inl ⟨c, update_self ..⟩)
  | drain => exact .of_empty fun _ => rfl

/-- The primary goes on without a store. -/
theorem Attended.of_primary (h : Attended s) {listed : TrainingThread → Bool} {pc : PrimaryPc}
    (hlisted : ∀ t ≠ .primary, listed t → s.listed t) (hdrains : ¬ s.primary.Drains)
    (hswitches : ¬ s.primary.Switches)
    (hsleeps : ∀ v, pc.sleepsOn = some v → s.sync = v ∨ ∀ t, listed t = false) :
    Attended { s with listed := listed, primary := pc } := by
  refine ⟨fun v hv hl => (hsleeps v hv).imp_right fun hnone => ?_, fun v hv hl => ?_⟩
  · exact absurd hl (by simp [hnone])
  · refine (h.secondary v hv (hlisted _ nofun hl)).imp_right fun hdrain => .inl (.inl ?_)
    rcases hdrain with (hhandler | hprimary | hsecondary) | hprimary
    · exact hhandler
    · exact absurd hprimary hdrains
    · exact absurd hsecondary (SecondaryPc.not_drains_of_sleepsOn hv)
    · exact absurd hprimary hswitches

/-- The secondary goes on without a store. -/
theorem Attended.of_secondary (h : Attended s) {listed : TrainingThread → Bool} (pc : SecondaryPc)
    (hlisted : ∀ t ≠ .secondary, listed t → s.listed t) (hdrains : ¬ s.secondary.Drains)
    (hsleeps : ∀ v, pc.sleepsOn = some v → s.sync = v ∨ ∀ t, listed t = false)
    (started finished : Nat) :
    Attended { s with
      listed := listed, secondary := pc, started := started, finished := finished } := by
  refine ⟨fun v hv hl => ?_, fun v hv hl => (hsleeps v hv).imp_right fun hnone => ?_⟩
  · refine (h.primary v hv (hlisted _ nofun hl)).imp_right fun hdrain => .inl ?_
    rcases hdrain with hhandler | hprimary | hsecondary
    · exact hhandler
    · exact absurd hprimary (PrimaryPc.not_drains_of_sleepsOn hv)
    · exact absurd hsecondary hdrains
  · exact absurd hl (by simp [hnone])

/-- The primary waits. -/
theorem Attended.primaryWait (h : Attended s) {f : WaitPc → PrimaryPc} {next : Nat → PrimaryPc}
    {w val spurious} (hpc : s.primary = f w) (hf : f = .start ∧ val = 0 ∨ ∃ k, f = .wait k ∧ val = 2)
    (hnext : ∀ v, (next v).sleepsOn = none)
    (hstep : s.waitStep .primary val w spurious (fun s w => { s with primary := f w })
      (fun v => { s with primary := next v }) = some s') : Attended s' := by
  have hdrains : s.primary.Drains → w = .requeue := by
    rw [hpc]
    rcases hf with ⟨rfl, -⟩ | ⟨k, rfl, -⟩ <;> exact id
  have hswitches : ¬ s.primary.Switches := by
    rw [hpc]
    rcases hf with ⟨rfl, -⟩ | ⟨k, rfl, -⟩ <;> exact id
  rcases TrainingState.waitStep_cases hstep with
    ⟨rfl, -, rfl⟩ | ⟨listed, w', rfl, hlisted, hrequeue, hasleep⟩
  · exact h.of_primary (fun _ _ => id) (fun hd => nomatch hdrains hd) hswitches
      fun v hv => nomatch (hnext s.sync).symm.trans hv
  · by_cases hw : w = .requeue
    · exact .of_empty (hrequeue hw)
    · refine h.of_primary hlisted (mt hdrains hw) hswitches fun v hv => ?_
      rcases hf with ⟨rfl, rfl⟩ | ⟨k, rfl, rfl⟩ <;> cases w' <;> cases hv <;> exact hasleep rfl

end

/-! ## Every run -/

structure Invariant (s : TrainingState) : Prop where
  handlers : Handlers s
  announced : Announced s
  progress : Progress s
  attended : Attended s

theorem Invariant.initial : Invariant .initial where
  handlers := ⟨fun _ => ⟨nofun, fun h => absurd rfl h⟩, fun _ => .inl rfl⟩
  announced := .inl ⟨rfl, not_released (c := .c0) nofun nofun⟩
  progress := ⟨⟨rfl, rfl⟩, 0, .load, rfl, .inl rfl⟩
  attended := .of_empty fun _ => rfl

section
variable {s s' : TrainingState} (h : Invariant s)
include h

theorem Invariant.primaryStep {spurious} (hstep : s.primaryStep spurious = some s') : Invariant s' := by
  obtain ⟨hh, ha, hp, hattended⟩ := h
  unfold TrainingState.primaryStep at hstep
  unfold Progress at hp
  unfold Announced at ha
  cases hpc : s.primary with
  | start w =>
    simp only [hpc] at hstep hp ha
    replace hattended := hattended.primaryWait hpc (.inl ⟨rfl, rfl⟩) (by intro v; split <;> rfl) hstep
    rcases TrainingState.waitStep_cases hstep with ⟨-, hne, rfl⟩ | ⟨listed, w', rfl, -⟩
    · obtain ⟨hsync, hrel⟩ := ha.resolve_left fun h => hne h.1
      obtain ⟨htrained, v, w', hsec, hv⟩ := hp
      have hidle : s.secondary.Idle := by
        rw [hsec]
        exact hv.imp_right And.left
      rw [if_neg (not_not.mpr hsync)] at hattended ⊢
      exact ⟨hh.same rfl rfl, hrel, ⟨hsync, htrained, hidle⟩, hattended⟩
    · exact ⟨hh.same rfl rfl, ha, hp, hattended⟩
  | wait k w =>
    simp only [hpc] at hstep hp ha
    replace hattended := hattended.primaryWait hpc (.inr ⟨k, rfl, rfl⟩)
      (by intro v; split <;> [rfl; split <;> rfl]) hstep
    rcases TrainingState.waitStep_cases hstep with ⟨-, hne, rfl⟩ | ⟨listed, w', rfl, -⟩
    · obtain ⟨hsync, htrained, hreported⟩ := ((hp.resolve_left fun h => hne h.1).resolve_left
        fun h => hne h.1).resolve_left fun h => hne h.1
      rw [if_neg (not_not.mpr hsync)] at hattended ⊢
      cases k <;> exact ⟨hh.same rfl rfl, ha, ⟨hsync, htrained, hreported.idle⟩, hattended⟩
    · exact ⟨hh.same rfl rfl, ha, hp, hattended⟩
  | clear k =>
    simp only [hpc] at hstep hp ha
    cases hstep
    exact ⟨hh.same rfl rfl, ha, ⟨rfl, hp.2⟩, .of_switches trivial⟩
  | switch k =>
    simp only [hpc] at hstep hp ha
    cases hstep
    exact ⟨hh.same rfl rfl, ha, hp, .of_switches trivial⟩
  | notify k =>
    simp only [hpc] at hstep hp ha
    cases hstep
    exact ⟨hh.same rfl rfl, ha, .inl ⟨rfl, hp.2⟩, .of_draining (.inr (.inl trivial))⟩
  | drain k | drainEnd =>
    simp only [hpc] at hstep hp ha
    cases hstep
    exact ⟨hh.same rfl rfl, ha, hp, .of_empty fun _ => rfl⟩
  | train k =>
    simp only [hpc] at hstep hp ha
    cases hstep
    exact ⟨hh.same rfl rfl, ha, hp, hattended.of_primary (fun _ _ => id)
      (by simp [hpc, PrimaryPc.Drains]) (by simp [hpc, PrimaryPc.Switches]) nofun⟩
  | notifyEnd =>
    simp only [hpc] at hstep hp ha
    cases hstep
    exact ⟨hh.same rfl rfl, ha, ⟨rfl, hp.2.1, .inl hp.2.2⟩, .of_draining (.inr (.inl trivial))⟩
  | done | died =>
    simp only [hpc] at hstep
    cases hstep

theorem Invariant.secondaryStep {spurious} (hstep : s.secondaryStep spurious = some s') :
    Invariant s' := by
  obtain ⟨hh, ha, hp, hattended⟩ := h
  unfold TrainingState.secondaryStep at hstep
  cases hsec : s.secondary with
  | wait v w =>
    simp only [hsec] at hstep
    rcases TrainingState.waitStep_cases hstep with
      ⟨rfl, hne, rfl⟩ | ⟨listed, w', rfl, hlisted, hrequeue, hasleep⟩
    · have hdrains : ¬ s.secondary.Drains := by simp [hsec, SecondaryPc.Drains]
      rcases hp.read ha hsec hne with ⟨hsync, hp'⟩ | ⟨hsync, hp'⟩ | ⟨hsync, hp'⟩
      · rw [if_pos hsync]
        exact ⟨hh.same rfl rfl, ha, hp', hattended.of_secondary .done (fun _ _ => id) hdrains nofun _ _⟩
      · rw [if_neg (by omega), if_neg (by omega)]
        exact ⟨hh.same rfl rfl, ha, hp', hattended.of_secondary .train (fun _ _ => id) hdrains nofun _ _⟩
      · rw [if_neg (by omega), if_pos (by omega)]
        exact ⟨hh.same rfl rfl, ha, hp',
          hattended.of_secondary (.wait _ .load) (fun _ _ => id) hdrains nofun _ _⟩
    · refine ⟨hh.same rfl rfl, ha, hp.waiting hsec listed, ?_⟩
      by_cases hw : w = .requeue
      · exact .of_empty (hrequeue hw)
      · refine hattended.of_secondary _ hlisted (by simpa [hsec, SecondaryPc.Drains] using hw)
          (fun v hv => ?_) s.started s.finished
        cases w' <;> cases hv
        exact hasleep rfl
  | train =>
    simp only [hsec] at hstep
    cases hstep
    exact ⟨hh.same rfl rfl, ha, hp.trained hsec, hattended.of_secondary .notify (fun _ _ => id)
      (by simp [hsec, SecondaryPc.Drains]) nofun _ _⟩
  | notify =>
    simp only [hsec] at hstep
    cases hstep
    obtain ⟨hp', ha'⟩ := hp.reports ha hsec
    exact ⟨hh.same rfl rfl, ha', hp', .of_draining (.inr (.inr trivial))⟩
  | drain =>
    simp only [hsec] at hstep
    cases hstep
    exact ⟨hh.same rfl rfl, ha, hp.rests hsec, .of_empty fun _ => rfl⟩
  | done =>
    simp only [hsec] at hstep
    cases hstep

theorem Invariant.step {a} (hserial : Serial a s) (hstep : s.step a = some s') : Invariant s' := by
  cases a with
  | handler c =>
    obtain ⟨hhandlers, hstep⟩ := h.handlers.step hserial hstep
    exact ⟨hhandlers, h.announced.handler hstep, h.progress.handler h.announced hstep,
      h.attended.handler hstep⟩
  | thread t spurious =>
    cases t with
    | primary => exact h.primaryStep hstep
    | secondary => exact h.secondaryStep hstep

end

theorem TrainingRun.invariant {s} (h : TrainingRun Serial s) : Invariant s := by
  induction h with
  | initial => exact .initial
  | step a _ hserial hstep ih => exact ih.step hserial hstep

/-! ## What the hand-shake is for -/

/-- No thread stops with a sync error; channel 1 is trained once in each round, never during a change
of the frequency; the secondary returns on 3; and as long as something is left to do, somebody can go
on without being woken up for no reason. -/
structure Handshake (s : TrainingState) : Prop where
  noSyncError : s.primary ≠ .died
  beforeRound : ∀ k, s.primary = .clear k ∨ s.primary = .switch k ∨ s.primary = .notify k →
    s.started = k.index ∧ s.finished = k.index
  afterRounds : s.primary = .notifyEnd ∨ s.primary = .drainEnd ∨ s.primary = .done →
    s.started = 2 ∧ s.finished = 2
  exclusive : ∀ k, s.primary = .switch k → s.secondary ≠ .train
  returns : s.secondary = .done → s.sync = 3
  live : (∀ c, s.step (.handler c) = none) → (∀ t, s.step (.thread t false) = none) →
    (∀ c, s.handler c = .done) ∧ s.primary = .done ∧ s.secondary = .done

section
variable {s : TrainingState}

theorem TrainingState.waitStep_none {t val w goto} {ret}
    (h : s.waitStep t val w false goto ret = none) : w = .asleep ∧ s.listed t := by
  cases w with
  | asleep =>
    refine ⟨rfl, ?_⟩
    by_contra hl
    simp [waitStep, hl] at h
  | _ => simp [waitStep] at h

theorem primary_blocked (h : s.primaryStep false = none) (hdied : s.primary ≠ .died) :
    s.primary = .done ∨
      (∃ v, s.primary.sleepsOn = some v ∧ (v = 0 ∨ v = 2)) ∧ s.listed .primary := by
  unfold TrainingState.primaryStep at h
  cases hpc : s.primary with
  | start w =>
    simp only [hpc] at h
    obtain ⟨rfl, hl⟩ := TrainingState.waitStep_none h
    exact .inr ⟨⟨0, rfl, .inl rfl⟩, hl⟩
  | wait k w =>
    simp only [hpc] at h
    obtain ⟨rfl, hl⟩ := TrainingState.waitStep_none h
    exact .inr ⟨⟨2, rfl, .inr rfl⟩, hl⟩
  | done => exact .inl rfl
  | died => exact absurd hpc hdied
  | _ => simp [hpc] at h

theorem secondary_blocked (h : s.secondaryStep false = none) :
    s.secondary = .done ∨ ∃ v, s.secondary = .wait v .asleep ∧ s.listed .secondary := by
  unfold TrainingState.secondaryStep at h
  cases hpc : s.secondary with
  | wait v w =>
    simp only [hpc] at h
    obtain ⟨rfl, hl⟩ := TrainingState.waitStep_none h
    exact .inr ⟨v, rfl, hl⟩
  | done => exact .inl rfl
  | _ => simp [hpc] at h

theorem handler_blocked {c} (h : s.handlerStep c = none) : s.handler c = .done := by
  unfold TrainingState.handlerStep at h
  cases hpc : s.handler c with
  | done => rfl
  | _ => simp [hpc] at h

theorem Progress.not_died (h : Progress s) : s.primary ≠ .died := by
  intro hpc
  simp only [Progress, hpc] at h

/-- A thread that can only be woken up for no reason has seen the present value. -/
theorem Invariant.seen (h : Invariant s) (hhandlers : ∀ c, s.handler c = .done)
    (hprimary : s.primaryStep false = none) (hsecondary : s.secondaryStep false = none) :
    (∀ v, s.primary.sleepsOn = some v → s.listed .primary → s.sync = v) ∧
    ∀ v, s.secondary = .wait v .asleep → s.listed .secondary → s.sync = v := by
  have hp : ¬ s.primary.Drains ∧ ¬ s.primary.Switches := by
    rcases primary_blocked hprimary h.progress.not_died with hpc | ⟨⟨v, hv, -⟩, -⟩
    · simp [hpc, PrimaryPc.Drains, PrimaryPc.Switches]
    · refine ⟨PrimaryPc.not_drains_of_sleepsOn hv, fun hsw => ?_⟩
      unfold PrimaryPc.sleepsOn at hv
      split at hv <;> simp_all [PrimaryPc.Switches]
  have hs : ¬ s.secondary.Drains := by
    rcases secondary_blocked hsecondary with hpc | ⟨v, hpc, -⟩ <;>
      simp [hpc, SecondaryPc.Drains]
  have hdrain : ¬ Draining s := by
    rintro (⟨c, hc⟩ | hd | hd)
    · rw [hhandlers c] at hc
      cases hc
    · exact hp.1 hd
    · exact hs hd
  refine ⟨fun v hv hl => (h.attended.primary v hv hl).resolve_right hdrain, fun v hv hl => ?_⟩
  have hsleeps : s.secondary.sleepsOn = some v := by rw [hv]; rfl
  exact (h.attended.secondary v hsleeps hl).resolve_right (not_or.mpr ⟨hdrain, hp.2⟩)

theorem Invariant.live (h : Invariant s) (hhandlers : ∀ c, s.handler c = .done)
    (hprimary : s.primaryStep false = none) (hsecondary : s.secondaryStep false = none) :
    s.primary = .done ∧ s.secondary = .done := by
  obtain ⟨hseen, hseen'⟩ := h.seen hhandlers hprimary hsecondary
  have hprogress := h.progress
  have hannounced := h.announced
  have hreleased : Released s := fun c => .inr (hhandlers c)
  -- A sleeping secondary has seen 0 or 1, and the value is another one.
  have hidle : ∀ v, s.sync = v → v ≠ 0 ∧ v ≠ 1 → ¬ s.secondary.Idle := by
    rintro v hsync hv hidle
    rcases secondary_blocked hsecondary with hpc | ⟨v', hpc, hl⟩
    · simp [hpc, SecondaryPc.Idle] at hidle
    · have := hseen' v' hpc hl
      simp only [hpc, SecondaryPc.Idle] at hidle
      omega
  have hmiddle : s.secondary ≠ .train ∧ s.secondary ≠ .notify := by
    rcases secondary_blocked hsecondary with hpc | ⟨v', hpc, hl⟩ <;> simp [hpc]
  rcases primary_blocked hprimary hprogress.not_died with hpc | ⟨⟨v, hv, -⟩, hl⟩
  · unfold Progress at hprogress
    simp only [hpc] at hprogress
    obtain ⟨hsync, -, hsec⟩ := hprogress
    exact ⟨hpc, hsec.resolve_left (hidle 3 hsync (by decide))⟩
  · have hsync := hseen v hv hl
    exfalso
    unfold Progress at hprogress
    unfold Announced at hannounced
    unfold PrimaryPc.sleepsOn at hv
    split at hv
    · rename_i hpc
      cases hv
      simp only [hpc] at hannounced
      rcases hannounced with ⟨-, hnot⟩ | ⟨hone, -⟩
      · exact hnot hreleased
      · omega
    · rename_i hpc
      cases hv
      simp only [hpc] at hprogress
      rcases hprogress with ⟨-, -, hsec⟩ | ⟨-, -, hsec⟩ | ⟨-, -, hsec⟩ | ⟨hone, -⟩
      · exact hidle 2 hsync (by decide) hsec
      · exact hmiddle.1 hsec
      · exact hmiddle.2 hsec
      · omega
    · cases hv

end

/-- The hand-shake of the training is kept in every interleaving in which the two handlers run one
after the other. -/
theorem training_handshake {s : TrainingState} (h : TrainingRun Serial s) : Handshake s := by
  have hinv := h.invariant
  have hprogress := hinv.progress
  unfold Progress at hprogress
  refine ⟨hinv.progress.not_died, fun k hpc => ?_, fun hpc => ?_, fun k hpc htrain => ?_,
    fun hdone => ?_, fun hhandlers hthreads => ?_⟩
  · rcases hpc with hpc | hpc | hpc <;> simp only [hpc] at hprogress <;> exact hprogress.2.1
  · rcases hpc with hpc | hpc | hpc <;> simp only [hpc] at hprogress <;> exact hprogress.2.1
  · simp [hpc, htrain, SecondaryPc.Idle] at hprogress
  · split at hprogress <;>
      simp [hdone, SecondaryPc.Idle, SecondaryPc.Reported] at hprogress <;> exact hprogress.1
  · have hdone : ∀ c, s.handler c = .done := fun c => handler_blocked (hhandlers c)
    exact ⟨hdone, hinv.live hdone (hthreads .primary) (hthreads .secondary)⟩

/-! ## Concrete runs -/

def trainingExec (P : Actor → TrainingState → Prop) [∀ a s, Decidable (P a s)] :
    List Actor → TrainingState → Option TrainingState
  | [], s => some s
  | a :: as, s => if P a s then (s.step a).bind (trainingExec P as) else none

theorem TrainingRun.exec {P : Actor → TrainingState → Prop} [∀ a s, Decidable (P a s)]
    {as s s'} (h : TrainingRun P s) (hexec : trainingExec P as s = some s') : TrainingRun P s' := by
  induction as generalizing s with
  | nil => cases hexec; exact h
  | cons a as ih =>
    unfold trainingExec at hexec
    split at hexec
    · obtain ⟨s₁, hstep, hexec⟩ := Option.bind_eq_some_iff.mp hexec
      exact ih (h.step a ‹_› hstep) hexec
    · cases hexec

/-- The handlers one after the other, then each thread as soon as it can go on. -/
def wholeTraining : List Actor :=
  [.handler .c0, .handler .c0] ++ List.replicate 4 (.handler .c1) ++
    List.replicate 6 (.thread .primary false) ++ List.replicate 4 (.thread .secondary false) ++
    List.replicate 6 (.thread .primary false) ++ List.replicate 4 (.thread .secondary false) ++
    List.replicate 3 (.thread .primary false) ++ [.thread .secondary false]

theorem training_handshake_whole : ∃ s, TrainingRun Serial s ∧ s.primary = .done ∧
    s.secondary = .done ∧ Handshake s := by
  have hexec : (trainingExec Serial wholeTraining .initial).map
      (fun s => (s.primary, s.secondary)) = some (.done, .done) := by decide
  obtain ⟨s, hrun, hpcs⟩ := Option.map_eq_some_iff.mp hexec
  obtain ⟨hprimary, hsecondary⟩ := Prod.mk.inj hpcs
  have h : TrainingRun Serial s := TrainingRun.initial.exec hrun
  exact ⟨s, h, hprimary, hsecondary, training_handshake h⟩

/-- Both handlers see that both channels are ready, and the second one stores 1 while channel 1
trains. -/
def overlappingHandlers : List Actor :=
  [.handler .c0, .handler .c1, .handler .c0, .handler .c1, .handler .c0, .handler .c0] ++
    List.replicate 6 (.thread .primary false) ++ [.thread .secondary false, .handler .c1] ++
    List.replicate 2 (.thread .primary false)

/-- If the handlers could overlap, the frequency could change while channel 1 trains. -/
theorem switch_while_training : ∃ s, TrainingRun (fun _ _ => True) s ∧
    s.primary = .switch .second ∧ s.secondary = .train := by
  have hexec : (trainingExec (fun _ _ => True) overlappingHandlers .initial).map
      (fun s => (s.primary, s.secondary)) = some (.switch .second, .train) := by decide
  obtain ⟨s, hrun, hpcs⟩ := Option.map_eq_some_iff.mp hexec
  obtain ⟨hprimary, hsecondary⟩ := Prod.mk.inj hpcs
  exact ⟨s, TrainingRun.initial.exec hrun, hprimary, hsecondary⟩

end Rkboot.Dram
