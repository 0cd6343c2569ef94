import Rkboot.Sched.Interleaving

/-! # Waiting for a variable

`sched_finish_u32` and its siblings queue a continuation on a wait list, look at the variable once more
and empty the list if it has changed. A notifier stores to the variable and empties the list. Their
calls run on the queues of `Rkboot.Sched.Runqueue`. -/
namespace Rkboot.Sched
open Lib Function List

/-- The `sched_finish_*` functions by the type of the variable, with the arguments that say for
which of its values the continuation waits. -/
inductive Finish : Type → Type where
  | u32 (mask expected : UInt64) : Finish UInt32
  | u8 (mask expected : UInt64) : Finish UInt8
  | u8ptr (expected : UInt64) : Finish UInt64
  | u16 (mask expected : UInt64) : Finish UInt16

/-- `(val & mask) == expected`, or `val == expected`; `finish_u16` loads into a `u8`. -/
def Finish.Waits {V : Type} : Finish V → V → Prop
  | .u32 mask expected, val => val.toUInt64 &&& mask = expected
  | .u8 mask expected, val => val.toUInt64 &&& mask = expected
  | .u8ptr expected, val => val = expected
  | .u16 mask expected, val => val.toUInt8.toUInt64 &&& mask = expected

instance {V : Type} (f : Finish V) (val : V) : Decidable (f.Waits val) :=
  match V, f, val with
  | _, .u32 _ _, _ => inferInstanceAs (Decidable (_ = _))
  | _, .u8 _ _, _ => inferInstanceAs (Decidable (_ = _))
  | _, .u8ptr _, _ => inferInstanceAs (Decidable (_ = _))
  | _, .u16 _ _, _ => inferInstanceAs (Decidable (_ = _))

/-- What is left of a `sched_finish_*` call: it queues its continuation, or has done so and is about to
load the variable. -/
inductive Job (R V : Type) where
  | idle
  | enqueue (r : R) (f : Finish V)
  | check (r : R) (f : Finish V)

/-- The queues, the variable, and what every thread is doing. -/
structure WaitState (R W T V : Type) where
  sched : State R W T
  var : V
  job : T → Job R V

inductive WaitEvent (R V : Type) where
  | silent
  | enqueued (r : R) (f : Finish V)
  | stored (v : V)

section
variable {R W T V : Type}

/-- The compare-exchange of `sched_queue_single` leads on to the load. -/
def Job.linked : Job R V → WaitEvent R V × Job R V
  | .enqueue r f => (.enqueued r f, .check r f)
  | j => (.silent, j)

/-- No call is in progress. -/
def WaitState.Finished (s : WaitState R W T V) : Prop :=
  ∀ t, s.job t = .idle ∧ s.sched.pc t = .idle

variable [DecidableEq R] [DecidableEq W] [DecidableEq T]

/-- A thread is in a call of `sched_queue_list(CURRENT_RUNQUEUE, list)`. -/
def State.drain (s : State R W T) (w : W) (t : T) : State R W T :=
  { s with pc := update s.pc t (schedQueueList none w) }

/-- The steps of the waiting threads, the notifiers and the consumer, all on the wait list `w`. -/
inductive WaitStep (w : W) : WaitState R W T V → WaitEvent R V → WaitState R W T V → Prop where
  | own {s : WaitState R W T V} (r : R) (v : Option R) : ¬ s.sched.Busy r →
      WaitStep w s .silent { s with sched := { s.sched with next := update s.sched.next r v } }
  | finish {s : WaitState R W T V} (t : T) (r : R) (f : Finish V) :
      s.job t = .idle → s.sched.pc t = .idle → ¬ s.sched.Busy r →
      WaitStep w s .silent { s with
        sched := { s.sched with pc := update s.sched.pc t (schedQueueSingle (some (.wait w)) r) }
        job := update s.job t (.enqueue r f) }
  | atomic {s : WaitState R W T V} {e : Event R W} {sched : State R W T} (fuel : Nat)
      (spurious : Bool) (t : T) : s.sched.atomicStep fuel spurious t = some (e, sched) →
      (∀ list o, e ≠ .linked list o) → WaitStep w s .silent { s with sched := sched }
  | linked {s : WaitState R W T V} {list : ListId W} {o : Offer R} {sched : State R W T}
      (fuel : Nat) (spurious : Bool) (t : T) :
      s.sched.atomicStep fuel spurious t = some (.linked list o, sched) →
      WaitStep w s (s.job t).linked.1
        { s with sched := sched, job := update s.job t (s.job t).linked.2 }
  | stay {s : WaitState R W T V} (t : T) (r : R) (f : Finish V) : s.job t = .check r f →
      f.Waits s.var → WaitStep w s .silent { s with job := update s.job t .idle }
  | requeue {s : WaitState R W T V} (t : T) (r : R) (f : Finish V) : s.job t = .check r f →
      ¬ f.Waits s.var →
      WaitStep w s .silent { s with sched := s.sched.drain w t, job := update s.job t .idle }
  | store {s : WaitState R W T V} (t : T) (v : V) : s.job t = .idle → s.sched.pc t = .idle →
      WaitStep w s (.stored v) { s with sched := s.sched.drain w t, var := v }
  | unqueue {s : WaitState R W T V} {res : Option R} {sched : State R W T} (fuel : Nat) :
      s.sched.schedUnqueue fuel = some (res, sched) → WaitStep w s .silent { s with sched := sched }

/-- A run from a value of the variable, with what happened in it. -/
inductive WaitRun (w : W) (v : V) : List (WaitEvent R V) → WaitState R W T V → Prop where
  | init {s : WaitState R W T V} : s.sched.Initial → (∀ t, s.job t = .idle) → s.var = v →
      WaitRun w v [] s
  | step {trace : List (WaitEvent R V)} {s s' : WaitState R W T V} {e : WaitEvent R V} :
      WaitRun w v trace s → WaitStep w s e s' → WaitRun w v (trace ++ [e]) s'

end

/-! ## What the trace says -/

section
variable {R V : Type}

/-- The value of the variable after the events. -/
def valueAfter (v : V) (trace : List (WaitEvent R V)) : V :=
  trace.foldl (fun v e => match e with | .stored v' => v' | _ => v) v

/-- The last call that queued `r` was one of `f`. -/
def LastEnqueued (trace : List (WaitEvent R V)) (r : R) (f : Finish V) : Prop :=
  ∃ before after, trace = before ++ .enqueued r f :: after ∧ ∀ f', .enqueued r f' ∉ after

/-- After `r` was queued there was a time at which the variable had a value it waits for, and nothing
was stored from then on. -/
def StillWaits (v : V) (trace : List (WaitEvent R V)) (r : R) (f : Finish V) : Prop :=
  ∃ before after, trace = before ++ after ∧ LastEnqueued before r f ∧ f.Waits (valueAfter v before) ∧
    (∀ f', .enqueued r f' ∉ after) ∧ ∀ v', .stored v' ∉ after

theorem LastEnqueued.snoc {trace : List (WaitEvent R V)} {r : R} {f : Finish V} {e : WaitEvent R V}
    (h : LastEnqueued trace r f) (he : ∀ f', e ≠ .enqueued r f') :
    LastEnqueued (trace ++ [e]) r f := by
  obtain ⟨before, after, rfl, hafter⟩ := h
  refine ⟨before, after ++ [e], by simp, fun f' hf' => ?_⟩
  rcases mem_append.mp hf' with hm | hm
  · exact hafter f' hm
  · exact he f' (mem_singleton.mp hm).symm

theorem valueAfter_snoc (v : V) (trace : List (WaitEvent R V)) (e : WaitEvent R V) :
    valueAfter v (trace ++ [e]) = match e with | .stored v' => v' | _ => valueAfter v trace := by
  rw [valueAfter, foldl_append]
  cases e <;> rfl

end

/-! ## The invariant -/

section
variable {R W T V : Type}

/-- The call queues its chain on the list. -/
def Pc.Queues (list : ListId W) : Pc R W → Prop
  | .load l _ | .cas l _ _ => l = list
  | _ => False

/-- Where in the queues a thread is, by its job. -/
def Job.At (w : W) : Job R V → Pc R W → Prop
  | .idle, pc => pc = .idle ∨ pc = .exchange none w ∨ pc.Queues .fresh
  | .enqueue r _, pc => pc.Queues (.wait w) ∧ pc.chain = [r]
  | .check _ _, pc => pc = .idle

/-- The continuation waits for the value the variable has, or somebody is about to find out. -/
def Attended (w : W) (s : WaitState R W T V) (r : R) (f : Finish V) : Prop :=
  f.Waits s.var ∨ ∃ t, s.sched.pc t = .exchange none w ∨ s.job t = .check r f

structure Waiting (w : W) (v : V) (trace : List (WaitEvent R V)) (s : WaitState R W T V)
    (lists : ListId W → List R) (head : List R) : Prop where
  holds : s.sched.Holds lists head
  value : valueAfter v trace = s.var
  jobs : ∀ t, (s.job t).At w (s.sched.pc t)
  waiters : ∀ r ∈ lists (.wait w), ∃ f, LastEnqueued trace r f ∧ Attended w s r f

variable [DecidableEq R] [DecidableEq W] [DecidableEq T] {w : W} {v : V}
  {trace : List (WaitEvent R V)} {s s' : WaitState R W T V} {lists lists' : ListId W → List R}
  {head head' : List R}

omit [DecidableEq R] [DecidableEq W] [DecidableEq T] in
/-- A silent step after which the list is as it was and nobody has forgotten about it. -/
theorem Waiting.silent (h : Waiting w v trace s lists head) (hholds : s'.sched.Holds lists' head')
    (hlist : lists' (.wait w) = lists (.wait w)) (hvar : s'.var = s.var)
    (hjobs : ∀ t, (s'.job t).At w (s'.sched.pc t))
    (hattended : ∀ r ∈ lists (.wait w), ∀ f, Attended w s r f → Attended w s' r f) :
    Waiting w v (trace ++ [.silent]) s' lists' head' where
  holds := hholds
  value := (valueAfter_snoc ..).trans (h.value.trans hvar.symm)
  jobs := hjobs
  waiters r hr := by
    rw [hlist] at hr
    obtain ⟨f, hlast, hat⟩ := h.waiters r hr
    exact ⟨f, hlast.snoc nofun, hattended r hr f hat⟩

omit [DecidableEq R] [DecidableEq W] in
theorem job_update {job : T → Job R V} {pc : T → Pc R W} (h : ∀ t, (job t).At w (pc t)) {t}
    {j : Job R V} {p} (hp : j.At w p) (t' : T) : (update job t j t').At w (update pc t p t') := by
  by_cases ht : t' = t
  · rwa [ht, update_self, update_self]
  · rw [update_of_ne ht, update_of_ne ht]
    exact h t'

omit [DecidableEq R] [DecidableEq W] [DecidableEq T] in
/-- A thread that has nothing to do with the list goes on. -/
theorem Attended.goto {r f} (h : Attended w s r f) {t}
    (hpc : s.sched.pc t ≠ .exchange none w) (hjob : ∀ r f, s.job t ≠ .check r f)
    (hother : ∀ t' ≠ t, s'.sched.pc t' = s.sched.pc t' ∧ s'.job t' = s.job t')
    (hvar : s'.var = s.var) : Attended w s' r f := by
  rw [Attended, hvar]
  refine h.imp_right fun ⟨t', ht'⟩ => ⟨t', ?_⟩
  have hne : t' ≠ t := by
    rintro rfl
    exact ht'.elim hpc (hjob r f)
  rw [(hother t' hne).1, (hother t' hne).2]
  exact ht'

omit [DecidableEq R] [DecidableEq W] [DecidableEq T] in
theorem Job.At.offered {j : Job R V} {pc list o} (h : j.At w pc)
    (hpc : pc = .load list o ∨ ∃ n, pc = .cas list o n) (next : Option R) :
    j.At w (.cas list o next) := by
  have hpc' : pc ≠ .idle ∧ pc ≠ .exchange none w ∧ pc.chain = o.chain ∧
      ∀ l, pc.Queues l ↔ list = l := by
    rcases hpc with rfl | ⟨n, rfl⟩ <;> exact ⟨nofun, nofun, rfl, fun _ => Iff.rfl⟩
  obtain ⟨hidle, hexchange, hchain, hqueues⟩ := hpc'
  cases j with
  | idle => exact .inr (.inr ((hqueues _).mp ((h.resolve_left hidle).resolve_left hexchange)))
  | enqueue r f => exact ⟨(hqueues _).mp h.1, hchain.symm.trans h.2⟩
  | check r f => exact absurd h hidle

omit [DecidableEq R] in
/-- Whoever is about to empty the list will find all continuations on it. -/
theorem Waiting.drain (h : Waiting w v trace s lists head) (t : T) {e}
    (he : ∀ r f, e ≠ .enqueued r f) {var} (hvar : valueAfter v (trace ++ [e]) = var) :
    Waiting w v (trace ++ [e])
      { s with sched := s.sched.drain w t, var := var, job := update s.job t .idle } lists head where
  holds := h.holds.start t (p := schedQueueList none w) trivial nodup_nil nofun
  value := hvar
  jobs := job_update h.jobs (.inr (.inl rfl))
  waiters r hr := by
    obtain ⟨f, hlast, -⟩ := h.waiters r hr
    exact ⟨f, hlast.snoc fun f' => he r f', .inr ⟨t, .inl (update_self ..)⟩⟩

/-- An atomic operation that links nothing. -/
theorem Waiting.atomic (h : Waiting w v trace s lists head) {e} {sched : State R W T}
    {t} (hatomic : Atomic s.sched t lists e sched lists') (hholds : sched.Holds lists' head)
    (hlinked : ∀ list o, e ≠ .linked list o) :
    Waiting w v (trace ++ [.silent]) { s with sched := sched } lists' head := by
  have hjob := h.jobs t
  cases hatomic with
  | @offered list o hpc =>
    have hlive : s.sched.pc t ≠ .exchange none w ∧ s.sched.pc t ≠ .idle := by
      rcases hpc with hpc | ⟨n, hpc⟩ <;> rw [hpc] <;> exact ⟨nofun, nofun⟩
    refine h.silent hholds rfl rfl (fun t' => ?_) fun r _ f hat => ?_
    · have hat := job_update h.jobs (t := t) (hjob.offered hpc (s.sched.heads list)) t'
      rwa [update_eq_self] at hat
    · refine hat.goto hlive.1 (fun r f hcheck => ?_) (fun t' ht' => ⟨update_of_ne ht' .., rfl⟩) rfl
      rw [hcheck] at hjob
      exact hlive.2 hjob
  | linked hpc => exact absurd rfl (hlinked _ _)
  | @taken dest src p hpc hready hchain htaken hp =>
    rw [hpc] at hjob
    cases hj : s.job t with
    | idle =>
      rw [hj] at hjob
      obtain ⟨rfl, rfl⟩ : dest = none ∧ src = w := by
        rcases hjob with hjob | hjob | hjob
        · cases hjob
        · cases hjob
          exact ⟨rfl, rfl⟩
        · cases hjob
      refine ⟨hholds, (valueAfter_snoc ..).trans h.value, fun t' => ?_, fun r hr => ?_⟩
      · have hat : (Job.idle : Job R V).At src p := by
          rcases hp with rfl | ⟨o, rfl⟩
          · exact .inl rfl
          · exact .inr (.inr rfl)
        have hat' := job_update h.jobs (t := t) hat t'
        rwa [update_eq_self_iff.mpr hj.symm] at hat'
      · rw [update_self] at hr
        cases hr
    | enqueue r f =>
      rw [hj] at hjob
      cases hjob.1
    | check r f =>
      rw [hj] at hjob
      cases hjob

omit [DecidableEq R] in
/-- A successful compare-exchange: a continuation comes to the list, or what was on it to the run
queue. -/
theorem Waiting.linked (h : Waiting w v trace s lists head) {list} {o : Offer R} {t}
    (hpc : s.sched.pc t = .cas list o (s.sched.heads list)) : ∃ lists',
    Waiting w v (trace ++ [(s.job t).linked.1])
      { s with
        sched := { s.sched with
          heads := update s.sched.heads list (some o.first), pc := update s.sched.pc t .idle }
        job := update s.job t (s.job t).linked.2 } lists' head := by
  have hjob := h.jobs t
  have hholds := h.holds.linked hpc
  have hother : ∀ t' ≠ t, update s.sched.pc t .idle t' = s.sched.pc t' ∧
      update s.job t (s.job t).linked.2 t' = s.job t' := fun t' ht' =>
    ⟨update_of_ne ht' .., update_of_ne ht' ..⟩
  have hexchange : s.sched.pc t ≠ .exchange none w := by rw [hpc]; exact nofun
  rw [hpc] at hjob
  cases hj : s.job t with
  | idle =>
    rw [hj] at hjob hother
    have hfresh : list = .fresh := by
      rcases hjob with hjob | hjob | hjob
      · cases hjob
      · cases hjob
      · exact hjob
    subst hfresh
    refine ⟨_, h.silent hholds (update_of_ne (by simp) ..) rfl (job_update h.jobs (.inl rfl)) ?_⟩
    exact fun r _ f hat => hat.goto hexchange (by simp [hj]) hother rfl
  | check r f =>
    rw [hj] at hjob
    cases hjob
  | enqueue r f =>
    rw [hj] at hjob hother
    obtain ⟨hlist, hchain⟩ := hjob
    obtain rfl : list = .wait w := hlist
    have hchain : o.chain = [r] := hchain
    refine ⟨_, hholds, (valueAfter_snoc ..).trans h.value, job_update h.jobs rfl, fun r' hr' => ?_⟩
    rw [update_self, hchain, singleton_append] at hr'
    rcases mem_cons.mp hr' with rfl | hr'
    · exact ⟨f, ⟨trace, [], rfl, nofun⟩, .inr ⟨t, .inr (update_self ..)⟩⟩
    · obtain ⟨f', hlast, hat⟩ := h.waiters r' hr'
      have hne : r ≠ r' := by
        rintro rfl
        have hcall : r ∈ contents lists head (Pc.chain ∘ s.sched.pc) (.call t) := by
          rw [contents, comp_apply, hpc, Pc.chain, hchain]
          exact .head _
        have hlisted : r ∈ contents lists head (Pc.chain ∘ s.sched.pc) (.list (.wait w)) := hr'
        exact h.holds.separate.not_mem (by simp) hcall hlisted
      refine ⟨f', hlast.snoc (fun f'' he => hne (WaitEvent.enqueued.inj he).1), ?_⟩
      exact hat.goto hexchange (by simp [hj]) hother rfl

theorem Waiting.step (h : Waiting w v trace s lists head) {e}
    (hstep : WaitStep w s e s') : ∃ lists' head', Waiting w v (trace ++ [e]) s' lists' head' := by
  cases hstep with
  | own r v' hr =>
    exact ⟨_, _, h.silent (h.holds.own hr v') rfl rfl h.jobs fun _ _ _ hat => hat⟩
  | finish t r f hjob hpc hr =>
    have hholds := h.holds.start t (p := schedQueueSingle (some (.wait w)) r) ⟨[], rfl, rfl⟩
      (nodup_singleton r) fun r' hr' => by rwa [mem_singleton.mp hr']
    refine ⟨_, _, h.silent hholds rfl rfl (job_update h.jobs ⟨rfl, rfl⟩) fun r' _ f' hat => ?_⟩
    exact hat.goto (by simp [hpc]) (by simp [hjob])
      (fun t' ht' => ⟨update_of_ne ht' .., update_of_ne ht' ..⟩) rfl
  | atomic fuel spurious t hrun hlinked =>
    obtain ⟨lists', hatomic, hholds⟩ := h.holds.atomic hrun
    exact ⟨_, _, h.atomic hatomic hholds hlinked⟩
  | linked fuel spurious t hrun =>
    obtain ⟨lists', hatomic, -⟩ := h.holds.atomic hrun
    cases hatomic with
    | linked hpc =>
      obtain ⟨lists', hlinked⟩ := h.linked hpc
      exact ⟨_, _, hlinked⟩
  | stay t r f hjob hwaits =>
    have hpc : s.sched.pc t = .idle := by simpa [hjob, Job.At] using h.jobs t
    refine ⟨_, _, h.silent h.holds rfl rfl (fun t' => ?_) fun r' _ f' hat => ?_⟩
    · have hat := job_update h.jobs (t := t) (j := .idle) (.inl hpc) t'
      rwa [update_eq_self] at hat
    · rcases hat with hw | ⟨t', hex | hcheck⟩
      · exact .inl hw
      · exact .inr ⟨t', .inl hex⟩
      · by_cases ht : t' = t
        · subst ht
          rw [hjob] at hcheck
          cases hcheck
          exact .inl hwaits
        · exact .inr ⟨t', .inr ((update_of_ne ht ..).trans hcheck)⟩
  | requeue t r f hjob hwaits =>
    exact ⟨_, _, h.drain t (e := .silent) (fun _ _ => nofun) ((valueAfter_snoc ..).trans h.value)⟩
  | store t v' hjob hpc =>
    have hsame : update s.job t .idle = s.job := update_eq_self_iff.mpr hjob.symm
    have hdrain := h.drain t (e := .stored v') (fun _ _ => nofun) (valueAfter_snoc v trace _)
    rw [hsame] at hdrain
    exact ⟨_, _, hdrain⟩
  | unqueue fuel hrun =>
    obtain ⟨lists', head', hholds, hlists, hpc⟩ := h.holds.unqueue hrun
    refine ⟨_, _, h.silent hholds (hlists w) rfl (fun t => ?_) fun r _ f hat => ?_⟩
    · rw [hpc]
      exact h.jobs t
    · rw [Attended, hpc]
      exact hat

theorem WaitRun.waiting (h : WaitRun w v trace s) : ∃ lists head, Waiting w v trace s lists head := by
  induction h with
  | init hsched hjob hvar =>
    refine ⟨_, _, hsched.accounts.holds, hvar.symm, fun t => ?_, nofun⟩
    rw [hjob t, hsched.pc t]
    exact .inl rfl
  | step _ hstep ih =>
    obtain ⟨lists, head, hwaiting⟩ := ih
    exact hwaiting.step hstep

/-- Once all calls have ended, whatever is on the wait list waits for the value the variable has. -/
theorem WaitRun.left (h : WaitRun w v trace s) (hdone : s.Finished) {l : List R}
    (hl : Path s.sched.next (s.sched.heads (.wait w)) l none) :
    ∀ r ∈ l, ∃ f, LastEnqueued trace r f ∧ f.Waits s.var ∧ valueAfter v trace = s.var := by
  obtain ⟨lists, head, hwaiting⟩ := h.waiting
  obtain rfl : l = lists (.wait w) := hl.unique (hwaiting.holds.listed (.wait w))
  intro r hr
  obtain ⟨f, hlast, hwaits | ⟨t, hpc | hjob⟩⟩ := hwaiting.waiters r hr
  · exact ⟨f, hlast, hwaits, hwaiting.value⟩
  · exact nomatch hpc.symm.trans (hdone t).2
  · exact nomatch hjob.symm.trans (hdone t).1

/-- No wake-up is lost: once all calls have ended, whatever is on the wait list waits for the value the
variable has, so nothing is on it if that is a value nobody waits for. -/
theorem no_lost_wakeup (h : WaitRun w v trace s) (hdone : s.Finished) {l : List R}
    (hl : Path s.sched.next (s.sched.heads (.wait w)) l none) :
    (∀ r ∈ l, ∃ f, StillWaits v trace r f ∧ f.Waits s.var) ∧
      ((∀ r f, .enqueued r f ∈ trace → ¬ f.Waits s.var) → l = []) := by
  have hall := h.left hdone hl
  refine ⟨fun r hr => ?_, fun hnone => eq_nil_iff_forall_not_mem.mpr fun r hr => ?_⟩
  · obtain ⟨f, hlast, hwaits, hvalue⟩ := hall r hr
    refine ⟨f, ⟨trace, [], by simp, hlast, ?_, nofun, nofun⟩, hwaits⟩
    rw [hvalue]
    exact hwaits
  · obtain ⟨f, ⟨before, after, rfl, -⟩, hwaits, -⟩ := hall r hr
    exact hnone r f (by simp) hwaits

end

/-- A thread has seen 0 and waits for another value; a notifier stores 1. -/
theorem no_lost_wakeup_one : ∃ (trace : List (WaitEvent Nat UInt32)) (s : WaitState Nat Nat Bool UInt32),
    WaitRun 0 0 trace s ∧ s.Finished ∧ .enqueued 7 (.u32 0xffffffff 0) ∈ trace ∧
    ∀ l, Path s.sched.next (s.sched.heads (.wait 0)) l none → l = [] := by
  have hinit : State.Initial (⟨fun _ => none, fun _ => none, none, .null, fun _ => .idle⟩ :
      State Nat Nat Bool) := ⟨fun _ => rfl, rfl, .inl rfl, fun _ => rfl⟩
  have h₀ : WaitRun 0 0 [] (⟨_, 0, fun _ => .idle⟩ : WaitState Nat Nat Bool UInt32) :=
    .init hinit (fun _ => rfl) rfl
  have h₁ := h₀.step (.finish false 7 (.u32 0xffffffff 0) rfl rfl (hinit.not_busy 7))
  have h₂ := h₁.step (.atomic 0 false false rfl (by simp))
  have h₃ := h₂.step (.linked 0 false false rfl)
  have h₄ := h₃.step (.stay false 7 (.u32 0xffffffff 0) rfl (by decide))
  have h₅ := h₄.step (.store true 1 rfl rfl)
  have h₆ := h₅.step (.atomic 1 false true rfl (by simp))
  have h₇ := h₆.step (.atomic 0 false true rfl (by simp))
  have h₈ := h₇.step (.linked 0 false true rfl)
  obtain ⟨trace, s, h, hdone, hvar, htrace⟩ : ∃ trace s, WaitRun 0 0 trace s ∧ s.Finished ∧ s.var = 1 ∧
      trace = [.silent, .silent, .enqueued 7 (.u32 0xffffffff 0), .silent, .stored 1, .silent, .silent,
        .silent] :=
    ⟨_, _, h₈, by rintro (_ | _) <;> exact ⟨rfl, rfl⟩, rfl, rfl⟩
  refine ⟨trace, s, h, hdone, by simp [htrace], fun l hl => (no_lost_wakeup h hdone hl).2 fun r f hf => ?_⟩
  rw [htrace] at hf
  obtain ⟨-, rfl⟩ : r = 7 ∧ f = .u32 0xffffffff 0 := by simpa using hf
  rw [hvar]
  decide

/-! ## 16-bit variables -/

def schedWaitU16 (mask expected : UInt16) : Finish UInt16 := .u16 mask.toUInt64 expected.toUInt64

/-- No wake-up is lost by threads that wait for the variable, masked, to change from `expected`. -/
def NoLostU16 (mask expected : UInt16) : Prop :=
  ∀ (R W T : Type) [DecidableEq R] [DecidableEq W] [DecidableEq T] (w : W) (v : UInt16)
    (trace : List (WaitEvent R UInt16)) (s : WaitState R W T UInt16) (l : List R),
    WaitRun w v trace s → s.Finished →
    (∀ r f, .enqueued r f ∈ trace → f = schedWaitU16 mask expected) →
    Path s.sched.next (s.sched.heads (.wait w)) l none → s.var &&& mask ≠ expected → l = []

theorem schedWaitU16_waits {mask expected v : UInt16} : (schedWaitU16 mask expected).Waits v ↔
    v.toUInt8.toUInt16 &&& mask = expected := by
  have h : v.toUInt8.toUInt64 &&& mask.toUInt64 = (v.toUInt8.toUInt16 &&& mask).toUInt64 := by
    simp
  change v.toUInt8.toUInt64 &&& mask.toUInt64 = expected.toUInt64 ↔ _
  rw [h]
  exact ⟨fun h => UInt16.toUInt64_inj.mp h, fun h => congrArg _ h⟩

/-- A thread that calls when the variable has changed in its upper byte only stays on the list. -/
theorem lost_u16 {mask expected v : UInt16} (hlow : v.toUInt8.toUInt16 &&& mask = expected)
    (hne : v &&& mask ≠ expected) : ¬ NoLostU16 mask expected := by
  intro h
  have hinit : State.Initial (⟨fun _ => none, fun _ => none, none, .null, fun _ => .idle⟩ :
      State Nat Nat Bool) := ⟨fun _ => rfl, rfl, .inl rfl, fun _ => rfl⟩
  have h₀ : WaitRun 0 v [] (⟨_, v, fun _ => .idle⟩ : WaitState Nat Nat Bool UInt16) :=
    .init hinit (fun _ => rfl) rfl
  have h₁ := h₀.step (.finish false 7 (schedWaitU16 mask expected) rfl rfl (hinit.not_busy 7))
  have h₂ := h₁.step (.atomic 0 false false rfl (by simp))
  have h₃ := h₂.step (.linked 0 false false rfl)
  have h₄ := h₃.step (.stay false 7 (schedWaitU16 mask expected) rfl (schedWaitU16_waits.mpr hlow))
  have hnil := h Nat Nat Bool 0 v _ _ [7] h₄ (by rintro (_ | _) <;> exact ⟨rfl, rfl⟩) ?_ ?_ hne
  · cases hnil
  · intro r f hf
    obtain ⟨-, hf⟩ : r = 7 ∧ f = schedWaitU16 mask expected := by simpa [Job.linked] using hf
    exact hf
  · exact ⟨rfl, rfl⟩

/-- The law holds exactly for masks and values that the lower byte decides. -/
theorem no_lost_u16_iff (mask expected : UInt16) : NoLostU16 mask expected ↔
    ∀ v : UInt16, v.toUInt8.toUInt16 &&& mask = expected → v &&& mask = expected := by
  refine ⟨fun h v hlow => not_not.mp fun hne => lost_u16 hlow hne h, ?_⟩
  intro hmask R W T _ _ _ w v trace s l h hdone hall hl hvar
  refine eq_nil_iff_forall_not_mem.mpr fun r hr => ?_
  obtain ⟨f, ⟨before, after, rfl, -⟩, hwaits, -⟩ := h.left hdone hl r hr
  rw [hall r f (by simp)] at hwaits
  exact hvar (hmask s.var (schedWaitU16_waits.mp hwaits))

theorem upper_byte_lost : ¬ NoLostU16 0x100 0 := @lost_u16 0x100 0 0x100 (by decide) (by decide)

end Rkboot.Sched
