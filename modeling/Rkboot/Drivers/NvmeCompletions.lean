import Rkboot.Drivers.NvmeQueue

/-! # Completions are taken once and in order

The invariant of one completion queue relates the driver's position to the number of entries it has
taken and the device's to the number it has written. A second invariant counts: a command ID is taken
as long as its command is with the device or its completion has not been looked at. -/
namespace Rkboot.Drivers
open Lib Function List Nat

/-! ## One queue -/

/-- One completion queue with its call and its history. -/
structure QueueView where
  cq : NvmeCq
  pc : CqePc
  producer : Nat
  producerPhase : Bool
  written : List NvmeCompletion
  accepted : List NvmeCompletion
  freed : List (Nat × Nat)

def NvmeSystem.view (s : NvmeSystem) (q : Nat) : QueueView :=
  ⟨s.st.cq q, s.pc q, s.producer q, s.producerPhase q, s.written q, s.accepted q, s.freed q⟩

/-- Whether `cq->pos` has been moved on in the running call. -/
def CqePc.moved : CqePc → Nat
  | .ring _ => 1
  | _ => 0

/-- Whether the slot of the command has been freed in the running call. -/
def CqePc.released : CqePc → Nat
  | .storeStatus _ | .storeHead _ | .advance _ | .ring _ => 1
  | _ => 0

theorem CqePc.released_le (pc : CqePc) : pc.released ≤ 1 := by
  unfold released
  split <;> decide

/-- What the running call has read, if `c` is the entry it works on and `k` its number. -/
def CqePc.Follows (n k : Nat) (c : NvmeCompletion) : CqePc → Prop
  | .entry => True
  | .readSqid l => (l.pos = k % n ∧ l.phase = phaseAt n k) ∧ l.cqe.status = c.status
  | .readCid l =>
    (l.pos = k % n ∧ l.phase = phaseAt n k) ∧ l.cqe.status = c.status ∧ l.cqe.sqid = c.sqid
  | .readData l => (l.pos = k % n ∧ l.phase = phaseAt n k) ∧ l.cqe.status = c.status ∧
    l.cqe.sqid = c.sqid ∧ l.cqe.cid = c.cid
  | .freeSlot l | .storeStatus l | .storeHead l | .advance l =>
    (l.pos = k % n ∧ l.phase = phaseAt n k) ∧ l.cqe = c
  | .ring l => l.pos = (k + 1) % n ∧ l.cqe = c

structure QueueView.Inv (v : QueueView) : Prop where
  ring : PhaseRing NvmeCompletion.phase (v.cq.size + 1) v.cq.buf v.written
  producer : v.producer = v.written.length % (v.cq.size + 1)
  producerPhase : v.producerPhase = phaseAt (v.cq.size + 1) v.written.length
  le : v.accepted.length ≤ v.written.length
  room : v.written.length ≤ v.accepted.length + v.cq.size
  doorbell : v.cq.doorbell = v.accepted.length % (v.cq.size + 1)
  pos : v.cq.pos = (v.accepted.length + v.pc.moved) % (v.cq.size + 1)
  phase : v.cq.phase = phaseAt (v.cq.size + 1) (v.accepted.length + v.pc.moved)
  accepted : v.accepted = v.written.take v.accepted.length
  freed : v.freed = (v.written.take v.freed.length).map NvmeCompletion.slot
  released : v.freed.length = v.accepted.length + v.pc.released
  follows : v.pc = .entry ∨ ∃ c, v.written[v.accepted.length]? = some c ∧
    v.pc.Follows (v.cq.size + 1) v.accepted.length c

namespace QueueView.Inv
variable {v : QueueView}

/-- The entry that a running call works on. -/
theorem busy (h : v.Inv) (hpc : v.pc ≠ .entry) : ∃ hlt : v.accepted.length < v.written.length,
    v.pc.Follows (v.cq.size + 1) v.accepted.length v.written[v.accepted.length] ∧
    v.cq.buf (v.accepted.length % (v.cq.size + 1)) = v.written[v.accepted.length] := by
  obtain ⟨c, hc, hfollows⟩ := h.follows.resolve_left hpc
  obtain ⟨hlt, rfl⟩ := List.getElem?_eq_some_iff.mp hc
  exact ⟨hlt, hfollows, h.ring.past _ hlt (by have := h.room; omega)⟩

theorem freed_le (h : v.Inv) : v.freed.length ≤ v.written.length := by
  rw [h.released]
  by_cases hpc : v.pc = .entry
  · rw [hpc]
    exact h.le
  · obtain ⟨hlt, -⟩ := h.busy hpc
    exact le_trans (Nat.add_le_add_left v.pc.released_le _) hlt

/-- The device writes an entry. -/
theorem write (h : v.Inv) {c : NvmeCompletion} (hphase : c.phase = v.producerPhase)
    (hroom : (v.producer + 1) % (v.cq.size + 1) ≠ v.cq.doorbell) :
    Inv { v with
      cq := { v.cq with buf := update v.cq.buf v.producer c }
      producer := (v.producer + 1) % (v.cq.size + 1)
      producerPhase := if v.producer < v.cq.size then v.producerPhase else !v.producerPhase
      written := v.written ++ [c] } where
  ring := h.producer ▸ h.ring.write (succ_pos _) (hphase.trans h.producerPhase)
  producer := by
    rw [h.producer, mod_add_mod, length_append]
    rfl
  producerPhase := by
    rw [h.producer, h.producerPhase, length_append]
    exact phaseAt_succ.symm
  le := by
    rw [length_append]
    exact le_add_right_of_le h.le
  room := by
    have hnot : v.written.length ≠ v.accepted.length + v.cq.size := by
      intro hfull
      refine hroom ?_
      rw [h.producer, mod_add_mod, h.doorbell, hfull, add_assoc, add_mod_right]
    rw [length_append]
    exact lt_of_le_of_ne h.room hnot
  doorbell := h.doorbell
  pos := h.pos
  phase := h.phase
  accepted := by
    rw [take_append_of_le_length h.le]
    exact h.accepted
  freed := by
    rw [take_append_of_le_length h.freed_le]
    exact h.freed
  released := h.released
  follows := by
    refine h.follows.imp_right ?_
    rintro ⟨c', hc', hfollows⟩
    obtain ⟨hlt, -⟩ := List.getElem?_eq_some_iff.mp hc'
    exact ⟨c', (List.getElem?_append_left hlt).trans hc', hfollows⟩

/-- A call that begins finds an entry exactly when there is one that has not been taken. -/
theorem entry_phase (h : v.Inv) (hpc : v.pc = .entry) :
    (v.cq.buf v.cq.pos).status.testBit 0 = v.cq.phase ↔ v.accepted.length < v.written.length := by
  rw [h.pos, h.phase, hpc]
  exact h.ring.phase_eq_iff (succ_pos _) h.le (by have := h.room; omega)

/-- A call goes on without moving its position or freeing a slot. -/
theorem goto (h : v.Inv) {pc : CqePc} (hmoved : pc.moved = v.pc.moved)
    (hreleased : pc.released = v.pc.released) (hlt : v.accepted.length < v.written.length)
    (hfollows : pc.Follows (v.cq.size + 1) v.accepted.length v.written[v.accepted.length]) :
    Inv { v with pc := pc } :=
  { h with
    pos := by rw [hmoved]; exact h.pos
    phase := by rw [hmoved]; exact h.phase
    released := by rw [hreleased]; exact h.released
    follows := .inr ⟨_, List.getElem?_eq_getElem hlt, hfollows⟩ }

/-- A call frees the slot of its command. -/
theorem release (h : v.Inv) {l : CqeLocals} (hpc : v.pc = .freeSlot l) :
    Inv { v with pc := .storeStatus l, freed := v.freed ++ [l.cqe.slot] } := by
  obtain ⟨hlt, hfollows, -⟩ := h.busy (by rw [hpc]; nofun)
  have hreleased := h.released
  rw [hpc] at hfollows hreleased
  obtain ⟨hlocals, hcqe⟩ := hfollows
  have hlength : v.freed.length = v.accepted.length := hreleased
  have hfreed := h.freed
  rw [hlength] at hfreed
  exact { h with
    pos := by have := h.pos; rwa [hpc] at this
    phase := by have := h.phase; rwa [hpc] at this
    freed := by
      rw [length_append, length_singleton, hlength, take_add_one,
        List.getElem?_eq_getElem hlt, map_append, ← hfreed, hcqe]
      rfl
    released := by
      rw [length_append, hlength]
      rfl
    follows := .inr ⟨_, List.getElem?_eq_getElem hlt, hlocals, hcqe⟩ }

/-- A call moves its position on. -/
theorem move (h : v.Inv) {l : CqeLocals} (hpc : v.pc = .advance l) :
    Inv { v with
      pc := .ring { l with pos := if l.pos < v.cq.size then l.pos + 1 else 0 }
      cq := { v.cq with
        pos := if l.pos < v.cq.size then l.pos + 1 else 0
        phase := if l.pos < v.cq.size then v.cq.phase else !l.phase } } := by
  obtain ⟨hlt, hfollows, -⟩ := h.busy (by rw [hpc]; nofun)
  have hphase := h.phase
  have hreleased := h.released
  rw [hpc] at hfollows hphase hreleased
  obtain ⟨⟨hpos, hlphase⟩, hcqe⟩ := hfollows
  rw [hpos, hlphase, hphase]
  exact { h with
    pos := succ_mod_ring.symm
    phase := phaseAt_succ.symm
    released := hreleased
    follows := .inr ⟨_, List.getElem?_eq_getElem hlt, succ_mod_ring.symm, hcqe⟩ }

/-- A call rings the doorbell and returns. -/
theorem return_ok (h : v.Inv) {l : CqeLocals} (hpc : v.pc = .ring l) :
    Inv { v with
      pc := .entry
      cq := { v.cq with doorbell := l.pos }
      accepted := v.accepted ++ [l.cqe] } := by
  obtain ⟨hlt, hfollows, -⟩ := h.busy (by rw [hpc]; nofun)
  have hposition := h.pos
  have hphase := h.phase
  have hreleased := h.released
  rw [hpc] at hfollows hposition hphase hreleased
  obtain ⟨hpos, hcqe⟩ := hfollows
  have hlength : (v.accepted ++ [l.cqe]).length = v.accepted.length + 1 := length_append
  exact { h with
    le := by rw [hlength]; exact hlt
    room := by
      rw [hlength]
      change v.written.length ≤ v.accepted.length + 1 + v.cq.size
      have := h.room
      omega
    doorbell := by rw [hlength]; exact hpos
    pos := by rw [hlength]; exact hposition
    phase := by rw [hlength]; exact hphase
    accepted := by
      rw [hlength, take_add_one, List.getElem?_eq_getElem hlt, ← h.accepted, hcqe]
      rfl
    released := by rw [hlength]; exact hreleased
    follows := .inl rfl }

theorem initial {cq : NvmeCq} (hpos : cq.pos = 0) (hphase : cq.phase = true)
    (hdoorbell : cq.doorbell = 0) (hbuf : ∀ i, cq.buf i = .zero) :
    Inv ⟨cq, .entry, 0, true, [], [], []⟩ where
  ring := .empty fun i => by rw [hbuf]; rfl
  producer := (zero_mod _).symm
  producerPhase := by simp [phaseAt]
  le := le_refl 0
  room := Nat.zero_le _
  doorbell := hdoorbell.trans (zero_mod _).symm
  pos := hpos.trans (zero_mod _).symm
  phase := hphase.trans (by simp [phaseAt, CqePc.moved])
  accepted := rfl
  freed := rfl
  released := rfl
  follows := .inl rfl

end QueueView.Inv

/-! ## Command IDs -/

/-- What does not change about the queues. -/
structure SameConfig (st st' : NvmeState) : Prop where
  numIosq : st'.numIosq = st.numIosq
  cq : ∀ i, (st'.sq i).cq = (st.sq i).cq
  maxCid : ∀ i, (st'.sq i).maxCid = (st.sq i).maxCid
  cmd : ∀ i, (st'.sq i).cmd.isSome = (st.sq i).cmd.isSome

theorem SameConfig.of_sq {st st' : NvmeState} (hsq : st'.sq = st.sq) (hnum : st'.numIosq = st.numIosq) :
    SameConfig st st' := by
  refine ⟨hnum, fun i => ?_, fun i => ?_, fun i => ?_⟩ <;> rw [hsq]

theorem SameConfig.trans {a b c} (h : SameConfig a b) (h' : SameConfig b c) : SameConfig a c :=
  ⟨h'.numIosq.trans h.numIosq, fun i => (h'.cq i).trans (h.cq i),
    fun i => (h'.maxCid i).trans (h.maxCid i), fun i => (h'.cmd i).trans (h.cmd i)⟩

namespace NvmeState
variable {st : NvmeState} {i : Nat} {sq : NvmeSq} {x y : Nat × Nat} {v : Option Nat}

theorem sameConfig_setSq (hcq : sq.cq = (st.sq i).cq) (hmax : sq.maxCid = (st.sq i).maxCid)
    (hcmd : sq.cmd.isSome = (st.sq i).cmd.isSome) : SameConfig st (st.setSq i sq) := by
  refine ⟨rfl, fun j => ?_, fun j => ?_, fun j => ?_⟩
  all_goals
    by_cases hj : j = i
    · subst hj
      simp [setSq, hcq, hmax, hcmd]
    · simp [setSq, hj]

theorem sameConfig_setSlot : SameConfig st (st.setSlot x v) :=
  sameConfig_setSq rfl rfl (Option.isSome_map ..)

theorem slot_setSq (hcmd : sq.cmd = (st.sq i).cmd) (x : Nat × Nat) :
    (st.setSq i sq).slot x = st.slot x := by
  by_cases hx : x.1 = i
  · simp [slot, setSq, hx, hcmd]
  · simp [slot, setSq, hx]

/-- Other slots stay as they are. -/
theorem slot_setSlot (hcmd : (st.sq x.1).cmd.isSome) (y : Nat × Nat) :
    (st.setSlot x v).slot y = if y = x then v else st.slot y := by
  obtain ⟨cmd, hcmd⟩ := Option.isSome_iff_exists.mp hcmd
  by_cases hfst : y.1 = x.1
  · have hslot : (st.setSlot x v).slot y = update cmd x.2 v y.2 := by
      simp [slot, setSlot, setSq, hfst, hcmd]
    have hold : st.slot y = cmd y.2 := by simp [slot, hfst, hcmd]
    rw [hslot, hold]
    by_cases hsnd : y.2 = x.2
    · rw [hsnd, update_self, if_pos (Prod.ext hfst hsnd)]
    · rw [update_of_ne hsnd, if_neg fun h => hsnd (congrArg Prod.snd h)]
  · rw [if_neg fun h => hfst (congrArg Prod.fst h)]
    simp [slot, setSlot, setSq, hfst]

theorem slot_submitted (hcmd : (st.sq x.1).cmd.isSome) (req tail : Nat) (y : Nat × Nat) :
    (st.submitted x req tail).slot y = if y = x then some req else st.slot y := by
  have h : ((st.setReq req { st.req req with status := nvmeSubmitted }).setSlot x (some req)).slot y =
      if y = x then some req else st.slot y :=
    slot_setSlot hcmd y
  exact (slot_setSq (by rfl) y).trans h

theorem sameConfig_submitted (req tail : Nat) : SameConfig st (st.submitted x req tail) := by
  have h : SameConfig st (st.setReq req { st.req req with status := nvmeSubmitted }) :=
    .of_sq rfl rfl
  exact (h.trans sameConfig_setSlot).trans (sameConfig_setSq rfl rfl rfl)

end NvmeState

/-- A command that can be outstanding. -/
structure Known (st : NvmeState) (x : Nat × Nat) : Prop where
  sqid : x.1 ≤ st.numIosq
  cmd : (st.sq x.1).cmd.isSome
  cid : x.2 ≤ (st.sq x.1).maxCid

theorem Known.same {st st' x} (h : Known st x) (hsame : SameConfig st st') : Known st' x :=
  ⟨hsame.numIosq ▸ h.sqid, (hsame.cmd x.1).trans h.cmd, hsame.maxCid x.1 ▸ h.cid⟩

/-- The entries of a queue whose slots have not been freed yet. -/
def NvmeSystem.pending (s : NvmeSystem) (q : Nat) : List (Nat × Nat) :=
  ((s.written q).drop (s.freed q).length).map NvmeCompletion.slot

/-- A slot is taken by a command that the device works on or whose completion is pending, and not by
two of them. -/
structure Slots (s : NvmeSystem) : Prop where
  count : ∀ x, (s.outstanding x).toNat + (s.pending (s.st.sq x.1).cq).count x =
    (s.st.slot x).isSome.toNat
  outstanding : ∀ x, s.outstanding x → Known s.st x
  written : ∀ q, ∀ c ∈ s.written q, Known s.st c.slot ∧ (s.st.sq c.sqid).cq = q

namespace Slots
variable {s s' : NvmeSystem}

/-- Steps that leave the slots and the histories alone. -/
theorem same (h : Slots s) (hsame : SameConfig s.st s'.st) (hslot : ∀ x, s'.st.slot x = s.st.slot x)
    (houtstanding : s'.outstanding = s.outstanding) (hwritten : s'.written = s.written)
    (hfreed : s'.freed = s.freed) : Slots s' := by
  refine ⟨fun x => ?_, fun x hx => ?_, fun q c hc => ?_⟩
  · rw [houtstanding, hsame.cq, hslot, NvmeSystem.pending, hwritten, hfreed]
    exact h.count x
  · exact (h.outstanding x (houtstanding ▸ hx)).same hsame
  · obtain ⟨hknown, hq⟩ := h.written q c (hwritten ▸ hc)
    exact ⟨hknown.same hsame, (hsame.cq _).trans hq⟩

/-- A free slot is taken. -/
theorem submit (h : Slots s) {x} (hknown : Known s.st x) (hfree : s.st.slot x = none)
    (req tail : Nat) : Slots { s with
      st := s.st.submitted x req tail, outstanding := update s.outstanding x true } := by
  have hsame : SameConfig s.st (s.st.submitted x req tail) :=
    NvmeState.sameConfig_submitted req tail
  refine ⟨fun y => ?_, fun y hy => ?_, fun q c hc => ?_⟩
  · have hcount := h.count y
    dsimp only
    rw [hsame.cq, NvmeState.slot_submitted hknown.cmd]
    by_cases hy : y = x
    · subst hy
      rw [hfree, Option.isSome_none] at hcount
      rw [update_self, if_pos rfl]
      exact congrArg (1 + ·) (eq_zero_of_add_eq_zero hcount).2
    · rw [update_of_ne hy, if_neg hy]
      exact hcount
  · by_cases hyx : y = x
    · exact hyx ▸ hknown.same hsame
    · dsimp only at hy
      rw [update_of_ne hyx] at hy
      exact (h.outstanding y hy).same hsame
  · obtain ⟨hc', hq⟩ := h.written q c hc
    exact ⟨hc'.same hsame, (hsame.cq _).trans hq⟩

/-- The device completes a command. -/
theorem complete (h : Slots s) {q} {c : NvmeCompletion} (hc : s.outstanding c.slot)
    (hq : (s.st.sq c.sqid).cq = q) (hle : (s.freed q).length ≤ (s.written q).length)
    (hsq : s'.st.sq = s.st.sq) (hnum : s'.st.numIosq = s.st.numIosq)
    (houtstanding : s'.outstanding = update s.outstanding c.slot false)
    (hwritten : s'.written = update s.written q (s.written q ++ [c])) (hfreed : s'.freed = s.freed) :
    Slots s' := by
  have hsame : SameConfig s.st s'.st := .of_sq hsq hnum
  have hpending : s'.pending q = s.pending q ++ [c.slot] := by
    rw [NvmeSystem.pending, hwritten, hfreed, update_self, drop_append_of_le_length hle, map_append]
    rfl
  refine ⟨fun x => ?_, fun x hx => ?_, fun q' c' hc' => ?_⟩
  · have hcount := h.count x
    have hslot : s'.st.slot x = s.st.slot x := by rw [NvmeState.slot, hsq, NvmeState.slot]
    rw [houtstanding, hsq, hslot]
    by_cases hx : x = c.slot
    · subst hx
      rw [hc] at hcount
      rw [update_self, show (s.st.sq c.slot.1).cq = q from hq, hpending, count_append]
      rw [show (s.st.sq c.slot.1).cq = q from hq] at hcount
      rw [← hcount, count_singleton_self, Bool.toNat_false, Bool.toNat_true]
      omega
    · rw [update_of_ne hx, ← hcount]
      by_cases hxq : (s.st.sq x.1).cq = q
      · rw [hxq, hpending, count_append, count_singleton]
        simp [Ne.symm hx]
      · rw [NvmeSystem.pending, hwritten, hfreed, update_of_ne hxq, NvmeSystem.pending]
  · have hx' : s.outstanding x := by
      rw [houtstanding] at hx
      by_cases hxc : x = c.slot
      · rw [hxc, update_self] at hx
        cases hx
      · rwa [update_of_ne hxc] at hx
    exact (h.outstanding x hx').same hsame
  · rw [hsq]
    rw [hwritten] at hc'
    by_cases hq' : q' = q
    · subst hq'
      rw [update_self] at hc'
      rcases mem_append.mp hc' with hc' | hc'
      · obtain ⟨hknown, hcq⟩ := h.written q' c' hc'
        exact ⟨hknown.same hsame, hcq⟩
      · obtain rfl := mem_singleton.mp hc'
        exact ⟨(h.outstanding _ hc).same hsame, hq⟩
    · rw [update_of_ne hq'] at hc'
      obtain ⟨hknown, hcq⟩ := h.written q' c' hc'
      exact ⟨hknown.same hsame, hcq⟩

/-- The driver frees the slot of the first pending completion. -/
theorem release (h : Slots s) {q} {c : NvmeCompletion}
    (hc : (s.written q)[(s.freed q).length]? = some c) (hst : s'.st = s.st.setSlot c.slot none)
    (houtstanding : s'.outstanding = s.outstanding) (hwritten : s'.written = s.written)
    (hfreed : s'.freed = update s.freed q (s.freed q ++ [c.slot])) : Slots s' := by
  obtain ⟨hlt, hget⟩ := List.getElem?_eq_some_iff.mp hc
  obtain ⟨hknown, hq⟩ := h.written q c (hget ▸ getElem_mem hlt)
  have hsame : SameConfig s.st s'.st := hst ▸ NvmeState.sameConfig_setSlot
  have hpending : s.pending q = c.slot :: s'.pending q := by
    rw [NvmeSystem.pending, NvmeSystem.pending, hwritten, hfreed, update_self, length_append,
      drop_eq_getElem_cons hlt, hget]
    rfl
  refine ⟨fun x => ?_, fun x hx => ?_, fun q' c' hc' => ?_⟩
  · have hcount := h.count x
    rw [houtstanding, hsame.cq, hst, NvmeState.slot_setSlot hknown.cmd]
    by_cases hx : x = c.slot
    · subst hx
      rw [show (s.st.sq c.slot.1).cq = q from hq] at hcount ⊢
      rw [hpending, count_cons_self] at hcount
      rw [if_pos rfl]
      have hle := Bool.toNat_le (s.st.slot c.slot).isSome
      change _ = 0
      omega
    · rw [if_neg hx, ← hcount]
      by_cases hxq : (s.st.sq x.1).cq = q
      · rw [hxq, hpending, count_cons_of_ne (Ne.symm hx)]
      · rw [NvmeSystem.pending, hwritten, hfreed, update_of_ne hxq, NvmeSystem.pending]
  · exact (h.outstanding x (houtstanding ▸ hx)).same hsame
  · obtain ⟨hknown', hq'⟩ := h.written q' c' (hwritten ▸ hc')
    exact ⟨hknown'.same hsame, (hsame.cq _).trans hq'⟩

/-- The slot of a pending completion is taken. -/
theorem taken (h : Slots s) {q} {c : NvmeCompletion}
    (hc : (s.written q)[(s.freed q).length]? = some c) : (s.st.slot c.slot).isSome := by
  obtain ⟨hlt, hget⟩ := List.getElem?_eq_some_iff.mp hc
  obtain ⟨-, hq⟩ := h.written q c (hget ▸ getElem_mem hlt)
  have hmem : c.slot ∈ s.pending q := by
    rw [NvmeSystem.pending, drop_eq_getElem_cons hlt, hget]
    exact mem_cons_self
  have hcount := h.count c.slot
  rw [show (s.st.sq c.slot.1).cq = q from hq] at hcount
  have hpos := count_pos_iff.mpr hmem
  by_contra hnone
  rw [Bool.not_eq_true] at hnone
  rw [hnone, Bool.toNat_false] at hcount
  omega

end Slots

/-! ## The whole system -/

/-- How many steps a call is away from its return, at most. -/
def CqePc.rank : CqePc → Nat
  | .entry => 8
  | .readSqid _ => 7
  | .readCid _ => 6
  | .readData _ => 5
  | .freeSlot _ => 4
  | .storeStatus _ => 3
  | .storeHead _ => 2
  | .advance _ => 1
  | .ring _ => 0

/-- Neither slots nor completion queues are touched. -/
structure Quiet (st st' : NvmeState) : Prop where
  cq : st'.cq = st.cq
  same : SameConfig st st'
  slot : ∀ x, st'.slot x = st.slot x

theorem Quiet.of_sq {st st' : NvmeState} (hcq : st'.cq = st.cq) (hsq : st'.sq = st.sq)
    (hnum : st'.numIosq = st.numIosq) : Quiet st st' :=
  ⟨hcq, .of_sq hsq hnum, fun x => by rw [NvmeState.slot, hsq, NvmeState.slot]⟩

/-- What a step of a call does: there is no entry, it goes on with the next one, frees its slot, moves
on or returns. -/
inductive Processed (s : NvmeSystem) (q : Nat) : CqePc → CqeStep → Prop where
  | empty : s.accepted q = s.written q → Processed s q .entry (.ret .transient s.st)
  | quiet {pc pc' : CqePc} {st : NvmeState} {c : NvmeCompletion} : (∀ l, pc ≠ .freeSlot l) →
      (s.written q)[(s.accepted q).length]? = some c → Quiet s.st st → pc'.moved = pc.moved →
      pc'.released = pc.released →
      pc'.Follows ((s.st.cq q).size + 1) (s.accepted q).length c → pc'.rank < pc.rank →
      Processed s q pc (.goto pc' st)
  | free {l : CqeLocals} : (s.written q)[(s.accepted q).length]? = some l.cqe →
      Known s.st l.cqe.slot →
      Processed s q (.freeSlot l) (.goto (.storeStatus l) (s.st.setSlot l.cqe.slot none))
  | advance (l : CqeLocals) : Processed s q (.advance l)
      (.goto (.ring { l with pos := if l.pos < (s.st.cq q).size then l.pos + 1 else 0 })
        (s.st.setCq q { s.st.cq q with
          pos := if l.pos < (s.st.cq q).size then l.pos + 1 else 0
          phase := if l.pos < (s.st.cq q).size then (s.st.cq q).phase else !l.phase }))
  | done {l : CqeLocals} : (s.written q)[(s.accepted q).length]? = some l.cqe →
      Processed s q (.ring l) (.ret .ok (s.st.setCq q { s.st.cq q with doorbell := l.pos }))

structure NvmeSystem.Inv (s : NvmeSystem) : Prop where
  queue : ∀ q, (s.view q).Inv
  slots : Slots s

namespace NvmeSystem.Inv
variable {s s' : NvmeSystem}

theorem initial (h : s.Initial) : s.Inv := by
  refine ⟨fun q => ?_, fun x => ?_, fun x hx => ?_, fun q c hc => ?_⟩
  · obtain ⟨hpos, hphase, hdoorbell, hbuf⟩ := h.cq q
    obtain ⟨hproducer, hproducerPhase⟩ := h.device q
    obtain ⟨hwritten, haccepted, hfreed⟩ := h.history q
    rw [NvmeSystem.view, h.pc, hproducer, hproducerPhase, hwritten, haccepted, hfreed]
    exact .initial hpos hphase hdoorbell hbuf
  · rw [h.outstanding, h.slot, NvmeSystem.pending, (h.history _).1, drop_nil]
    rfl
  · rw [h.outstanding] at hx
    cases hx
  · rw [(h.history q).1] at hc
    cases hc

/-- Only one queue is touched. -/
theorem of_view (h : s.Inv) {q} {v : QueueView} (hv : s'.view q = v)
    (hother : ∀ q' ≠ q, s'.view q' = s.view q') (hinv : v.Inv) (hslots : Slots s') : s'.Inv := by
  refine ⟨fun q' => ?_, hslots⟩
  by_cases hq : q' = q
  · rw [hq, hv]
    exact hinv
  · rw [hother q' hq]
    exact h.queue q'

theorem accepted_eq (h : s.Inv) (q : Nat) :
    s.accepted q = (s.written q).take (s.accepted q).length :=
  (h.queue q).accepted

theorem freed_eq (h : s.Inv) (q : Nat) :
    s.freed q = ((s.written q).take (s.freed q).length).map NvmeCompletion.slot :=
  (h.queue q).freed

theorem freed_length (h : s.Inv) (q : Nat) :
    (s.freed q).length = (s.accepted q).length + (s.pc q).released :=
  (h.queue q).released

/-- The entry that the running call of a queue works on. -/
theorem working (h : s.Inv) {q} (hpc : s.pc q ≠ .entry) :
    ∃ c, (s.written q)[(s.accepted q).length]? = some c ∧
      (s.pc q).Follows ((s.st.cq q).size + 1) (s.accepted q).length c ∧
      (s.st.cq q).buf ((s.accepted q).length % ((s.st.cq q).size + 1)) = c ∧
      Known s.st c.slot ∧ (s.st.sq c.sqid).cq = q := by
  obtain ⟨hlt, hfollows, hbuf⟩ := (h.queue q).busy hpc
  have hget : (s.written q)[(s.accepted q).length]? = some ((s.view q).written[(s.accepted q).length]) :=
    List.getElem?_eq_getElem hlt
  exact ⟨_, hget, hfollows, hbuf, h.slots.written q _ (getElem_mem hlt)⟩

theorem complete (h : s.Inv) {cqid} {c : NvmeCompletion} (hc : s.outstanding c.slot)
    (hq : (s.st.sq c.sqid).cq = cqid) (hphase : c.phase = s.producerPhase cqid)
    (hroom : (s.producer cqid + 1) % ((s.st.cq cqid).size + 1) ≠ (s.st.cq cqid).doorbell) :
    NvmeSystem.Inv { s with
      st := s.st.setCq cqid { s.st.cq cqid with
        buf := update (s.st.cq cqid).buf (s.producer cqid) c }
      producer := update s.producer cqid ((s.producer cqid + 1) % ((s.st.cq cqid).size + 1))
      producerPhase := update s.producerPhase cqid
        (if s.producer cqid < (s.st.cq cqid).size then s.producerPhase cqid
          else !s.producerPhase cqid)
      outstanding := update s.outstanding c.slot false
      written := update s.written cqid (s.written cqid ++ [c]) } := by
  refine h.of_view (q := cqid) ?_ ?_ ((h.queue cqid).write hphase hroom) ?_
  · simp only [NvmeSystem.view, NvmeState.setCq, update_self]
    rfl
  · intro q' hq'
    simp [NvmeSystem.view, NvmeState.setCq, hq']
  · exact h.slots.complete hc hq (h.queue cqid).freed_le rfl rfl rfl rfl rfl

/-- What the next step of the call for `q` does. -/
theorem processed (h : s.Inv) (q : Nat) :
    Processed s q (s.pc q) (nvmeProcessCqe s.st q (s.pc q)) := by
  by_cases hentry : s.pc q = .entry
  · have hfound : ((s.st.cq q).buf (s.st.cq q).pos).status.testBit 0 = (s.st.cq q).phase ↔
        (s.accepted q).length < (s.written q).length := (h.queue q).entry_phase hentry
    have hpos : (s.st.cq q).pos = ((s.accepted q).length + (s.pc q).moved) % _ := (h.queue q).pos
    have hphase : (s.st.cq q).phase = phaseAt _ ((s.accepted q).length + (s.pc q).moved) :=
      (h.queue q).phase
    rw [hentry] at hpos hphase ⊢
    by_cases hlt : (s.accepted q).length < (s.written q).length
    · rw [nvmeProcessCqe, if_neg (not_not.mpr (hfound.mpr hlt))]
      have hbuf : (s.st.cq q).buf ((s.accepted q).length % _) = (s.written q)[(s.accepted q).length] :=
        (h.queue q).ring.past _ hlt (le_succ_of_le (h.queue q).room)
      refine .quiet nofun (List.getElem?_eq_getElem hlt) (.of_sq rfl rfl rfl) rfl rfl ⟨⟨hpos, hphase⟩, ?_⟩
        (lt_succ_self 7)
      dsimp only
      rw [hpos]
      exact congrArg NvmeCompletion.status hbuf
    · rw [nvmeProcessCqe, if_pos (mt hfound.mp hlt)]
      refine .empty ((h.accepted_eq q).trans ?_)
      exact take_of_length_le (not_lt.mp hlt)
  obtain ⟨c, hc, hfollows, hbuf, hknown, hq⟩ := h.working hentry
  have hreleased := h.freed_length q
  have hread {pos} (hpos : pos = (s.accepted q).length % ((s.st.cq q).size + 1)) :
      (s.st.cq q).buf pos = c := hpos ▸ hbuf
  generalize s.pc q = pc at hentry hfollows hreleased ⊢
  cases pc with
  | entry => exact absurd rfl hentry
  | readSqid l =>
    obtain ⟨hlocals, hstatus⟩ := hfollows
    rw [nvmeProcessCqe, hread hlocals.1]
    rw [if_neg (show ¬ s.st.numIosq < c.sqid from not_lt.mpr hknown.sqid), if_neg (not_not.mpr hq)]
    exact .quiet nofun hc (.of_sq rfl rfl rfl) rfl rfl ⟨hlocals, hstatus, rfl⟩ (lt_succ_self 6)
  | readCid l =>
    obtain ⟨hlocals, hstatus, hsqid⟩ := hfollows
    have htaken : (s.st.slot (c.sqid, c.cid)).isSome :=
      h.slots.taken (by rw [show (s.freed q).length = (s.accepted q).length from hreleased]; exact hc)
    obtain ⟨cmd, hcmd⟩ := Option.isSome_iff_exists.mp htaken
    have hbad : ¬((s.st.sq c.sqid).cmd.isNone = true ∨ (s.st.sq c.sqid).maxCid < c.cid) := by
      rintro (hnone | hlt)
      · have hcmd := hknown.cmd
        rw [show (s.st.sq c.slot.1).cmd = none from Option.isNone_iff_eq_none.mp hnone] at hcmd
        cases hcmd
      · exact absurd hknown.cid (not_le.mpr hlt)
    rw [nvmeProcessCqe, hread hlocals.1, hsqid]
    rw [if_neg hbad, hcmd]
    exact .quiet nofun hc (.of_sq rfl rfl rfl) rfl rfl ⟨hlocals, hstatus, hsqid, rfl⟩ (lt_succ_self 5)
  | readData l =>
    obtain ⟨hlocals, hstatus, hsqid, hcid⟩ := hfollows
    refine .quiet nofun hc (.of_sq rfl rfl rfl) rfl rfl ⟨hlocals, ?_⟩ (lt_succ_self 4)
    dsimp only
    rw [hread hlocals.1, hstatus, hsqid, hcid]
  | freeSlot l =>
    obtain ⟨-, rfl⟩ := hfollows
    exact .free hc hknown
  | storeStatus l =>
    exact .quiet nofun hc (.of_sq rfl rfl rfl) rfl rfl hfollows (lt_succ_self 2)
  | storeHead l =>
    refine .quiet nofun hc ⟨rfl, NvmeState.sameConfig_setSq rfl rfl rfl, ?_⟩ rfl rfl hfollows
      (lt_succ_self 1)
    exact NvmeState.slot_setSq (by rfl)
  | advance l =>
    have hprocess : nvmeProcessCqe s.st q (.advance l) =
        .goto (.ring { l with pos := if l.pos < (s.st.cq q).size then l.pos + 1 else 0 })
          (s.st.setCq q { s.st.cq q with
            pos := if l.pos < (s.st.cq q).size then l.pos + 1 else 0
            phase := if l.pos < (s.st.cq q).size then (s.st.cq q).phase else !l.phase }) := by
      unfold nvmeProcessCqe
      dsimp only
      split <;> rfl
    rw [hprocess]
    exact .advance l
  | ring l =>
    obtain ⟨-, rfl⟩ := hfollows
    exact .done hc

/-- A step of a call that goes on. -/
theorem goto (h : s.Inv) {q pc st} (hstep : nvmeProcessCqe s.st q (s.pc q) = .goto pc st) :
    NvmeSystem.Inv { s with st := st, pc := update s.pc q pc, freed := s.freedNext q } := by
  have hprocessed := h.processed q
  rw [hstep] at hprocessed
  generalize hpc : s.pc q = before at hprocessed
  unfold NvmeSystem.freedNext
  cases hprocessed with
  | quiet hnot hc hquiet hmoved hreleased hfollows =>
    obtain ⟨hlt, rfl⟩ := List.getElem?_eq_some_iff.mp hc
    subst hpc
    split
    · exact absurd ‹_› (hnot _)
    refine h.of_view (q := q) ?_ ?_ ((h.queue q).goto hmoved hreleased hlt hfollows)
      (h.slots.same hquiet.same hquiet.slot rfl rfl rfl)
    · simp [NvmeSystem.view, hquiet.cq]
    · intro q' hq'
      simp [NvmeSystem.view, hquiet.cq, hq']
  | @free l hc hknown =>
    rw [hpc]
    have hreleased := h.freed_length q
    rw [hpc] at hreleased
    refine h.of_view (q := q) ?_ ?_ ((h.queue q).release hpc) (h.slots.release ?_ rfl rfl rfl rfl)
    · simp [NvmeSystem.view, NvmeState.setSlot, NvmeState.setSq]
    · intro q' hq'
      simp [NvmeSystem.view, NvmeState.setSlot, NvmeState.setSq, hq']
    · rw [show (s.freed q).length = (s.accepted q).length from hreleased]
      exact hc
  | advance l =>
    rw [hpc]
    refine h.of_view (q := q) ?_ ?_ ((h.queue q).move hpc)
      (h.slots.same (.of_sq rfl rfl) (fun _ => rfl) rfl rfl rfl)
    · simp only [NvmeSystem.view, NvmeState.setCq, update_self]
      rfl
    · intro q' hq'
      simp [NvmeSystem.view, NvmeState.setCq, hq']

theorem ret (h : s.Inv) {q res st} (hstep : nvmeProcessCqe s.st q (s.pc q) = .ret res st) :
    NvmeSystem.Inv { s with
      st := st, pc := update s.pc q .entry, accepted := s.acceptedNext q res } := by
  have hprocessed := h.processed q
  rw [hstep] at hprocessed
  generalize hpc : s.pc q = pc at hprocessed
  unfold NvmeSystem.acceptedNext
  cases hprocessed with
  | empty =>
    rw [← hpc, update_eq_self]
    exact h
  | done =>
    rw [hpc]
    refine h.of_view (q := q) ?_ ?_ ((h.queue q).return_ok hpc)
      (h.slots.same (.of_sq rfl rfl) (fun _ => rfl) rfl rfl rfl)
    · simp only [NvmeSystem.view, NvmeState.setCq, CqePc.locals, update_self]
    · intro q' hq'
      simp [NvmeSystem.view, NvmeState.setCq, CqePc.locals, hq']

theorem step (h : s.Inv) (hstep : s.Step s') : s'.Inv := by
  cases hstep with
  | submit req tail hsqid hcmd hcid hfree =>
    exact ⟨h.queue, h.slots.submit ⟨hsqid, hcmd, hcid⟩ hfree req tail⟩
  | complete c hc hq hphase hroom => exact h.complete hc hq hphase hroom
  | goto hprocess => exact h.goto hprocess
  | ret hprocess => exact h.ret hprocess

theorem run (h : s.Run) : s.Inv := by
  induction h with
  | initial h => exact initial h
  | step _ hstep ih => exact ih.step hstep

end NvmeSystem.Inv

/-! ## Results -/

/-- There is room in the queue, but all command IDs are in use. -/
structure NvmeState.NoIdFree (st : NvmeState) (sqid : Nat) : Prop where
  queue : sqid ≤ st.numIosq
  room : (if (st.sq sqid).tail = (st.sq sqid).size then 0 else (st.sq sqid).tail + 1) ≠ (st.sq sqid).head
  cmd : (st.sq sqid).cmd.isSome
  busy : ∀ i, i ≤ (st.sq sqid).maxCid → st.slot (sqid, i) ≠ none

/-- The call is refused because the queue is full, refused because no command ID is free, or it takes
a free one. -/
theorem nvmeSubmitSingleCommand_cases {st : NvmeState} {st' sqid req ok}
    (h : nvmeSubmitSingleCommand st sqid req = .ok (ok, st')) :
    ok = false ∧ st' = st ∨
    ok = false ∧ st' = st.setReq req { st.req req with status := nvmeSubmitted } ∧ st.NoIdFree sqid ∨
    ok = true ∧ ∃ cid tail, st' = st.submitted (sqid, cid) req tail ∧ sqid ≤ st.numIosq ∧
      (st.sq sqid).cmd.isSome ∧ cid ≤ (st.sq sqid).maxCid ∧ st.slot (sqid, cid) = none := by
  unfold nvmeSubmitSingleCommand at h
  dsimp only at h
  generalize hnext : (if (st.sq sqid).tail = (st.sq sqid).size then 0 else _) = next at h
  split at h
  · cases h
  rename_i hsqid
  split at h
  · cases h
    exact .inl ⟨rfl, rfl⟩
  rename_i hfull
  split at h
  · cases h
  rename_i hcmd
  have hcmd : (st.sq sqid).cmd.isSome := by simpa [Option.isSome_iff_ne_none] using hcmd
  split at h
  · rename_i hfind
    cases h
    refine .inr (.inl ⟨rfl, rfl, not_lt.mp hsqid, hnext ▸ hfull, hcmd, fun i hi hnone => ?_⟩)
    have := List.find?_eq_none.mp hfind i (mem_range.mpr (lt_succ_of_le hi))
    simp [hnone] at this
  · rename_i cid hfind
    cases h
    have hcid := mem_range.mp (mem_of_find?_eq_some hfind)
    have hfree := List.find?_some hfind
    exact .inr (.inr ⟨rfl, cid, _, rfl, not_lt.mp hsqid, hcmd, Nat.lt_succ_iff.mp hcid,
      Option.isNone_iff_eq_none.mp hfree⟩)

/-- A command that has been submitted is a step of the system. -/
theorem submit_step {s : NvmeSystem} {sqid req st}
    (h : nvmeSubmitSingleCommand s.st sqid req = .ok (true, st)) :
    ∃ cid, s.Step { s with st := st, outstanding := update s.outstanding (sqid, cid) true } := by
  obtain ⟨⟨⟩, -⟩ | ⟨⟨⟩, -⟩ | ⟨-, cid, tail, rfl, hsqid, hcmd, hcid, hfree⟩ :=
    nvmeSubmitSingleCommand_cases h
  exact ⟨cid, .submit req tail hsqid hcmd hcid hfree⟩

/-- The memory after a step, unless it faults. -/
def CqeStep.state : CqeStep → Option NvmeState
  | .goto _ st | .ret _ st => some st
  | .fault => none

/-- What can be said about the calls for a queue at any time. -/
structure NvmeSystem.Delivers (s : NvmeSystem) (q : Nat) : Prop where
  /-- `IOST_OK` has been returned once for each of the first entries, in their order. -/
  inOrder : s.accepted q <+: s.written q
  /-- A call that has found an entry works on one that has been written and not consumed. -/
  fresh : s.pc q ≠ .entry → (s.accepted q).length < (s.written q).length
  /-- `IOST_TRANSIENT` is returned exactly if all entries have been consumed. -/
  transient : (∃ st, nvmeProcessCqe s.st q (s.pc q) = .ret .transient st) ↔
    s.accepted q = s.written q
  /-- Otherwise the call comes closer to its return, which is `IOST_OK` for the next entry. -/
  ok : s.accepted q ≠ s.written q →
    (∃ pc st, nvmeProcessCqe s.st q (s.pc q) = .goto pc st ∧ pc.rank < (s.pc q).rank) ∨
    ∃ l st, (s.pc q).locals = some l ∧ nvmeProcessCqe s.st q (s.pc q) = .ret .ok st ∧
      s.accepted q ++ [l.cqe] <+: s.written q ∧
      s.freed q = (s.accepted q ++ [l.cqe]).map NvmeCompletion.slot
  /-- A slot that a step changes is the one of the entry's command, and is freed. -/
  frees : ∀ st ∈ (nvmeProcessCqe s.st q (s.pc q)).state, ∀ x, st.slot x ≠ s.st.slot x →
    st.slot x = none ∧ (s.written q)[(s.accepted q).length]?.map NvmeCompletion.slot = some x
  /-- Slots have been freed for the consumed entries and at most the one that is worked on. -/
  freed : s.freed q <+: (s.written q).map NvmeCompletion.slot ∧
    (s.accepted q).length ≤ (s.freed q).length ∧ (s.freed q).length ≤ (s.accepted q).length + 1

namespace NvmeSystem.Inv
variable {s : NvmeSystem} {q : Nat}

theorem ok_or_closer (h : s.Inv) (hne : s.accepted q ≠ s.written q) :
    (∃ pc st, nvmeProcessCqe s.st q (s.pc q) = .goto pc st ∧ pc.rank < (s.pc q).rank) ∨
    ∃ l st, (s.pc q).locals = some l ∧ nvmeProcessCqe s.st q (s.pc q) = .ret .ok st ∧
      s.accepted q ++ [l.cqe] <+: s.written q ∧
      s.freed q = (s.accepted q ++ [l.cqe]).map NvmeCompletion.slot := by
  have hreleased := h.freed_length q
  have hprocessed := h.processed q
  generalize nvmeProcessCqe s.st q (s.pc q) = step at hprocessed ⊢
  generalize s.pc q = pc at hprocessed hreleased ⊢
  cases hprocessed with
  | empty heq => exact absurd heq hne
  | quiet _ _ _ _ _ _ hrank => exact .inl ⟨_, _, rfl, hrank⟩
  | free => exact .inl ⟨_, _, rfl, lt_succ_self 3⟩
  | advance l => exact .inl ⟨_, _, rfl, zero_lt_one⟩
  | @done l hc =>
    have htake : s.accepted q ++ [l.cqe] = (s.written q).take ((s.accepted q).length + 1) := by
      rw [take_add_one, hc, ← h.accepted_eq]
      rfl
    refine .inr ⟨l, _, rfl, rfl, ?_, ?_⟩
    · rw [htake]
      exact take_prefix _ _
    · rw [htake, h.freed_eq q, hreleased]
      rfl

/-- Only the step that frees a slot changes any. -/
theorem slot_of_step (h : s.Inv) {st : NvmeState}
    (hst : st ∈ (nvmeProcessCqe s.st q (s.pc q)).state) {x} (hx : st.slot x ≠ s.st.slot x) :
    st.slot x = none ∧ (s.written q)[(s.accepted q).length]?.map NvmeCompletion.slot = some x := by
  have hprocessed := h.processed q
  generalize nvmeProcessCqe s.st q (s.pc q) = step at hprocessed hst
  generalize s.pc q = pc at hprocessed
  cases hprocessed with
  | quiet _ _ hquiet =>
    cases hst
    exact absurd (hquiet.slot x) hx
  | @free l hc hknown =>
    cases hst
    rw [NvmeState.slot_setSlot hknown.cmd] at hx ⊢
    by_cases hslot : x = l.cqe.slot
    · rw [if_pos hslot, hc]
      exact ⟨rfl, congrArg some hslot.symm⟩
    · exact absurd (if_neg hslot) hx
  | _ =>
    cases hst
    exact absurd rfl hx

theorem transient_iff (h : s.Inv) :
    (∃ st, nvmeProcessCqe s.st q (s.pc q) = .ret .transient st) ↔ s.accepted q = s.written q := by
  constructor
  · rintro ⟨st, hst⟩
    have hprocessed := h.processed q
    rw [hst] at hprocessed
    generalize s.pc q = pc at hprocessed
    cases hprocessed
    assumption
  · intro heq
    have hpc : s.pc q = .entry := by
      by_contra hne
      obtain ⟨hlt, -⟩ := (h.queue q).busy hne
      change (s.accepted q).length < (s.written q).length at hlt
      rw [heq] at hlt
      exact lt_irrefl _ hlt
    have hprocessed := h.processed q
    rw [hpc] at hprocessed ⊢
    generalize nvmeProcessCqe s.st q .entry = step at hprocessed ⊢
    cases hprocessed with
    | empty => exact ⟨_, rfl⟩
    | quiet _ hc =>
      rw [heq, List.getElem?_length] at hc
      cases hc

theorem freed_prefix (h : s.Inv) (q : Nat) : s.freed q <+: (s.written q).map NvmeCompletion.slot := by
  rw [h.freed_eq q]
  exact (List.take_prefix _ _).map _

end NvmeSystem.Inv

/-- Whatever the sizes of the rings and the order in which driver and device take their steps. -/
theorem nvme_completions_delivered {s : NvmeSystem} (h : s.Run) (q : Nat) : s.Delivers q := by
  have hinv : s.Inv := .run h
  refine ⟨?_, fun hpc => ?_, hinv.transient_iff, hinv.ok_or_closer,
    fun st hst x hx => hinv.slot_of_step hst hx, hinv.freed_prefix q, ?_, ?_⟩
  · rw [hinv.accepted_eq q]
    exact take_prefix _ _
  · obtain ⟨hlt, -⟩ := (hinv.queue q).busy hpc
    exact hlt
  · exact hinv.freed_length q ▸ Nat.le_add_right _ _
  · exact hinv.freed_length q ▸ Nat.add_le_add_left (s.pc q).released_le _

/-- Two queues of two slots, one command ID for each. -/
def nvmeStart : NvmeSystem where
  st := ⟨1, fun i => ⟨0, 1, 0, i, 0, 0, some fun _ => none⟩, fun _ => ⟨0, fun _ => .zero, true, 1, 0⟩,
    fun _ => ⟨0, 0, 0, 0⟩⟩
  pc _ := .entry
  producer _ := 0
  producerPhase _ := true
  outstanding _ := false
  written _ := []
  accepted _ := []
  freed _ := []

/-- A call of `nvme_process_cqe` up to its return, with nothing in between. -/
def NvmeSystem.call (cqid : Nat) : Nat → NvmeSystem → NvmeSystem
  | 0, s => s
  | n + 1, s => match nvmeProcessCqe s.st cqid (s.pc cqid) with
    | .goto pc st =>
      call cqid n { s with st := st, pc := update s.pc cqid pc, freed := s.freedNext cqid }
    | .ret res st =>
      { s with st := st, pc := update s.pc cqid .entry, accepted := s.acceptedNext cqid res }
    | .fault => s

theorem NvmeSystem.Run.call {s : NvmeSystem} (h : s.Run) (cqid n : Nat) : (s.call cqid n).Run := by
  induction n generalizing s with
  | zero => exact h
  | succ n ih =>
    unfold NvmeSystem.call
    split
    · rename_i hgoto
      exact ih (h.step (.goto hgoto))
    · rename_i hret
      exact h.step (.ret hret)
    · exact h

/-- Two entries that have been taken from a ring of two slots, and a third one where the first was. -/
theorem nvme_completions_delivered_wrapped : ∃ s : NvmeSystem, s.Run ∧
    s.accepted 1 = [⟨0, 0, 1, 1, 0, 1⟩, ⟨0, 0, 0, 1, 0, 1⟩] ∧
    s.written 1 = [⟨0, 0, 1, 1, 0, 1⟩, ⟨0, 0, 0, 1, 0, 1⟩, ⟨0, 0, 1, 1, 0, 0⟩] ∧
    (s.st.cq 1).phase = false ∧ s.freed 1 = [(1, 0), (1, 0), (1, 0)] ∧ s.Delivers 1 := by
  have hstart : nvmeStart.Run := .initial
    ⟨fun _ => ⟨rfl, rfl, rfl, fun _ => rfl⟩, fun _ => rfl, fun _ => rfl, fun _ => ⟨rfl, rfl⟩,
      fun _ => rfl, fun _ => ⟨rfl, rfl, rfl⟩⟩
  have h1 := ((hstart.step (.submit (x := (1, 0)) 0 1 (le_refl 1) rfl (le_refl 0) rfl)).step
    (@NvmeSystem.Step.complete _ 1 ⟨0, 0, 1, 1, 0, 1⟩ rfl rfl rfl (by decide))).call 1 9
  have h2 := ((h1.step (.submit (x := (1, 0)) 0 0 (by decide) rfl (by decide) rfl)).step
    (@NvmeSystem.Step.complete _ 1 ⟨0, 0, 0, 1, 0, 1⟩ rfl rfl rfl (by decide))).call 1 9
  -- the third call has freed the command and not yet returned
  have h3 := ((h2.step (.submit (x := (1, 0)) 0 1 (by decide) rfl (by decide) rfl)).step
    (@NvmeSystem.Step.complete _ 1 ⟨0, 0, 1, 1, 0, 0⟩ rfl rfl rfl (by decide))).call 1 5
  exact ⟨_, h3, rfl, rfl, rfl, rfl, nvme_completions_delivered h3 1⟩

end Rkboot.Drivers
