import Rkboot.Sched.Runqueue

/-! # Every interleaving of the run queue's calls

Threads and interrupt handlers push chains and move lists, one consumer takes from the run queue.
`Holds` says which runnables each list and each call has; `run_sound` follows them over whole runs. -/
namespace Rkboot.Sched
open Lib Function List

section
variable {R W T : Type}

/-- Where a runnable can be. -/
inductive Place (W T : Type) where
  | list (id : ListId W)
  | head
  | call (t : T)
  deriving DecidableEq

/-- The runnables a call has in hand. -/
def Pc.chain : Pc R W → List R
  | .load _ o | .cas _ o _ => o.chain
  | _ => []

/-- The runnables a `sched_queue_list` call has taken from its source. -/
def Pc.taken : Pc R W → List R
  | .load _ o | .cas _ o _ => if o.moved then o.chain else []
  | _ => []

def contents (lists : ListId W → List R) (head : List R) (calls : T → List R) : Place W T → List R
  | .list id => lists id
  | .head => head
  | .call t => calls t

def Offer.Linked (next : R → Option R) (o : Offer R) : Prop :=
  ∃ init, o.chain = init ++ [o.last] ∧ Path next (some o.first) init (some o.last)

/-- What a call relies on while others run. -/
def Pc.Ready (next : R → Option R) : Pc R W → Prop
  | .load _ o => o.Linked next
  | .cas _ o n => o.Linked next ∧ Path next (some o.first) o.chain n
  | _ => True

/-- The last `next` field of the chain, or `&rq->head`, for which null stands at the beginning. -/
def TailPtr.At (tail : TailPtr R) (head : List R) : Prop :=
  match head.getLast? with
  | none => tail = .null ∨ tail = .head
  | some r => tail = .next r

/-- The memory holds `lists` and `head`, and no runnable is at two places. -/
structure State.Holds (s : State R W T) (lists : ListId W → List R) (head : List R) : Prop where
  listed : ∀ id, Path s.next (s.heads id) (lists id) none
  chained : Path s.next s.head head none
  tail : s.tail.At head
  calls : ∀ t, (s.pc t).Ready s.next
  separate : Separate (contents lists head (Pc.chain ∘ s.pc))

/-- The runnable is on a list or in the hands of a call. -/
def State.Busy (s : State R W T) (r : R) : Prop :=
  (∃ id l, Path s.next (s.heads id) l none ∧ r ∈ l) ∨ (∃ l, Path s.next s.head l none ∧ r ∈ l) ∨
    ∃ t, r ∈ (s.pc t).chain

variable {s : State R W T} {lists : ListId W → List R} {head : List R}

theorem State.Holds.busy (h : s.Holds lists head) {p r}
    (hr : r ∈ contents lists head (Pc.chain ∘ s.pc) p) : s.Busy r := by
  cases p with
  | list id => exact .inl ⟨id, _, h.listed id, hr⟩
  | head => exact .inr (.inl ⟨_, h.chained, hr⟩)
  | call t => exact .inr (.inr ⟨t, hr⟩)

theorem Offer.Linked.congr {next next' : R → Option R} {o : Offer R} (h : o.Linked next)
    (hn : ∀ r ∈ o.chain, next' r = next r) : o.Linked next' := by
  obtain ⟨init, hchain, hpath⟩ := h
  exact ⟨init, hchain, hpath.congr fun r hr => hn r (hchain ▸ mem_append_left _ hr)⟩

theorem Pc.Ready.congr {next next' : R → Option R} {p : Pc R W} (h : p.Ready next)
    (hn : ∀ r ∈ p.chain, next' r = next r) : p.Ready next' := by
  cases p with
  | idle | exchange => trivial
  | load list o => exact Offer.Linked.congr h hn
  | cas list o n => exact ⟨Offer.Linked.congr h.1 hn, h.2.congr hn⟩

/-- A store to a runnable that is at no place. -/
theorem State.Holds.own [DecidableEq R] (h : s.Holds lists head) {r} (hr : ¬ s.Busy r)
    (v : Option R) : State.Holds { s with next := update s.next r v } lists head where
  listed id := (h.listed id).update (fun hm => hr (h.busy (p := .list id) hm)) v
  chained := h.chained.update (fun hm => hr (h.busy (p := .head) hm)) v
  tail := h.tail
  calls t := (h.calls t).congr fun r' hr' =>
    update_of_ne (fun he => hr (h.busy (p := .call t) (by rwa [← he]))) ..
  separate := h.separate

theorem State.Holds.takeFirst_nil (h : s.Holds lists []) : s.takeFirst = (none, s) := by
  have hnone : s.head = none := h.chained
  rw [State.takeFirst, hnone]

variable [DecidableEq W] [DecidableEq T]

theorem contents_update_list (lists : ListId W → List R) (head : List R) (calls : T → List R)
    (id : ListId W) (l : List R) :
    contents (update lists id l) head calls = update (contents lists head calls) (.list id) l := by
  funext p
  cases p with
  | list id' => by_cases h : id' = id <;> simp [contents, h]
  | head => simp [contents]
  | call t => simp [contents]

theorem contents_update_head (lists : ListId W → List R) (head l : List R) (calls : T → List R) :
    contents lists l calls = update (contents lists head calls) .head l := by
  funext p
  cases p <;> simp [contents]

theorem contents_update_call (lists : ListId W → List R) (head : List R) (calls : T → List R) (t : T)
    (l : List R) :
    contents lists head (update calls t l) = update (contents lists head calls) (.call t) l := by
  funext p
  cases p with
  | call t' => by_cases h : t' = t <;> simp [contents, h]
  | head => simp [contents]
  | list id => simp [contents]

/-! ## What the atomic operations keep -/

omit [DecidableEq W] in
theorem ready_update {next} {pc : T → Pc R W} (h : ∀ t, (pc t).Ready next) {t}
    {p : Pc R W} (hp : p.Ready next) (t' : T) : (update pc t p t').Ready next := by
  by_cases ht : t' = t
  · rwa [ht, update_self]
  · rw [update_of_ne ht]
    exact h t'

/-- A call starts with a chain of runnables that are nowhere else. -/
theorem State.Holds.start (h : s.Holds lists head) (t : T) {p : Pc R W} (hready : p.Ready s.next)
    (hnodup : p.chain.Nodup) (hfree : ∀ r ∈ p.chain, ¬ s.Busy r) :
    State.Holds { s with pc := update s.pc t p } lists head where
  listed := h.listed
  chained := h.chained
  tail := h.tail
  calls := ready_update h.calls hready
  separate := by
    rw [comp_update, contents_update_call]
    exact h.separate.put _ hnodup fun r hr => .inr fun q hq => hfree r hr (h.busy hq)

/-- A successful compare-exchange. -/
theorem State.Holds.linked (h : s.Holds lists head) {t list} {o : Offer R}
    (hpc : s.pc t = .cas list o (s.heads list)) :
    State.Holds { s with heads := update s.heads list (some o.first), pc := update s.pc t .idle }
      (update lists list (o.chain ++ lists list)) head where
  listed id := by
    by_cases hid : id = list
    · subst hid
      have hready := h.calls t
      rw [hpc] at hready
      simp only [update_self]
      exact hready.2.append (h.listed id)
    · simp only [update_of_ne hid]
      exact h.listed id
  chained := h.chained
  tail := h.tail
  calls := ready_update h.calls trivial
  separate := by
    rw [comp_update, contents_update_list, contents_update_call]
    refine h.separate.move (by simp) ?_
    rw [contents, contents, comp_apply, hpc]
    exact List.Perm.refl _

/-- The exchange of `sched_queue_list`. -/
theorem State.Holds.taken (h : s.Holds lists head) {t src} (hpc : (s.pc t).chain = [])
    {p : Pc R W} (hready : p.Ready s.next) (hchain : p.chain = lists (.wait src)) :
    State.Holds { s with heads := update s.heads (.wait src) none, pc := update s.pc t p }
      (update lists (.wait src) []) head where
  listed id := by
    by_cases hid : id = .wait src
    · subst hid
      simp only [update_self, path_nil]
    · simp only [update_of_ne hid]
      exact h.listed id
  chained := h.chained
  tail := h.tail
  calls := ready_update h.calls hready
  separate := by
    rw [comp_update, contents_update_call, contents_update_list]
    refine h.separate.move (by simp) ?_
    rw [contents, contents, comp_apply, hpc, hchain, append_nil]

/-- The `do` loop: the fresh runnables are at no place while it runs. -/
theorem State.Holds.reversed (h : s.Holds lists head) {heap : R → Option R}
    (hheap : ∀ r ∉ lists .fresh, heap r = s.next r) :
    State.Holds { s with next := heap, heads := update s.heads .fresh none }
      (update lists .fresh []) head := by
  have hother : ∀ p ≠ .list .fresh, ∀ r ∈ contents lists head (Pc.chain ∘ s.pc) p,
      heap r = s.next r := fun p hp r hr => hheap r (h.separate.not_mem hp hr)
  refine ⟨fun id => ?_, h.chained.congr (hother .head (by simp)), h.tail,
    fun t => (h.calls t).congr (hother (.call t) (by simp)), ?_⟩
  · by_cases hid : id = .fresh
    · simp only [hid, update_self, path_nil]
    · simp only [update_of_ne hid]
      exact (h.listed id).congr (hother (.list id) (by simpa using hid))
  · rw [contents_update_list]
    exact h.separate.put _ nodup_nil (by simp)

theorem State.Holds.takeFirst_cons {r} (h : s.Holds lists (r :: head)) : ∃ s' : State R W T,
    s.takeFirst = (some r, s') ∧ s'.Holds lists head ∧ s'.pc = s.pc ∧ s'.tail ≠ .null := by
  have htail := h.tail
  have hrest : Path s.next (s.next r) head none := h.chained.2
  have htake : s.takeFirst = (some r,
      { s with head := s.next r, tail := if s.next r = none then .head else s.tail }) := by
    rw [State.takeFirst, h.chained.1]
  refine ⟨_, htake, ⟨h.listed, hrest, ?_, h.calls, ?_⟩, rfl, ?_⟩
  · cases head with
    | nil =>
      have hnone : s.next r = none := hrest
      rw [if_pos hnone]
      exact .inr rfl
    | cons r' l =>
      rw [if_neg (by rw [hrest.1]; exact Option.some_ne_none _)]
      rwa [TailPtr.At, List.getLast?_cons_cons] at htail
  · rw [contents_update_head _ (r :: head)]
    exact h.separate.put _ (nodup_cons.mp (h.separate.nodup .head)).2 fun r' hr' =>
      .inl (mem_cons_of_mem _ hr')
  · split
    · exact nofun
    · intro hnull
      rw [TailPtr.At, hnull] at htail
      split at htail
      · rename_i he
        exact absurd he (by simp)
      · cases htail

variable [DecidableEq R]

omit [DecidableEq W] in
/-- `last->next = next`: only the call's own chain changes. -/
theorem State.Holds.offer (h : s.Holds lists head) {t list} {o : Offer R}
    (hchain : (s.pc t).chain = o.chain) (ho : o.Linked s.next) :
    (s.offer t list o).Holds lists head := by
  obtain ⟨init, hinit, hpath⟩ := ho
  have hmem : o.last ∈ contents lists head (Pc.chain ∘ s.pc) (.call t) := by
    rw [contents, comp_apply, hchain, hinit]
    exact mem_append_right _ (mem_singleton.mpr rfl)
  have hnodup : (init ++ [o.last]).Nodup := by
    rw [← hinit, ← hchain]
    exact h.separate.nodup (.call t)
  have hlast : o.last ∉ init := fun hm =>
    (nodup_append.mp hnodup).2.2 _ hm _ (mem_singleton.mpr rfl) rfl
  have hother : ∀ p ≠ .call t, o.last ∉ contents lists head (Pc.chain ∘ s.pc) p := fun p hp =>
    h.separate.not_mem hp.symm hmem
  refine ⟨fun id => (h.listed id).update (hother (.list id) (by simp)) _,
    h.chained.update (hother .head (by simp)) _, h.tail, fun t' => ?_, ?_⟩
  · by_cases ht : t' = t
    · subst ht
      simp only [State.offer, update_self]
      exact ⟨⟨init, hinit, hpath.update hlast _⟩, hinit ▸ hpath.update_last hlast _⟩
    · simp only [State.offer, update_of_ne ht]
      refine (h.calls t').congr fun r hr => update_of_ne (fun he => ?_) ..
      exact hother (.call t') (by simpa using ht) (he ▸ hr)
  · have hsame : Pc.chain ∘ (s.offer t list o).pc = Pc.chain ∘ s.pc := by
      rw [State.offer, comp_update]
      exact update_eq_self_iff.mpr hchain.symm
    rw [hsame]
    exact h.separate

/-- `*old_tail = first`, for a chain that is at no place. -/
theorem State.Holds.append (h : s.Holds lists head) {l r first}
    (hl : Path s.next first (l ++ [r]) none) (hnodup : (l ++ [r]).Nodup)
    (hfree : ∀ p, ∀ r' ∈ l ++ [r], r' ∉ contents lists head (Pc.chain ∘ s.pc) p) :
    ({ s with tail := .next r }.store s.oldTail first).Holds lists (head ++ (l ++ [r])) := by
  have hlast : (TailPtr.next r).At (head ++ (l ++ [r])) := by
    rw [TailPtr.At, ← append_assoc, List.getLast?_concat]
  have hsep : Separate (contents lists (head ++ (l ++ [r])) (Pc.chain ∘ s.pc)) := by
    rw [contents_update_head _ head]
    refine h.separate.put _ (List.Nodup.append (h.separate.nodup .head) hnodup ?_) fun r' hr' => ?_
    · exact fun r' hr' hr'' => hfree .head r' hr'' hr'
    · exact (mem_append.mp hr').imp_right fun hm p => hfree p r' hm
  have htail := h.tail
  rcases eq_nil_or_concat' head with rfl | ⟨init, last, rfl⟩
  · have hold : s.oldTail = .head := by
      rw [State.oldTail]
      rcases htail with htail | htail <;> rw [htail] <;> rfl
    rw [hold]
    exact ⟨h.listed, hl, hlast, h.calls, hsep⟩
  · rw [TailPtr.At, List.getLast?_concat] at htail
    have hold : s.oldTail = .next last := by
      rw [State.oldTail, htail]
      rfl
    have hmem : last ∈ contents lists (init ++ [last]) (Pc.chain ∘ s.pc) .head :=
      mem_append_right _ (mem_singleton.mpr rfl)
    have hnot : ∀ p ≠ .head, last ∉ contents lists (init ++ [last]) (Pc.chain ∘ s.pc) p :=
      fun p hp => h.separate.not_mem hp.symm hmem
    have hinit : last ∉ init := fun hm =>
      (nodup_append.mp (h.separate.nodup .head)).2.2 _ hm _ (mem_singleton.mpr rfl) rfl
    obtain ⟨c, hpath, hc, -⟩ := path_append.mp h.chained
    subst hc
    rw [hold]
    refine ⟨fun id => (h.listed id).update (hnot (.list id) (by simp)) first,
      (hpath.update_last hinit first).append (hl.update (fun hm => hfree .head last hm hmem) first),
      hlast, fun t => (h.calls t).congr fun r' hr' => update_of_ne (fun he => ?_) .., hsep⟩
    exact hnot (.call t) (by simp) (he ▸ hr')

/-- The fresh runnables go behind the others, in reverse. -/
theorem State.Holds.addFresh (h : s.Holds lists head) : ∃ s' : State R W T,
    (∀ fuel, s.addFresh fuel = if fuel < (lists .fresh).length then none else some s') ∧
    s'.Holds (update lists .fresh []) (head ++ (lists .fresh).reverse) ∧ s'.pc = s.pc ∧
    (s'.tail = .null → s.tail = .null) := by
  cases hfresh : s.heads .fresh with
  | none =>
    have hempty : lists .fresh = [] := (hfresh ▸ h.listed .fresh).unique rfl
    refine ⟨s, fun fuel => ?_, ?_, rfl, id⟩
    · rw [State.addFresh, hfresh, hempty]
      exact (if_neg (Nat.not_lt_zero fuel)).symm
    · rw [update_eq_self_iff.mpr hempty.symm, hempty, reverse_nil, append_nil]
      exact h
  | some fresh =>
    have hpath : Path s.next (some fresh) (lists .fresh) none := hfresh ▸ h.listed .fresh
    have hnodup : (lists .fresh).Nodup := h.separate.nodup (.list .fresh)
    obtain ⟨heap, first, hrev, hfirst, hframe⟩ :=
      reverse_path hpath (path_nil.mpr rfl) hnodup fun _ _ => not_mem_nil
    have hadd : ∀ fuel, s.addFresh fuel = if fuel < (lists .fresh).length then none else
        some ({ s with next := heap, heads := update s.heads .fresh none, tail := .next fresh }.store
          s.oldTail first) := by
      intro fuel
      rw [State.addFresh, hfresh]
      dsimp only
      rw [hrev]
      split <;> rfl
    refine ⟨_, hadd, ?_⟩
    have hreversed := h.reversed hframe
    have hfree : ∀ p, ∀ r ∈ lists .fresh,
        r ∉ contents (update lists .fresh []) head (Pc.chain ∘ s.pc) p := by
      intro p r hr
      rw [contents_update_list]
      by_cases hp : p = .list .fresh
      · rw [hp, update_self]
        exact not_mem_nil
      · rw [update_of_ne hp]
        exact h.separate.not_mem (Ne.symm hp) hr
    cases hl : lists .fresh with
    | nil => exact absurd hl hpath.ne_nil
    | cons r l =>
      rw [hl] at hpath hfirst hnodup hfree
      obtain rfl : fresh = r := Option.some.inj hpath.1
      rw [append_nil] at hfirst
      rw [← nodup_reverse] at hnodup
      rw [reverse_cons] at hfirst hnodup ⊢
      have happended := hreversed.append hfirst hnodup fun p r hr => hfree p r (by simpa [or_comm] using hr)
      exact ⟨happended, by rw [State.store_pc], by rw [State.store_tail]; exact nofun⟩

/-! ## Every atomic operation -/

/-- What an atomic operation of `t` can be, and the lists after it. -/
inductive Atomic (s : State R W T) (t : T) (lists : ListId W → List R) :
    Event R W → State R W T → (ListId W → List R) → Prop where
  | offered {list : ListId W} {o : Offer R} :
      (s.pc t = .load list o ∨ ∃ n, s.pc t = .cas list o n) →
      Atomic s t lists .silent (s.offer t list o) lists
  | linked {list : ListId W} {o : Offer R} : s.pc t = .cas list o (s.heads list) →
      Atomic s t lists (.linked list o)
        { s with heads := update s.heads list (some o.first), pc := update s.pc t .idle }
        (update lists list (o.chain ++ lists list))
  | taken {dest : Option (ListId W)} {src : W} {p : Pc R W} : s.pc t = .exchange dest src →
      p.Ready s.next → p.chain = lists (.wait src) → p.taken = lists (.wait src) →
      (p = .idle ∨ ∃ o, p = schedQueueMany dest o) →
      Atomic s t lists .silent
        { s with heads := update s.heads (.wait src) none, pc := update s.pc t p }
        (update lists (.wait src) [])

theorem State.Holds.atomic (h : s.Holds lists head) {fuel spurious t e} {s' : State R W T}
    (hrun : s.atomicStep fuel spurious t = some (e, s')) :
    ∃ lists', Atomic s t lists e s' lists' ∧ s'.Holds lists' head := by
  have hready := h.calls t
  rw [State.atomicStep] at hrun
  cases hpc : s.pc t with
  | idle => rw [hpc] at hrun; cases hrun
  | load list o =>
    rw [hpc] at hrun hready
    cases hrun
    exact ⟨_, .offered (.inl hpc), h.offer (by rw [hpc]; rfl) hready⟩
  | cas list o next =>
    rw [hpc] at hrun hready
    dsimp only at hrun
    split at hrun
    · rename_i hsame
      cases hrun
      have hcas : s.pc t = .cas list o (s.heads list) := by rw [hpc, hsame.1]
      exact ⟨_, .linked hcas, h.linked hcas⟩
    · cases hrun
      exact ⟨_, .offered (.inr ⟨next, hpc⟩), h.offer (by rw [hpc]; rfl) hready.1⟩
  | exchange dest src =>
    rw [hpc] at hrun
    dsimp only at hrun
    have hempty : (s.pc t).chain = [] := by rw [hpc]; rfl
    have hpath := h.listed (.wait src)
    cases hhead : s.heads (.wait src) with
    | none =>
      rw [hhead] at hrun hpath
      cases hrun
      have hnil : [] = lists (.wait src) := Path.unique rfl hpath
      exact ⟨_, .taken hpc trivial hnil hnil (.inl rfl), h.taken (p := .idle) hempty trivial hnil⟩
    | some first =>
      rw [hhead] at hrun hpath
      obtain ⟨⟨last, chain⟩, hfind, hs'⟩ := Option.map_eq_some_iff.mp hrun
      cases hs'
      obtain ⟨init, last', hinit, hfound⟩ := findLast_path hpath
      rw [hfound] at hfind
      split at hfind
      · cases hfind
      cases hfind
      have hlinked : (⟨first, last, lists (.wait src), true⟩ : Offer R).Linked s.next := by
        rw [hinit] at hpath
        obtain ⟨c, hto, hc, -⟩ := path_append.mp hpath
        exact ⟨init, hinit, hc ▸ hto⟩
      exact ⟨_, .taken hpc hlinked rfl rfl (.inr ⟨_, rfl⟩),
        h.taken (p := schedQueueMany dest _) hempty hlinked rfl⟩

/-- `sched_unqueue` leaves the wait lists alone. -/
theorem State.Holds.unqueue (h : s.Holds lists head) {fuel res} {s' : State R W T}
    (hrun : s.schedUnqueue fuel = some (res, s')) : ∃ lists' head', s'.Holds lists' head' ∧
      (∀ w, lists' (.wait w) = lists (.wait w)) ∧ s'.pc = s.pc := by
  obtain ⟨s₁, hadd, htake⟩ := Option.map_eq_some_iff.mp hrun
  obtain ⟨s₂, hadd₂, hholds, hpc, -⟩ := h.addFresh
  rw [hadd₂] at hadd
  split at hadd
  · cases hadd
  obtain rfl := Option.some.inj hadd
  have hlists : ∀ w, update lists .fresh [] (.wait w) = lists (.wait w) := fun w =>
    update_of_ne (by simp) ..
  cases hhead : head ++ (lists .fresh).reverse with
  | nil =>
    rw [hhead] at hholds
    rw [hholds.takeFirst_nil] at htake
    cases htake
    exact ⟨_, _, hholds, hlists, hpc⟩
  | cons r rest =>
    rw [hhead] at hholds
    obtain ⟨s₃, htake₃, hholds₃, hpc₃, -⟩ := hholds.takeFirst_cons
    rw [htake₃] at htake
    cases htake
    exact ⟨_, _, hholds₃, hlists, hpc₃.trans hpc⟩

end

/-! ## Whole runs -/

section
variable {R W T : Type}

/-- The runnables queued by their owners. -/
def queued (trace : List (Event R W)) : List R :=
  trace.flatMap fun
    | .linked _ o => if o.moved then [] else o.chain
    | _ => []

def returned (trace : List (Event R W)) : List R :=
  trace.filterMap fun
    | .returned r => some r
    | _ => none

/-- What has come to the run queue, in the order of the compare-exchanges. The lists are kept in
reverse, so the last runnable of a chain is the first to come. -/
def arrived (trace : List (Event R W)) : List R :=
  trace.flatMap fun
    | .linked .fresh o => o.chain.reverse
    | _ => []

/-- All zero, or with `tail` at `&rq->head`. -/
structure State.Initial (s : State R W T) : Prop where
  heads : ∀ id, s.heads id = none
  head : s.head = none
  tail : s.tail = .null ∨ s.tail = .head
  pc : ∀ t, s.pc t = .idle

/-- `lists` and `head` account for what was queued and is not yet returned. -/
structure Accounts (trace : List (Event R W)) (s : State R W T) (lists : ListId W → List R)
    (head : List R) [DecidableEq R] : Prop where
  holds : s.Holds lists head
  kept : ∀ r, (∃ p, r ∈ contents lists head (Pc.taken ∘ s.pc) p) →
    (queued trace).count r = (returned trace).count r + 1
  gone : ∀ r, (∀ p, r ∉ contents lists head (Pc.taken ∘ s.pc) p) →
    (queued trace).count r = (returned trace).count r
  order : arrived trace = returned trace ++ head ++ (lists .fresh).reverse
  null : s.tail = .null → returned trace = []

theorem contents_taken {lists : ListId W → List R} {head : List R} {pc : T → Pc R W}
    {p : Place W T} {r : R} (hr : r ∈ contents lists head (Pc.taken ∘ pc) p) :
    r ∈ contents lists head (Pc.chain ∘ pc) p := by
  cases p with
  | list id => exact hr
  | head => exact hr
  | call t =>
    rw [contents, comp_apply] at hr ⊢
    cases hpc : pc t with
    | idle | exchange => rw [hpc] at hr; cases hr
    | load list o | cas list o n =>
      rw [hpc, Pc.taken] at hr
      split at hr
      · exact hr
      · cases hr

variable [DecidableEq R] {trace : List (Event R W)} {s s' : State R W T} {lists lists' : ListId W → List R}
  {head head' : List R}

/-- Nothing leaves and nothing comes. -/
theorem Accounts.silent (h : Accounts trace s lists head) (hholds : s'.Holds lists' head')
    (hsame : ∀ r, (∃ p, r ∈ contents lists' head' (Pc.taken ∘ s'.pc) p) ↔
      ∃ p, r ∈ contents lists head (Pc.taken ∘ s.pc) p)
    (horder : head' ++ (lists' .fresh).reverse = head ++ (lists .fresh).reverse)
    (hnull : s'.tail = .null → s.tail = .null) : Accounts trace s' lists' head' where
  holds := hholds
  kept r hr := h.kept r ((hsame r).mp hr)
  gone r hr := h.gone r fun p hp => ((hsame r).mpr ⟨p, hp⟩).elim hr
  order := by rw [append_assoc, horder, ← append_assoc, h.order]
  null ht := h.null (hnull ht)

theorem Accounts.event (h : Accounts trace s lists head) :
    Accounts (trace ++ [.silent]) s lists head := by
  refine ⟨h.holds, fun r hr => ?_, fun r hr => ?_, ?_, ?_⟩
  · simpa [queued, returned] using h.kept r hr
  · simpa [queued, returned] using h.gone r hr
  · simpa [arrived, returned] using h.order
  · simpa [returned] using h.null

/-- The runnables `own` are queued at no place so far. -/
theorem Accounts.count_append (h : Accounts trace s lists head) {own : List R} (hown : own.Nodup)
    (hnew : ∀ r ∈ own, ∀ p, r ∉ contents lists head (Pc.taken ∘ s.pc) p) (r : R) :
    ((r ∈ own ∨ ∃ p, r ∈ contents lists head (Pc.taken ∘ s.pc) p) →
      (queued trace ++ own).count r = (returned trace).count r + 1) ∧
    (¬ (r ∈ own ∨ ∃ p, r ∈ contents lists head (Pc.taken ∘ s.pc) p) →
      (queued trace ++ own).count r = (returned trace).count r) := by
  rw [List.count_append]
  by_cases hr : r ∈ own
  · refine ⟨fun _ => ?_, fun hn => absurd (.inl hr) hn⟩
    rw [count_eq_one_of_mem hown hr, h.gone r (hnew r hr)]
  · rw [count_eq_zero_of_not_mem hr]
    refine ⟨fun hs => h.kept r (hs.resolve_left hr), fun hn => h.gone r fun p hp => hn (.inr ⟨p, hp⟩)⟩

omit [DecidableEq R] in
/-- While all lists are empty only the calls have runnables. -/
theorem State.not_busy {r : R} (hheads : ∀ id, s.heads id = none) (hhead : s.head = none)
    (hpc : ∀ t, r ∉ (s.pc t).chain) : ¬ s.Busy r := by
  rintro (⟨id, l, hpath, hr⟩ | ⟨l, hpath, hr⟩ | ⟨t, hr⟩)
  · rw [hheads id] at hpath
    rw [hpath.unique (path_nil.mpr rfl)] at hr
    cases hr
  · rw [hhead] at hpath
    rw [hpath.unique (path_nil.mpr rfl)] at hr
    cases hr
  · exact hpc t hr

omit [DecidableEq R] in
theorem State.Initial.not_busy (h : s.Initial) (r : R) : ¬ s.Busy r :=
  State.not_busy h.heads h.head fun t => by
    rw [h.pc t]
    exact not_mem_nil

variable [DecidableEq W] [DecidableEq T]

/-- One step of any thread: its owner changes a runnable that is on no list, a call starts, offering
only such runnables, a call in progress performs its next atomic operation, or the consumer runs. -/
inductive Step : State R W T → Event R W → State R W T → Prop where
  | own {s : State R W T} (r : R) (v : Option R) : ¬ s.Busy r →
      Step s .silent { s with next := update s.next r v }
  | queueMany {s : State R W T} (t : T) (list : Option (ListId W)) (o : Offer R) :
      s.pc t = .idle → o.moved = false → o.Linked s.next → o.chain.Nodup →
      (∀ r ∈ o.chain, ¬ s.Busy r) →
      Step s .silent { s with pc := update s.pc t (schedQueueMany list o) }
  | queueList {s : State R W T} (t : T) (dest : Option (ListId W)) (src : W) : s.pc t = .idle →
      Step s .silent { s with pc := update s.pc t (schedQueueList dest src) }
  | atomic {s s' : State R W T} {e : Event R W} (fuel : Nat) (spurious : Bool) (t : T) :
      s.atomicStep fuel spurious t = some (e, s') → Step s e s'
  | unqueue {s s' : State R W T} {res : Option R} (fuel : Nat) :
      s.schedUnqueue fuel = some (res, s') → Step s (res.elim .silent .returned) s'

theorem Step.queueSingle {s : State R W T} (t : T) (list : Option (ListId W)) {r}
    (ht : s.pc t = .idle) (hr : ¬ s.Busy r) :
    Step s .silent { s with pc := update s.pc t (schedQueueSingle list r) } :=
  .queueMany t list ⟨r, r, [r], false⟩ ht rfl ⟨[], rfl, rfl⟩ (nodup_singleton r) fun r' hr' => by
    rwa [mem_singleton.mp hr']

inductive Run : List (Event R W) → State R W T → Prop where
  | init {s : State R W T} : s.Initial → Run [] s
  | step {trace : List (Event R W)} {s s' : State R W T} {e : Event R W} : Run trace s →
      Step s e s' → Run (trace ++ [e]) s'

omit [DecidableEq W] in
/-- A thread goes on to `p`, which has taken what it had taken. -/
theorem Accounts.goto (h : Accounts trace s lists head) {t} {p : Pc R W}
    (hpc : s'.pc = update s.pc t p) (hp : p.taken = (s.pc t).taken) (hholds : s'.Holds lists head)
    (htail : s'.tail = s.tail) : Accounts trace s' lists head := by
  refine h.silent hholds (fun r => ?_) rfl fun ht => htail ▸ ht
  rw [hpc, comp_update, update_eq_self_iff.mpr hp]

theorem Accounts.taken (h : Accounts trace s lists head) {t : T} {src : W}
    (hpc : (s.pc t).chain = []) {p : Pc R W} (hready : p.Ready s.next)
    (hchain : p.chain = lists (.wait src)) (htaken : p.taken = lists (.wait src)) :
    Accounts trace { s with heads := update s.heads (.wait src) none, pc := update s.pc t p }
      (update lists (.wait src) []) head := by
  refine h.silent (h.holds.taken hpc hready hchain) (fun r => ?_) ?_ id
  · have hempty : (s.pc t).taken = [] := eq_nil_iff_forall_not_mem.mpr fun r hr => by
      have hmem : r ∈ (s.pc t).chain := @contents_taken _ _ _ lists head s.pc (.call t) r hr
      rw [hpc] at hmem
      cases hmem
    rw [comp_update, contents_update_call, contents_update_list]
    refine exists_mem_move ?_
    rw [contents, contents, comp_apply, hempty, htaken, append_nil]
  · rw [update_of_ne (by simp)]

/-- A successful compare-exchange queues a chain, unless the chain came from a list. -/
theorem Accounts.linked (h : Accounts trace s lists head) {t : T} {list : ListId W} {o : Offer R}
    (hpc : s.pc t = .cas list o (s.heads list)) :
    Accounts (trace ++ [.linked list o])
      { s with heads := update s.heads list (some o.first), pc := update s.pc t .idle }
      (update lists list (o.chain ++ lists list)) head := by
  have hreturned : returned (trace ++ [.linked list o]) = returned trace := by simp [returned]
  have hqueued : queued (trace ++ [.linked list o]) =
      queued trace ++ if o.moved then [] else o.chain := by simp [queued]
  have hchain : contents lists head (Pc.chain ∘ s.pc) (.call t) = o.chain := by
    rw [contents, comp_apply, hpc, Pc.chain]
  have htaken : contents lists head (Pc.taken ∘ s.pc) (.call t) = if o.moved then o.chain else [] := by
    rw [contents, comp_apply, hpc, Pc.taken]
  have hnodup : o.chain.Nodup := hchain ▸ h.holds.separate.nodup (.call t)
  have hplaces : contents (update lists list (o.chain ++ lists list)) head
      (Pc.taken ∘ update s.pc t .idle) = update (update (contents lists head (Pc.taken ∘ s.pc))
        (.call t) []) (.list list) (o.chain ++ lists list) := by
    rw [comp_update, contents_update_list, contents_update_call]
    rfl
  have hcount : ∀ r, ((∃ p, r ∈ contents (update lists list (o.chain ++ lists list)) head
        (Pc.taken ∘ update s.pc t .idle) p) →
        (queued (trace ++ [.linked list o])).count r = (returned trace).count r + 1) ∧
      (¬ (∃ p, r ∈ contents (update lists list (o.chain ++ lists list)) head
        (Pc.taken ∘ update s.pc t .idle) p) →
        (queued (trace ++ [.linked list o])).count r = (returned trace).count r) := by
    intro r
    rw [hqueued, hplaces]
    cases hmoved : o.moved with
    | false =>
      rw [hmoved] at htaken
      have hsame : update (contents lists head (Pc.taken ∘ s.pc)) (.call t) [] =
          contents lists head (Pc.taken ∘ s.pc) := update_eq_self_iff.mpr htaken.symm
      rw [hsame]
      have hpush := exists_mem_push (c := contents lists head (Pc.taken ∘ s.pc)) (q := .list list)
        (l := o.chain) (r := r)
      rw [contents] at hpush
      rw [hpush]
      refine h.count_append hnodup (fun r' hr' p hp => ?_) r
      have hcall : p = .call t := h.holds.separate.unique (contents_taken hp) (hchain ▸ hr')
      rw [hcall, htaken] at hp
      cases hp
    | true =>
      rw [hmoved] at htaken
      rw [exists_mem_move (by rw [htaken]; exact List.Perm.refl _)]
      simpa using h.count_append nodup_nil nofun r
  refine ⟨h.holds.linked hpc, fun r hr => ?_, fun r hr => ?_, ?_, fun ht => ?_⟩
  · rw [hreturned]
    exact (hcount r).1 hr
  · rw [hreturned]
    exact (hcount r).2 fun ⟨p, hp⟩ => hr p hp
  · rw [hreturned]
    cases list with
    | fresh =>
      have harrived : arrived (trace ++ [.linked .fresh o]) = arrived trace ++ o.chain.reverse := by
        simp [arrived]
      rw [harrived, h.order, update_self, reverse_append, append_assoc _ _ o.chain.reverse]
    | wait w =>
      have harrived : arrived (trace ++ [.linked (.wait w) o]) = arrived trace := by simp [arrived]
      rw [harrived, h.order, update_of_ne (by simp)]
  · rw [hreturned]
    exact h.null ht

omit [DecidableEq W] [DecidableEq T] in
/-- The consumer gets the first runnable. -/
theorem Accounts.returned {r : R} (h : Accounts trace s lists (r :: head)) (hholds : s'.Holds lists head)
    (hpc : s'.pc = s.pc) (hnull : s'.tail ≠ .null) :
    Accounts (trace ++ [.returned r]) s' lists head := by
  have hqueued : queued (trace ++ [.returned r]) = queued trace := by simp [queued]
  have hreturned : Sched.returned (trace ++ [.returned r]) = Sched.returned trace ++ [r] := by
    simp [Sched.returned]
  have hfirst : r ∈ contents lists (r :: head) (Pc.taken ∘ s.pc) .head := mem_cons_self
  have hrest : r ∉ head := (nodup_cons.mp (h.holds.separate.nodup .head)).1
  have hold : ∀ {p r'}, r' ∈ contents lists head (Pc.taken ∘ s.pc) p →
      r' ∈ contents lists (r :: head) (Pc.taken ∘ s.pc) p := by
    intro p r' hr'
    cases p with
    | head => exact mem_cons_of_mem _ hr'
    | list | call => exact hr'
  refine ⟨hholds, fun r' hr' => ?_, fun r' hr' => ?_, ?_, fun ht => absurd ht hnull⟩
  · obtain ⟨p, hp⟩ := hpc ▸ hr'
    have hne : r' ≠ r := by
      rintro rfl
      have hhead : p = .head :=
        h.holds.separate.unique (contents_taken (hold hp)) (contents_taken hfirst)
      rw [hhead] at hp
      exact hrest hp
    rw [hqueued, hreturned, List.count_append, h.kept r' ⟨p, hold hp⟩,
      count_eq_zero_of_not_mem (a := r') (l := [r]) (by simpa using hne)]
  · rw [hqueued, hreturned, List.count_append]
    by_cases hne : r' = r
    · subst hne
      rw [h.kept r' ⟨.head, hfirst⟩, count_singleton_self]
    · rw [count_eq_zero_of_not_mem (a := r') (l := [r]) (by simpa using hne)]
      refine h.gone r' fun p hp => hr' p ?_
      rw [hpc]
      cases p with
      | head => exact (mem_cons.mp hp).resolve_left hne
      | list | call => exact hp
  · have harrived : arrived (trace ++ [.returned r]) = arrived trace := by simp [arrived]
    rw [harrived, hreturned, h.order]
    simp

/-! ## Every step -/

theorem Accounts.addFresh (h : Accounts trace s lists head) {fuel}
    (hadd : s.addFresh fuel = some s') :
    Accounts trace s' (update lists .fresh []) (head ++ (lists .fresh).reverse) := by
  obtain ⟨s₁, hadd₁, hholds, hpc, hnull⟩ := h.holds.addFresh
  rw [hadd₁] at hadd
  split at hadd
  · cases hadd
  obtain rfl := Option.some.inj hadd
  refine h.silent hholds (fun r => ?_) (by simp) hnull
  rw [hpc, contents_update_head _ head, contents_update_list]
  exact exists_mem_move (perm_append_comm.trans ((reverse_perm _).append_right _))

theorem Accounts.unqueue (h : Accounts trace s lists head) {fuel} {res : Option R}
    (hrun : s.schedUnqueue fuel = some (res, s')) :
    ∃ lists' head', Accounts (trace ++ [res.elim .silent .returned]) s' lists' head' := by
  obtain ⟨s₁, hadd, htake⟩ := Option.map_eq_some_iff.mp hrun
  have h₁ := h.addFresh hadd
  cases hhead : head ++ (lists .fresh).reverse with
  | nil =>
    rw [hhead] at h₁
    rw [h₁.holds.takeFirst_nil] at htake
    cases htake
    exact ⟨_, _, h₁.event⟩
  | cons r rest =>
    rw [hhead] at h₁
    obtain ⟨s₂, htake₂, hholds, hpc, hnull⟩ := h₁.holds.takeFirst_cons
    rw [htake₂] at htake
    cases htake
    exact ⟨_, _, h₁.returned hholds hpc hnull⟩

theorem Accounts.atomic (h : Accounts trace s lists head) {fuel spurious t e}
    (hrun : s.atomicStep fuel spurious t = some (e, s')) :
    ∃ lists' head', Accounts (trace ++ [e]) s' lists' head' := by
  obtain ⟨lists', hatomic, hholds⟩ := h.holds.atomic hrun
  cases hatomic with
  | offered hpc =>
    refine ⟨_, _, (h.goto rfl ?_ hholds rfl).event⟩
    rcases hpc with hpc | ⟨n, hpc⟩ <;> rw [hpc] <;> rfl
  | linked hpc => exact ⟨_, _, h.linked hpc⟩
  | taken hpc hready hchain htaken =>
    exact ⟨_, _, (h.taken (by rw [hpc]; rfl) hready hchain htaken).event⟩

theorem Accounts.step (h : Accounts trace s lists head) {e} (hstep : Step s e s') :
    ∃ lists' head', Accounts (trace ++ [e]) s' lists' head' := by
  cases hstep with
  | own r v hr => exact ⟨_, _, (h.silent (h.holds.own hr v) (fun _ => Iff.rfl) rfl id).event⟩
  | queueMany t list o ht hmoved hlinked hnodup hfree =>
    have htaken : (schedQueueMany list o).taken = (s.pc t).taken := by
      rw [ht, schedQueueMany, Pc.taken, hmoved]
      rfl
    have hholds := h.holds.start t (p := schedQueueMany list o) hlinked hnodup hfree
    exact ⟨_, _, (h.goto rfl htaken hholds rfl).event⟩
  | queueList t dest src ht =>
    have hholds := h.holds.start t (p := schedQueueList dest src) trivial nodup_nil nofun
    exact ⟨_, _, (h.goto rfl (by rw [ht]; rfl) hholds rfl).event⟩
  | atomic fuel spurious t hrun => exact h.atomic hrun
  | unqueue fuel hrun => exact h.unqueue hrun

omit [DecidableEq W] [DecidableEq T] in
theorem State.Initial.accounts (h : s.Initial) : Accounts [] s (fun _ => []) [] := by
  have hchain : contents (fun _ : ListId W => []) [] (Pc.chain ∘ s.pc) = fun _ => [] := by
    funext p
    cases p with
    | list | head => rfl
    | call t => rw [contents, comp_apply, h.pc t]; rfl
  refine ⟨⟨h.heads, h.head, h.tail, fun t => ?_, ?_⟩, fun r hr => ?_, fun _ _ => rfl, rfl,
    fun _ => rfl⟩
  · rw [h.pc t]
    trivial
  · rw [hchain]
    exact ⟨fun _ => nodup_nil, nofun⟩
  · obtain ⟨p, hp⟩ := hr
    have hmem := contents_taken hp
    rw [hchain] at hmem
    cases hmem

theorem Run.accounts (h : Run trace s) : ∃ lists head, Accounts trace s lists head := by
  induction h with
  | init hs => exact ⟨_, _, hs.accounts⟩
  | step _ hstep ih =>
    obtain ⟨lists, head, haccounts⟩ := ih
    exact haccounts.step hstep

/-- No call is stuck in one of its loops. -/
theorem State.Holds.goes_on (h : s.Holds lists head) : (∃ fuel, s.schedUnqueue fuel ≠ none) ∧
    ∀ t, s.pc t ≠ .idle → ∃ fuel, s.atomicStep fuel false t ≠ none := by
  constructor
  · obtain ⟨s', hadd, -⟩ := h.addFresh
    refine ⟨(lists .fresh).length, ?_⟩
    rw [State.schedUnqueue, hadd, if_neg (Nat.lt_irrefl _)]
    exact Option.some_ne_none _
  · intro t ht
    refine ⟨(match s.pc t with | .exchange _ src => (lists (.wait src)).length | _ => 0), ?_⟩
    rw [State.atomicStep]
    cases hpc : s.pc t with
    | idle => exact absurd hpc ht
    | load list o => exact Option.some_ne_none _
    | cas list o next =>
      dsimp only
      split <;> exact Option.some_ne_none _
    | exchange dest src =>
      have hpath := h.listed (.wait src)
      dsimp only
      cases hhead : s.heads (.wait src) with
      | none => exact Option.some_ne_none _
      | some first =>
        rw [hhead] at hpath
        obtain ⟨init, last, -, hfound⟩ := findLast_path hpath
        dsimp only
        rw [hfound, if_neg (Nat.lt_irrefl _)]
        exact Option.some_ne_none _

/-- What so many calls of `sched_unqueue` return, with no other call in between. -/
def State.unqueues (fuel : Nat) : Nat → State R W T → Option (List (Option R))
  | 0, _ => some []
  | k + 1, s => (s.schedUnqueue fuel).bind fun (res, s) => (unqueues fuel k s).map (res :: ·)

theorem State.Holds.unqueues {l : List R} {fuel} (h : s.Holds lists head)
    (hl : head ++ (lists .fresh).reverse = l) (hfuel : (lists .fresh).length ≤ fuel) :
    s.unqueues fuel (l.length + 1) = some (l.map some ++ [none]) := by
  induction l generalizing s lists head with
  | nil =>
    obtain ⟨s₁, hadd, hholds, -⟩ := h.addFresh
    rw [hl] at hholds
    simp [State.unqueues, State.schedUnqueue, hadd, Nat.not_lt.mpr hfuel, hholds.takeFirst_nil]
  | cons r l ih =>
    obtain ⟨s₁, hadd, hholds, -⟩ := h.addFresh
    rw [hl] at hholds
    obtain ⟨s₂, htake, hholds, -⟩ := hholds.takeFirst_cons
    have hrest := ih hholds (by simp) (by simp)
    rw [length_cons, State.unqueues]
    simp [State.schedUnqueue, hadd, Nat.not_lt.mpr hfuel, htake, hrest]

/-- After any run, what has arrived and was not returned is returned by the next calls, in order. -/
theorem run_drains (h : Run trace s) : ∃ rest fuel, arrived trace = returned trace ++ rest ∧
    s.unqueues fuel (rest.length + 1) = some (rest.map some ++ [none]) := by
  obtain ⟨lists, head, haccounts⟩ := h.accounts
  refine ⟨head ++ (lists .fresh).reverse, _, ?_, haccounts.holds.unqueues rfl (Nat.le_refl _)⟩
  rw [haccounts.order, append_assoc]

/-- In every interleaving the memory holds lists without a common runnable, and `tail` points to
the end of the chain. A runnable that was queued once more than it was returned is at exactly one
place; another one is at none. What came to the run queue is what it has returned, then its
chain, then its fresh runnables in reverse, so that it returns in the order of arrival. -/
theorem run_sound (h : Run trace s) : ∃ lists head, s.Holds lists head ∧
    (s.tail = .null → returned trace = []) ∧
    (∀ r, (∃! p, r ∈ contents lists head (Pc.taken ∘ s.pc) p) ∧
        (queued trace).count r = (returned trace).count r + 1 ∨
      (∀ p, r ∉ contents lists head (Pc.taken ∘ s.pc) p) ∧
        (queued trace).count r = (returned trace).count r) ∧
    arrived trace = returned trace ++ head ++ (lists .fresh).reverse ∧
    (∃ fuel, s.schedUnqueue fuel ≠ none) ∧
    ∀ t, s.pc t ≠ .idle → ∃ fuel, s.atomicStep fuel false t ≠ none := by
  obtain ⟨lists, head, haccounts⟩ := h.accounts
  refine ⟨lists, head, haccounts.holds, haccounts.null, fun r => ?_, haccounts.order,
    haccounts.holds.goes_on⟩
  by_cases hr : ∃ p, r ∈ contents lists head (Pc.taken ∘ s.pc) p
  · obtain ⟨p, hp⟩ := hr
    refine .inl ⟨⟨p, hp, fun q hq => ?_⟩, haccounts.kept r ⟨p, hp⟩⟩
    exact haccounts.holds.separate.unique (contents_taken hq) (contents_taken hp)
  · have hnone : ∀ p, r ∉ contents lists head (Pc.taken ∘ s.pc) p := fun p hp => hr ⟨p, hp⟩
    exact .inr ⟨hnone, haccounts.gone r hnone⟩

end

def zeroed : State Nat Nat Nat := ⟨fun _ => none, fun _ => none, none, .null, fun _ => .idle⟩

theorem zeroed_initial : zeroed.Initial := ⟨fun _ => rfl, rfl, .inl rfl, fun _ => rfl⟩

/-- Runnable 7 is moved from a list to the run queue while 8 and 9 are queued there: the thread that moves
it has taken it from the list, and its compare-exchange has failed. -/
theorem overlapping : ∃ (trace : List (Event Nat Nat)) (s : State Nat Nat Nat), Run trace s ∧
    arrived trace = [8, 9] ∧ returned trace = [] ∧ (s.pc 4).taken = [7] := by
  have hchain : ∀ {r r' : Nat} {list} {pc : Nat → Pc Nat Nat} {t}, r ≠ r' → (∀ t, r ∉ (pc t).chain) →
      ∀ t', r ∉ (update pc t (schedQueueSingle list r') t').chain := by
    intro r r' list pc t hne hpc t'
    by_cases ht : t' = t
    · rw [ht, update_self]
      exact fun hr => hne (mem_singleton.mp hr)
    · rw [update_of_ne ht]
      exact hpc t'
  have hidle : ∀ (r t : Nat), r ∉ (zeroed.pc t).chain := fun r t => not_mem_nil
  have h₁ := (Run.init zeroed_initial).step (.queueSingle 3 (some (.wait 0)) rfl
    (zeroed_initial.not_busy 7))
  have h₂ := h₁.step (.queueSingle 5 none rfl
    (State.not_busy zeroed_initial.heads rfl (hchain (by decide : 8 ≠ 7) (hidle 8))))
  have h₃ := h₂.step (.queueSingle 6 none rfl (State.not_busy zeroed_initial.heads rfl
    (hchain (by decide : 9 ≠ 8) (hchain (by decide : 9 ≠ 7) (hidle 9)))))
  have h₄ := (h₃.step (.atomic 0 false 3 rfl)).step (.atomic 0 false 3 rfl)
  have h₅ := (h₄.step (.queueList 4 none 0 rfl)).step (.atomic 0 false 5 rfl)
  have h₆ := (h₅.step (.atomic 1 false 4 rfl)).step (.atomic 0 false 4 rfl)
  have h₇ := (h₆.step (.atomic 0 false 5 rfl)).step (.atomic 0 false 6 rfl)
  have h₈ := (h₇.step (.atomic 0 false 6 rfl)).step (.atomic 0 false 4 rfl)
  exact ⟨_, _, h₈, rfl, rfl, rfl⟩

/-- Runnable 7 is in the hands of the call, and only there. -/
theorem run_sound_overlapping : ∃ (trace : List (Event Nat Nat)) (s : State Nat Nat Nat), Run trace s ∧
    (s.pc 4).taken = [7] ∧ ∃ lists head, s.Holds lists head ∧ head ++ (lists .fresh).reverse = [8, 9] ∧
      ∀ p, 7 ∈ contents lists head (Pc.taken ∘ s.pc) p → p = .call 4 := by
  obtain ⟨trace, s, h, harrived, hreturned, htaken⟩ := overlapping
  obtain ⟨lists, head, hholds, -, hplaces, horder, -⟩ := run_sound h
  rw [harrived, hreturned] at horder
  refine ⟨trace, s, h, htaken, lists, head, hholds, horder.symm, fun p hp => ?_⟩
  have hcall : 7 ∈ contents lists head (Pc.taken ∘ s.pc) (.call 4) := by
    rw [contents, comp_apply, htaken]
    exact mem_singleton.mpr rfl
  rcases hplaces 7 with ⟨hunique, -⟩ | ⟨hnone, -⟩
  · exact hunique.unique hp hcall
  · exact absurd hp (hnone p)

/-- The other two are the next to be returned. -/
theorem run_drains_overlapping : ∃ (trace : List (Event Nat Nat)) (s : State Nat Nat Nat) (fuel : Nat),
    Run trace s ∧ (s.pc 4).taken = [7] ∧ s.unqueues fuel 3 = some [some 8, some 9, none] := by
  obtain ⟨trace, s, h, harrived, hreturned, htaken⟩ := overlapping
  obtain ⟨rest, fuel, horder, hrest⟩ := run_drains h
  rw [harrived, hreturned] at horder
  obtain rfl : [8, 9] = rest := horder
  exact ⟨trace, s, fuel, h, htaken, hrest⟩

end Rkboot.Sched
