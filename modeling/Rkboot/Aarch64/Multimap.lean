import Rkboot.Aarch64.PageTree

/-! # How a mapping is cut into blocks

A mapping takes a span of addresses to consecutive output addresses. The
coarsest block around an address that lies in the span, and whose output
addresses are aligned as it is, decides the level of the entry that maps it:
this is the decomposition both directions of the code compute. -/
namespace Rkboot.Aarch64
open Lib Radix Nat

/-- One mapping: its addresses from `start` to `stop`, and the descriptor of the first page. -/
structure Span where
  start : Nat
  stop : Nat
  desc : Nat

/-- Page-aligned boundaries and a valid page descriptor. -/
structure Span.Valid (s : Span) : Prop where
  start_aligned : s.start % 4096 = 0
  stop_aligned : s.stop % 4096 = 0
  nonempty : s.start < s.stop
  stop_le : s.stop ≤ 2 ^ 48
  desc_page : s.desc % 4 = 3
  desc_lt : s.desc < 2 ^ 64

/-- The block of level `n` around an address can be one entry. -/
structure Span.Covers (s : Span) (n va : Nat) : Prop where
  mappable : 1 ≤ n ∧ n ≤ 3
  low : s.start ≤ va / size n * size n
  high : va / size n * size n + size n ≤ s.stop
  delta : extractAddress s.desc % size n = s.start % size n

namespace Span

variable {s : Span} {n j va va' : Nat}

theorem covers_iff : s.Covers n va ↔ (1 ≤ n ∧ n ≤ 3) ∧ s.start ≤ va / size n * size n ∧
    va / size n * size n + size n ≤ s.stop ∧ extractAddress s.desc % size n = s.start % size n :=
  ⟨fun h => ⟨h.1, h.2, h.3, h.4⟩, fun h => ⟨h.1, h.2.1, h.2.2.1, h.2.2.2⟩⟩

instance : Decidable (s.Covers n va) := decidable_of_iff _ covers_iff.symm

/-- The level of the entry that maps an address. -/
def level (s : Span) (va : Nat) : Nat :=
  if s.Covers 1 va then 1 else if s.Covers 2 va then 2 else 3

/-- The descriptor of the block of level `n` around an address. -/
def entry (s : Span) (n va : Nat) : Nat :=
  let d := (s.desc + (va / size n * size n - s.start)) % 2 ^ 64
  if n < 3 then d ^^^ 2 else d

/-- A translation with the part of the span below `a` mapped. -/
def fill (s : Span) (a : Nat) (F : Nat → Option (Nat × Nat)) (va : Nat) : Option (Nat × Nat) :=
  if s.start ≤ va ∧ va < a then some (s.level va, s.entry (s.level va) va) else F va

theorem Covers.congr (h : s.Covers n va) (heq : va' / size n = va / size n) : s.Covers n va' :=
  ⟨h.mappable, heq ▸ h.low, heq ▸ h.high, h.delta⟩

theorem Covers.mem (h : s.Covers n va) : s.start ≤ va ∧ va < s.stop := by
  have hlow := h.low
  have hhigh := h.high
  have hmul := div_mul_le_self va (size n)
  have hlt := lt_div_mul_add (a := va) (size_pos n)
  omega

theorem Covers.page (h : s.Covers n va) : va / size n * size n % 4096 = 0 := by
  obtain ⟨h1, h3⟩ := h.mappable
  unfold size
  interval_cases n <;> omega

theorem Valid.covers_three (h : s.Valid) (hlo : s.start ≤ va) (hhi : va < s.stop) :
    s.Covers 3 va := by
  have h1 := h.start_aligned
  have h2 := h.stop_aligned
  have hsize : size 3 = 4096 := rfl
  refine ⟨by decide, ?_, ?_, ?_⟩ <;> rw [hsize]
  · omega
  · omega
  · rw [extractAddress_eq]
    omega

/-- The level is that of the coarsest block that can be one entry. -/
theorem level_eq (hcov : s.Covers n va) (hfiner : ∀ j < n, ¬ s.Covers j va) : s.level va = n := by
  obtain ⟨h1, h3⟩ := hcov.mappable
  unfold level
  interval_cases n
  · rw [if_pos hcov]
  · rw [if_neg (hfiner 1 (by decide)), if_pos hcov]
  · rw [if_neg (hfiner 1 (by decide)), if_neg (hfiner 2 (by decide))]

theorem Valid.level_covers (h : s.Valid) (hlo : s.start ≤ va) (hhi : va < s.stop) :
    s.Covers (s.level va) va := by
  unfold level
  split
  · assumption
  · split
    · assumption
    · exact h.covers_three hlo hhi

theorem not_covers_of_lt_level (h : j < s.level va) : ¬ s.Covers j va := by
  unfold level at h
  intro hcov
  have hj := hcov.mappable.1
  split at h
  · omega
  · split at h
    · have : j = 1 := by omega
      subst this
      contradiction
    · have : j = 1 ∨ j = 2 := by omega
      rcases this with rfl | rfl <;> contradiction

end Span

/-! ## Blocks -/

theorem div_size_iff {n a va} (h : a % size n = 0) :
    va / size n = a / size n ↔ a ≤ va ∧ va < a + size n := by
  have hpos := size_pos n
  obtain ⟨k, rfl⟩ := dvd_of_mod_eq_zero h
  rw [Nat.mul_div_cancel_left _ hpos, Nat.div_eq_iff hpos, mul_comm]
  omega

/-- Addresses of one block lie in one block of each coarser level. -/
theorem div_size_coarser {n j va va'} (hj : j ≤ n) (hn : n ≤ 3)
    (h : va / size n = va' / size n) : va / size j = va' / size j := by
  unfold size at h ⊢
  interval_cases n <;> interval_cases j <;> omega

/-- The next block lies in the same coarser block unless it starts one. -/
theorem div_size_next {n j x} (hj : j < n) (hn : n ≤ 3) (hx : x % size n = 0)
    (hne : (x + size n) % size j ≠ 0) : (x + size n) / size j = x / size j := by
  unfold size at hx hne ⊢
  interval_cases n <;> interval_cases j <;> omega

theorem mod_size_coarser {n j x} (hj : j ≤ n) (hn : n ≤ 3) (hx : x % size j = 0) :
    x % size n = 0 := by
  unfold size at hx ⊢
  interval_cases n <;> interval_cases j <;> omega

theorem take_congr {n x y} (hn : n ≤ 3) (h : x / size n = y / size n) {j}
    (hj : j ≤ n + 1) : (indices x).take j = (indices y).take j := by
  unfold size at h
  interval_cases n <;> interval_cases j <;> simp [indices, posOf, size] <;> omega

/-! ## Runs of mmu_multimap

The state between two stores: the translation is the old one with the part
of the mapping behind `addr` filled in, and the table pointers are those of
the walk of `addr`. Each turn of the loop goes down to the level of the block
at `addr`, stores its entry, and goes back up to the level at which the next
block starts in the same table. -/

/-- The run from a configuration ends with a result that is good. -/
def Leads (f : Frames) (good : Except Fail (List Nat × Memory) → Prop) (c : Config) : Prop :=
  ∃ fuel r, c.run f fuel = some r ∧ good r

section
variable {f : Frames} {good : Except Fail (List Nat × Memory) → Prop} {c c' : Config}

theorem Leads.step (hstep : c.step f = .goto c') (h : Leads f good c') : Leads f good c := by
  obtain ⟨fuel, r, hrun, hgood⟩ := h
  exact ⟨fuel + 1, r, by rw [Config.run, hstep]; exact hrun, hgood⟩

theorem Leads.fail {e} (hstep : c.step f = .fail e) (h : good (.error e)) : Leads f good c :=
  ⟨1, .error e, by rw [Config.run, hstep], h⟩

theorem Leads.done {map m} (hstep : c.step f = .done map m)
    (h : good (.ok (map, m))) : Leads f good c :=
  ⟨1, .ok (map, m), by rw [Config.run, hstep], h⟩

end

/-! ## What a run keeps of the tables -/

/-- No table lies where a block of one of the mappings goes. -/
def Clear (f : Frames) (m : Memory) (spans : List Span) : Prop :=
  ∀ s ∈ spans, ∀ n va, va < 2 ^ 48 → s.Covers n va → tableOf f m va (n + 1) = none

/-- Every table handed out is in the tree. -/
def Full (f : Frames) (m : Memory) : Prop :=
  ∀ t < m.nextPagetable, ∃ p, tableAt f.subtable (m.tables f) 0 0 p = some t

structure Kept (f : Frames) (m₀ : Memory) (spans : List Span) (m : Memory) : Prop where
  tree : PageTree f m
  clear : Clear f m₀ spans → Clear f m spans
  full : Full f m₀ → Full f m

variable {f : Frames} {m₀ m : Memory} {spans : List Span} {n t a e : Nat}

theorem Kept.write (h : Kept f m₀ spans m) (hn : n ≤ 3) (ht : tableOf f m a n = some t)
    (hfree : f.subtable n (m.tables f t (posOf a n)) = none) (he : IsLeaf n e ∨ ¬ e.testBit 0) :
    Kept f m₀ spans (m.write (f.slot t (posOf a n)) e) := by
  refine ⟨h.tree.write_entry hn ht hfree he, ?_, ?_⟩
  · intro h₀ s hs j va hva hcov
    rw [h.tree.tableOf_write hn ht hfree he]
    exact h.clear h₀ s hs j va hva hcov
  · intro h₀ t' ht'
    obtain ⟨p, hp⟩ := h.full h₀ t' ht'
    refine ⟨p, ?_⟩
    rw [tables_write, h.tree.tree.tableAt_set (leafStore_of hn ht hfree he), hp]

theorem unreached_of_even (hn : n ≤ 3) (ht : tableOf f m a n = some t)
    (hfree : ¬ (m.tables f t (posOf a n)).testBit 0) :
    tableAt f.subtable (m.tables f) 0 0 ((indices a).take (n + 1)) = none := by
  rw [indices_take hn, tableAt_concat]
  rw [tableOf] at ht
  simp [ht, length_take hn, subtable_of_even _ hfree]

/-- A new table is linked where no block of a mapping goes. -/
theorem Kept.grow (h : Kept f m₀ spans m) (hn : n < 3) (ht : tableOf f m a n = some t)
    (hfree : ¬ (m.tables f t (posOf a n)).testBit 0) (hroom : m.nextPagetable < f.numPagetables)
    (ha : a < 2 ^ 48) (hcov : ∀ s ∈ spans, ¬ s.Covers n a) :
    Kept f m₀ spans (m.grow f t (posOf a n)) := by
  have hgrow := h.tree.tableAt_grow hn ht hfree hroom
  refine ⟨h.tree.grow hn ht hfree hroom, ?_, ?_⟩
  · intro h₀ s hs j va hva hc
    rw [tableOf, hgrow, if_neg]
    · exact h.clear h₀ s hs j va hva hc
    · intro htake
      have hj := hc.mappable.2
      have hlen := congrArg List.length htake
      rw [indices_take hj, indices_take (le_of_lt hn)] at hlen
      simp only [List.length_append, length_take hj, length_take (le_of_lt hn),
        List.length_singleton] at hlen
      cases Nat.succ.inj hlen
      exact hcov s hs (hc.congr ((take_eq_iff hj hva ha).mp htake).symm)
  · intro h₀ t' ht'
    rcases Nat.lt_succ_iff_lt_or_eq.mp ht' with hlt | rfl
    · obtain ⟨p, hp⟩ := h.full h₀ t' hlt
      refine ⟨p, ?_⟩
      rw [hgrow, if_neg, hp]
      rintro rfl
      rw [unreached_of_even (le_of_lt hn) ht hfree] at hp
      cases hp
    · exact ⟨_, by rw [hgrow, if_pos rfl]⟩

/-! ## Table pointers -/

/-- The table pointers down to level `n` are those of the walk of an address. -/
def Cursor (f : Frames) (m : Memory) (ptr : Nat → Nat) (a n : Nat) : Prop :=
  ∀ j ≤ n, ∃ t, tableOf f m a j = some t ∧ ptr j = f.pagetables + 4096 * t

theorem Cursor.congr {ptr x y} (h : Cursor f m ptr x n) (hn : n ≤ 3)
    (heq : n = 0 ∨ x / size (n - 1) = y / size (n - 1)) : Cursor f m ptr y n := by
  intro j hj
  obtain ⟨t, ht, hptr⟩ := h j hj
  refine ⟨t, ?_, hptr⟩
  rcases heq with rfl | heq
  · cases le_zero.mp hj
    exact ht
  · rw [tableOf, ← take_congr (by omega) heq (by omega)]
    exact ht

theorem Cursor.mono {ptr k} (h : Cursor f m ptr a n) (hk : k ≤ n) : Cursor f m ptr a k :=
  fun j hj => h j (le_trans hj hk)

theorem Regs.setPtr_self (r : Regs) (n p : Nat) : (r.setPtr n p).tablePtr n = p := by
  simp [setPtr]

theorem Regs.setPtr_ne (r : Regs) {n j} (p : Nat) (h : j ≠ n) :
    (r.setPtr n p).tablePtr j = r.tablePtr j := by
  simp [setPtr, h]

theorem find_of_leaf (hn : n ≤ 3) (ht : tableOf f m a n = some t)
    (hleaf : IsLeaf n (m.tables f t (posOf a n))) :
    find f m a = some (n, m.tables f t (posOf a n)) := by
  have hlook : lookup f.subtable (m.tables f) 0 (indices a) = some (n, m.tables f t (posOf a n)) :=
    lookup_eq_some.mpr ⟨_, _, _, t, indices_split hn a, ht, (length_take hn a).symm, rfl,
      hleaf.subtable⟩
  rw [find, hlook]
  exact Option.filter_some_pos (decide_eq_true hleaf)

theorem Config.pos_eq {c : Config} (hn : c.level ≤ 3) : c.pos = posOf c.regs.addr c.level := by
  rw [pos, and_511, shiftRight_eq_div_pow, args, shift_eq hn]
  rfl

theorem Config.entry_eq {c : Config} (hn : c.level ≤ 3)
    (hptr : c.regs.tablePtr c.level = f.pagetables + 4096 * t) :
    c.entry = f.slot t (posOf c.regs.addr c.level) := by
  rw [entry, hptr, pos_eq hn, shiftLeft_eq, mul_comm _ (2 ^ 3)]
  rfl

/-! ## Inside one mapping -/

/-- One mapping of a call: the memory before the call, all its mappings, the current one, the
translation before that, and the rest of the list. -/
structure Job where
  frames : Frames
  old : Memory
  spans : List Span
  span : Span
  before : Nat → Option (Nat × Nat)
  map : List Nat

structure Job.Valid (w : Job) : Prop where
  span : w.span.Valid
  mem : w.span ∈ w.spans
  only : ∀ s ∈ w.spans, ∀ n x, s.Covers n x → w.span.start ≤ x → x < w.span.stop → s = w.span
  free : ∀ va, w.span.start ≤ va → va < w.span.stop → w.before va = none

/-- Between two stores, with the tables down to `level` at hand. -/
structure Job.Walking (w : Job) (level : Nat) (r : Regs) (m : Memory) : Prop where
  kept : Kept w.frames w.old w.spans m
  level_le : level ≤ 3
  found : ∀ va < 2 ^ 48, find w.frames m va = w.span.fill r.addr w.before va
  low : w.span.start ≤ r.addr
  high : r.addr < w.span.stop
  page : r.addr % 4096 = 0
  boundary : ∀ j, w.span.Covers j r.addr → r.addr % size j = 0
  finer : ∀ j < level, ¬ w.span.Covers j r.addr
  desc : r.desc = (w.span.desc + (r.addr - w.span.start)) % 2 ^ 64
  next : r.nextMapAddr = w.span.stop
  map : r.map = w.map
  cursor : Cursor w.frames m r.tablePtr r.addr level

namespace Job.Walking
variable {w : Job} {level : Nat} {r : Regs} {m : Memory}

theorem addr_lt (h : w.Walking level r m) (hw : w.Valid) : r.addr < 2 ^ 48 :=
  lt_of_lt_of_le h.high hw.span.stop_le

/-- The register of the next level is free. -/
theorem setPtr (h : w.Walking level r m) (p : Nat) : w.Walking level (r.setPtr (level + 1) p) m :=
  { h with
    cursor := fun j hj => by
      obtain ⟨t, ht, hptr⟩ := h.cursor j hj
      exact ⟨t, ht, (r.setPtr_ne p (by omega)).trans hptr⟩ }

/-- The address at hand is not mapped yet. -/
theorem unmapped (h : w.Walking level r m) (hw : w.Valid) : find w.frames m r.addr = none := by
  rw [h.found _ (h.addr_lt hw), Span.fill, if_neg (by omega)]
  exact hw.free _ h.low h.high

/-- A valid entry in the slot at hand is a table. -/
theorem subtable (h : w.Walking level r m) (hw : w.Valid) {t}
    (ht : tableOf w.frames m r.addr level = some t)
    (hodd : (m.tables w.frames t (posOf r.addr level)).testBit 0) :
    ∃ t', w.frames.subtable level (m.tables w.frames t (posOf r.addr level)) = some t' := by
  have hvalid := h.kept.tree.valid ht hodd
  rw [length_take h.level_le] at hvalid
  rcases hvalid with hsub | hleaf
  · exact Option.ne_none_iff_exists'.mp hsub
  · have hfind := find_of_leaf h.level_le ht hleaf
    rw [h.unmapped hw] at hfind
    cases hfind

theorem down (h : w.Walking level r m) (hn : level < 3) (hcov : ¬ w.span.Covers level r.addr)
    {t p} (ht : tableOf w.frames m r.addr (level + 1) = some t)
    (hp : p = w.frames.pagetables + 4096 * t) : w.Walking (level + 1) (r.setPtr (level + 1) p) m :=
  { h.setPtr p with
    level_le := hn
    finer := fun j hj => by
      rcases Nat.lt_succ_iff_lt_or_eq.mp hj with hlt | rfl
      · exact h.finer j hlt
      · exact hcov
    cursor := fun j hj => by
      rcases le_succ_iff.mp hj with hle | rfl
      · exact (h.setPtr p).cursor j hle
      · exact ⟨t, ht, (r.setPtr_self _ p).trans hp⟩ }

/-- A new table in the slot at hand. -/
theorem grow (h : w.Walking level r m) (hw : w.Valid) (hn : level < 3)
    (hcov : ¬ w.span.Covers level r.addr) {t} (ht : tableOf w.frames m r.addr level = some t)
    (hfree : ¬ (m.tables w.frames t (posOf r.addr level)).testBit 0)
    (hroom : m.nextPagetable < w.frames.numPagetables) : w.Walking (level + 1)
      (r.setPtr (level + 1) (w.frames.pagetables + 4096 * m.nextPagetable))
      (m.grow w.frames t (posOf r.addr level)) := by
  have htree := h.kept.tree
  have hgrow := htree.tableAt_grow hn ht hfree hroom
  have hlt := h.addr_lt hw
  have hother : ∀ s ∈ w.spans, ¬ s.Covers level r.addr := by
    intro s hs hc
    rw [hw.only s hs level _ hc h.low h.high] at hc
    exact hcov hc
  have hstay : w.Walking level r (m.grow w.frames t (posOf r.addr level)) :=
    { h with
      kept := h.kept.grow hn ht hfree hroom hlt hother
      found := fun va hva => by
        rw [htree.find_grow hn ht hfree hroom hlt hva]
        exact h.found va hva
      cursor := fun j hj => by
        obtain ⟨t', ht', hptr⟩ := h.cursor j hj
        refine ⟨t', ?_, hptr⟩
        rw [tableOf, hgrow, if_neg]
        · exact ht'
        · intro htake
          rw [tableOf, htake, unreached_of_even h.level_le ht hfree] at ht'
          cases ht' }
  refine hstay.down hn hcov (t := m.nextPagetable) ?_ rfl
  rw [tableOf, hgrow, if_pos rfl]

end Job.Walking

/-! ## The steps of one turn -/

theorem hasNext_eq {n} (h : n < 3) : (multimapLevel n).hasNext = true := by
  interval_cases n <;> rfl

theorem hasPrev_eq : ∀ n : Nat, (multimapLevel (n + 1)).hasPrev = true
  | 0 | 1 | _ + 2 => rfl

section
variable {w : Job} {c : Config}

/-- The step to the next level, unless the tables have run out. -/
theorem step_deeper (hw : w.Valid) (h : w.Walking c.level c.regs c.mem) (hl : c.label = .deeper)
    (hn : c.level < 3) (hcov : ¬ w.span.Covers c.level c.regs.addr) :
    (c.step w.frames = .fail .outOfPagetables ∧ w.frames.numPagetables ≤ c.mem.nextPagetable ∧
      ∃ p, p.length ≤ 3 ∧ tableAt w.frames.subtable (c.mem.tables w.frames) 0 0 p = none) ∨
    ∃ r m, c.step w.frames = .goto ⟨c.level + 1, .start, r, m⟩ ∧ w.Walking (c.level + 1) r m ∧
      r.addr = c.regs.addr := by
  obtain ⟨t, ht, hptr⟩ := h.cursor c.level le_rfl
  obtain ⟨t₀, ht₀, hptr₀⟩ := h.cursor 0 (Nat.zero_le _)
  cases ht₀
  have htree := h.kept.tree
  have hentry : c.entry = w.frames.slot t (posOf c.regs.addr c.level) :=
    Config.entry_eq h.level_le hptr
  have hword : c.mem.word c.entry = c.mem.tables w.frames t (posOf c.regs.addr c.level) := by
    rw [hentry]
    rfl
  simp only [Config.step, hl, Config.deeper, Config.args, hasNext_eq hn, if_true]
  by_cases hodd : (c.mem.word c.entry).testBit 0
  · rw [if_pos hodd]
    rw [hword] at hodd ⊢
    obtain ⟨t', ht'⟩ := h.subtable hw ht hodd
    refine Or.inr ⟨_, _, rfl, h.down hn hcov (t := t') ?_ (htree.extractAddress_eq ht'), rfl⟩
    rw [tableOf] at ht ⊢
    rw [indices_take h.level_le, tableAt_concat, ht, length_take h.level_le]
    simpa using ht'
  · rw [if_neg hodd]
    rw [hword] at hodd
    by_cases hroom : c.mem.nextPagetable < w.frames.numPagetables
    · have haddr : (c.regs.tablePtr 0 + c.mem.nextPagetable <<< 12) % 2 ^ 64 =
          w.frames.pagetables + 4096 * c.mem.nextPagetable := by
        have hbound := htree.bound
        omega
      have hcount : (c.mem.nextPagetable + 1) % 2 ^ 32 = c.mem.nextPagetable + 1 := by
        have hlt := htree.count
        omega
      have halloc : allocPageTable w.frames (c.regs.tablePtr 0) c.mem = .ok
          (w.frames.pagetables + 4096 * c.mem.nextPagetable,
            { c.mem.clear (w.frames.pagetables + 4096 * c.mem.nextPagetable) with
              nextPagetable := c.mem.nextPagetable + 1 }) := by
        rw [allocPageTable, if_neg (not_le.mpr hroom)]
        simp only [haddr, hcount]
      rw [halloc, hentry]
      exact Or.inr ⟨_, _, rfl, h.grow hw hn hcov ht hodd hroom, rfl⟩
    · refine Or.inl ⟨?_, not_lt.mp hroom, _, ?_, unreached_of_even h.level_le ht hodd⟩
      · rw [allocPageTable, if_pos (not_lt.mp hroom)]
      · rw [indices_take h.level_le, List.length_append, length_take h.level_le]
        exact hn

/-- At the top of a turn, with the alignment already known inside the loop. -/
def Job.Ready (w : Job) (c : Config) : Prop :=
  c.label = .start ∨ c.label = .loop ∧ c.regs.addr % size c.level = 0 ∧
    extractAddress w.span.desc % size c.level = w.span.start % size c.level

/-- The test of the output address against the address at hand. -/
theorem Job.Walking.delta_iff {level} {r : Regs} {m} (h : w.Walking level r m)
    (hw : w.Valid) (hn : level = 1 ∨ level = 2) :
    (extractAddress r.desc + 2 ^ 64 - r.addr) % 2 ^ 64 % size level = 0 ↔
      extractAddress w.span.desc % size level = w.span.start % size level := by
  have hlow := h.low
  have hhigh := h.addr_lt hw
  have hpage := h.page
  have hstart := hw.span.start_aligned
  rw [h.desc, extractAddress_eq, extractAddress_eq]
  rcases hn with rfl | rfl <;> unfold size <;> omega

variable {good : Except Fail (List Nat × Memory) → Prop}

theorem step_start (hl : c.label = .start) (hn : c.level ≤ 3) : c.step f =
    if (c.level = 1 ∨ c.level = 2) ∧ ¬ (c.regs.addr % size c.level = 0 ∧
      (extractAddress c.regs.desc + 2 ^ 64 - c.regs.addr) % 2 ^ 64 % size c.level = 0)
    then c.goto .deeper else c.goto .loop := by
  obtain ⟨level, label, r, m⟩ := c
  cases hl
  have hsize := shift_eq hn
  simp only [Config.step, Config.start, Config.args, and_mask64, hsize] at hn ⊢
  interval_cases level <;> simp [multimapLevel] <;> split <;> simp_all

theorem step_loop (hl : c.label = .loop) (hn : 1 ≤ c.level) (hn' : c.level ≤ 3) : c.step f =
    if c.level < 3 ∧ c.regs.nextMapAddr < (c.regs.addr + size c.level) % 2 ^ 64 then
      .goto ⟨c.level, .deeper,
        c.regs.setPtr (c.level + 1) ((c.regs.addr + size c.level) % 2 ^ 64), c.mem⟩
    else if (c.mem.word c.entry).testBit 0 then .fail .overlappingMapping
    else
      let c' := c.writeEntry ((c.regs.addr + size c.level) % 2 ^ 64)
      if (c.regs.addr + size c.level) % 2 ^ 64 = c.regs.nextMapAddr then c'.goto .ended
      else if c.pos ≠ 0x1ff then c'.goto .loop
      else { c' with level := c.level - 1 }.goto .back := by
  obtain ⟨level, label, r, m⟩ := c
  cases hl
  have hsize := shift_eq hn'
  simp only [Config.step, Config.loop, Config.args, one_shiftLeft, hsize] at hn hn' ⊢
  interval_cases level <;> simp [multimapLevel, Config.goto]

/-- A block that does not fit takes control to the next level. -/
theorem leads_deeper (hw : w.Valid) (h : w.Walking c.level c.regs c.mem) (hready : w.Ready c)
    (hn : c.level < 3) (hcov : ¬ w.span.Covers c.level c.regs.addr)
    (hgo : ∀ r, w.Walking c.level r c.mem → r.addr = c.regs.addr →
      Leads w.frames good ⟨c.level, .deeper, r, c.mem⟩) : Leads w.frames good c := by
  obtain ⟨level, label, r, m⟩ := c
  have hlow := h.low
  have hlt := h.addr_lt hw
  simp only at h hn hcov hgo hlow hlt
  have hloop : (level = 0 ∨ r.addr % size level = 0 ∧
        extractAddress w.span.desc % size level = w.span.start % size level) →
      Leads w.frames good ⟨level, .loop, r, m⟩ := by
    rintro (rfl | ⟨halign, hdelta⟩)
    · exact .step rfl (hgo r h rfl)
    · rcases Nat.eq_zero_or_pos level with rfl | hpos
      · exact .step rfl (hgo r h rfl)
      have hsize : size level ≤ 2 ^ 30 := Nat.pow_le_pow_right (by decide) (by omega)
      have hnext : (r.addr + size level) % 2 ^ 64 = r.addr + size level := by omega
      have hhigh : w.span.stop < r.addr + size level := by
        refine not_le.mp fun hle => hcov ⟨⟨hpos, h.level_le⟩, ?_, ?_, hdelta⟩ <;>
          rw [Nat.div_mul_cancel (dvd_of_mod_eq_zero halign)] <;> assumption
      refine .step ?_ (hgo (r.setPtr (level + 1) (r.addr + size level)) (h.setPtr _) rfl)
      rw [step_loop (c := ⟨level, .loop, r, m⟩) rfl hpos h.level_le]
      simp only [hnext, h.next]
      exact if_pos ⟨hn, hhigh⟩
  rcases hready with rfl | ⟨rfl, halign⟩
  · by_cases hskip : (level = 1 ∨ level = 2) ∧ ¬ (r.addr % size level = 0 ∧
        (extractAddress r.desc + 2 ^ 64 - r.addr) % 2 ^ 64 % size level = 0)
    · refine .step ?_ (hgo r h rfl)
      rw [step_start rfl h.level_le]
      exact if_pos hskip
    · refine .step ?_ (hloop ?_)
      · rw [step_start rfl h.level_le]
        exact if_neg hskip
      · rcases Nat.eq_zero_or_pos level with h0 | hpos
        · exact Or.inl h0
        · have hinner : level = 1 ∨ level = 2 := by omega
          rw [h.delta_iff hw hinner] at hskip
          exact Or.inr (not_not.mp fun hno => hskip ⟨hinner, hno⟩)
  · exact hloop (Or.inr halign)

/-- A block that fits takes control to the store. -/
theorem leads_loop (hw : w.Valid) (h : w.Walking c.level c.regs c.mem) (hready : w.Ready c)
    (hcov : w.span.Covers c.level c.regs.addr)
    (hgo : Leads w.frames good ⟨c.level, .loop, c.regs, c.mem⟩) : Leads w.frames good c := by
  obtain ⟨level, label, r, m⟩ := c
  rcases hready with rfl | ⟨rfl, -⟩
  · refine .step ?_ hgo
    rw [step_start rfl h.level_le]
    refine if_neg fun hskip => hskip.2 ⟨h.boundary _ hcov, ?_⟩
    exact (h.delta_iff hw hskip.1).mpr hcov.delta
  · exact hgo

/-! ## The store -/

/-- Behind the store of the block of level `n` at `x`. -/
structure Job.Stored (w : Job) (x n : Nat) (r : Regs) (m : Memory) : Prop where
  kept : Kept w.frames w.old w.spans m
  found : ∀ va < 2 ^ 48, find w.frames m va = w.span.fill r.addr w.before va
  covers : w.span.Covers n x
  finer : ∀ j < n, ¬ w.span.Covers j x
  block : x % size n = 0
  addr : r.addr = x + size n
  high : r.addr ≤ w.span.stop
  desc : r.desc = (w.span.desc + (r.addr - w.span.start)) % 2 ^ 64
  next : r.nextMapAddr = w.span.stop
  map : r.map = w.map
  cursor : Cursor w.frames m r.tablePtr x n

theorem xor_two_mod {d} (h : d % 4 = 3) : (d ^^^ 2) % 4 = 1 := by
  have hmod : (d ^^^ 2) % 2 ^ 2 = d % 2 ^ 2 ^^^ 2 % 2 ^ 2 := xor_mod_two_pow
  rw [show d % 2 ^ 2 = 3 from h] at hmod
  exact hmod

theorem Span.Valid.isLeaf_entry {s : Span} {n x} (h : s.Valid) (hcov : s.Covers n x) :
    IsLeaf n (s.entry n x) := by
  have hstart := h.start_aligned
  have hpage := h.desc_page
  obtain ⟨h1, h3⟩ := hcov.mappable
  have hmul := hcov.page
  have hd : (s.desc + (x / size n * size n - s.start)) % 2 ^ 64 % 4 = 3 := by omega
  unfold Span.entry IsLeaf
  by_cases hn : n < 3
  · rw [if_pos hn]
    exact Or.inl ⟨by omega, xor_two_mod hd⟩
  · rw [if_neg hn]
    exact Or.inr ⟨by omega, hd⟩

/-- The block is filled in. -/
theorem Span.fill_block {s : Span} {n x va F}
    (hcov : s.Covers n x) (hfiner : ∀ j < n, ¬ s.Covers j x) (hx : x % size n = 0) :
    (if va / size n = x / size n then some (n, s.entry n x) else s.fill x F va) =
      s.fill (x + size n) F va := by
  have hlow := hcov.mem.1
  by_cases hblock : va / size n = x / size n
  · have hmem := (div_size_iff hx).mp hblock
    have hlevel : s.level va = n := by
      refine level_eq (hcov.congr hblock) fun j hj hc => hfiner j hj (hc.congr ?_)
      exact div_size_coarser (le_of_lt hj) hcov.mappable.2 hblock.symm
    rw [if_pos hblock, fill, if_pos (by omega), hlevel, entry, entry, hblock]
  · have hmem : ¬ (x ≤ va ∧ va < x + size n) := fun h => hblock ((div_size_iff hx).mpr h)
    rw [if_neg hblock, fill, fill]
    by_cases hva : s.start ≤ va ∧ va < x
    · rw [if_pos hva, if_pos (by omega)]
    · rw [if_neg hva, if_neg (by omega)]

/-- The word stored for the block at hand. -/
theorem Job.Walking.entry_eq {level} {r : Regs} {m} (h : w.Walking level r m)
    (hcov : w.span.Covers level r.addr) :
    (if (multimapLevel level).hasNext then r.desc ^^^ 2 else r.desc) =
      w.span.entry level r.addr := by
  have hblock := h.boundary level hcov
  obtain ⟨h1, h3⟩ := hcov.mappable
  rw [Span.entry, Nat.div_mul_cancel (dvd_of_mod_eq_zero hblock), ← h.desc]
  interval_cases level <;> rfl

theorem Job.Walking.stored (hw : w.Valid) (h : w.Walking c.level c.regs c.mem)
    (hcov : w.span.Covers c.level c.regs.addr) {t}
    (ht : tableOf w.frames c.mem c.regs.addr c.level = some t)
    (hptr : c.regs.tablePtr c.level = w.frames.pagetables + 4096 * t)
    (hfree : ¬ (c.mem.tables w.frames t (posOf c.regs.addr c.level)).testBit 0) :
    w.Stored c.regs.addr c.level (c.writeEntry (c.regs.addr + size c.level)).regs
      (c.writeEntry (c.regs.addr + size c.level)).mem := by
  have hblock := h.boundary c.level hcov
  have hlow := h.low
  have hlt := h.addr_lt hw
  have hleaf := hw.span.isLeaf_entry hcov
  have hfree' := subtable_of_even (f := w.frames) c.level hfree
  have htree := h.kept.tree
  have hmem : (c.writeEntry (c.regs.addr + size c.level)).mem = c.mem.write
      (w.frames.slot t (posOf c.regs.addr c.level)) (w.span.entry c.level c.regs.addr) := by
    rw [← h.entry_eq hcov, ← Config.entry_eq h.level_le hptr]
    rfl
  rw [hmem]
  refine ⟨h.kept.write h.level_le ht hfree' (.inl hleaf), ?_, hcov, h.finer, hblock, rfl, ?_, ?_,
    h.next, h.map, ?_⟩
  · intro va hva
    have hfound : (some (c.level, w.span.entry c.level c.regs.addr)).filter
        (fun s => decide (IsLeaf s.1 s.2)) = some (c.level, w.span.entry c.level c.regs.addr) :=
      Option.filter_some_pos (decide_eq_true hleaf)
    rw [htree.find_write h.level_le ht hfree' (.inl hleaf) hlt hva, h.found va hva, hfound]
    exact Span.fill_block hcov h.finer hblock
  · have hhigh := hcov.high
    rwa [Nat.div_mul_cancel (dvd_of_mod_eq_zero hblock)] at hhigh
  · have hsum : w.span.desc + (c.regs.addr - w.span.start) + size c.level =
        w.span.desc + (c.regs.addr + size c.level - w.span.start) := by omega
    simp only [Config.writeEntry, Config.args, one_shiftLeft, shift_eq h.level_le]
    rw [h.desc, mod_add_mod, hsum]
  · intro j hj
    obtain ⟨t', ht', hptr'⟩ := h.cursor j hj
    refine ⟨t', ?_, (c.regs.setPtr_ne _ (by omega)).trans hptr'⟩
    rw [htree.tableOf_write h.level_le ht hfree' (.inl hleaf)]
    exact ht'

/-- The store and the way on from it, unless a table is in the place of the block. -/
theorem step_store (hw : w.Valid) {level} {r : Regs} {m}
    (h : w.Walking level r m) (hcov : w.span.Covers level r.addr) :
    ((⟨level, .loop, r, m⟩ : Config).step w.frames = .fail .overlappingMapping ∧
      ¬ Clear w.frames w.old w.spans) ∨
    ∃ r' m', w.Stored r.addr level r' m' ∧ (⟨level, .loop, r, m⟩ : Config).step w.frames =
      if r'.addr = w.span.stop then .goto ⟨level, .ended, r', m'⟩
      else if (posOf r.addr level).val ≠ 0x1ff then .goto ⟨level, .loop, r', m'⟩
      else .goto ⟨level - 1, .back, r', m'⟩ := by
  obtain ⟨t, ht, hptr⟩ := h.cursor level le_rfl
  have hentry : (⟨level, .loop, r, m⟩ : Config).entry = w.frames.slot t (posOf r.addr level) :=
    Config.entry_eq h.level_le hptr
  have hword : m.word (⟨level, .loop, r, m⟩ : Config).entry =
      m.tables w.frames t (posOf r.addr level) := by
    rw [hentry]
    rfl
  have hhigh := hcov.high
  rw [Nat.div_mul_cancel (dvd_of_mod_eq_zero (h.boundary level hcov))] at hhigh
  have hstop := hw.span.stop_le
  have hnext : (r.addr + size level) % 2 ^ 64 = r.addr + size level := by omega
  have hfits : ¬ (level < 3 ∧ r.nextMapAddr < r.addr + size level) := by
    rw [h.next]
    omega
  rw [step_loop (c := ⟨level, .loop, r, m⟩) rfl hcov.mappable.1 h.level_le]
  simp only [hnext, if_neg hfits]
  by_cases hodd : (m.word (⟨level, .loop, r, m⟩ : Config).entry).testBit 0
  · refine Or.inl ⟨if_pos hodd, fun hclear => ?_⟩
    rw [hword] at hodd
    obtain ⟨t', ht'⟩ := h.subtable hw ht hodd
    have hnone := h.kept.clear hclear _ hw.mem level r.addr (h.addr_lt hw) hcov
    rw [tableOf] at ht hnone
    rw [indices_take h.level_le, tableAt_concat, ht, length_take h.level_le] at hnone
    simp [ht'] at hnone
  · rw [if_neg hodd]
    rw [hword] at hodd
    refine Or.inr ⟨_, _, h.stored (c := ⟨level, .loop, r, m⟩) hw hcov ht hptr hodd, ?_⟩
    rw [Config.pos_eq (c := ⟨level, .loop, r, m⟩) h.level_le, h.next]
    rfl

/-! ## The way on -/

theorem Job.Stored.mod_size {x n} {r : Regs} {m} (h : w.Stored x n r m) : r.addr % size n = 0 := by
  rw [h.addr, add_mod_right, h.block]

/-- The next block at a level whose table it shares with the last one. -/
theorem Job.Stored.walking {x n k} {r : Regs} {m} (h : w.Stored x n r m)
    (hlt : r.addr < w.span.stop) (hk : k ≤ n) (hpos : k = 0 ∨ r.addr % size (k - 1) ≠ 0) :
    w.Walking k r m := by
  have hn := h.covers.mappable.2
  have hmod := h.mod_size
  have hcoarser : ∀ j, r.addr % size j ≠ 0 → j < n → r.addr / size j = x / size j := by
    intro j hne hj
    rw [h.addr] at hne ⊢
    exact div_size_next hj hn h.block hne
  have hboundary : ∀ j, w.span.Covers j r.addr → r.addr % size j = 0 := by
    intro j hcov
    by_contra hne
    rcases lt_or_ge j n with hj | hj
    · exact h.finer j hj (hcov.congr (hcoarser j hne hj).symm)
    · exact hne (mod_size_coarser hj hcov.mappable.2 hmod)
  refine ⟨h.kept, le_trans hk hn, h.found, ?_, hlt, ?_, hboundary, ?_, h.desc, h.next, h.map, ?_⟩
  · have hlow := h.covers.mem.1
    have haddr := h.addr
    omega
  · exact mod_size_coarser (n := 3) hn (le_refl 3) hmod
  · intro j hj hcov
    rcases hpos with rfl | hne
    · exact Nat.not_lt_zero j hj
    · exact hne (mod_size_coarser (by omega) (by omega) (hboundary j hcov))
  · refine (h.cursor.mono hk).congr (le_trans hk hn) ?_
    rcases hpos with h0 | hne
    · exact Or.inl h0
    · rcases Nat.eq_zero_or_pos k with h0 | hk'
      · exact Or.inl h0
      · exact Or.inr (hcoarser _ hne (by omega)).symm

theorem mod_size_pred {k a} (hk : 1 ≤ k) (hk' : k ≤ 3) (ha : a % size k = 0) :
    a % size (k - 1) = 0 ↔ a / size k % 512 = 0 := by
  unfold size at ha ⊢
  interval_cases k <;> simp only [Nat.reduceSub, Nat.reduceMul] at ha ⊢ <;> omega

/-- Behind the end of a table control goes up until the next block starts inside a table. -/
theorem leads_back {x n} {r : Regs} {m} (hw : w.Valid) (h : w.Stored x n r m)
    (hlt : r.addr < w.span.stop) (k : Nat) (hk : k < n) (hmul : r.addr % size k = 0)
    (hgo : ∀ j ≤ k, w.Walking j r m → Leads w.frames good ⟨j, .start, r, m⟩) :
    Leads w.frames good ⟨k, .back, r, m⟩ := by
  have hn := h.covers.mappable.2
  have haddr := h.addr
  have hpos := size_pos n
  have hstop := hw.span.stop_le
  induction k with
  | zero =>
    have hne : r.addr / size 0 % 512 ≠ 0 := by
      have hsize : size 0 = 2 ^ 39 := rfl
      rw [hsize] at hmul ⊢
      omega
    refine .step ?_ (hgo 0 (le_refl 0) (h.walking hlt (Nat.zero_le n) (Or.inl rfl)))
    have hstep : (⟨0, .back, r, m⟩ : Config).pos ≠ 0 := by
      rw [Config.pos_eq (c := ⟨0, .back, r, m⟩) (Nat.zero_le 3)]
      exact hne
    exact if_pos hstep
  | succ k ih =>
    have hle : k + 1 ≤ 3 := by omega
    have hpos_eq : (⟨k + 1, .back, r, m⟩ : Config).pos = r.addr / size (k + 1) % 512 :=
      Config.pos_eq (c := ⟨k + 1, .back, r, m⟩) hle
    by_cases hzero : r.addr / size (k + 1) % 512 = 0
    · have hup := (mod_size_pred (Nat.le_add_left 1 k) hle hmul).mpr hzero
      refine .step ?_ (ih (by omega) hup fun j hj => hgo j (by omega))
      simp only [Config.step, Config.back, Config.args, hpos_eq, hzero, hasPrev_eq k]
      rfl
    · have hup := mt (mod_size_pred (Nat.le_add_left 1 k) hle hmul).mp hzero
      refine .step ?_ (hgo (k + 1) le_rfl (h.walking hlt (le_of_lt hk) (Or.inr hup)))
      rw [← hpos_eq] at hzero
      exact if_pos hzero

/-- What the ways to end inside one mapping must lead to. -/
structure Job.Exits (w : Job) (good : Except Fail (List Nat × Memory) → Prop) : Prop where
  full : ∀ m, Kept w.frames w.old w.spans m → w.frames.numPagetables ≤ m.nextPagetable →
    (∃ p, p.length ≤ 3 ∧ tableAt w.frames.subtable (m.tables w.frames) 0 0 p = none) →
    good (.error .outOfPagetables)
  blocked : ¬ Clear w.frames w.old w.spans → good (.error .overlappingMapping)
  ended : ∀ x n r m, w.Stored x n r m → r.addr = w.span.stop →
    Leads w.frames good ⟨n, .ended, r, m⟩

/-- From the store of a block to the next turn or the end of the mapping. -/
theorem leads_store (hw : w.Valid) (hexit : w.Exits good) (h : w.Walking c.level c.regs c.mem)
    (hready : w.Ready c) (hcov : w.span.Covers c.level c.regs.addr)
    (hgo : ∀ c', w.Walking c'.level c'.regs c'.mem → w.Ready c' → c.regs.addr < c'.regs.addr →
      Leads w.frames good c') : Leads w.frames good c := by
  refine leads_loop hw h hready hcov ?_
  rcases step_store hw h hcov with ⟨hfail, hblocked⟩ | ⟨r, m, hstored, hstep⟩
  · exact .fail hfail (hexit.blocked hblocked)
  have hsize := size_pos c.level
  have haddr := hstored.addr
  have hmul := hstored.mod_size
  obtain ⟨h1, h3⟩ := hcov.mappable
  refine .step ?_ (show Leads w.frames good (if r.addr = w.span.stop then ⟨c.level, .ended, r, m⟩
    else if (posOf c.regs.addr c.level).val ≠ 0x1ff then ⟨c.level, .loop, r, m⟩
    else ⟨c.level - 1, .back, r, m⟩) from ?_)
  · rw [hstep]
    split
    · rfl
    · split <;> rfl
  split
  · rename_i hend
    exact hexit.ended _ _ r m hstored hend
  · rename_i hne
    have hlt : r.addr < w.span.stop := lt_of_le_of_ne hstored.high hne
    have hpos : r.addr % size (c.level - 1) = 0 ↔ (posOf c.regs.addr c.level).val = 0x1ff := by
      rw [mod_size_pred h1 h3 hmul, haddr, add_div_right _ hsize, posOf]
      dsimp only
      omega
    split
    · rename_i hin
      refine hgo ⟨c.level, .loop, r, m⟩ (hstored.walking hlt le_rfl (Or.inr ?_))
        (Or.inr ⟨rfl, hmul, hcov.delta⟩) (by dsimp only; omega)
      exact mt hpos.mp hin
    · rename_i hlast
      refine leads_back hw hstored hlt (c.level - 1) (by omega) (hpos.mpr (not_not.mp hlast)) ?_
      intro j hj hwalk
      exact hgo ⟨j, .start, r, m⟩ hwalk (Or.inl rfl) (by dsimp only; omega)

/-- One turn: down to the level of the block at hand, its store, and back up. -/
theorem turn_leads (hw : w.Valid) (hexit : w.Exits good) (k : Nat) :
    ∀ c, 3 - c.level = k → w.Walking c.level c.regs c.mem → w.Ready c →
    (∀ c', w.Walking c'.level c'.regs c'.mem → w.Ready c' → c.regs.addr < c'.regs.addr →
      Leads w.frames good c') → Leads w.frames good c := by
  induction k with
  | zero =>
    intro c hk h hready hgo
    have hlevel : c.level = 3 := by
      have hle := h.level_le
      omega
    refine leads_store hw hexit h hready ?_ hgo
    rw [hlevel]
    exact hw.span.covers_three h.low h.high
  | succ k ih =>
    intro c hk h hready hgo
    by_cases hcov : w.span.Covers c.level c.regs.addr
    · exact leads_store hw hexit h hready hcov hgo
    refine leads_deeper hw h hready (by omega) hcov fun r hr haddr => ?_
    rw [← haddr] at hcov
    rcases step_deeper (c := ⟨c.level, .deeper, r, c.mem⟩) hw hr rfl (by dsimp only; omega) hcov with
      ⟨hfail, hfull, hpath⟩ | ⟨r', m', hstep, hwalk, haddr'⟩
    · exact .fail hfail (hexit.full _ h.kept hfull hpath)
    · refine .step hstep (ih ⟨c.level + 1, .start, r', m'⟩ (by dsimp only; omega) hwalk (Or.inl rfl) ?_)
      intro c' hwalk' hready' hlt
      refine hgo c' hwalk' hready' ?_
      rw [← haddr, ← haddr']
      exact hlt

/-- A whole mapping. -/
theorem span_leads (hw : w.Valid) (hexit : w.Exits good) (c : Config)
    (h : w.Walking c.level c.regs c.mem) (hready : w.Ready c) : Leads w.frames good c := by
  induction hd : w.span.stop - c.regs.addr using Nat.strong_induction_on generalizing c with
  | _ d ih =>
    refine turn_leads hw hexit _ c rfl h hready fun c' h' hready' hlt => ?_
    have hhigh := h'.high
    exact ih _ (by omega) c' h' hready' rfl

end

end Rkboot.Aarch64
