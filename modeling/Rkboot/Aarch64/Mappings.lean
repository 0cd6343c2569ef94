import Rkboot.Aarch64.Multimap

/-! # Lists of mappings

A list of boundaries and descriptors, as `struct mmu_multimap` holds it, is
one span for each pair of neighbours. From one span to the next the call
stays at the level of the last store and keeps its table pointers, which are
those of the next address only when the boundary lies inside the table. -/
namespace Rkboot.Aarch64
open Lib Radix List Nat

/-! ## What an entry of a mapping gives -/

theorem xor_two {d} (h : d % 4 = 3) : d ^^^ 2 = d - 2 := by
  have hmod := xor_two_mod h
  have hdiv : (d ^^^ 2) / 2 ^ 2 = d / 2 ^ 2 ^^^ 2 / 2 ^ 2 := xor_div_two_pow
  have hzero : d / 2 ^ 2 ^^^ 2 / 2 ^ 2 = d / 2 ^ 2 := Nat.xor_zero _
  omega

theorem attributes_eq (d : Nat) :
    attributes d = d / 2 ^ 48 % 2 ^ 16 * 2 ^ 48 + d / 2 ^ 2 % 2 ^ 10 * 2 ^ 2 := by
  have hmask : 0xffff000000000ffc = mask64 16 <<< 48 ||| mask64 10 <<< 2 := by decide
  rw [attributes, hmask, and_or_distrib_left, and_field, and_field, mul_comm _ (2 ^ 48),
    two_pow_add_eq_or_of_lt]
  omega

/-- The output addresses of a mapping have room below the attribute bits. -/
def Span.Fits (s : Span) : Prop := extractAddress s.desc + (s.stop - s.start) ≤ 2 ^ 48

section
variable {s : Span} {n va : Nat}

/-- The descriptor of a block, without a carry out of its address. -/
theorem Span.Valid.entry_eq (h : s.Valid) (hfit : s.Fits) (hcov : s.Covers n va) :
    s.entry n va + (if n < 3 then 2 else 0) = s.desc + (va / size n * size n - s.start) := by
  have hhigh := hcov.high
  have hpos := size_pos n
  have hlt := h.desc_lt
  have hpage := h.desc_page
  have hstart := h.start_aligned
  have hmul := hcov.page
  rw [Fits, extractAddress_eq] at hfit
  simp only [Span.entry]
  generalize va / size n * size n = b at *
  have hsum : (s.desc + (b - s.start)) % 2 ^ 64 = s.desc + (b - s.start) := by omega
  rw [hsum]
  split
  · rw [xor_two (by omega)]
    omega
  · rfl

theorem Span.Valid.attributes_entry (h : s.Valid) (hfit : s.Fits) (hcov : s.Covers n va) :
    attributes (s.entry n va) = attributes s.desc := by
  have hentry := h.entry_eq hfit hcov
  have hhigh := hcov.high
  have hpos := size_pos n
  have hpage := h.desc_page
  have hstart := h.start_aligned
  have hmul := hcov.page
  rw [Fits, extractAddress_eq] at hfit
  rw [attributes_eq, attributes_eq]
  split at hentry <;> omega

theorem Span.Valid.outputAddress_entry (h : s.Valid) (hfit : s.Fits) (hcov : s.Covers n va) :
    outputAddress n (s.entry n va) va = extractAddress s.desc + (va - s.start) := by
  have hentry := h.entry_eq hfit hcov
  have hlow := hcov.low
  have hhigh := hcov.high
  have hdelta := hcov.delta
  have hpage := h.desc_page
  rw [Fits, extractAddress_eq] at hfit
  rw [extractAddress_eq] at hdelta ⊢
  obtain ⟨h1, h3⟩ := hcov.mappable
  unfold outputAddress
  unfold size at *
  interval_cases n <;> simp only [Nat.reduceLT, Nat.reduceMul, Nat.reduceSub, if_true, if_false] at * <;>
    omega

end

/-! ## Lists -/

/-- The spans between neighbouring boundaries. -/
def spansOf : List (Nat × Nat) → List Span
  | (a, d) :: (a', d') :: l => ⟨a, a', d⟩ :: spansOf ((a', d') :: l)
  | _ => []

/-- The list as it lies in memory. -/
def mapWords (l : List (Nat × Nat)) : List Nat := l.flatMap fun x => [x.1, x.2]

/-- Page-aligned boundaries in increasing order, a page descriptor at each and an end mark at the
last. -/
structure ValidList (l : List (Nat × Nat)) : Prop where
  nonempty : spansOf l ≠ []
  spans : ∀ s ∈ spansOf l, s.Valid
  mark : ∀ x ∈ l.getLast?, ¬ x.2.testBit 0

/-- A translation with the spans filled in. -/
def fillAll : List Span → (Nat → Option (Nat × Nat)) → Nat → Option (Nat × Nat)
  | [], F => F
  | s :: l, F => fillAll l (s.fill s.stop F)

theorem fillAll_append (l l' : List Span) (F : Nat → Option (Nat × Nat)) :
    fillAll (l ++ l') F = fillAll l' (fillAll l F) := by
  induction l generalizing F with
  | nil => rfl
  | cons s l ih => exact ih _

theorem fillAll_outside {l} {F : Nat → Option (Nat × Nat)} {va}
    (h : ∀ s ∈ l, ¬ (s.start ≤ va ∧ va < s.stop)) : fillAll l F va = F va := by
  induction l generalizing F with
  | nil => rfl
  | cons s l ih =>
    rw [fillAll, ih fun t ht => h t (mem_cons_of_mem s ht), Span.fill, if_neg (h s mem_cons_self)]

/-- Later spans start behind the first boundary. -/
theorem start_le {a d l} (h : ∀ s ∈ spansOf ((a, d) :: l), s.Valid)
    {t : Span} (ht : t ∈ spansOf ((a, d) :: l)) : a ≤ t.start := by
  induction l generalizing a d with
  | nil => simp [spansOf] at ht
  | cons x l ih =>
    have hlt := (h _ mem_cons_self).nonempty
    rcases mem_cons.mp ht with rfl | ht
    · exact le_refl a
    · exact le_trans (le_of_lt hlt) (ih (fun s hs => h s (mem_cons_of_mem _ hs)) ht)

theorem spansOf_pairwise {l} (h : ∀ s ∈ spansOf l, s.Valid) :
    (spansOf l).Pairwise fun s t => s.stop ≤ t.start := by
  induction l with
  | nil => exact .nil
  | cons y l ih =>
    cases l with
    | nil => exact .nil
    | cons z l =>
      have htail := fun s hs => h s (mem_cons_of_mem _ hs)
      exact .cons (fun t ht => start_le htail ht) (ih htail)

theorem spansOf_disjoint {l} (h : ∀ s ∈ spansOf l, s.Valid) {s t : Span}
    (hs : s ∈ spansOf l) (ht : t ∈ spansOf l) {x} (hxs : s.start ≤ x ∧ x < s.stop)
    (hxt : t.start ≤ x ∧ x < t.stop) : s = t := by
  have hpair := spansOf_pairwise h
  obtain ⟨l₁, l₂, hl⟩ := append_of_mem hs
  rw [hl, pairwise_append, pairwise_cons] at hpair
  rw [hl] at ht
  rcases mem_append.mp ht with ht | ht
  · have hle := hpair.2.2 t ht s mem_cons_self
    omega
  · rcases mem_cons.mp ht with rfl | ht
    · rfl
    · have hle := hpair.2.1.1 t ht
      omega

/-- An address of one span only is mapped as that span says. -/
theorem fillAll_inside {l F} {s : Span} {va} (hs : s ∈ l) (hva : s.start ≤ va ∧ va < s.stop)
    (honly : ∀ t ∈ l, t.start ≤ va ∧ va < t.stop → t = s) :
    fillAll l F va = some (s.level va, s.entry (s.level va) va) := by
  induction l generalizing F with
  | nil => simp at hs
  | cons t l ih =>
    have htail := fun t' ht' => honly t' (mem_cons_of_mem t ht')
    by_cases hin : s ∈ l
    · exact ih hin htail
    · have hout : ∀ t' ∈ l, ¬ (t'.start ≤ va ∧ va < t'.stop) := by
        intro t' ht' hmem
        cases htail t' ht' hmem
        exact hin ht'
      rcases mem_cons.mp hs with rfl | hs'
      · rw [fillAll, fillAll_outside hout, Span.fill, if_pos hva]
      · exact absurd hs' hin

/-! ## Boundaries -/

theorem Span.Covers.start_mod {s : Span} {j} (hcov : s.Covers j s.start) :
    s.start % size j = 0 := by
  have hlow := hcov.low
  have hle := div_mul_le_self s.start (size j)
  have heq : s.start / size j * size j = s.start := by omega
  exact mod_eq_zero_of_dvd ⟨s.start / size j, by rw [mul_comm]; exact heq.symm⟩

/-- The last entry of the mapping is not the last of its table: a boundary at the end of a table
ends a block of the next coarser level. -/
structure Span.EndsInside (s : Span) : Prop where
  page : s.stop % 2 ^ 21 = 0 →
    extractAddress s.desc % 2 ^ 21 = s.start % 2 ^ 21 ∧ 2 ^ 21 ≤ s.stop - s.start
  block : s.stop % 2 ^ 30 = 0 →
    extractAddress s.desc % 2 ^ 30 = s.start % 2 ^ 30 ∧ 2 ^ 30 ≤ s.stop - s.start
  top : s.stop % 2 ^ 39 ≠ 0

theorem Span.endsInside_iff {s : Span} : s.EndsInside ↔ (s.stop % 2 ^ 21 = 0 →
      extractAddress s.desc % 2 ^ 21 = s.start % 2 ^ 21 ∧ 2 ^ 21 ≤ s.stop - s.start) ∧
    (s.stop % 2 ^ 30 = 0 →
      extractAddress s.desc % 2 ^ 30 = s.start % 2 ^ 30 ∧ 2 ^ 30 ≤ s.stop - s.start) ∧
    s.stop % 2 ^ 39 ≠ 0 :=
  ⟨fun h => ⟨h.1, h.2, h.3⟩, fun h => ⟨h.1, h.2.1, h.2.2⟩⟩

instance {s : Span} : Decidable s.EndsInside := decidable_of_iff _ Span.endsInside_iff.symm

/-- The boundary lies inside the table of the last store exactly when this can be read off the
mapping. -/
theorem endsInside_iff_mod {s : Span} {n x} (hcov : s.Covers n x)
    (hfiner : ∀ j < n, ¬ s.Covers j x) (hx : x % size n = 0) (hstop : x + size n = s.stop) :
    s.EndsInside ↔ s.stop % size (n - 1) ≠ 0 := by
  have hlow := hcov.low
  have hdelta := hcov.delta
  obtain ⟨h1, h3⟩ := hcov.mappable
  have hnot : ∀ j < n, 1 ≤ j → extractAddress s.desc % size j = s.start % size j →
      s.start ≤ x / size j * size j → ¬ x / size j * size j + size j ≤ s.stop :=
    fun j hj hj1 hd hl hh => hfiner j hj ⟨⟨hj1, by omega⟩, hl, hh, hd⟩
  rw [Span.endsInside_iff]
  unfold size at *
  interval_cases n
  · omega
  · have hnot1 := hnot 1 (by decide) (by decide)
    omega
  · have hnot2 := hnot 2 (by decide) (by decide)
    omega

/-! ## From one mapping to the next -/

/-- A call with a list of mappings. -/
structure Call where
  frames : Frames
  old : Memory
  list : List (Nat × Nat)

namespace Call

def spans (c : Call) : List Span := spansOf c.list

/-- Nothing in the spans is mapped before the call. -/
structure Valid (c : Call) : Prop where
  list : ValidList c.list
  tree : PageTree c.frames c.old
  free : ∀ s ∈ c.spans, ∀ va, s.start ≤ va → va < s.stop → find c.frames c.old va = none

/-- The work on `s`, behind the mappings `done`. -/
def job (c : Call) (done : List Span) (s : Span) (map : List Nat) : Job :=
  ⟨c.frames, c.old, c.spans, s, fillAll done (find c.frames c.old), map⟩

variable {c : Call} {good : Except Fail (List Nat × Memory) → Prop}

theorem Valid.job (hc : c.Valid) {done rest s}
    (hsplit : c.spans = done ++ s :: rest) (map : List Nat) : (c.job done s map).Valid := by
  have hmem : s ∈ c.spans := by simp [hsplit]
  refine ⟨hc.list.spans s hmem, hmem, ?_, ?_⟩
  · intro t ht n x hcov hlo hhi
    exact spansOf_disjoint hc.list.spans ht hmem hcov.mem ⟨hlo, hhi⟩
  · intro va hlo hhi
    have hpair := spansOf_pairwise hc.list.spans
    rw [← spans, hsplit, pairwise_append] at hpair
    have hout : ∀ t ∈ done, ¬ (t.start ≤ va ∧ va < t.stop) := fun t ht hva =>
      absurd (lt_of_lt_of_le hva.2 (hpair.2.2 t ht s mem_cons_self)) (not_lt.mpr hlo)
    exact (fillAll_outside hout).trans (hc.free s hmem va hlo hhi)

/-- What the ways to end a call must lead to. -/
structure Exits (c : Call) (good : Except Fail (List Nat × Memory) → Prop) : Prop where
  full : ∀ m, Kept c.frames c.old c.spans m → c.frames.numPagetables ≤ m.nextPagetable →
    (∃ p, p.length ≤ 3 ∧ tableAt c.frames.subtable (m.tables c.frames) 0 0 p = none) →
    good (.error .outOfPagetables)
  blocked : ¬ Clear c.frames c.old c.spans → good (.error .overlappingMapping)
  /-- At a boundary at the end of a table, with another mapping behind it. -/
  crossed : ∀ done s t rest map x n r m, c.spans = done ++ s :: t :: rest → ¬ s.EndsInside →
    (c.job done s map).Stored x n r m → r.addr = s.stop → Leads c.frames good ⟨n, .ended, r, m⟩
  done : ∀ m, Kept c.frames c.old c.spans m →
    (∀ va < 2 ^ 48, find c.frames m va = fillAll c.spans (find c.frames c.old) va) →
    good (.ok ([], m))

/-- The next mapping starts at the level of the last store. -/
theorem Valid.walking_next (hc : c.Valid) {done rest} {s t : Span} {map map' x n} {r : Regs} {m}
    (hsplit : c.spans = done ++ s :: t :: rest) (hnext : t.start = s.stop) (hinside : s.EndsInside)
    (h : (c.job done s map).Stored x n r m) (hend : r.addr = s.stop) :
    (c.job (done ++ [s]) t map').Walking n
      { r with desc := t.desc, nextMapAddr := t.stop, map := map' } m := by
  have hmem : t ∈ c.spans := by simp [hsplit]
  have ht := hc.list.spans t hmem
  have hn := h.covers.mappable
  have hmul := h.mod_size
  have hne : r.addr % size (n - 1) ≠ 0 := by
    rw [hend]
    exact (endsInside_iff_mod h.covers h.finer h.block (h.addr.symm.trans hend)).mp hinside
  have haddr : r.addr = t.start := hend.trans hnext.symm
  have hboundary : ∀ j, t.Covers j r.addr → r.addr % size j = 0 := by
    rw [haddr]
    exact fun j hcov => hcov.start_mod
  refine ⟨h.kept, hn.2, ?_, ?_, ?_, ?_, hboundary, ?_, ?_, rfl, rfl, ?_⟩
  · intro va hva
    have hfound := h.found va hva
    rw [hend] at hfound
    dsimp only [Call.job] at hfound ⊢
    have hnone : ¬ (t.start ≤ va ∧ va < r.addr) := by omega
    rw [hfound, fillAll_append, Span.fill, Span.fill, if_neg hnone]
    rfl
  · exact le_of_eq (hnext.trans hend.symm)
  · have hlt := ht.nonempty
    dsimp only [Call.job]
    omega
  · exact mod_size_coarser (n := 3) hn.2 (le_refl 3) hmul
  · intro j hj hcov
    exact hne (mod_size_coarser (by omega) (by omega) (hboundary j hcov))
  · have hlt := ht.desc_lt
    dsimp only [Call.job]
    omega
  · refine Cursor.congr h.cursor hn.2 (Or.inr ?_)
    rw [h.addr] at hne ⊢
    exact (div_size_next (by omega) hn.2 h.block hne).symm

theorem mapWords_cons (a d : Nat) (l : List (Nat × Nat)) :
    mapWords ((a, d) :: l) = a :: d :: mapWords l := rfl

/-- The calls that come behind a whole list of mappings. -/
theorem Valid.leads_list (hc : c.Valid) (hexit : c.Exits good) (l : List (Nat × Nat)) :
    ∀ done a d a' d' cfg, c.spans = done ++ spansOf ((a, d) :: (a', d') :: l) →
    (∀ x ∈ ((a', d') :: l).getLast?, ¬ x.2.testBit 0) →
    (c.job done ⟨a, a', d⟩ (d' :: mapWords l)).Walking cfg.level cfg.regs cfg.mem →
    cfg.label = .start → Leads c.frames good cfg := by
  induction l with
  | nil =>
    intro done a d a' d' cfg hsplit hmark hwalk hlabel
    refine span_leads (w := c.job done ⟨a, a', d⟩ (d' :: mapWords []))
      (hc.job hsplit _) ⟨hexit.full, hexit.blocked, ?_⟩ cfg hwalk (Or.inl hlabel)
    intro x n r m hst hend
    have hbit : ¬ d'.testBit 0 := hmark (a', d') rfl
    refine .done ?_ (hexit.done m hst.kept ?_)
    · have hmap : r.map = [d'] := hst.map
      simp only [Config.step, Config.ended, hmap, nextMapping, hbit]
      rfl
    · intro va hva
      have hfound := hst.found va hva
      rw [hend] at hfound
      rw [hsplit, fillAll_append]
      exact hfound
  | cons y l ih =>
    obtain ⟨a'', d''⟩ := y
    intro done a d a' d' cfg hsplit hmark hwalk hlabel
    have hsplit' : c.spans = done ++ ⟨a, a', d⟩ :: ⟨a', a'', d'⟩ :: spansOf ((a'', d'') :: l) :=
      hsplit
    have hv := hc.list.spans ⟨a', a'', d'⟩ (by
      rw [← spans, hsplit']
      simp)
    refine span_leads (w := c.job done ⟨a, a', d⟩ (d' :: mapWords ((a'', d'') :: l)))
      (hc.job hsplit' _) ⟨hexit.full, hexit.blocked, ?_⟩ cfg hwalk (Or.inl hlabel)
    intro x n r m hst hend
    by_cases hinside : (⟨a, a', d⟩ : Span).EndsInside
    · have hbit : d'.testBit 0 = true := by
        have hpage : d' % 4 = 3 := hv.desc_page
        rw [testBit_zero_iff_odd]
        omega
      have hmap : r.map = d' :: a'' :: d'' :: mapWords l := hst.map
      have hlt : a' < a'' := hv.nonempty
      have haddr : r.addr = a' := hend
      have halign : a'' % 4096 = 0 := hv.stop_aligned
      have hstep : (⟨n, .ended, r, m⟩ : Config).step c.frames = .goto ⟨n, .start,
          { r with desc := d', nextMapAddr := a'', map := d'' :: mapWords l }, m⟩ := by
        simp only [Config.step, Config.ended, hmap, nextMapping, hbit, haddr, and_fff, halign,
          Nat.ne_of_lt hlt]
        rfl
      refine .step hstep (ih (done ++ [⟨a, a', d⟩]) a' d' a'' d'' _ ?_ ?_ ?_ rfl)
      · rw [hsplit', append_assoc]
        rfl
      · exact hmark
      · exact hc.walking_next hsplit' rfl hinside hst hend
    · exact hexit.crossed done _ _ _ _ x n r m hsplit' hinside hst hend

/-- Every call ends in one of the ways listed. -/
theorem Valid.ends (hc : c.Valid) (hexit : c.Exits good) :
    ∃ fuel r, mmuMultimap c.frames fuel c.frames.pagetables (mapWords c.list) c.old = some r ∧
      good r := by
  obtain ⟨frames, old, list⟩ := c
  match list with
  | [] => exact absurd rfl hc.list.nonempty
  | [x] => exact absurd rfl hc.list.nonempty
  | (a, d) :: (a', d') :: l =>
    have hv : (⟨a, a', d⟩ : Span).Valid := hc.list.spans _ (by simp [spansOf])
    have halign : (a ||| a') &&& 0xfff = 0 := by
      have h1 : a % 2 ^ 12 = 0 := hv.start_aligned
      have h2 : a' % 2 ^ 12 = 0 := hv.stop_aligned
      rw [and_fff, show 4096 = 2 ^ 12 from rfl, or_mod_two_pow, h1, h2]
      rfl
    have hlead := hc.leads_list hexit l [] a d a' d'
      ⟨0, .start, ⟨a, d, a', d' :: mapWords l,
        Function.update (fun _ => 0) 0 frames.pagetables⟩, old⟩ rfl hc.list.mark ?_ rfl
    · obtain ⟨fuel, r, hrun, hgood⟩ := hlead
      refine ⟨fuel, r, ?_, hgood⟩
      simp only [mapWords_cons, mmuMultimap, halign]
      exact hrun
    · refine ⟨⟨hc.tree, id, id⟩, Nat.zero_le 3, ?_, le_refl a, hv.nonempty, hv.start_aligned,
        fun j hcov => hcov.start_mod, fun j hj => absurd hj (Nat.not_lt_zero j), ?_, rfl, rfl,
        ?_⟩
      · intro va hva
        have hnone : ¬ (a ≤ va ∧ va < a) := by omega
        dsimp only [Call.job]
        rw [Span.fill, if_neg hnone]
        rfl
      · have hlt := hv.desc_lt
        dsimp only [Call.job] at hlt ⊢
        omega
      · intro j hj
        cases le_zero.mp hj
        exact ⟨0, rfl, rfl⟩

end Call

/-! ## The translation after a call -/

/-- The translation the list describes: the spans as their descriptors say, the rest as before. -/
def Call.Built (c : Call) (m : Memory) : Prop :=
  ∀ va < 2 ^ 48,
    (∀ s ∈ c.spans, s.start ≤ va → va < s.stop → translate c.frames m va =
      some (extractAddress s.desc + (va - s.start), attributes s.desc)) ∧
    ((∀ s ∈ c.spans, ¬ (s.start ≤ va ∧ va < s.stop)) →
      translate c.frames m va = translate c.frames c.old va)

theorem Call.Valid.built {c : Call} {m} (hc : c.Valid) (hfits : ∀ s ∈ c.spans, s.Fits)
    (hfound : ∀ va < 2 ^ 48, find c.frames m va = fillAll c.spans (find c.frames c.old) va) :
    c.Built m := by
  intro va hva
  refine ⟨fun s hs hlo hhi => ?_, fun hout => ?_⟩
  · have hv := hc.list.spans s hs
    have hcov := hv.level_covers hlo hhi
    rw [translate, hfound va hva, fillAll_inside hs ⟨hlo, hhi⟩ fun t ht hva =>
      spansOf_disjoint hc.list.spans ht hs hva ⟨hlo, hhi⟩]
    simp only [Option.map_some, hv.outputAddress_entry (hfits s hs) hcov,
      hv.attributes_entry (hfits s hs) hcov]
  · rw [translate, translate, hfound va hva, fillAll_outside hout]

/-- A call builds the translation its list describes when no boundary between two mappings is
the end of the table the first one was stored in. -/
theorem mmuMultimap_builds (c : Call) (hc : c.Valid)
    (hclear : Clear c.frames c.old c.spans) (hfits : ∀ s ∈ c.spans, s.Fits)
    (hinside : ∀ s ∈ c.spans.dropLast, s.EndsInside) :
    ∃ fuel r, mmuMultimap c.frames fuel c.frames.pagetables (mapWords c.list) c.old = some r ∧
      (r = .error .outOfPagetables ∨ ∃ m, r = .ok ([], m) ∧ c.Built m) := by
  refine hc.ends ⟨fun _ _ _ _ => Or.inl rfl, fun hno => absurd hclear hno, ?_, ?_⟩
  · intro done s t rest map x n r m hsplit hnot
    refine absurd (hinside s ?_) hnot
    rw [hsplit, dropLast_append_of_ne_nil (cons_ne_nil _ _), dropLast_cons_cons]
    simp
  · intro m _ hfound
    exact Or.inr ⟨m, rfl, hc.built hfits hfound⟩

/-- The memory after a call that returns. -/
def memoryAfter (res : Option (Except Fail (List Nat × Memory))) : Memory :=
  match res with
  | some (.ok (_, m)) => m
  | _ => smallMemory

/-- Two mappings of pages with a boundary inside the last table. -/
def insideCall : Call := ⟨smallFrames, smallMemory, [(0x1000, 0x1003), (0x2000, 0x7403), (0x4000, 0)]⟩

/-- The boundary between two mappings of pages is the end of the last table. -/
def crossingCall : Call :=
  ⟨smallFrames, smallMemory, [(0x1ff000, 0x1ff003), (0x200000, 0x7403), (0x202000, 0)]⟩

def crossingMemory : Memory :=
  memoryAfter (mmuMultimap smallFrames 30 0x10000
    [0x1ff000, 0x1ff003, 0x200000, 0x7403, 0x202000, 0] smallMemory)

theorem ValidList.pair {a b z d e} {f : Nat} (hab : Span.Valid ⟨a, b, d⟩) (hbz : Span.Valid ⟨b, z, e⟩)
    (hf : ¬ f.testBit 0) : ValidList [(a, d), (b, e), (z, f)] := by
  refine ⟨cons_ne_nil _ _, ?_, ?_⟩
  · intro s hs
    simp only [spansOf, mem_cons, not_mem_nil, or_false] at hs
    rcases hs with rfl | rfl
    · exact hab
    · exact hbz
  · intro x hx
    cases hx
    exact hf

theorem EmptyRoot.call {f m} (h : EmptyRoot f m) {l} (hl : ValidList l) : (Call.mk f m l).Valid :=
  ⟨hl, h.pageTree, fun _ _ va _ _ => h.find_eq_none va⟩

theorem mmuMultimap_builds_inside :
    ∃ fuel r, mmuMultimap smallFrames fuel 0x10000 [0x1000, 0x1003, 0x2000, 0x7403, 0x4000, 0]
        smallMemory = some r ∧
      (r = .error .outOfPagetables ∨ ∃ m, r = .ok ([], m) ∧ insideCall.Built m) := by
  refine mmuMultimap_builds insideCall (smallMemory_empty.call (.pair ?_ ?_ (by decide)))
    (fun _ _ n va _ _ => smallMemory_empty.tableOf_succ va n) ?_ ?_
  · exact ⟨rfl, rfl, by decide, by decide, rfl, by decide⟩
  · exact ⟨rfl, rfl, by decide, by decide, rfl, by decide⟩
  · intro s hs
    simp only [insideCall, Call.spans, spansOf, mem_cons, not_mem_nil, or_false] at hs
    rcases hs with rfl | rfl <;> exact le_of_ble_eq_true rfl
  · intro s hs
    cases mem_singleton.mp hs
    exact ⟨fun h => absurd h (by decide), fun h => absurd h (by decide), by decide⟩

/-- After the boundary the entries go to the start of the table of the first mapping: the two
pages from address 0 on are mapped in the place of the two from `0x200000` on. -/
theorem crossingCall_not_built : crossingCall.Valid ∧
    Clear crossingCall.frames crossingCall.old crossingCall.spans ∧
    (∀ s ∈ crossingCall.spans, s.Fits) ∧
    mmuMultimap smallFrames 30 0x10000 [0x1ff000, 0x1ff003, 0x200000, 0x7403, 0x202000, 0]
      smallMemory = some (.ok ([], crossingMemory)) ∧
    translate smallFrames crossingMemory 0x200000 = none ∧
    translate smallFrames crossingMemory 0 = some (0x7000, 0x400) ∧
    ¬ crossingCall.Built crossingMemory := by
  have hnone : translate smallFrames crossingMemory 0x200000 = none := by decide +kernel
  refine ⟨smallMemory_empty.call (.pair ?_ ?_ (by decide)),
    fun _ _ n va _ _ => smallMemory_empty.tableOf_succ va n, ?_, rfl, hnone, ?_, ?_⟩
  · exact ⟨rfl, rfl, by decide, by decide, rfl, by decide⟩
  · exact ⟨rfl, rfl, by decide, by decide, rfl, by decide⟩
  · intro s hs
    simp only [crossingCall, Call.spans, spansOf, mem_cons, not_mem_nil, or_false] at hs
    rcases hs with rfl | rfl <;> exact le_of_ble_eq_true rfl
  · decide +kernel
  · intro hbuilt
    have hsome := (hbuilt 0x200000 (by decide)).1 ⟨0x200000, 0x202000, 0x7403⟩
      (mem_cons_of_mem _ mem_cons_self) (by decide) (by decide)
    exact Option.some_ne_none _ (hsome.symm.trans hnone)

end Rkboot.Aarch64
