import Rkboot.Tools.Regtool
import Rkboot.Lib.Bits
import Mathlib.Data.List.TakeWhile

/-! # The layout of a description

The lines of a description are a forest written down with indentation, and `layout_fields`, a flat loop
with a stack of active repetitions, expands it: each scope is run through for all values of its
repetition. The `u16` arithmetic of the loop places the fields as numbers that do not wrap around
would, as long as the layout pointer stays low enough. -/
namespace Rkboot.Tools.Regtool
open Lib Function List Nat

/-! ## Offsets -/

/-- The next multiple of the alignment, or the next register if the field would straddle one. -/
def place (offset : Nat) (f : FieldLine) : Nat :=
  let aligned := (offset + f.alignment - 1) / f.alignment * f.alignment
  if aligned % 32 + f.size ≤ 32 then aligned else (aligned / 32 + 1) * 32

/-- The bits that a field takes up; the subfields of a packed one do so themselves. -/
def FieldLine.advance (f : FieldLine) : Nat := if f.packed then 0 else f.size

def behind (offset : Nat) (f : FieldLine) : Nat := offset + f.advance

/-- Layout pointers for which nothing wraps around. -/
def lowOffset : Nat := 2 ^ 16 - 64

theorem FieldLine.alignment_dvd (f : FieldLine) : ∃ k ≤ 5, f.alignment = 2 ^ k := by
  rcases f.alignment_eq with h | h | h | h
  · exact ⟨0, by decide, h⟩
  · exact ⟨3, by decide, h⟩
  · exact ⟨4, by decide, h⟩
  · exact ⟨5, by decide, h⟩

section
variable {f : FieldLine} {offset : Nat}

/-- A field begins at the pointer or behind it. -/
theorem le_place : offset ≤ place offset f := by
  unfold place
  rcases f.alignment_eq with h | h | h | h <;> rw [h] <;> dsimp only <;> split <;> omega

/-- A field ends in the register where it begins. -/
theorem place_inside : place offset f % 32 + f.size ≤ 32 := by
  have hsize := f.size_le
  unfold place
  dsimp only
  split
  · assumption
  · rw [mul_mod_left, zero_add]
    exact hsize

/-- A field begins less than two registers behind the pointer. -/
theorem place_add_size_lt (hlow : offset < lowOffset) : place offset f + f.size < 2 ^ 16 := by
  have hsize := f.size_le
  unfold lowOffset at hlow
  unfold place
  rcases f.alignment_eq with h | h | h | h <;> rw [h] <;> dsimp only <;> split <;> omega

theorem alignOffset_eq (hlow : offset < lowOffset) :
    alignOffset offset f.alignment = (offset + f.alignment - 1) / f.alignment * f.alignment := by
  obtain ⟨k, hk, halign⟩ := f.alignment_dvd
  have hle : 2 ^ k ≤ 2 ^ 5 := Nat.pow_le_pow_right (by decide) hk
  unfold lowOffset at hlow
  have hlt : offset + 2 ^ k - 1 < 2 ^ 16 := by omega
  rw [alignOffset, halign, and_high_bits (lt_trans hlt (by decide)) (by omega)]
  exact mod_eq_of_lt (lt_of_le_of_lt (div_mul_le_self _ _) hlt)

theorem placeField_eq (hlow : offset < lowOffset) : placeField offset f = place offset f := by
  have hpos := f.size_pos
  have hlt := place_add_size_lt (f := f) hlow
  unfold placeField place at *
  rw [alignOffset_eq hlow]
  generalize (offset + f.alignment - 1) / f.alignment * f.alignment = aligned at *
  by_cases hfits : aligned % 32 + f.size ≤ 32
  · rw [if_pos hfits, if_neg (by omega)]
  · rw [if_neg hfits] at hlt
    have hround : aligned &&& (2 ^ 32 - 32) = aligned / 32 * 32 :=
      and_high_bits (k := 5) (by omega) (by decide)
    rw [if_neg hfits, if_pos (by omega), hround, ← succ_mul]
    exact mod_eq_of_lt (lt_of_le_of_lt (Nat.le_add_right _ _) hlt)

theorem behindField_eq (hlow : offset < lowOffset) :
    behindField (place offset f) f = behind (place offset f) f := by
  have hlt := place_add_size_lt (f := f) hlow
  unfold behindField behind FieldLine.advance
  split
  · rfl
  · exact mod_eq_of_lt hlt

end

/-- How far the layout pointer moves behind the field at a line. -/
def Context.advance (ctx : Context) (pos : Nat) : Nat :=
  match ctx.lines[pos]? with
  | some ⟨_, _, .field f⟩ => f.advance
  | _ => 0

/-- The layout pointer stays low: behind each field, and where pragmas move it. -/
structure OffsetsLow (ctx : Context) (fields : List Field) : Prop where
  fields : ∀ field ∈ fields, field.offset + ctx.advance field.line < lowOffset
  syncs : ∀ n d a b, ⟨n, d, .pragma .sync a b⟩ ∈ ctx.lines → b < lowOffset

/-! ## The meaning of indentation

The lines of a description are a forest written down with indentation, and the fields are its
expansion: the lines that a repetition covers are expanded for each of its values in turn. The flat
loop of `layout_fields` follows the forest. -/

variable {d pos n a b offset : Nat} {l : Line}

/-- Lines at one depth, with the lines that repetitions among them cover. -/
inductive Forest where
  | nil
  | field (line : Nat) (f : FieldLine) (next : Forest)
  | sync (line offsetStart offsetEnd : Nat) (next : Forest)
  | rep (line : Nat) (rep : Repetition) (ne : rep ≠ .sync) (offsetStart offsetEnd : Nat)
      (body next : Forest)

namespace Forest

/-- The forest written down from a depth on. -/
def lines : Forest → Nat → List Line
  | nil, _ => []
  | field n f next, d => ⟨n, d, .field f⟩ :: next.lines d
  | sync n a b next, d => ⟨n, d, .pragma .sync a b⟩ :: next.lines d
  | rep n r _ a b body next, d => ⟨n, d, .pragma r a b⟩ :: (body.lines (d + 1) ++ next.lines d)

/-- The number of lines. -/
def size : Forest → Nat
  | nil => 0
  | field _ _ next => next.size + 1
  | sync _ _ _ next => next.size + 1
  | rep _ _ _ _ _ body next => body.size + next.size + 1

theorem lines_length (F : Forest) (d : Nat) : (F.lines d).length = F.size := by
  induction F generalizing d with
  | nil => rfl
  | field _ _ _ ih | sync _ _ _ _ ih => rw [lines, length_cons, ih, size]
  | rep n r h a b body next ihb ihn =>
    rw [lines, length_cons, length_append, ihb, ihn, size]

theorem le_indent {F : Forest} (h : l ∈ F.lines d) : d ≤ l.indent := by
  induction F generalizing d with
  | nil => cases h
  | field _ _ _ ih | sync _ _ _ _ ih =>
    rcases mem_cons.mp h with rfl | h
    · exact le_refl d
    · exact ih h
  | rep n r hr a b body next ihb ihn =>
    rcases mem_cons.mp h with rfl | h
    · exact le_refl d
    rcases mem_append.mp h with h | h
    · exact le_of_succ_le (ihb h)
    · exact ihn h

/-- The first line is not covered. -/
theorem head_indent {F : Forest} (h : (F.lines d).head? = some l) : l.indent = d := by
  cases F <;> cases h <;> rfl

/-- The covered lines are those up to the next one that is not indented more. -/
theorem takeWhile_covered (body next : Forest) (d : Nat) :
    (body.lines (d + 1) ++ next.lines d).takeWhile (d < ·.indent) = body.lines (d + 1) := by
  rw [takeWhile_append_of_pos fun l hl => decide_eq_true (show d < l.indent from le_indent hl)]
  cases hnext : next.lines d with
  | nil => simp
  | cons l rest =>
    have hl := head_indent (F := next) (d := d) (l := l) (by rw [hnext]; rfl)
    rw [takeWhile_cons_of_neg (by simp [hl]), append_nil]

/-- Lines are the same only for the same forest. -/
theorem lines_injective {F G : Forest} (h : F.lines d = G.lines d) : F = G := by
  induction F generalizing d G with
  | nil =>
    cases G with
    | nil => rfl
    | _ => cases h
  | field n f next ih =>
    cases G with
    | field n' f' next' =>
      injection h with hl hnext
      injection hl with hn hd hk
      injection hk with hf
      rw [hn, hf, ih hnext]
    | _ => simp [lines] at h
  | sync n a b next ih =>
    cases G with
    | sync n' a' b' next' =>
      injection h with hl hnext
      injection hl with hn hd hk
      injection hk with hr ha hb
      rw [hn, ha, hb, ih hnext]
    | rep n' r hr a' b' body next' =>
      simp only [lines, List.cons.injEq, Line.mk.injEq, LineKind.pragma.injEq] at h
      exact absurd h.1.2.2.1.symm hr
    | _ => simp [lines] at h
  | rep n r hr a b body next ihb ihn =>
    cases G with
    | sync n' a' b' next' =>
      simp only [lines, List.cons.injEq, Line.mk.injEq, LineKind.pragma.injEq] at h
      exact absurd h.1.2.2.1 hr
    | rep n' r' hr' a' b' body' next' =>
      injection h with hl hrest
      injection hl with hn hd hk
      injection hk with hrr ha hb
      have hbody := congrArg (List.takeWhile (d < ·.indent)) hrest
      rw [takeWhile_covered, takeWhile_covered] at hbody
      rw [hbody] at hrest
      subst hrr
      rw [hn, ha, hb, ihb hbody, ihn (append_cancel_left hrest)]
    | _ => simp [lines] at h

end Forest

/-! ## Expansion -/

/-- The fields of `n` iterations with the values from `v` on, and the layout pointer behind them. -/
def repeatFrom (f : Nat → Nat → List Field × Nat) : Nat → Nat → Nat → List Field × Nat
  | 0, _, offset => ([], offset)
  | n + 1, v, offset =>
    let (fields, offset) := f v offset
    let (rest, offset) := repeatFrom f n (v + 1) offset
    (fields ++ rest, offset)

/-- What a forest that begins at line `pos` is expanded to under the repetitions that are active,
for any way to place a field and to go on behind it. -/
def Forest.expandBy (place behind : Nat → FieldLine → Nat) :
    Forest → Nat → List Repetition → (Repetition → Nat) → Nat → List Field × Nat
  | nil, _, _, _, offset => ([], offset)
  | field _ f next, pos, active, values, offset =>
    let offset := place offset f
    let (fields, last) := next.expandBy place behind (pos + 1) active values (behind offset f)
    (⟨pos, repFlags active, offset, values⟩ :: fields, last)
  | sync _ _ b next, pos, active, values, _ =>
    next.expandBy place behind (pos + 1) active values b
  | rep _ r _ _ _ body next, pos, active, values, offset =>
    let (fields, offset) := repeatFrom (fun v offset =>
      body.expandBy place behind (pos + 1) (r :: active) (update values r v) offset)
      r.numRepetitions 0 offset
    let (rest, last) := next.expandBy place behind (pos + 1 + body.size) active values offset
    (fields ++ rest, last)

/-- What a description means. -/
def Forest.expand : Forest → Nat → List Repetition → (Repetition → Nat) → Nat → List Field × Nat :=
  Forest.expandBy place behind

/-! ## The flat loop -/

section
variable {ctx : Context} {s : LayoutState} {rest : List Line}

/-- The loop is at the first of some lines, behind which none is covered. -/
structure At (ctx : Context) (ls rest : List Line) (s : LayoutState) : Prop where
  lines : ctx.lines.drop s.pos = ls ++ rest
  rest : ∀ l, rest.head? = some l → l.indent ≤ s.active.length
  unset : ∀ rep, rep ∉ s.active → ctx.globalReps.testBit rep.index = false → s.repValues rep = 0

/-- The loop has come to line `p` with these repetitions active, and has laid out some fields on the
way. -/
structure Went (p : Nat) (reps : List Repetition) (vals : Repetition → Nat)
    (result : List Field × Nat) (s s' : LayoutState) : Prop where
  pos : s'.pos = p
  active : s'.active = reps
  values : s'.repValues = vals
  offset : s'.curOffset = result.2
  fields : s'.fields = s.fields ++ result.1
  scopes : ∀ rep ∈ reps, s'.repStart rep = s.repStart rep ∧ s'.repEnd rep = s.repEnd rep

/-- The loop has gone over a forest. -/
abbrev Passed (F : Forest) (s s' : LayoutState) : Prop :=
  Went (s.pos + F.size) s.active s.repValues
    (F.expandBy placeField behindField s.pos s.active s.repValues s.curOffset) s s'

/-- The loop stops at a check. -/
def Fails (ctx : Context) (s : LayoutState) : Prop := ∃ e, Ends (layoutStep ctx) s (.error e)

theorem Fails.of_leads {t} (h : Leads (layoutStep ctx) s t) (ht : Fails ctx t) : Fails ctx s := by
  obtain ⟨e, he⟩ := ht
  exact ⟨e, h _ he⟩

theorem getElem?_of_drop {ls} (h : ctx.lines.drop pos = l :: ls) : ctx.lines[pos]? = some l := by
  rw [← List.head?_drop, h]
  rfl

theorem drop_add_length {ls : List Line} {rest} (h : ctx.lines.drop pos = ls ++ rest) :
    ctx.lines.drop (pos + ls.length) = rest := by
  rw [← drop_drop, h, drop_left]

theorem drop_succ {ls} (h : ctx.lines.drop pos = l :: ls) : ctx.lines.drop (pos + 1) = ls := by
  rw [← drop_drop, h]
  rfl

theorem step_popReps (hindent : ctx.indentAt s.pos ≤ s.active.length) :
    layoutStep ctx s = layoutNext ctx (popReps ctx (ctx.indentAt s.pos) s.active s) :=
  if_neg (not_lt.mpr hindent)

/-- A line that is indented as the active repetitions have it is laid out. -/
theorem step_line (hl : ctx.lines[s.pos]? = some l) (hindent : l.indent = s.active.length) :
    layoutStep ctx s = layoutAdvance (layoutLine ctx s l) := by
  have hat : ctx.indentAt s.pos = s.active.length := by
    rw [Context.indentAt, hl]
    exact hindent
  have hpop : popReps ctx s.active.length s.active s = .ok (false, s) := by
    cases hactive : s.active with
    | nil => rfl
    | cons r outer => exact if_neg (lt_irrefl _)
  rw [step_popReps (le_of_eq hat), hat, hpop, layoutNext, hl]

section
variable {r : Repetition} {outer : List Repetition}

/-- Behind the covered lines, a repetition begins again with its next value. -/
theorem step_again (hactive : s.active = r :: outer) (hindent : ctx.indentAt s.pos ≤ outer.length)
    (hvalue : s.repValues r + 1 < r.numRepetitions) : layoutStep ctx s = .inl { s with
      repValues := update s.repValues r (s.repValues r + 1), pos := s.repStart r + 1 } := by
  have hpop : popReps ctx (ctx.indentAt s.pos) (r :: outer) s = .ok (true, { s with
      repValues := update s.repValues r (s.repValues r + 1), pos := s.repStart r + 1 }) := by
    rw [popReps, if_pos (by omega)]
    exact if_pos hvalue
  rw [step_popReps (by rw [hactive, length_cons]; omega),
    congrArg (popReps ctx _ · s) hactive, hpop]
  rfl

/-- It ends behind its last value, if the layout pointer is where it should be. -/
theorem step_pop (hactive : s.active = r :: outer) (hindent : ctx.indentAt s.pos ≤ outer.length)
    (hvalue : ¬ s.repValues r + 1 < r.numRepetitions) : Fails ctx s ∨
      Leads (layoutStep ctx) s { s with repValues := update s.repValues r 0, active := outer } := by
  have hstep := step_popReps (show ctx.indentAt s.pos ≤ s.active.length by
    rw [hactive, length_cons]
    omega)
  rw [congrArg (popReps ctx _ · s) hactive, popReps, if_pos (by omega)] at hstep
  rw [if_neg hvalue] at hstep
  by_cases hend : (outer.all fun r => s.repValues r = 0) ∧ s.repEnd r ≠ s.curOffset
  · rw [if_pos hend] at hstep
    exact .inl ⟨_, .done hstep⟩
  · rw [if_neg hend] at hstep
    refine .inr (.of_eq (hstep.trans ?_))
    exact (step_popReps (s := { s with repValues := update s.repValues r 0, active := outer })
      hindent).symm

end

/-- A repetition is begun if it is not active and not set globally. -/
theorem layoutPragma_push {r : Repetition} {s₁} (hr : r ≠ .sync)
    (h : layoutPragma ctx s n r a b = .ok s₁) :
    r ∉ s.active ∧ ctx.globalReps.testBit r.index = false ∧ s₁ = { s with
      active := r :: s.active
      repValues := update s.repValues r 0
      repEnd := update s.repEnd r b
      repStart := update s.repStart r s.pos } := by
  unfold layoutPragma at h
  split at h
  · cases h
  rename_i hactive
  split at h
  · cases h
  split at h
  · cases h
  rename_i hglobal
  split at h
  · cases h
  · cases h
    exact ⟨hactive, by simpa using hglobal, rfl⟩

theorem layoutPragma_sync {s₁}
    (h : layoutPragma ctx s n .sync a b = .ok s₁) : s₁ = { s with curOffset := b } := by
  unfold layoutPragma at h
  repeat' split at h
  all_goals cases h
  · exact absurd rfl ‹_›
  · rfl

/-- The state at the first line that a repetition covers. -/
def LayoutState.enter (s : LayoutState) (r : Repetition) (offsetEnd : Nat) : LayoutState :=
  { s with
    active := r :: s.active
    repValues := update s.repValues r 0
    repEnd := update s.repEnd r offsetEnd
    repStart := update s.repStart r s.pos
    pos := s.pos + 1 }

section
variable {ls : List Line} {n a b : Nat}

/-- A field is laid out. -/
theorem At.field {f} (h : At ctx (⟨n, s.active.length, .field f⟩ :: ls) rest s) :
    Leads (layoutStep ctx) s { layoutField s f with pos := s.pos + 1 } ∧
      At ctx ls rest { layoutField s f with pos := s.pos + 1 } := by
  have hstep := step_line (getElem?_of_drop h.lines) rfl
  exact ⟨.of_step hstep, drop_succ h.lines, h.rest, h.unset⟩

/-- The layout pointer is moved. -/
theorem At.sync (h : At ctx (⟨n, s.active.length, .pragma .sync a b⟩ :: ls) rest s) : Fails ctx s ∨
    Leads (layoutStep ctx) s { s with curOffset := b, pos := s.pos + 1 } ∧
      At ctx ls rest { s with curOffset := b, pos := s.pos + 1 } := by
  have hstep := step_line (getElem?_of_drop h.lines) rfl
  dsimp only [layoutLine] at hstep
  cases hrun : layoutPragma ctx s n .sync a b with
  | error e =>
    rw [hrun] at hstep
    exact .inl ⟨e, .done hstep⟩
  | ok s₁ =>
    rw [hrun] at hstep
    obtain rfl := layoutPragma_sync hrun
    exact .inr ⟨.of_step hstep, drop_succ h.lines, h.rest, h.unset⟩

/-- A repetition is begun. -/
theorem At.enter {r : Repetition} (hr : r ≠ .sync)
    (h : At ctx (⟨n, s.active.length, .pragma r a b⟩ :: ls) rest s) : Fails ctx s ∨
      r ∉ s.active ∧ ctx.globalReps.testBit r.index = false ∧
        Leads (layoutStep ctx) s (s.enter r b) ∧ At ctx ls rest (s.enter r b) := by
  have hstep := step_line (getElem?_of_drop h.lines) rfl
  dsimp only [layoutLine] at hstep
  cases hrun : layoutPragma ctx s n r a b with
  | error e =>
    rw [hrun] at hstep
    exact .inl ⟨e, .done hstep⟩
  | ok s₁ =>
    rw [hrun] at hstep
    obtain ⟨hactive, hglobal, rfl⟩ := layoutPragma_push hr hrun
    refine .inr ⟨hactive, hglobal, .of_step hstep, drop_succ h.lines,
      fun l hl => le_succ_of_le (h.rest l hl), fun rep hrep hrep' => ?_⟩
    have hne : rep ≠ r := fun heq => hrep (by rw [heq]; exact mem_cons_self)
    dsimp only [LayoutState.enter]
    rw [update_of_ne hne]
    exact h.unset rep (fun hmem => hrep (mem_cons_of_mem _ hmem)) hrep'

end

/-! ## Forests are passed -/

/-- A forest is passed, or a check fails in it. -/
def Runs (ctx : Context) (F : Forest) : Prop := ∀ s rest, At ctx (F.lines s.active.length) rest s →
  Fails ctx s ∨ ∃ s', Leads (layoutStep ctx) s s' ∧ Passed F s s'

theorem runs_nil : Runs ctx .nil :=
  fun s _ _ => .inr ⟨s, .refl s, ⟨rfl, rfl, rfl, rfl, (append_nil _).symm, fun _ _ => ⟨rfl, rfl⟩⟩⟩

theorem runs_field {n f next} (ih : Runs ctx next) : Runs ctx (.field n f next) := by
  intro s rest h
  obtain ⟨hlead, hnext⟩ := At.field h
  rcases ih { layoutField s f with pos := s.pos + 1 } rest hnext with hfail | ⟨s', hlead', hpassed⟩
  · exact .inl (hfail.of_leads hlead)
  · refine .inr ⟨s', hlead.trans hlead', ?_, hpassed.active, hpassed.values, hpassed.offset, ?_,
      hpassed.scopes⟩
    · rw [hpassed.pos, Forest.size]
      dsimp only
      omega
    · rw [hpassed.fields]
      exact append_assoc _ _ _

theorem runs_sync {n a b next} (ih : Runs ctx next) : Runs ctx (.sync n a b next) := by
  intro s rest h
  rcases At.sync h with hfail | ⟨hlead, hnext⟩
  · exact .inl hfail
  rcases ih { s with curOffset := b, pos := s.pos + 1 } rest hnext with hfail | ⟨s', hlead', hpassed⟩
  · exact .inl (hfail.of_leads hlead)
  · refine .inr ⟨s', hlead.trans hlead', ?_, hpassed.active, hpassed.values, hpassed.offset,
      hpassed.fields, hpassed.scopes⟩
    rw [hpassed.pos, Forest.size]
    dsimp only
    omega

/-- The loop is at the covered lines of the repetition `r`, which has the value `v`. -/
structure Inside (ctx : Context) (body : Forest) (rest : List Line) (r : Repetition)
    (outer : List Repetition) (values : Repetition → Nat) (pos v : Nat) (s : LayoutState) : Prop where
  lines : ctx.lines.drop s.pos = body.lines (outer.length + 1) ++ rest
  rest : ∀ l, rest.head? = some l → l.indent ≤ outer.length
  unset : ∀ rep, rep ∉ s.active → ctx.globalReps.testBit rep.index = false → s.repValues rep = 0
  active : s.active = r :: outer
  values : s.repValues = update values r v
  start : s.repStart r = pos
  pos : s.pos = pos + 1

theorem indentAt_of_drop (h : ctx.lines.drop pos = rest)
    (hrest : ∀ l, rest.head? = some l → l.indent ≤ d) : ctx.indentAt pos ≤ d := by
  rw [Context.indentAt, ← List.head?_drop, h]
  cases hhead : rest.head? with
  | none => exact Nat.zero_le d
  | some l => exact hrest l hhead

/-- Behind the covered lines, still with the value `v`. -/
structure Behind (ctx : Context) (r : Repetition) (outer : List Repetition) (values : Repetition → Nat)
    (pos v : Nat) (s : LayoutState) : Prop where
  active : s.active = r :: outer
  values : s.repValues = update values r v
  start : s.repStart r = pos
  indent : ctx.indentAt s.pos ≤ outer.length

section
variable {body : Forest} {r : Repetition} {outer : List Repetition} {values : Repetition → Nat}
  {pos v k : Nat}

theorem Inside.at_body (h : Inside ctx body rest r outer values pos v s) :
    At ctx (body.lines s.active.length) rest s := by
  rw [h.active]
  refine ⟨h.lines, fun l hl => ?_, h.unset⟩
  rw [h.active]
  exact le_succ_of_le (h.rest l hl)

theorem Inside.behind {s'} (h : Inside ctx body rest r outer values pos v s)
    (hpassed : Passed body s s') : Behind ctx r outer values pos v s' := by
  refine ⟨hpassed.active.trans h.active, hpassed.values.trans h.values, ?_, ?_⟩
  · rw [(hpassed.scopes r (h.active ▸ mem_cons_self)).1, h.start]
  · have hdrop := drop_add_length h.lines
    rw [Forest.lines_length, ← hpassed.pos] at hdrop
    exact indentAt_of_drop hdrop h.rest

/-- The next iteration begins as the last one did. -/
theorem Inside.next {s' : LayoutState} (h : Inside ctx body rest r outer values pos v s)
    (hpassed : Passed body s s') : Inside ctx body rest r outer values pos (v + 1) { s' with
      repValues := update s'.repValues r (s'.repValues r + 1), pos := s'.repStart r + 1 } := by
  have hbehind := h.behind hpassed
  refine ⟨?_, h.rest, fun rep hrep hglobal => ?_, hbehind.active, ?_, hbehind.start, ?_⟩
  · have hlines := h.lines
    rw [h.pos, ← hbehind.start] at hlines
    exact hlines
  · have hne : rep ≠ r := fun heq => hrep (by rw [heq, hbehind.active]; exact mem_cons_self)
    dsimp only at hrep ⊢
    rw [update_of_ne hne, hpassed.values]
    exact h.unset rep (hpassed.active ▸ hrep) hglobal
  · rw [hbehind.values, update_self, update_idem]
  · rw [hbehind.start]

/-- The iterations that are left, one after the other. -/
theorem Inside.iterate (hbody : Runs ctx body) (h : Inside ctx body rest r outer values pos v s)
    (hk : v + k + 1 = r.numRepetitions) : Fails ctx s ∨ ∃ s', Leads (layoutStep ctx) s s' ∧
      Went (pos + 1 + body.size) outer (update values r 0) (repeatFrom (fun v =>
        body.expandBy placeField behindField (pos + 1) (r :: outer) (update values r v)) (k + 1) v
        s.curOffset) s s' := by
  induction k generalizing v s with
  | zero =>
    rcases hbody s rest h.at_body with hfail | ⟨s₁, hlead, hpassed⟩
    · exact .inl hfail
    have hbehind := h.behind hpassed
    have hvalue : ¬ s₁.repValues r + 1 < r.numRepetitions := by
      rw [hbehind.values, update_self]
      omega
    rcases step_pop hbehind.active hbehind.indent hvalue with hfail | hpop
    · exact .inl (hfail.of_leads hlead)
    have hoffset := hpassed.offset
    have hfields := hpassed.fields
    rw [h.pos, h.active, h.values] at hoffset hfields
    refine .inr ⟨_, hlead.trans hpop, ?_, rfl, ?_, hoffset, ?_, fun rep hrep => ?_⟩
    · exact hpassed.pos.trans (by rw [h.pos])
    · rw [hbehind.values, update_idem]
    · simp only [repeatFrom, append_nil]
      exact hfields
    · exact hpassed.scopes rep (h.active ▸ mem_cons_of_mem _ hrep)
  | succ k ih =>
    rcases hbody s rest h.at_body with hfail | ⟨s₁, hlead, hpassed⟩
    · exact .inl hfail
    have hbehind := h.behind hpassed
    have hagain := Leads.of_step (step_again hbehind.active hbehind.indent (by
      rw [hbehind.values, update_self]
      omega))
    rcases ih (h.next hpassed) (by omega) with hfail | ⟨s', hlead', hwent⟩
    · exact .inl ((hfail.of_leads hagain).of_leads hlead)
    have hoffset := hpassed.offset
    have hfields := hpassed.fields
    rw [h.pos, h.active, h.values] at hoffset hfields
    refine .inr ⟨s', (hlead.trans hagain).trans hlead', hwent.pos, hwent.active, hwent.values, ?_, ?_,
      fun rep hrep => ?_⟩
    · rw [repeatFrom, hwent.offset]
      rw [hoffset]
    · rw [repeatFrom, hwent.fields]
      rw [hoffset, hfields, append_assoc]
    · have hscope := hpassed.scopes rep (h.active ▸ mem_cons_of_mem _ hrep)
      exact ⟨(hwent.scopes rep hrep).1.trans hscope.1, (hwent.scopes rep hrep).2.trans hscope.2⟩

end

theorem numRepetitions_pos {r : Repetition} (hr : r ≠ .sync) : 0 < r.numRepetitions := by
  cases r with
  | sync => exact absurd rfl hr
  | _ => decide

theorem runs_rep {n a b r} (hr : r ≠ .sync) {body next}
    (ihb : Runs ctx body) (ihn : Runs ctx next) : Runs ctx (.rep n r hr a b body next) := by
  intro s rest h
  rcases At.enter hr h with hfail | ⟨hactive, hglobal, hlead, hat⟩
  · exact .inl hfail
  have hdrop := hat.lines
  rw [append_assoc] at hdrop
  have hinside : Inside ctx body (next.lines s.active.length ++ rest) r s.active s.repValues s.pos 0
      (s.enter r b) := by
    refine ⟨hdrop, fun l hhead => ?_, hat.unset, rfl, rfl, update_self .., rfl⟩
    cases hnext : next.lines s.active.length with
    | nil =>
      rw [hnext] at hhead
      exact h.rest l hhead
    | cons l' ls =>
      rw [hnext] at hhead
      cases hhead
      exact le_of_eq (Forest.head_indent (by rw [hnext]; rfl))
  obtain ⟨k, hk⟩ := Nat.exists_eq_add_of_lt (numRepetitions_pos hr)
  rcases hinside.iterate ihb hk.symm with hfail | ⟨s₂, hlead₂, hwent⟩
  · exact .inl (hfail.of_leads hlead)
  have hvalues : update s.repValues r 0 = s.repValues := by
    rw [← h.unset r hactive hglobal, update_eq_self]
  have hnext : At ctx (next.lines s₂.active.length) rest s₂ := by
    refine ⟨?_, by rw [hwent.active]; exact h.rest, fun rep hrep => ?_⟩
    · have hbehind := drop_add_length hdrop
      rw [Forest.lines_length] at hbehind
      rw [hwent.pos, hwent.active]
      exact hbehind
    · rw [hwent.values, hvalues]
      exact h.unset rep (hwent.active ▸ hrep)
  rcases ihn s₂ rest hnext with hfail | ⟨s', hlead', hpassed⟩
  · exact .inl ((hfail.of_leads hlead₂).of_leads hlead)
  have hoffset := hpassed.offset
  have hfields := hpassed.fields
  rw [hwent.pos, hwent.active, hwent.values, hvalues, hwent.offset] at hoffset hfields
  rw [hwent.fields, append_assoc] at hfields
  refine .inr ⟨s', (hlead.trans hlead₂).trans hlead', ?_, hpassed.active.trans hwent.active, ?_, ?_, ?_,
    fun rep hrep => ?_⟩
  · rw [hpassed.pos, hwent.pos, Forest.size]
    omega
  · rw [hpassed.values, hwent.values, hvalues]
  · rw [hoffset, Forest.expandBy, hk, zero_add]
    rfl
  · rw [hfields, Forest.expandBy, hk, zero_add]
    rfl
  · have hne : rep ≠ r := fun heq => hactive (heq ▸ hrep)
    obtain ⟨hstart, hend⟩ := hpassed.scopes rep (hwent.active ▸ hrep)
    obtain ⟨hstart', hend'⟩ := hwent.scopes rep hrep
    dsimp only [LayoutState.enter] at hstart' hend'
    rw [update_of_ne hne] at hstart' hend'
    exact ⟨hstart.trans hstart', hend.trans hend'⟩

theorem runs (F : Forest) : Runs ctx F := by
  induction F with
  | nil => exact runs_nil
  | field n f next ih => exact runs_field ih
  | sync n a b next ih => exact runs_sync ih
  | rep n r hr a b body next ihb ihn => exact runs_rep hr ihb ihn

/-! ## Every list of lines -/

/-- A line that is indented further than the active repetitions allow. -/
theorem At.fails_of_indent {ls} (h : At ctx (l :: ls) rest s)
    (hl : s.active.length < l.indent) : Fails ctx s := by
  refine ⟨_, .done (if_pos ?_)⟩
  rw [Context.indentAt, getElem?_of_drop h.lines]
  exact hl

/-- The loop is behind a repetition and the lines that it covers, where more lines follow. -/
theorem At.rep {n a b r} (hr : r ≠ .sync) {body : Forest} {ls : List Line}
    (h : At ctx (⟨n, s.active.length, .pragma r a b⟩ :: (body.lines (s.active.length + 1) ++ ls)) rest s)
    (hls : ∀ l, ls.head? = some l → l.indent = s.active.length) : Fails ctx s ∨
      ∃ s', Leads (layoutStep ctx) s s' ∧ s'.active = s.active ∧ At ctx ls rest s' := by
  have hlines : ctx.lines.drop s.pos =
      (Forest.rep n r hr a b body .nil).lines s.active.length ++ (ls ++ rest) := by
    rw [h.lines]
    simp [Forest.lines]
  have hat : At ctx ((Forest.rep n r hr a b body .nil).lines s.active.length) (ls ++ rest) s := by
    refine ⟨hlines, fun l hl => ?_, h.unset⟩
    cases hhead : ls with
    | nil =>
      rw [hhead] at hl
      exact h.rest l hl
    | cons l' ls' =>
      rw [hhead] at hl
      exact le_of_eq (hls l (by rw [hhead]; exact hl))
  rcases runs _ s _ hat with hfail | ⟨s', hlead, hpassed⟩
  · exact .inl hfail
  · refine .inr ⟨s', hlead, hpassed.active, ?_, hpassed.active ▸ h.rest, ?_⟩
    · rw [hpassed.pos, ← Forest.lines_length _ s.active.length]
      exact drop_add_length hlines
    · rw [hpassed.active, hpassed.values]
      exact h.unset

/-- Lines are those of a forest, or the loop stops among them. -/
def Parses (ctx : Context) (d : Nat) (ls : List Line) : Prop :=
  (∃ F : Forest, F.lines d = ls) ∨ ∀ s rest, s.active.length = d → At ctx ls rest s → Fails ctx s

section
variable {ls : List Line} {n d a b : Nat}

theorem parses_field {f} (h : Parses ctx d ls) : Parses ctx d (⟨n, d, .field f⟩ :: ls) := by
  rcases h with ⟨F, rfl⟩ | h
  · exact .inl ⟨.field n f F, rfl⟩
  refine .inr fun s rest hd hat => ?_
  subst hd
  obtain ⟨hlead, hnext⟩ := At.field hat
  exact (h { layoutField s f with pos := s.pos + 1 } rest rfl hnext).of_leads hlead

theorem parses_sync (h : Parses ctx d ls) : Parses ctx d (⟨n, d, .pragma .sync a b⟩ :: ls) := by
  rcases h with ⟨F, rfl⟩ | h
  · exact .inl ⟨.sync n a b F, rfl⟩
  refine .inr fun s rest hd hat => ?_
  subst hd
  rcases At.sync hat with hfail | ⟨hlead, hnext⟩
  · exact hfail
  · exact (h { s with curOffset := b, pos := s.pos + 1 } rest rfl hnext).of_leads hlead

theorem parses_rep {r covered} (hr : r ≠ .sync) (hcovered : Parses ctx (d + 1) covered)
    (h : Parses ctx d ls) (hls : ∀ l, ls.head? = some l → l.indent = d) :
    Parses ctx d (⟨n, d, .pragma r a b⟩ :: (covered ++ ls)) := by
  rcases hcovered with ⟨body, rfl⟩ | hcovered
  · rcases h with ⟨next, rfl⟩ | h
    · exact .inl ⟨.rep n r hr a b body next, rfl⟩
    -- the repetition is passed, and then the loop stops behind it
    refine .inr fun s rest hd hat => ?_
    subst hd
    rcases At.rep hr hat hls with hfail | ⟨s', hlead, hactive, hnext⟩
    · exact hfail
    · exact (h s' rest (congrArg List.length hactive) hnext).of_leads hlead
  · refine .inr fun s rest hd hat => ?_
    subst hd
    rcases At.enter hr hat with hfail | ⟨-, -, hlead, hbody⟩
    · exact hfail
    refine (hcovered (s.enter r b) (ls ++ rest) rfl ⟨?_, fun l hl => ?_, hbody.unset⟩).of_leads hlead
    · rw [hbody.lines, append_assoc]
    · refine le_succ_of_le ?_
      cases hhead : ls with
      | nil =>
        rw [hhead] at hl
        exact hat.rest l hl
      | cons l' ls' =>
        rw [hhead] at hl
        exact le_of_eq (hls l (by rw [hhead]; exact hl))

end

/-- The induction is on the number of lines: those that a repetition covers are the ones up to the
next line that is not indented more. -/
theorem parses (ctx : Context) (ls : List Line) (d : Nat) (hle : ∀ l ∈ ls, d ≤ l.indent) :
    Parses ctx d ls := by
  induction hlen : ls.length using Nat.strong_induction_on generalizing ls d with
  | _ len ih =>
    subst hlen
    match ls, hle, ih with
    | [], _, _ => exact .inl ⟨.nil, rfl⟩
    | ⟨n, indent, kind⟩ :: ls, hle, ih =>
      have hls : ∀ l ∈ ls, d ≤ l.indent := fun l hl => hle l (mem_cons_of_mem _ hl)
      rcases lt_or_eq_of_le (hle _ mem_cons_self) with hlt | rfl
      · refine .inr fun s rest hd h => h.fails_of_indent ?_
        rw [hd]
        exact hlt
      cases kind with
      | field f => exact parses_field (ih ls.length (lt_succ_self _) ls _ hls rfl)
      | pragma r a b =>
        by_cases hr : r = .sync
        · subst hr
          exact parses_sync (ih ls.length (lt_succ_self _) ls _ hls rfl)
        rw [← takeWhile_append_dropWhile (p := fun l => d < l.indent) (l := ls)]
        refine parses_rep hr (ih _ ?_ _ _ ?_ rfl) (ih _ ?_ _ _ ?_ rfl) ?_
        · exact lt_succ_of_le (List.takeWhile_prefix _).length_le
        · intro l hl
          have hlt := mem_takeWhile_imp hl
          exact of_decide_eq_true hlt
        · exact lt_succ_of_le (dropWhile_suffix _).length_le
        · intro l hl
          exact hls l ((dropWhile_suffix _).subset hl)
        · intro l hl
          have hmem : l ∈ ls := (dropWhile_suffix _).subset (mem_of_head? hl)
          have hnot := List.head?_dropWhile_not (fun l => decide (d < l.indent)) ls
          rw [hl] at hnot
          exact le_antisymm (not_lt.mp (of_decide_eq_false hnot)) (hls l hmem)

end

/-! ## Offsets that do not wrap around -/

section
variable {ctx : Context}

/-- If the iterations agree while the layout pointer is low, so do all of them together. -/
theorem repeatFrom_eq {f g : Nat → Nat → List Field × Nat} {n v}
    (h : ∀ v offset, offset < lowOffset →
      (∀ x ∈ (f v offset).1, x.offset + ctx.advance x.line < lowOffset) →
      f v offset = g v offset ∧ (f v offset).2 < lowOffset) (hoffset : offset < lowOffset)
    (hlow : ∀ x ∈ (repeatFrom f n v offset).1, x.offset + ctx.advance x.line < lowOffset) :
    repeatFrom f n v offset = repeatFrom g n v offset ∧
      (repeatFrom f n v offset).2 < lowOffset := by
  induction n generalizing v offset with
  | zero => exact ⟨rfl, hoffset⟩
  | succ n ih =>
    simp only [repeatFrom] at hlow ⊢
    obtain ⟨hfirst, hbehind⟩ := h v offset hoffset fun x hx => hlow x (mem_append_left _ hx)
    obtain ⟨hrest, hlast⟩ := ih hbehind fun x hx => hlow x (mem_append_right _ hx)
    rw [← hfirst, ← hrest]
    exact ⟨rfl, hlast⟩

theorem Forest.expandBy_eq {F : Forest} {d pos rest active values}
    (hsyncs : ∀ n d a b, ⟨n, d, .pragma .sync a b⟩ ∈ ctx.lines → b < lowOffset)
    (hlines : ctx.lines.drop pos = F.lines d ++ rest) (hoffset : offset < lowOffset)
    (hlow : ∀ x ∈ (F.expandBy placeField behindField pos active values offset).1,
      x.offset + ctx.advance x.line < lowOffset) :
    F.expandBy placeField behindField pos active values offset = F.expand pos active values offset ∧
      (F.expandBy placeField behindField pos active values offset).2 < lowOffset := by
  unfold Forest.expand
  induction F generalizing d pos offset rest active values with
  | nil => exact ⟨rfl, hoffset⟩
  | field n f next ih =>
    have hplace := placeField_eq (f := f) hoffset
    have hbehind := behindField_eq (f := f) hoffset
    simp only [expandBy, hplace, hbehind] at hlow ⊢
    have hlowf : behind (place offset f) f < lowOffset := by
      have hf := hlow _ mem_cons_self
      rw [Context.advance, getElem?_of_drop hlines] at hf
      exact hf
    obtain ⟨hnext, hlast⟩ := ih (drop_succ hlines) hlowf
      fun x hx => hlow x (mem_cons_of_mem _ hx)
    rw [← hnext]
    exact ⟨rfl, hlast⟩
  | sync n a b next ih =>
    have hmem : ⟨n, d, .pragma .sync a b⟩ ∈ ctx.lines :=
      mem_of_getElem? (getElem?_of_drop hlines)
    exact ih (drop_succ hlines) (hsyncs n d a b hmem) hlow
  | rep n r hr a b body next ihb ihn =>
    simp only [expandBy] at hlow ⊢
    have hdrop := (drop_succ hlines).trans (append_assoc _ _ _)
    have hafter := drop_add_length hdrop
    rw [Forest.lines_length] at hafter
    obtain ⟨hbody, hbehind⟩ := repeatFrom_eq
      (fun v offset hoffset hlow => ihb hdrop hoffset hlow) hoffset
      fun x hx => hlow x (mem_append_left _ hx)
    obtain ⟨hnext, hlast⟩ := ihn hafter hbehind fun x hx => hlow x (mem_append_right _ hx)
    rw [← hbody, ← hnext]
    exact ⟨rfl, hlast⟩

end

/-- From the start the loop stops at a check, or ends with the expansion of the forest. -/
theorem layoutFields_runs (ctx : Context) : Fails ctx ctx.start ∨
    ∃ F : Forest, F.lines 0 = ctx.lines ∧ LayoutFields ctx
      (.ok (F.expandBy placeField behindField 0 [] ctx.repValues 0).1) := by
  have hat : At ctx ctx.lines [] ctx.start :=
    ⟨(append_nil _).symm, fun l hl => (nomatch hl), fun rep _ => ctx.unset rep⟩
  rcases parses ctx ctx.lines 0 fun l _ => Nat.zero_le _ with ⟨F, hF⟩ | hfail
  · rcases runs F ctx.start [] (hF.symm ▸ hat) with hfail | ⟨s, hlead, hpassed⟩
    · exact .inl hfail
    · refine .inr ⟨F, hF, hlead _ (.done ?_)⟩
      have hend : ctx.lines[s.pos]? = none := by
        rw [hpassed.pos, ← hF, ← Forest.lines_length F 0]
        exact List.getElem?_eq_none (Nat.le_add_left _ _)
      have hactive : s.active = [] := hpassed.active
      rw [step_popReps (by simp [Context.indentAt, hend]), congrArg (popReps ctx _ · s) hactive, popReps,
        layoutNext, hend]
      rw [hpassed.fields]
      rfl
  · exact .inl (hfail _ _ rfl hat)

/-- The loop always comes to an end. If it accepts the lines, they are a forest written down, in one
way only, and the fields are its expansion. -/
theorem layoutFields_expansion (ctx : Context) : (∃ r, LayoutFields ctx r) ∧
    ∀ fields, LayoutFields ctx (.ok fields) → OffsetsLow ctx fields →
      ∃ F : Forest, F.lines 0 = ctx.lines ∧ (∀ G : Forest, G.lines 0 = ctx.lines → G = F) ∧
        fields = (F.expand 0 [] ctx.repValues 0).1 := by
  rcases layoutFields_runs ctx with ⟨e, hfail⟩ | ⟨F, hF, hrun⟩
  · exact ⟨⟨_, hfail⟩, fun fields h => nomatch h.unique hfail⟩
  · refine ⟨⟨_, hrun⟩, fun fields h hlow => ?_⟩
    obtain rfl := Except.ok.inj (h.unique hrun)
    refine ⟨F, hF, fun G hG => Forest.lines_injective (hG.trans hF.symm), ?_⟩
    have hlines : ctx.lines.drop 0 = F.lines 0 ++ [] := by
      rw [append_nil, hF, drop_zero]
    rw [(Forest.expandBy_eq hlow.syncs hlines (by decide) hlow.fields).1]

def byteField (ro : Bool) (value : String) : FieldLine :=
  ⟨8, 8, ro, false, false, false, value, by decide, by decide, by decide⟩

/-- A description of all registers, with no repetitions from outside. -/
def describe (lines : List Line) : Context := ⟨lines, 0, fun _ => 0, 0, 2 ^ 16 - 1, fun _ _ => rfl⟩

/-- A byte for each chip select of each device, and one for all of them. -/
def nestedForest : Forest :=
  .rep 1 .device (by decide) 0 32 (.rep 2 .cs (by decide) 0 16 (.field 3 (byteField false "0") .nil) .nil)
    (.field 4 (byteField false "0") .nil)

def nestedDescription : Context := describe (nestedForest.lines 0)

theorem layoutFields_expansion_nested : ∃ fields, LayoutFields nestedDescription (.ok fields) ∧
    fields = (nestedForest.expand 0 [] (fun _ => 0) 0).1 ∧
    fields.map (fun field => (field.line, field.repValue .device, field.repValue .cs, field.offset)) =
      [(2, 0, 0, 0), (2, 0, 1, 8), (2, 1, 0, 16), (2, 1, 1, 24), (3, 0, 0, 32)] := by
  obtain ⟨fields, hrun, hmap⟩ : ∃ fields, LayoutFields nestedDescription (.ok fields) ∧
      fields.map (fun field => (field.line, field.repValue .device, field.repValue .cs, field.offset)) =
        [(2, 0, 0, 0), (2, 0, 1, 8), (2, 1, 0, 16), (2, 1, 1, 24), (3, 0, 0, 32)] :=
    ⟨_, .of_runFor (n := 12) rfl, rfl⟩
  have hlow : OffsetsLow nestedDescription fields := by
    refine ⟨fun field hfield => ?_, fun n d a b h => ?_⟩
    · have hoffset : ∀ x ∈ [(2, 0, 0, 0), (2, 0, 1, 8), (2, 1, 0, 16), (2, 1, 1, 24), (3, 0, 0, 32)],
          x.2.2.2 + nestedDescription.advance x.1 < lowOffset := by decide
      rw [← hmap] at hoffset
      exact hoffset _ (mem_map_of_mem hfield)
    · simp [nestedDescription, describe, nestedForest, Forest.lines] at h
  obtain ⟨F, -, hunique, hfields⟩ := (layoutFields_expansion nestedDescription).2 fields hrun hlow
  rw [← hunique nestedForest rfl] at hfields
  exact ⟨fields, hrun, hfields, hmap⟩

end Rkboot.Tools.Regtool
