import Rkboot.Tools.RegtoolLayout
import Rkboot.Tools.RegtoolRpn

/-! # Register words

The layout pointer never moves back, so the fields stand one behind the other, and `hex_blob` can put
the registers together in one pass over them. -/
namespace Rkboot.Tools.Regtool
open Lib List Nat

/-- The description of a field. -/
def Context.fieldLine (ctx : Context) (x : Field) : Option FieldLine :=
  match ctx.lines[x.line]? with
  | some ⟨_, _, .field f⟩ => some f
  | _ => none

def Context.sizeOf (ctx : Context) (x : Field) : Nat := ((ctx.fieldLine x).map FieldLine.size).getD 0

/-- The fields that are not made of subfields. -/
def Context.solid (ctx : Context) (fields : List Field) : List Field :=
  fields.filter fun x => (ctx.fieldLine x).any fun f => !f.packed

/-- The fields that have a value of their own. -/
def Context.writable (ctx : Context) (fields : List Field) : List Field :=
  fields.filter fun x => (ctx.fieldLine x).any fun f => !f.ro && !f.packed

/-! ## Fields one behind the other -/

section
variable {ctx : Context} {s s' : LayoutState}

/-- The inner loop changes neither the fields nor the layout pointer. -/
theorem popReps_frame {indent active again} (h : popReps ctx indent active s = .ok (again, s')) :
    s'.fields = s.fields ∧ s'.curOffset = s.curOffset := by
  induction active generalizing s with
  | nil =>
    cases h
    exact ⟨rfl, rfl⟩
  | cons rep outer ih =>
    rw [popReps] at h
    split at h
    · dsimp only at h
      split at h
      · cases h
        exact ⟨rfl, rfl⟩
      · split at h
        · cases h
        · have houter := ih h
          exact houter
    · cases h
      exact ⟨rfl, rfl⟩

/-- A pragma adds no fields, and only `sync` moves the layout pointer, from where it says. -/
theorem layoutPragma_frame {line rep a b}
    (h : layoutPragma ctx s line rep a b = .ok s') : s'.fields = s.fields ∧
      (s'.curOffset = s.curOffset ∨ rep = .sync ∧ s.curOffset = a ∧ s'.curOffset = b) := by
  unfold layoutPragma at h
  split at h
  · cases h
  split at h
  · cases h
  rename_i hstart
  split at h
  · cases h
  split at h
  · split at h
    · cases h
    · cases h
      exact ⟨rfl, .inl rfl⟩
  · rename_i hrep
    split at h
    · cases h
    · rename_i hactive
      cases h
      have hnil : s.active = [] := eq_nil_of_length_eq_zero (not_not.mp hactive)
      rw [hnil] at hstart
      exact ⟨rfl, .inr ⟨not_not.mp hrep, not_not.mp fun hne => hstart ⟨rfl, hne⟩, rfl⟩⟩

/-- A turn ends at a check, or goes on behind the inner loop. -/
theorem layoutStep_next (ctx : Context) (s : LayoutState) : (∃ e, layoutStep ctx s = .inr (.error e)) ∨
    ∃ again s₁, layoutStep ctx s = layoutNext ctx (.ok (again, s₁)) ∧ s₁.fields = s.fields ∧
      s₁.curOffset = s.curOffset := by
  unfold layoutStep
  split
  · exact .inl ⟨_, rfl⟩
  cases hpop : popReps ctx (ctx.indentAt s.pos) s.active s with
  | error e => exact .inl ⟨e, rfl⟩
  | ok res =>
    obtain ⟨again, s₁⟩ := res
    exact .inr ⟨again, s₁, rfl, popReps_frame hpop⟩

/-- What one turn of the loop does to the fields and the layout pointer. -/
theorem layoutStep_cases (h : layoutStep ctx s = .inl s') :
    (s'.fields = s.fields ∧ s'.curOffset = s.curOffset) ∨
    (∃ n d f x, ctx.lines[x.line]? = some ⟨n, d, .field f⟩ ∧ x.offset = placeField s.curOffset f ∧
      s'.fields = s.fields ++ [x] ∧ s'.curOffset = behindField x.offset f) ∨
    ∃ n d b, ⟨n, d, .pragma .sync s.curOffset b⟩ ∈ ctx.lines ∧ s'.fields = s.fields ∧
      s'.curOffset = b := by
  rcases layoutStep_next ctx s with ⟨e, hstep⟩ | ⟨again, s₁, hstep, hfields, hoffset⟩
  · rw [hstep] at h
    cases h
  rw [hstep] at h
  cases again with
  | true =>
    cases h
    exact .inl ⟨hfields, hoffset⟩
  | false =>
    rw [layoutNext] at h
    split at h
    · cases h
    rename_i l hl
    obtain ⟨n, d, kind⟩ := l
    cases kind with
    | field f =>
      cases h
      refine .inr (.inl ⟨n, d, f, ⟨s₁.pos, repFlags s₁.active, placeField s₁.curOffset f, s₁.repValues⟩,
        hl, ?_, ?_, rfl⟩)
      · rw [hoffset]
      · dsimp only [layoutField]
        rw [hfields]
    | pragma rep a b =>
      dsimp only [layoutLine] at h
      cases hrun : layoutPragma ctx s₁ n rep a b with
      | error e =>
        rw [hrun] at h
        cases h
      | ok s₂ =>
        rw [hrun] at h
        cases h
        obtain ⟨hfields₂, hoffset₂ | ⟨rfl, hstart, hend⟩⟩ := layoutPragma_frame hrun
        · exact .inl ⟨hfields₂.trans hfields, hoffset₂.trans hoffset⟩
        · refine .inr (.inr ⟨n, d, b, ?_, hfields₂.trans hfields, hend⟩)
          rw [← hoffset, hstart]
          exact mem_of_getElem? hl

theorem layoutStep_ok {fields} (h : layoutStep ctx s = .inr (.ok fields)) : fields = s.fields := by
  rcases layoutStep_next ctx s with ⟨e, hstep⟩ | ⟨again, s₁, hstep, hfields, -⟩
  · rw [hstep] at h
    cases h
  rw [hstep] at h
  cases again with
  | true => cases h
  | false =>
    rw [layoutNext] at h
    split at h
    · cases h
      exact hfields
    · unfold layoutAdvance at h
      split at h <;> cases h

/-- Fields are only added. -/
theorem fields_prefix {r fields}
    (h : Ends (layoutStep ctx) s r) (hr : r = .ok fields) : s.fields <+: fields := by
  induction h with
  | done hstep =>
    rw [hr] at hstep
    exact ⟨[], by rw [append_nil, layoutStep_ok hstep]⟩
  | step hstep _ ih =>
    refine List.IsPrefix.trans ?_ (ih hr)
    rcases layoutStep_cases hstep with ⟨hfields, -⟩ | ⟨-, -, -, x, -, -, hfields, -⟩ |
      ⟨-, -, -, -, hfields, -⟩
    · exact ⟨[], by rw [append_nil, hfields]⟩
    · rw [hfields]
      exact prefix_append _ _
    · exact ⟨[], by rw [append_nil, hfields]⟩

/-- The solid fields stand one behind the other, up to the layout pointer, each in one register. -/
structure Ordered (ctx : Context) (fields : List Field) (offset : Nat) : Prop where
  inside : ∀ x ∈ ctx.solid fields, x.offset % 32 + ctx.sizeOf x ≤ 32
  before : ∀ x ∈ ctx.solid fields, x.offset + ctx.sizeOf x ≤ offset
  disjoint : (ctx.solid fields).Pairwise fun x y => x.offset + ctx.sizeOf x ≤ y.offset

theorem Ordered.mono {fields offset offset'} (h : Ordered ctx fields offset)
    (hle : offset ≤ offset') : Ordered ctx fields offset' :=
  ⟨h.inside, fun x hx => le_trans (h.before x hx) hle, h.disjoint⟩

/-- A field is placed behind the others. -/
theorem Ordered.field {fields offset n d f} {x : Field}
    (h : Ordered ctx fields offset) (hx : ctx.lines[x.line]? = some ⟨n, d, .field f⟩)
    (hplace : x.offset = place offset f) : Ordered ctx (fields ++ [x]) (behind x.offset f) := by
  have hline : ctx.fieldLine x = some f := by
    rw [Context.fieldLine, hx]
  have hsize : ctx.sizeOf x = f.size := by
    rw [Context.sizeOf, hline]
    rfl
  have hle : offset ≤ x.offset := by
    rw [hplace]
    exact le_place
  have hmono := h.mono (le_trans hle (Nat.le_add_right _ _ : x.offset ≤ behind x.offset f))
  cases hpacked : f.packed with
  | true =>
    have hsolid : ctx.solid (fields ++ [x]) = ctx.solid fields := by
      simp [Context.solid, hline, hpacked]
    exact ⟨hsolid ▸ hmono.inside, hsolid ▸ hmono.before, hsolid ▸ hmono.disjoint⟩
  | false =>
    have hsolid : ctx.solid (fields ++ [x]) = ctx.solid fields ++ [x] := by
      simp [Context.solid, hline, hpacked]
    refine ⟨?_, ?_, ?_⟩ <;> rw [hsolid]
    · intro y hy
      rcases mem_append.mp hy with hy | hy
      · exact h.inside y hy
      · rw [mem_singleton.mp hy, hsize, hplace]
        exact place_inside
    · intro y hy
      rcases mem_append.mp hy with hy | hy
      · exact hmono.before y hy
      · rw [mem_singleton.mp hy, hsize, behind, FieldLine.advance, hpacked]
        exact le_rfl
    · refine pairwise_append.mpr ⟨h.disjoint, pairwise_singleton _ _, fun y hy z hz => ?_⟩
      rw [mem_singleton.mp hz]
      exact le_trans (h.before y hy) hle

/-- The pragmas that move the layout pointer do not move it back. -/
def SyncsForward (ctx : Context) : Prop :=
  ∀ n d a b, ⟨n, d, .pragma .sync a b⟩ ∈ ctx.lines → a ≤ b

theorem ordered_of_ends {r fields} (hends : Ends (layoutStep ctx) s r) (hr : r = .ok fields)
    (hlow : OffsetsLow ctx fields) (hsyncs : SyncsForward ctx) (hoffset : s.curOffset < lowOffset)
    (h : Ordered ctx s.fields s.curOffset) : ∃ offset, Ordered ctx fields offset := by
  induction hends with
  | done hstep =>
    rw [hr] at hstep
    rw [layoutStep_ok hstep]
    exact ⟨_, h⟩
  | @step s t r hstep hends ih =>
    have hprefix := fields_prefix hends hr
    rcases layoutStep_cases hstep with ⟨hfields, hsame⟩ | ⟨n, d, f, x, hx, hplace, hfields, hbehind⟩ |
      ⟨n, d, b, hmem, hfields, hend⟩
    · refine ih hr ?_ ?_
      · rwa [hsame]
      · rwa [hfields, hsame]
    · rw [placeField_eq hoffset] at hplace
      rw [hplace, behindField_eq hoffset, ← hplace] at hbehind
      have hmem : x ∈ fields := hprefix.subset (by rw [hfields]; simp)
      have hlowx := hlow.fields x hmem
      rw [Context.advance, hx] at hlowx
      refine ih hr ?_ ?_
      · rw [hbehind]
        exact hlowx
      · rw [hfields, hbehind]
        exact h.field hx hplace
    · refine ih hr ?_ ?_
      · rw [hend]
        exact hlow.syncs n d _ b hmem
      · rw [hfields, hend]
        exact h.mono (hsyncs n d _ b hmem)

end

/-! ## One pass over the registers -/

/-- What is printed of some registers that have the words `w`. -/
def emitted (first last : Nat) (w : Nat → Nat) (reg n : Nat) : List Nat :=
  ((List.range' reg n).filter fun r => first ≤ r ∧ r ≤ last).map w

/-- What is or-ed into a register, of values with the registers they are for. -/
def wordOf (xs : List (Nat × Nat)) (r : Nat) : Nat :=
  xs.foldr (fun x w => if x.1 = r then x.2 ||| w else w) 0

/-- A value goes into its register, and those before it are printed. -/
def BlobState.add (first last : Nat) (b : BlobState) (x : Nat × Nat) : BlobState :=
  let b := b.skip first last (x.1 - b.reg)
  { b with regVal := b.regVal ||| x.2 }

section
variable {first last : Nat}

theorem emitted_add {w reg m n} : emitted first last w reg (m + n) =
    emitted first last w reg m ++ emitted first last w (reg + m) n := by
  rw [emitted, ← range'_append_1, filter_append, map_append]
  rfl

theorem emitted_congr {w w' : Nat → Nat} {reg n} (h : ∀ r, reg ≤ r → r < reg + n → w r = w' r) :
    emitted first last w reg n = emitted first last w' reg n := by
  refine map_congr_left fun r hr => ?_
  obtain ⟨hle, hlt⟩ := mem_range'_1.mp (mem_filter.mp hr).1
  exact h r hle hlt

theorem emit_eq {b : BlobState} {w : Nat → Nat} (hw : w b.reg = b.regVal) :
    b.emit first last = b.words ++ emitted first last w b.reg 1 := by
  rw [BlobState.emit, emitted, range'_one, filter_cons]
  by_cases h : first ≤ b.reg ∧ b.reg ≤ last
  · rw [if_pos h, if_pos (decide_eq_true h), filter_nil, map_singleton, hw]
  · rw [if_neg h, if_neg (by simpa using h), filter_nil, map_nil, append_nil]

theorem skip_eq {b : BlobState} {k} : b.skip first last k =
    ⟨b.reg + k, if k = 0 then b.regVal else 0,
      b.words ++ emitted first last (fun r => if r = b.reg then b.regVal else 0) b.reg k⟩ := by
  induction k generalizing b with
  | zero =>
    rw [emitted, range'_zero, filter_nil, map_nil, append_nil]
    rfl
  | succ k ih =>
    have hrest : emitted first last (fun r => if r = b.reg + 1 then 0 else 0) (b.reg + 1) k =
        emitted first last (fun r => if r = b.reg then b.regVal else 0) (b.reg + 1) k := by
      refine emitted_congr fun r hle _ => ?_
      rw [if_neg (show r ≠ b.reg by omega), ite_self]
    have hemit : b.emit first last = b.words ++
        emitted first last (fun r => if r = b.reg then b.regVal else 0) b.reg 1 :=
      emit_eq (if_pos rfl)
    rw [BlobState.skip, ih, hemit, add_comm k 1, emitted_add]
    rw [hrest, ite_self, if_neg (show ¬ 1 + k = 0 by omega), append_assoc, add_assoc]

theorem add_eq {b : BlobState} {x} (hle : b.reg ≤ x.1) : b.add first last x =
    ⟨x.1, (if x.1 = b.reg then b.regVal else 0) ||| x.2, b.words ++ emitted first last
      (fun r => if r = b.reg then b.regVal else 0) b.reg (x.1 - b.reg)⟩ := by
  have hiff : x.1 - b.reg = 0 ↔ x.1 = b.reg := by omega
  rw [BlobState.add, skip_eq, Nat.add_sub_cancel' hle]
  simp only [hiff]

theorem wordOf_cons {x xs r} :
    wordOf (x :: xs) r = if x.1 = r then x.2 ||| wordOf xs r else wordOf xs r := rfl

theorem wordOf_eq_zero {xs r} (h : ∀ x ∈ xs, x.1 ≠ r) : wordOf xs r = 0 := by
  induction xs with
  | nil => rfl
  | cons x xs ih =>
    rw [wordOf_cons, if_neg (h x mem_cons_self)]
    exact ih fun y hy => h y (mem_cons_of_mem _ hy)

theorem le_foldl_max {xs : List Nat} {n} : n ≤ xs.foldl max n := by
  induction xs generalizing n with
  | nil => exact le_refl n
  | cons x xs ih => exact le_trans (le_max_left n x) ih

/-- Values that come in the order of their registers: a word is printed for each register up to the
last one. -/
theorem emit_foldl {xs : List (Nat × Nat)} {b : BlobState}
    (hsorted : xs.Pairwise fun x y => x.1 ≤ y.1) (hge : ∀ x ∈ xs, b.reg ≤ x.1) :
    (xs.foldl (BlobState.add first last) b).emit first last = b.words ++ emitted first last
      (fun r => (if r = b.reg then b.regVal else 0) ||| wordOf xs r) b.reg
      ((xs.map Prod.fst).foldl max b.reg + 1 - b.reg) := by
  induction xs generalizing b with
  | nil =>
    rw [foldl_nil, map_nil, foldl_nil, Nat.add_sub_cancel_left]
    exact emit_eq (by simp [wordOf])
  | cons x xs ih =>
    obtain ⟨hx, htail⟩ := pairwise_cons.mp hsorted
    have hle := hge x mem_cons_self
    have hlast : x.1 ≤ (xs.map Prod.fst).foldl max x.1 := le_foldl_max
    rw [foldl_cons, add_eq hle, ih htail hx, map_cons, foldl_cons, max_eq_right hle]
    dsimp only
    generalize (xs.map Prod.fst).foldl max x.1 = lastReg at hlast
    rw [show lastReg + 1 - b.reg = (x.1 - b.reg) + (lastReg + 1 - x.1) by omega, emitted_add,
      Nat.add_sub_cancel' hle, append_assoc]
    congr 2
    · -- the registers before that of the value get nothing
      refine emitted_congr fun r _ hlt => ?_
      have hzero : wordOf (x :: xs) r = 0 := by
        refine wordOf_eq_zero fun y hy => ?_
        rcases mem_cons.mp hy with rfl | hy
        · omega
        · have := hx y hy
          omega
      rw [hzero, or_zero]
    · refine emitted_congr fun r hler _ => ?_
      rw [wordOf_cons]
      by_cases hr : r = x.1
      · subst hr
        rw [if_pos rfl, if_pos rfl, Nat.or_assoc]
      · rw [if_neg hr, if_neg (Ne.symm hr), if_neg (show r ≠ b.reg by omega)]

/-- The registers that are printed are consecutive. -/
theorem emitted_zero {w n} : emitted first last w 0 n =
    (List.range' first (min (last + 1) n - first)).map w := by
  rw [emitted]
  congr 1
  induction n with
  | zero => simp
  | succ n ih =>
    rw [range'_concat, filter_append, ih, zero_add, one_mul]
    by_cases hn : first ≤ n ∧ n ≤ last
    · rw [filter_cons, if_pos (decide_eq_true hn), filter_nil,
        show min (last + 1) (n + 1) - first = (min (last + 1) n - first) + 1 by omega,
        range'_concat]
      congr 2
      omega
    · rw [filter_cons, if_neg (by simpa using hn), filter_nil, append_nil]
      congr 1
      omega

end

/-! ## The words of the fields -/

section
variable {evaluate : Field → FieldLine → Option (String × List Value)} {ctx : Context}
  {fields : List Field}

/-- `field_value` of a field. -/
def Context.valueOf (evaluate : Field → FieldLine → Option (String × List Value)) (ctx : Context)
    (x : Field) : Except BlobError Nat :=
  match ctx.lines[x.line]? with
  | some ⟨line, _, .field f⟩ => hexValue evaluate line f x
  | _ => .error .noField

/-- The last register with a writable field. -/
def Context.lastReg (ctx : Context) (fields : List Field) : Nat :=
  ((ctx.writable fields).map fun x => x.offset / 32).foldl max 0

/-- The word of a register: the values of the writable fields at their bits, and nothing else. -/
structure RegWord (evaluate : Field → FieldLine → Option (String × List Value)) (ctx : Context)
    (fields : List Field) (r w : Nat) : Prop where
  values : ∀ x ∈ ctx.writable fields, x.offset / 32 = r →
    ∃ v, ctx.valueOf evaluate x = .ok v ∧ w / 2 ^ (x.offset % 32) % 2 ^ ctx.sizeOf x = v
  rest : ∀ i, w.testBit i = true → ∃ x ∈ ctx.writable fields, x.offset / 32 = r ∧
    x.offset % 32 ≤ i ∧ i < x.offset % 32 + ctx.sizeOf x

/-- The type that the value of a field must have. -/
def FieldLine.unit (f : FieldLine) : ValueType :=
  if f.lowerLimit ∨ f.upperLimit then .qmcyc else .number

/-- A value in 64 bits, for a timing field in full cycles. -/
def FieldLine.rounded (f : FieldLine) (x : Value) : Nat :=
  if f.lowerLimit ∨ f.upperLimit then
    (x.val + if f.upperLimit then 3999 else 0) % 2 ^ 64 / 4000
  else x.val

/-- The check sees the lower half of the value. -/
theorem fitValue_eq_ok {line} {f : FieldLine} {value v} :
    fitValue line f (value % 2 ^ 32) = .ok v ↔ value % 2 ^ 32 < 2 ^ f.size ∧ v = value % 2 ^ 32 := by
  have hlt := mod_lt value (Nat.two_pow_pos 32)
  have hfits : f.size = 32 ∨ value % 2 ^ 32 &&& (2 ^ 32 - 2 ^ f.size) = 0 ↔
      value % 2 ^ 32 < 2 ^ f.size := by
    rw [and_high_bits hlt f.size_le, Nat.mul_eq_zero, or_iff_left (Nat.two_pow_pos f.size).ne',
      div_eq_zero_iff_lt (Nat.two_pow_pos f.size), or_iff_right_of_imp]
    intro hsize
    rwa [hsize]
  rw [fitValue, if_congr hfits rfl rfl]
  split
  · rename_i hlow
    rw [and_iff_right hlow, Except.ok.injEq, eq_comm]
  · rename_i hhigh
    exact iff_of_false nofun fun h => hhigh h.1

theorem fieldValue_eq_ok {line} {f : FieldLine} {expr x v} : fieldValue line f expr [x] = .ok v ↔
      x.type = f.unit ∧ f.rounded x % 2 ^ 32 < 2 ^ f.size ∧ v = f.rounded x % 2 ^ 32 := by
  have htype (u e) (r : Except BlobError Nat) :
      (if x.type ≠ u then .error e else r) = .ok v ↔ x.type = u ∧ r = .ok v := by
    by_cases hu : x.type = u <;> simp [hu]
  rw [fieldValue, FieldLine.unit, FieldLine.rounded]
  split <;> rw [htype, fitValue_eq_ok]

theorem fieldValue_lt {line} {f : FieldLine} {expr stack v}
    (h : fieldValue line f expr stack = .ok v) : v < 2 ^ f.size := by
  match stack with
  | [] | _ :: _ :: _ => cases h
  | [x] =>
    obtain ⟨-, hlt, rfl⟩ := fieldValue_eq_ok.mp h
    exact hlt

theorem hexValue_lt {line} {f : FieldLine} {x v}
    (h : hexValue evaluate line f x = .ok v) : v < 2 ^ f.size := by
  unfold hexValue at h
  split at h
  · cases h
  · exact fieldValue_lt h

/-- The value of a field fits and is the one that is placed in the register, unless a value of more
than 32 bits has a lower half that fits. -/
theorem placed_value_iff {field : Field} {f : FieldLine} {line indent expr x}
    (hline : ctx.lines[field.line]? = some ⟨line, indent, .field f⟩) (hrw : ¬ (f.ro ∨ f.packed))
    (heval : evaluate field f = some (expr, [x])) (b : BlobState) :
    (∀ b', hexField evaluate ctx b field = .ok b' → f.rounded x < 2 ^ f.size ∧
      b'.regVal = (b.skip ctx.first ctx.last (field.offset / 32 - b.reg)).regVal |||
        (f.rounded x <<< (field.offset % 32)) % 2 ^ 32) ↔
    ¬ (x.type = f.unit ∧ 2 ^ 32 ≤ f.rounded x ∧ f.rounded x % 2 ^ 32 < 2 ^ f.size) := by
  simp only [hexField, hline, if_neg hrw, hexValue, heval]
  constructor
  · rintro h ⟨htype, hbig, hlow⟩
    rw [fieldValue_eq_ok.mpr ⟨htype, hlow, rfl⟩] at h
    have hsize : 2 ^ f.size ≤ 2 ^ 32 := Nat.pow_le_pow_right (by decide) f.size_le
    have := (h _ rfl).1
    omega
  · intro hn b' hb'
    split at hb'
    · cases hb'
    · rename_i v hv
      obtain ⟨htype, hlow, rfl⟩ := fieldValue_eq_ok.mp hv
      have hsmall : f.rounded x < 2 ^ 32 := Nat.lt_of_not_le fun hbig => hn ⟨htype, hbig, hlow⟩
      rw [mod_eq_of_lt hsmall] at hlow hb'
      cases hb'
      exact ⟨hlow, rfl⟩

/-- The value, where there is one. -/
def Context.valueNat (evaluate : Field → FieldLine → Option (String × List Value)) (ctx : Context)
    (x : Field) : Nat :=
  (ctx.valueOf evaluate x).toOption.getD 0

/-- The value that is or-ed into the register of a field. -/
def Context.entry (evaluate : Field → FieldLine → Option (String × List Value)) (ctx : Context)
    (x : Field) : Nat × Nat :=
  (x.offset / 32, (ctx.valueNat evaluate x <<< (x.offset % 32)) % 2 ^ 32)

/-- A field in its register. -/
def Context.bits (evaluate : Field → FieldLine → Option (String × List Value)) (ctx : Context)
    (x : Field) : BitField :=
  ⟨x.offset % 32, ctx.sizeOf x, ctx.valueNat evaluate x⟩

/-- The field has a value, which fits. -/
def Context.Valued (evaluate : Field → FieldLine → Option (String × List Value)) (ctx : Context)
    (x : Field) : Prop :=
  ctx.valueOf evaluate x = .ok (ctx.valueNat evaluate x) ∧
    ctx.valueNat evaluate x < 2 ^ ctx.sizeOf x

/-- One field of the loop: nothing, or a value that is put into its register. -/
theorem hexField_cases {b : BlobState} {b' x} (h : hexField evaluate ctx b x = .ok b') :
    (ctx.writable [x] = [] ∧ b' = b) ∨ (ctx.writable [x] = [x] ∧ ctx.Valued evaluate x ∧
      b' = b.add ctx.first ctx.last (ctx.entry evaluate x)) := by
  unfold hexField at h
  split at h
  · rename_i line d f hl
    have hline : ctx.fieldLine x = some f := by
      rw [Context.fieldLine, hl]
    split at h
    · rename_i hskip
      cases h
      refine .inl ⟨?_, rfl⟩
      rcases hskip with hro | hpacked
      · simp [Context.writable, hline, hro]
      · simp [Context.writable, hline, hpacked]
    · rename_i hskip
      have hval : ctx.valueOf evaluate x = hexValue evaluate line f x := by
        rw [Context.valueOf, hl]
      split at h
      · cases h
      · rename_i v hv
        have hnat : ctx.valueNat evaluate x = v := by
          rw [Context.valueNat, hval, hv]
          rfl
        cases h
        refine .inr ⟨?_, ⟨?_, ?_⟩, ?_⟩
        · rw [not_or] at hskip
          simp [Context.writable, hline, hskip]
        · rw [hval, hv, hnat]
        · rw [hnat, Context.sizeOf, hline]
          exact hexValue_lt hv
        · rw [BlobState.add, Context.entry, hnat]
  · cases h

/-- The loop over the fields only sees the writable ones. -/
theorem foldlM_hexField {b b'} (h : fields.foldlM (hexField evaluate ctx) b = .ok b') :
    (∀ x ∈ ctx.writable fields, ctx.Valued evaluate x) ∧
      b' = ((ctx.writable fields).map (ctx.entry evaluate)).foldl
        (BlobState.add ctx.first ctx.last) b := by
  induction fields generalizing b with
  | nil =>
    cases h
    exact ⟨fun x hx => (nomatch hx), rfl⟩
  | cons x fields ih =>
    rw [foldlM_cons] at h
    cases hx : hexField evaluate ctx b x with
    | error e =>
      rw [hx] at h
      cases h
    | ok b₁ =>
      rw [hx] at h
      obtain ⟨hvalued, hb'⟩ := ih h
      have hsplit : ctx.writable (x :: fields) = ctx.writable [x] ++ ctx.writable fields :=
        filter_append [x] fields
      rcases hexField_cases hx with ⟨hnil, rfl⟩ | ⟨hone, hval, rfl⟩
      · rw [hsplit, hnil]
        exact ⟨hvalued, hb'⟩
      · rw [hsplit, hone]
        refine ⟨fun y hy => ?_, hb'⟩
        rcases mem_cons.mp hy with rfl | hy
        · exact hval
        · exact hvalued y hy

/-- What is or-ed into a register is the word of the bit fields there. -/
theorem wordOf_eq_packWord {xs : List Field} {r}
    (hinside : ∀ x ∈ xs, x.offset % 32 + ctx.sizeOf x ≤ 32)
    (hvalued : ∀ x ∈ xs, ctx.Valued evaluate x) : wordOf (xs.map (ctx.entry evaluate)) r =
      packWord ((xs.filter fun x => x.offset / 32 = r).map (ctx.bits evaluate)) := by
  induction xs with
  | nil => rfl
  | cons x xs ih =>
    have htail := ih (fun y hy => hinside y (mem_cons_of_mem _ hy))
      fun y hy => hvalued y (mem_cons_of_mem _ hy)
    have hlt : ctx.valueNat evaluate x <<< (x.offset % 32) < 2 ^ 32 := by
      have hx := hinside x mem_cons_self
      rw [shiftLeft_eq]
      calc ctx.valueNat evaluate x * 2 ^ (x.offset % 32)
          < 2 ^ ctx.sizeOf x * 2 ^ (x.offset % 32) :=
            Nat.mul_lt_mul_of_pos_right (hvalued x mem_cons_self).2 (Nat.two_pow_pos _)
        _ = 2 ^ (ctx.sizeOf x + x.offset % 32) := (pow_add ..).symm
        _ ≤ 2 ^ 32 := Nat.pow_le_pow_right (by decide) (by omega)
    rw [map_cons, wordOf_cons, htail, filter_cons]
    by_cases hr : x.offset / 32 = r
    · have hreg : (ctx.entry evaluate x).1 = r := hr
      rw [if_pos hreg, if_pos (decide_eq_true hr), Context.entry, mod_eq_of_lt hlt]
      rfl
    · have hreg : (ctx.entry evaluate x).1 ≠ r := hr
      rw [if_neg hreg, if_neg (by simpa using hr)]

theorem writable_sublist : (ctx.writable fields).Sublist (ctx.solid fields) := by
  refine monotone_filter_right fields fun x hx => ?_
  cases hline : ctx.fieldLine x with
  | none =>
    rw [hline] at hx
    cases hx
  | some f =>
    rw [hline] at hx
    exact (Bool.and_eq_true_iff.mp hx).2

/-- The bit fields of a register make its word. -/
theorem Ordered.regWord {offset r} (h : Ordered ctx fields offset)
    (hvalued : ∀ x ∈ ctx.writable fields, ctx.Valued evaluate x) : RegWord evaluate ctx fields r
      (packWord (((ctx.writable fields).filter fun x => x.offset / 32 = r).map
        (ctx.bits evaluate))) := by
  have hdisjoint : (((ctx.writable fields).filter fun x => x.offset / 32 = r).map
      (ctx.bits evaluate)).Pairwise fun f g => f.offset + f.size ≤ g.offset := by
    rw [pairwise_map]
    refine ((h.disjoint.sublist writable_sublist).filter _).imp_of_mem fun {x y} hx hy hxy => ?_
    have hxr := of_decide_eq_true (mem_filter.mp hx).2
    have hyr := of_decide_eq_true (mem_filter.mp hy).2
    dsimp only [Context.bits]
    omega
  have hfits : ∀ f ∈ ((ctx.writable fields).filter fun x => x.offset / 32 = r).map
      (ctx.bits evaluate), f.value < 2 ^ f.size := by
    intro f hf
    obtain ⟨x, hx, rfl⟩ := mem_map.mp hf
    exact (hvalued x (mem_filter.mp hx).1).2
  constructor
  · intro x hx hr
    have hmem : ctx.bits evaluate x ∈ ((ctx.writable fields).filter fun x => x.offset / 32 = r).map
        (ctx.bits evaluate) :=
      mem_map_of_mem (mem_filter.mpr ⟨hx, decide_eq_true hr⟩)
    exact ⟨_, (hvalued x hx).1, packWord_field hdisjoint hfits hmem⟩
  · intro i hi
    obtain ⟨f, hf, hhas⟩ := packWord_has hfits hi
    obtain ⟨x, hx, rfl⟩ := mem_map.mp hf
    obtain ⟨hx, hr⟩ := mem_filter.mp hx
    exact ⟨x, hx, of_decide_eq_true hr, hhas.1, hhas.2⟩

/-- The fields are laid out one behind the other, and `hex_blob` prints the word of each register that
has been asked for, up to the last one with a writable field. -/
theorem hexBlob_words {words : List Nat} (hlayout : LayoutFields ctx (.ok fields))
    (hblob : hexBlob evaluate ctx fields = .ok words) (hlow : OffsetsLow ctx fields)
    (hsyncs : SyncsForward ctx) :
    ((ctx.solid fields).Pairwise fun x y => x.offset + ctx.sizeOf x ≤ y.offset) ∧
    (∀ x ∈ ctx.solid fields, x.offset % 32 + ctx.sizeOf x ≤ 32) ∧
    words.length = min ctx.last (ctx.lastReg fields) + 1 - ctx.first ∧
    ∀ i (hi : i < words.length), RegWord evaluate ctx fields (ctx.first + i) words[i] := by
  have hempty : Ordered ctx [] 0 := ⟨fun x hx => (nomatch hx), fun x hx => (nomatch hx), .nil⟩
  obtain ⟨offset, hordered⟩ := ordered_of_ends hlayout rfl hlow hsyncs
    (show 0 < lowOffset by decide) hempty
  refine ⟨hordered.disjoint, hordered.inside, ?_⟩
  have hinside : ∀ x ∈ ctx.writable fields, x.offset % 32 + ctx.sizeOf x ≤ 32 :=
    fun x hx => hordered.inside x (writable_sublist.subset hx)
  unfold hexBlob at hblob
  split at hblob
  · cases hblob
  · rename_i b hb
    obtain ⟨hvalued, rfl⟩ := foldlM_hexField hb
    have hsorted : ((ctx.writable fields).map (ctx.entry evaluate)).Pairwise
        fun x y => x.1 ≤ y.1 := by
      rw [pairwise_map]
      refine (hordered.disjoint.sublist writable_sublist).imp fun {x y} hxy => ?_
      exact Nat.div_le_div_right (le_trans (Nat.le_add_right _ _) hxy)
    have hlast : (((ctx.writable fields).map (ctx.entry evaluate)).map Prod.fst).foldl max 0 =
        ctx.lastReg fields := by
      rw [map_map]
      rfl
    rw [emit_foldl hsorted fun x _ => Nat.zero_le _] at hblob
    rw [hlast, nil_append, Nat.sub_zero, emitted_zero, Nat.add_min_add_right] at hblob
    obtain rfl := Except.ok.inj hblob
    refine ⟨by rw [length_map, length_range'], fun i hi => ?_⟩
    rw [getElem_map, getElem_range', ite_self, zero_or, one_mul,
      wordOf_eq_packWord hinside hvalued]
    exact hordered.regWord hvalued

end

/-- Two bytes of which only the second one can be written, and another one in the next register; the
frequencies are those `main` starts with. -/
def bytesDescription (value : String) : RpnContext where
  toContext := describe [⟨1, 0, .field (byteField true "")⟩, ⟨2, 0, .field (byteField false value)⟩,
    ⟨3, 0, .pragma .sync 16 32⟩, ⟨4, 0, .field (byteField false value)⟩]
  macros := []
  freqMhz := fun freq => if freq = 0 then 400 else if freq = 1 then 800 else 50
  freqSteps := fun freq param => ([[10, 12, 6, 8, 10, 8, 1], [14, 16, 8, 12, 16, 8, 2],
    [6, 6, 4, 4, 6, 8, 0]].getD freq []).getD param 0

def bytesFields : List Field :=
  [⟨0, 0, 0, fun _ => 0⟩, ⟨1, 0, 8, fun _ => 0⟩, ⟨3, 0, 32, fun _ => 0⟩]

theorem placed_value_iff_five :
    ∃ b', hexField (evaluate (bytesDescription "2 3 +")) (bytesDescription "2 3 +").toContext ⟨0, 0, []⟩
        ⟨1, 0, 8, fun _ => 0⟩ = .ok b' ∧ 5 < 2 ^ 8 ∧ b'.regVal = 0 ||| (5 <<< 8) % 2 ^ 32 :=
  ⟨_, rfl, (@placed_value_iff (evaluate (bytesDescription "2 3 +")) (bytesDescription "2 3 +").toContext
    ⟨1, 0, 8, fun _ => 0⟩ (byteField false "2 3 +") _ _ _ ⟨.number, 5⟩ rfl (by decide) rfl
    ⟨0, 0, []⟩).mpr (by decide) _ rfl⟩

/-- The sum of two numbers is `2 ^ 32 + 1`, and is taken for 1. -/
theorem wide_value_accepted :
    evaluate (bytesDescription "4294967295 2 +") ⟨1, 0, 8, fun _ => 0⟩ (byteField false "4294967295 2 +") =
        some ("4294967295 2 +", [⟨.number, 2 ^ 32 + 1⟩]) ∧
      hexBlob (evaluate (bytesDescription "4294967295 2 +"))
        (bytesDescription "4294967295 2 +").toContext [⟨1, 0, 8, fun _ => 0⟩] = .ok [0x100] ∧
      ¬ (byteField false "4294967295 2 +").rounded ⟨.number, 2 ^ 32 + 1⟩ <
        2 ^ (byteField false "4294967295 2 +").size := by
  decide

-- the sum as one number is not a token
example : evaluate (bytesDescription "4294967297") ⟨1, 0, 8, fun _ => 0⟩ (byteField false "4294967297") =
    none := by
  decide

theorem bytesDescription_words :
    hexBlob (evaluate (bytesDescription "5")) (bytesDescription "5").toContext bytesFields = .ok [0x500, 5] ∧
      RegWord (evaluate (bytesDescription "5")) (bytesDescription "5").toContext bytesFields 0 0x500 ∧
      RegWord (evaluate (bytesDescription "5")) (bytesDescription "5").toContext bytesFields 1 5 := by
  have hblob : hexBlob (evaluate (bytesDescription "5")) (bytesDescription "5").toContext bytesFields =
    .ok [0x500, 5] := rfl
  have hlayout : LayoutFields (bytesDescription "5").toContext (.ok bytesFields) := .of_runFor (n := 5) rfl
  have hsync : ∀ n d a b, ⟨n, d, .pragma .sync a b⟩ ∈ (bytesDescription "5").lines → a = 16 ∧ b = 32 := by
    intro n d a b h
    simp [bytesDescription, describe] at h
    exact h.2.2
  have hlow : OffsetsLow (bytesDescription "5").toContext bytesFields := by
    refine ⟨by decide, fun n d a b h => ?_⟩
    rw [(hsync n d a b h).2]
    decide
  have hsyncs : SyncsForward (bytesDescription "5").toContext := by
    intro n d a b h
    obtain ⟨rfl, rfl⟩ := hsync n d a b h
    decide
  obtain ⟨-, -, -, hwords⟩ := hexBlob_words hlayout hblob hlow hsyncs
  exact ⟨hblob, hwords 0 (by decide), hwords 1 (by decide)⟩

end Rkboot.Tools.Regtool
