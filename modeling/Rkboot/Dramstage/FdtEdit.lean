import Rkboot.Dramstage.FdtTokens

/-! # The tree `transform_fdt` makes

What the pass is for, said about trees: the memory node of the root is
replaced, and `/chosen` gets the initrd and the seeds. The machine over tokens
realises this edit on every tree it can hold the paths of: inside a child of
the root it copies or leaves out whole subtrees, and in `/chosen` it inserts
its properties at the first token that is no property. -/
namespace Rkboot.Dramstage
open Lib DeviceTree List
open Node (propTokens tokens forest)

/-! ## The edit -/

section
variable {α : Type} (nm : α → List UInt8) (key : InsStr → α) (info : FdtAddendum)

/-- The value of a cell count among the root's properties, zero without one. -/
def cellsOf (c : String) : List (α × List UInt8) → Nat
  | [] => 0
  | p :: ps => if nm p.1 = ascii c ∧ p.2.length = 4 then beNat p.2 else cellsOf c ps

def editChosen (addrCells : Nat) (n : Node α) : Node α :=
  .mk n.name (n.props.filter (keepsProp nm) ++ chosenProps key info addrCells) n.children

def editChild (addrCells : Nat) (n : Node α) : List (Node α) :=
  if n.name = ascii "memory" then []
  else if n.name = ascii "chosen" then [editChosen nm key info addrCells n]
  else [n]

def editRoot (n : Node α) : Node α :=
  .mk n.name n.props (n.children.flatMap (editChild nm key info (cellsOf nm "#address-cells" n.props)) ++
    [dramNode key info (cellsOf nm "#address-cells" n.props) (cellsOf nm "#size-cells" n.props)])

end

/-! ## Paths -/

mutual

/-- The path of every node, names with their NULs, fits into `room` bytes. -/
def PathsFit {α : Type} (room : Nat) : Node α → Prop
  | .mk name _ children => name.length + 1 ≤ room ∧ PathsFitForest (room - (name.length + 1)) children

def PathsFitForest {α : Type} (room : Nat) : List (Node α) → Prop
  | [] => True
  | n :: ns => PathsFit room n ∧ PathsFitForest room ns

end

theorem popName_push {path name} (hpath : ∃ q, path = q ++ [0]) (hname : 0 ∉ name) :
    popName (path ++ (name ++ [0])) = some path := by
  obtain ⟨q, rfl⟩ := hpath
  have hdrop : (q ++ [0] ++ name).rdropWhile (· ≠ 0) = q ++ [0] := by
    induction name using List.reverseRecOn with
    | nil => rw [append_nil, rdropWhile_concat_neg _ _ _ (by simp)]
    | append_singleton name b ih =>
      rw [mem_append, not_or, mem_singleton] at hname
      rw [← append_assoc, rdropWhile_concat_pos _ _ _ (by simpa using Ne.symm hname.2)]
      exact ih hname.1
  unfold popName
  rw [← append_assoc, dropLast_concat, hdrop]
  cases q <;> rfl

theorem chosenPath_zero {i} (h0 : i ≠ 0) (h7 : i < 7) : chosenPath[i]? ≠ some 0 := by
  have h : ∀ i : Fin 7, i.val ≠ 0 → chosenPath[i.val]? ≠ some 0 := by decide
  exact h ⟨i, h7⟩ h0

/-- Below a child of the root there is no `/chosen`. -/
theorem push_ne_chosenPath {path : List UInt8} (name : List UInt8) (hpath : ∃ q, path = q ++ [0])
    (hlen : 1 < path.length) : path ++ (name ++ [0]) ≠ chosenPath := by
  intro h
  obtain ⟨q, rfl⟩ := hpath
  have h8 := congrArg List.length h
  have hlast : chosenPath[q.length]? = some 0 := by
    rw [← h]
    simp
  simp only [length_append, length_singleton] at h8 hlen
  have hc : chosenPath.length = 8 := by decide
  exact chosenPath_zero (by omega) (by omega) hlast

theorem root_push_eq {name} : [0] ++ (name ++ [0]) = chosenPath ↔ name = ascii "chosen" := by
  have hc : chosenPath = [0] ++ (ascii "chosen" ++ [0]) := rfl
  rw [hc, append_cancel_left_eq, append_cancel_right_eq]

/-! ## Inside a child of the root -/

section
variable {names : Nat → List UInt8} {key : InsStr → Nat} {info : FdtAddendum} {st : Pass}

/-- The machine is below the root, copying or leaving out. -/
structure Inside (st : Pass) : Prop where
  path : ∃ q, st.path = q ++ [0]
  deep : 1 < st.path.length
  chosen : st.inChosen = false
  skip : st.skipLen ≤ 1

/-- What becomes of whole tokens in this mode. -/
def Pass.through (st : Pass) (toks : List Token) : List Token := if st.skipLen = 0 then toks else []

theorem Pass.through_append (st : Pass) (ts us : List Token) :
    st.through (ts ++ us) = st.through ts ++ st.through us := by
  unfold through
  split <;> rfl

theorem Pass.through_cons (st : Pass) (tok : Token) (toks : List Token) :
    st.through (tok :: toks) = st.through [tok] ++ st.through toks :=
  st.through_append [tok] toks

theorem Pass.through_nil (st : Pass) : st.through [] = [] := by
  unfold through
  split <;> rfl

theorem Inside.settle (h : Inside st) : st.settle = st := by
  have hdeep := h.deep
  have hskip := h.skip
  unfold Pass.settle
  rw [if_neg (by omega)]

theorem Pass.behindProps_eq (h : st.inChosen = false) : st.behindProps = st := by
  unfold Pass.behindProps
  rw [← h]

theorem Pass.pending_eq_nil (h : st.inChosen = false) : st.pending key info = [] := by
  unfold Pass.pending
  rw [h]
  rfl

theorem Pass.closes (h : st.inChosen = false) (tok : Token) : st.Closes info tok := by
  intro _ _ hc
  rw [h] at hc
  cases hc

theorem Inside.react_prop (h : Inside st) (off : Nat) (value : List UInt8) :
    react names key info st (.prop off value) = some (st, st.through [.prop off value]) := by
  have hdeep := h.deep
  have htake : st.take names off value = some st := by
    unfold Pass.take
    rw [if_neg (by omega), if_neg (by simp [h.chosen])]
  rw [react, htake, Option.map_some, h.settle]
  rfl

theorem Inside.push (h : Inside st) (name : List UInt8) :
    Inside { st with path := st.path ++ (name ++ [0]) } where
  path := ⟨st.path ++ name, by rw [append_assoc]⟩
  deep := by
    have := h.deep
    simp only [length_append]
    omega
  chosen := h.chosen
  skip := h.skip

theorem Inside.react_begin (h : Inside st) {name : List UInt8}
    (hfit : name.length + 1 ≤ 256 - st.path.length) :
    react names key info st (.beginNode name) =
      some ({ st with path := st.path ++ (name ++ [0]) }, st.through [.beginNode name]) := by
  have hdeep := h.deep
  have henter : st.enter name = some { st with path := st.path ++ (name ++ [0]) } := by
    unfold Pass.enter
    dsimp only
    rw [if_neg (by omega), if_neg (by omega), if_neg (push_ne_chosenPath name h.path hdeep)]
  rw [react, Pass.behindProps_eq h.chosen, henter, Option.map_some, (h.push name).settle,
    Pass.pending_eq_nil h.chosen, nil_append]
  rfl

theorem Inside.react_end (h : Inside st) {name} (hname : 0 ∉ name) :
    react names key info { st with path := st.path ++ (name ++ [0]) } .endNode =
      some (st, st.through [.endNode]) := by
  have hpush := h.push name
  have hleave : Pass.leave key info { st with path := st.path ++ (name ++ [0]) } = some (st, []) := by
    unfold Pass.leave
    rw [if_pos hpush.deep, popName_push h.path hname]
    rfl
  rw [react, Pass.behindProps_eq hpush.chosen, hleave, Option.map_some, h.settle,
    Pass.pending_eq_nil hpush.chosen]
  rfl

theorem Inside.path_ne (h : Inside st) : st.path ≠ [] := by
  intro hnil
  have := h.deep
  rw [hnil] at this
  cases this

theorem Inside.reacts_props (h : Inside st) (ps : List (Nat × List UInt8)) :
    Reacts names key info st (propTokens ps) (st.through (propTokens ps)) st := by
  induction ps with
  | nil =>
    rw [show propTokens [] = [] from rfl, st.through_nil]
    exact .nil st
  | cons p ps ih =>
    have hsplit : propTokens (p :: ps) = .prop p.1 p.2 :: propTokens ps := rfl
    rw [hsplit, st.through_cons]
    exact .cons (Pass.closes h.chosen _) (h.react_prop p.1 p.2) h.path_ne ih

mutual

/-- A subtree below a child of the root goes through as a whole. -/
theorem reacts_node {st : Pass} (h : Inside st) (n : Node Nat) (hv : ∀ tok ∈ n.tokens, tok.Valid)
    (hfit : PathsFit (256 - st.path.length) n) :
    Reacts names key info st n.tokens (st.through n.tokens) st := by
  cases n with
  | mk name props children =>
    rw [tokens] at hv ⊢
    have hname : 0 ∉ name := hv (.beginNode name) mem_cons_self
    have hpush := h.push name
    have hroom : 256 - (st.path ++ (name ++ [0])).length = 256 - st.path.length - (name.length + 1) := by
      simp only [length_append, length_singleton]
      omega
    have hforest := reacts_forest hpush children (fun tok ht => hv tok (by simp [ht]))
      (by rw [hroom]; exact hfit.2)
    have hend : Reacts names key info { st with path := st.path ++ (name ++ [0]) } [.endNode]
        (st.through [.endNode] ++ []) st :=
      .cons (Pass.closes hpush.chosen _) (h.react_end hname) h.path_ne (.nil st)
    rw [append_nil] at hend
    have hrest := (hpush.reacts_props props).append (hforest.append hend)
    rw [st.through_cons, st.through_append, st.through_append]
    exact .cons (Pass.closes h.chosen _) (h.react_begin hfit.1) hpush.path_ne hrest

theorem reacts_forest {st : Pass} (h : Inside st) (ns : List (Node Nat))
    (hv : ∀ tok ∈ forest ns, tok.Valid) (hfit : PathsFitForest (256 - st.path.length) ns) :
    Reacts names key info st (forest ns) (st.through (forest ns)) st := by
  cases ns with
  | nil =>
    rw [forest, st.through_nil]
    exact .nil st
  | cons n ns =>
    rw [forest] at hv ⊢
    rw [st.through_append]
    exact (reacts_node h n (fun tok ht => hv tok (mem_append_left _ ht)) hfit.1).append
      (reacts_forest h ns (fun tok ht => hv tok (mem_append_right _ ht)) hfit.2)

end

/-! ## A child of the root -/

/-- The machine is in the root, between its children. -/
structure AtRoot (st : Pass) : Prop where
  path : st.path = [0]
  skip : st.skipLen = 0
  chosen : st.inChosen = false

theorem AtRoot.path_ne (h : AtRoot st) : st.path ≠ [] := by
  rw [h.path]
  exact cons_ne_nil _ _

/-- The state inside a child of the root. -/
def childPass (st : Pass) (name : List UInt8) : Pass :=
  { st with
    path := [0] ++ (name ++ [0])
    skipLen := if name = ascii "memory" then 1 else 0
    inChosen := decide (name = ascii "chosen") }

theorem childPass_path_length (st : Pass) (name : List UInt8) :
    (childPass st name).path.length = name.length + 2 := by
  simp [childPass]

theorem childPass_skip (st : Pass) (name : List UInt8) : (childPass st name).skipLen ≤ 1 := by
  unfold childPass
  dsimp only
  split <;> omega

theorem AtRoot.react_begin (h : AtRoot st) {name : List UInt8} (hfit : name.length + 1 ≤ 255) :
    react names key info st (.beginNode name) =
      some (childPass st name, (childPass st name).through [.beginNode name]) := by
  have henter : st.enter name = some (childPass st name) := by
    unfold Pass.enter childPass
    simp only [h.path, h.skip, h.chosen, length_singleton, true_and, root_push_eq]
    rw [if_neg (by omega)]
    by_cases hc : name = ascii "chosen" <;> simp [hc]
  have hsettle : (childPass st name).settle = childPass st name := by
    have hskip := childPass_skip st name
    have hlen := childPass_path_length st name
    unfold Pass.settle
    rw [if_neg (by omega)]
  rw [react, Pass.behindProps_eq h.chosen, henter, Option.map_some, hsettle,
    Pass.pending_eq_nil h.chosen, nil_append]
  rfl

/-- The end of a child of the root, whether it was copied or left out. -/
theorem react_child_end (h : Inside st) {name} (hname : 0 ∉ name)
    (hpath : st.path = [0] ++ (name ++ [0])) :
    react names key info st .endNode =
      some ({ st with path := [0], skipLen := 0 }, st.through [.endNode]) := by
  have hleave : Pass.leave key info st = some ({ st with path := [0] }, []) := by
    unfold Pass.leave
    rw [if_pos h.deep, hpath, popName_push (show ∃ q, [0] = q ++ [0] from ⟨[], rfl⟩) hname]
    rfl
  have hsettle : Pass.settle { st with path := [0] } = { st with path := [0], skipLen := 0 } := by
    unfold Pass.settle
    simp only [length_singleton, Pass.mk.injEq, true_and, and_true, ite_eq_left_iff]
    omega
  rw [react, Pass.behindProps_eq h.chosen, hleave, Option.map_some, hsettle,
    Pass.pending_eq_nil h.chosen]
  rfl

/-- Everything behind the name of a child of the root. -/
theorem reacts_child_body (h : Inside st) {name} (hname : 0 ∉ name)
    (hpath : st.path = [0] ++ (name ++ [0])) (children : List (Node Nat))
    (hv : ∀ tok ∈ forest children, tok.Valid)
    (hfit : PathsFitForest (256 - st.path.length) children) :
    Reacts names key info st (forest children ++ [.endNode])
      (st.through (forest children ++ [.endNode])) { st with path := [0], skipLen := 0 } := by
  have hend : Reacts names key info st [.endNode] (st.through [.endNode] ++ [])
      { st with path := [0], skipLen := 0 } :=
    .cons (Pass.closes h.chosen _) (react_child_end h hname hpath) (cons_ne_nil _ _) (.nil _)
  rw [append_nil] at hend
  rw [st.through_append]
  exact (reacts_forest h children hv hfit).append hend

/-- The first token behind the properties of `/chosen` brings the new ones. -/
theorem reacts_close {tok : Token} {toks outs st'}
    (hprop : tok.cmd ≠ cmdProp) (hnop : tok.cmd ≠ cmdNop) (hfit : InitrdFits info st.addrCells)
    (h : Reacts names key info st.behindProps (tok :: toks) outs st') :
    Reacts names key info st (tok :: toks) (st.pending key info ++ outs) st' := by
  cases h with
  | @cons _ st₁ _ _ _ o outs _ hr hp hs =>
    rw [← append_assoc]
    refine .cons (fun _ _ _ => hfit) ?_ hp hs
    have hpend : st.behindProps.pending key info = [] := rfl
    have hbehind : st.behindProps.behindProps = st.behindProps := rfl
    cases tok with
    | beginNode name =>
      obtain ⟨st₂, henter, hst⟩ := Option.map_eq_some_iff.mp hr
      cases hst
      rw [hbehind] at henter
      rw [react, henter, Option.map_some, hpend, nil_append]
    | endNode =>
      obtain ⟨r, hleave, hst⟩ := Option.map_eq_some_iff.mp hr
      cases hst
      rw [hbehind] at hleave
      rw [react, hleave, Option.map_some, hpend, nil_append]
    | prop off value => exact absurd rfl hprop
    | nop => exact absurd rfl hnop

/-- The properties `/chosen` keeps. -/
theorem reacts_chosen_props (hpath : st.path = chosenPath) (hskip : st.skipLen = 0)
    (hchosen : st.inChosen = true) (ps : List (Nat × List UInt8)) :
    Reacts names key info st (propTokens ps) (propTokens (ps.filter (keepsProp names))) st := by
  have hlen : st.path.length = 8 := by rw [hpath]; decide
  induction ps with
  | nil => exact .nil st
  | cons p ps ih =>
    have hclose : st.Closes info (.prop p.1 p.2) := fun h3 => absurd rfl h3
    have hne : st.path ≠ [] := by rw [hpath]; exact cons_ne_nil _ _
    have hstep : react names key info st (.prop p.1 p.2) =
        some (st, if keepsProp names p then [.prop p.1 p.2] else []) := by
      rw [react]
      unfold Pass.take keepsProp
      rw [if_neg (by omega)]
      by_cases hrep : names p.1 ∈ replacedProps.map ascii
      · have hback : Pass.settle { st with skipLen := st.path.length } = st := by
          unfold Pass.settle
          rw [if_pos le_rfl, ← hskip]
        rw [if_pos ⟨hchosen, hrep⟩, Option.map_some, hback]
        simp [Pass.copied, hlen, hrep]
      · have hstay : st.settle = st := by
          unfold Pass.settle
          rw [if_neg (by omega)]
        rw [if_neg (fun h => hrep h.2), Option.map_some, hstay]
        simp [Pass.copied, hskip, hrep]
    have hout : propTokens ((p :: ps).filter (keepsProp names)) =
        (if keepsProp names p then [.prop p.1 p.2] else []) ++
          propTokens (ps.filter (keepsProp names)) := by
      rw [filter_cons]
      split <;> rfl
    rw [hout]
    exact .cons hclose hstep hne ih

theorem childPass_inside (st : Pass) (name : List UInt8) : Inside (childPass st name).behindProps where
  path := ⟨[0] ++ name, by rw [append_assoc]; rfl⟩
  deep := by
    have hlen := childPass_path_length st name
    change 1 < (childPass st name).path.length
    omega
  chosen := rfl
  skip := childPass_skip st name

/-- What follows the properties of a child leads back to the root. -/
theorem AtRoot.reacts_rest (h : AtRoot st) {name} (hname : 0 ∉ name) (children : List (Node Nat))
    (hv : ∀ tok ∈ forest children, tok.Valid)
    (hfit : PathsFitForest (255 - (name.length + 1)) children) :
    Reacts names key info (childPass st name).behindProps (forest children ++ [.endNode])
      ((childPass st name).through (forest children ++ [.endNode])) st := by
  have hroom : 256 - (childPass st name).path.length = 255 - (name.length + 1) := by
    rw [childPass_path_length]
    omega
  have hback : { (childPass st name).behindProps with path := [0], skipLen := 0 } = st := by
    unfold childPass Pass.behindProps
    rw [← h.path, ← h.skip, ← h.chosen]
  rw [← hroom] at hfit
  have hbody := @reacts_child_body names key info _ (childPass_inside st name) _ hname rfl children hv
    hfit
  rwa [hback] at hbody

/-- A child that is not `/chosen` is copied, or left out if it is the memory node. -/
theorem reacts_plain_child (h : AtRoot st) {name} (props : List (Nat × List UInt8))
    (children : List (Node Nat)) (hc : name ≠ ascii "chosen")
    (hv : ∀ tok ∈ (Node.mk name props children).tokens, tok.Valid)
    (hfit : PathsFit 255 (Node.mk name props children)) :
    Reacts names key info st (Node.mk name props children).tokens
      ((childPass st name).through (Node.mk name props children).tokens) st := by
  rw [tokens] at hv ⊢
  have hchosen : (childPass st name).inChosen = false := decide_eq_false hc
  have hinside := childPass_inside st name
  have hrest := @AtRoot.reacts_rest names key info st h name
    (hv (.beginNode name) mem_cons_self) children (fun tok ht => hv tok (by simp [ht])) hfit.2
  rw [Pass.behindProps_eq hchosen] at hinside hrest
  rw [Pass.through_cons, Pass.through_append]
  exact .cons (Pass.closes h.chosen _) (h.react_begin hfit.1) (cons_ne_nil _ _)
    ((hinside.reacts_props props).append hrest)

/-- `/chosen` keeps the properties that are not replaced and gets the new ones behind them. -/
theorem reacts_chosen (h : AtRoot st) (props : List (Nat × List UInt8)) (children : List (Node Nat))
    (hv : ∀ tok ∈ (Node.mk (ascii "chosen") props children).tokens, tok.Valid)
    (hfit : PathsFit 255 (Node.mk (ascii "chosen") props children))
    (hinit : InitrdFits info st.addrCells) :
    Reacts names key info st (Node.mk (ascii "chosen") props children).tokens
      (editChosen names key info st.addrCells (.mk (ascii "chosen") props children)).tokens st := by
  rw [tokens] at hv ⊢
  have hrest := @AtRoot.reacts_rest names key info st h _
    (hv (.beginNode (ascii "chosen")) mem_cons_self) children (fun tok ht => hv tok (by simp [ht]))
    hfit.2
  obtain ⟨tok, toks, htoks, hcmd⟩ := Node.forest_end_head children []
  rw [append_nil] at htoks
  have hclose : Reacts names key info (childPass st (ascii "chosen"))
      (forest children ++ [.endNode])
      (propTokens (chosenProps key info st.addrCells) ++ (forest children ++ [.endNode])) st := by
    rw [htoks] at hrest ⊢
    exact reacts_close (Nat.ne_of_lt hcmd) (Nat.ne_of_lt (Nat.lt_succ_of_lt hcmd)) hinit hrest
  have hout : (editChosen names key info st.addrCells (.mk (ascii "chosen") props children)).tokens =
      [.beginNode (ascii "chosen")] ++ (propTokens (props.filter (keepsProp names)) ++
        (propTokens (chosenProps key info st.addrCells) ++ (forest children ++ [.endNode]))) := by
    simp [editChosen, tokens, Node.name, Node.props, Node.children, propTokens]
  rw [hout]
  exact .cons (Pass.closes h.chosen _) (h.react_begin hfit.1) (cons_ne_nil _ _)
    ((reacts_chosen_props rfl rfl rfl props).append hclose)

/-- A child of the root becomes what the edit makes of it. -/
theorem reacts_child (h : AtRoot st) (n : Node Nat) (hv : ∀ tok ∈ n.tokens, tok.Valid)
    (hfit : PathsFit 255 n) (hinit : InitrdFits info st.addrCells) :
    Reacts names key info st n.tokens (forest (editChild names key info st.addrCells n)) st := by
  cases n with
  | mk name props children =>
    by_cases hc : name = ascii "chosen"
    · subst hc
      have hne : ¬ (Node.mk (ascii "chosen") props children).name = ascii "memory" := by
        simp [Node.name, ascii]
      have heq : (Node.mk (ascii "chosen") props children).name = ascii "chosen" := rfl
      have hedit : forest (editChild names key info st.addrCells
          (.mk (ascii "chosen") props children)) =
          (editChosen names key info st.addrCells (.mk (ascii "chosen") props children)).tokens := by
        unfold editChild
        rw [if_neg hne, if_pos heq, forest, forest, append_nil]
      rw [hedit]
      exact reacts_chosen h props children hv hfit hinit
    · have hedit : forest (editChild names key info st.addrCells (.mk name props children)) =
          (childPass st name).through (Node.mk name props children).tokens := by
        unfold editChild Pass.through childPass
        by_cases hm : name = ascii "memory"
        · simp [Node.name, hm, forest]
        · simp [Node.name, hm, hc, forest]
      rw [hedit]
      exact reacts_plain_child h props children hc hv hfit

theorem reacts_children (h : AtRoot st) (ns : List (Node Nat))
    (hv : ∀ tok ∈ forest ns, tok.Valid) (hfit : PathsFitForest 255 ns)
    (hinit : InitrdFits info st.addrCells) : Reacts names key info st (forest ns)
      (forest (ns.flatMap (editChild names key info st.addrCells))) st := by
  induction ns with
  | nil => exact .nil st
  | cons n ns ih =>
    rw [flatMap_cons, Node.forest_append]
    exact (reacts_child h n (fun tok ht => hv tok (mem_append_left _ ht)) hfit.1 hinit).append
      (ih (fun tok ht => hv tok (mem_append_right _ ht)) hfit.2)

/-! ## The root -/

/-- A cell count that was read once is not read again. -/
structure CellsOnce (names : Nat → List UInt8) (c : String) (n : Nat)
    (ps : List (Nat × List UInt8)) : Prop where
  nodup : (ps.map fun p => names p.1).Nodup
  once : n ≠ 0 → ascii c ∉ ps.map fun p => names p.1
  small : cellsOf names c ps ≤ 4

theorem cellsOf_eq_zero {c} {ps : List (Nat × List UInt8)}
    (h : ascii c ∉ ps.map fun p => names p.1) : cellsOf names c ps = 0 := by
  induction ps with
  | nil => rfl
  | cons p ps ih =>
    rw [map_cons, mem_cons, not_or] at h
    rw [cellsOf, if_neg (fun hp => h.1 hp.1.symm)]
    exact ih h.2

theorem CellsOnce.tail {c n p ps}
    (h : CellsOnce names c n (p :: ps)) (hp : ¬ (names p.1 = ascii c ∧ p.2.length = 4)) :
    CellsOnce names c n ps ∧ n + cellsOf names c (p :: ps) = n + cellsOf names c ps := by
  have hsmall := h.small
  rw [cellsOf, if_neg hp] at hsmall
  refine ⟨⟨(nodup_cons.mp h.nodup).2, fun hn hm => h.once hn (mem_cons_of_mem _ hm), hsmall⟩, ?_⟩
  rw [cellsOf, if_neg hp]

/-- The property that says it: the count so far was zero, and what follows is silent. -/
theorem CellsOnce.head {c n p ps}
    (h : CellsOnce names c n (p :: ps)) (hp : names p.1 = ascii c ∧ p.2.length = 4) :
    n = 0 ∧ beNat p.2 ≤ 4 ∧ CellsOnce names c (beNat p.2) ps ∧
      n + cellsOf names c (p :: ps) = beNat p.2 + cellsOf names c ps := by
  have hn : n = 0 := by
    by_contra hne
    exact h.once hne (by rw [map_cons, hp.1]; exact mem_cons_self)
  have hrest : ascii c ∉ ps.map fun p => names p.1 := by
    rw [← hp.1]
    exact (nodup_cons.mp h.nodup).1
  have hsmall := h.small
  rw [cellsOf, if_pos hp] at hsmall
  refine ⟨hn, hsmall, ⟨(nodup_cons.mp h.nodup).2, fun _ => hrest, ?_⟩, ?_⟩
  · rw [cellsOf_eq_zero hrest]
    exact Nat.zero_le 4
  · rw [cellsOf, if_pos hp, cellsOf_eq_zero hrest, hn, Nat.zero_add, Nat.add_zero]

/-- The properties of the root are copied, and the two cell counts noted. -/
theorem reacts_root_props (h : AtRoot st) (ps : List (Nat × List UInt8))
    (ha : CellsOnce names "#address-cells" st.addrCells ps)
    (hs : CellsOnce names "#size-cells" st.sizeCells ps) :
    Reacts names key info st (propTokens ps) (propTokens ps)
      { st with
        addrCells := st.addrCells + cellsOf names "#address-cells" ps
        sizeCells := st.sizeCells + cellsOf names "#size-cells" ps } := by
  induction ps generalizing st with
  | nil => exact .nil st
  | cons p ps ih =>
    -- one property, whatever it does to the counts
    have hstep : ∀ st' : Pass, AtRoot st' → st.take names p.1 p.2 = some st' →
        react names key info st (.prop p.1 p.2) = some (st', [.prop p.1 p.2]) := by
      intro st' h' htake
      have hsettle : st'.settle = st' := by
        unfold Pass.settle
        rw [h'.path, h'.skip, if_neg (by decide), ← h'.path, ← h'.skip]
      rw [react, htake, Option.map_some, hsettle]
      unfold Pass.copied
      rw [if_pos h'.skip]
    have hlen : st.path.length = 1 := by rw [h.path]; rfl
    have hclose : st.Closes info (.prop p.1 p.2) := Pass.closes h.chosen _
    have hdiff : ascii "#address-cells" ≠ ascii "#size-cells" := by decide
    by_cases hpa : names p.1 = ascii "#address-cells" ∧ p.2.length = 4
    · obtain ⟨hzero, h4, ha', hsum⟩ := ha.head hpa
      obtain ⟨hs', hsum'⟩ := hs.tail fun hp => hdiff (hpa.1.symm.trans hp.1)
      have htake : st.take names p.1 p.2 = some { st with addrCells := beNat p.2 } := by
        unfold Pass.take
        rw [if_pos ⟨hlen, hpa.2⟩, if_pos hpa.1, if_neg (by simpa using hzero), if_neg (by omega)]
      have hroot : AtRoot { st with addrCells := beNat p.2 } := ⟨h.path, h.skip, h.chosen⟩
      rw [hsum, hsum']
      exact .cons hclose (hstep _ hroot htake) hroot.path_ne (ih hroot ha' hs')
    · obtain ⟨ha', hsum⟩ := ha.tail hpa
      by_cases hps : names p.1 = ascii "#size-cells" ∧ p.2.length = 4
      · obtain ⟨hzero, h4, hs', hsum'⟩ := hs.head hps
        have htake : st.take names p.1 p.2 = some { st with sizeCells := beNat p.2 } := by
          unfold Pass.take
          rw [if_pos ⟨hlen, hps.2⟩, if_neg (fun hp => hpa ⟨hp, hps.2⟩), if_pos hps.1,
            if_neg (by simpa using hzero), if_neg (by omega)]
        have hroot : AtRoot { st with sizeCells := beNat p.2 } := ⟨h.path, h.skip, h.chosen⟩
        rw [hsum, hsum']
        exact .cons hclose (hstep _ hroot htake) hroot.path_ne (ih hroot ha' hs')
      · obtain ⟨hs', hsum'⟩ := hs.tail hps
        have htake : st.take names p.1 p.2 = some st := by
          unfold Pass.take
          by_cases h4 : p.2.length = 4
          · rw [if_pos ⟨hlen, h4⟩, if_neg (fun hp => hpa ⟨hp, h4⟩), if_neg (fun hp => hps ⟨hp, h4⟩)]
          · rw [if_neg (fun hp => h4 hp.2), if_neg (by simp [h.chosen])]
        rw [hsum, hsum']
        exact .cons hclose (hstep st h htake) h.path_ne (ih h ha' hs')

/-- The locals before the first token. -/
def startPass : Pass := ⟨[], 0, 0, 0, false⟩

/-- From the root's name to the last token inside it. -/
theorem reacts_root {props : List (Nat × List UInt8)} {children : List (Node Nat)} {ws : List Token}
    (hws : ws.filter (· ≠ .nop) = propTokens props ++ forest children)
    (hv : ∀ tok ∈ ws, tok.Valid) (hfit : PathsFit 256 (Node.mk [] props children))
    (hnodup : (props.map fun p => names p.1).Nodup)
    (ha : cellsOf names "#address-cells" props ≤ 4) (hs : cellsOf names "#size-cells" props ≤ 4)
    (hinit : InitrdFits info (cellsOf names "#address-cells" props)) :
    Reacts names key info startPass (.beginNode [] :: ws)
      ([.beginNode []] ++ (propTokens props ++ forest (children.flatMap
        (editChild names key info (cellsOf names "#address-cells" props)))))
      ⟨[0], 0, cellsOf names "#address-cells" props, cellsOf names "#size-cells" props, false⟩ := by
  have hroot : AtRoot ⟨[0], 0, 0, 0, false⟩ := ⟨rfl, rfl, rfl⟩
  have hvf : ∀ tok ∈ forest children, tok.Valid := by
    intro tok ht
    have hm : tok ∈ ws.filter (· ≠ .nop) := by
      rw [hws]
      exact mem_append_right _ ht
    exact hv tok (mem_of_mem_filter hm)
  have hprops : Reacts names key info ⟨[0], 0, 0, 0, false⟩ (propTokens props)
      (propTokens props)
      ⟨[0], 0, cellsOf names "#address-cells" props, cellsOf names "#size-cells" props, false⟩ := by
    have h := @reacts_root_props names key info _ hroot props
      ⟨hnodup, fun h0 => absurd rfl h0, ha⟩ ⟨hnodup, fun h0 => absurd rfl h0, hs⟩
    simpa only [Nat.zero_add] using h
  have hkids := @reacts_children names key info
    ⟨[0], 0, cellsOf names "#address-cells" props, cellsOf names "#size-cells" props, false⟩
    ⟨rfl, rfl, rfl⟩ children hvf hfit.2 hinit
  refine .cons (fun _ _ hc => by cases hc) rfl (cons_ne_nil _ _) ?_
  refine Reacts.of_filter (cons_ne_nil _ _) ?_
  rw [hws]
  exact hprops.append hkids

end

/-! ## The loop over a whole tree -/

section
variable {outEnd : Nat} {info : FdtAddendum} {t : FdtInput}

/-- The loop over a block that holds a tree stores the edited tree. -/
theorem tokenLoop_tree {props : List (Nat × List UInt8)} {children}
    {ws : List Token} {names} (hnames : names = t.names)
    (s : TokState) (hs : s.toPass = startPass)
    (hreads : ReadsAll t s.toks (.beginNode [] :: (ws ++ [.endNode])))
    (hws : ws.filter (· ≠ .nop) = propTokens props ++ forest children)
    (hfit : PathsFit 256 (Node.mk [] props children))
    (hnodup : (props.map fun p => names p.1).Nodup)
    (haddr : cellsOf names "#address-cells" props ≤ 4)
    (hsize : cellsOf names "#size-cells" props ≤ 4)
    (hinit : InitrdFits info (cellsOf names "#address-cells" props))
    (hdram : DramFits info (cellsOf names "#address-cells" props) (cellsOf names "#size-cells" props))
    (hroom : 4 * s.out + (encode (editRoot names t.key info
      (.mk [] props children)).tokens).length ≤ 4 * outEnd) (fuel : Nat) (m : Mem) :
    ∃ st, (tokenLoop outEnd info t (ws.length + 2 + fuel) s).run m =
      .ok (some (s.after st (.beginNode [] :: (ws ++ [.endNode]))
        (editRoot names t.key info (.mk [] props children)).tokens))
        (m.put (4 * s.out)
          (encode (editRoot names t.key info (.mk [] props children)).tokens)) := by
  subst hnames
  have hv := fun tok (ht : tok ∈ ws) =>
    (hreads.valid tok (mem_cons_of_mem _ (mem_append_left _ ht))).1
  have hout : (editRoot t.names t.key info
      (.mk [] props children)).tokens = [.beginNode []] ++ (propTokens props ++ forest
        (children.flatMap (editChild t.names t.key info
          (cellsOf t.names "#address-cells" props)))) ++
      ((dramNode t.key info
        (cellsOf t.names "#address-cells" props)
        (cellsOf t.names "#size-cells" props)).tokens ++ [.endNode]) := by
    simp [editRoot, tokens, Node.name, Node.props, Node.children, Node.forest_append, forest]
  have hfuel : ws.length + 2 + fuel = (Token.beginNode [] :: ws).length + (fuel + 1) := by
    rw [length_cons]
    omega
  rw [hout] at hroom ⊢
  rw [hfuel]
  exact ⟨_, tokenLoop_ends (reacts_root hws hv hfit hnodup haddr hsize hinit) rfl
    (fun _ _ hc => by cases hc) rfl (fun _ => hdram) s hs hreads hroom fuel m⟩

end

end Rkboot.Dramstage
