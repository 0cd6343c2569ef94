import Rkboot.Dramstage.FdtEdit
import Rkboot.Dramstage.FdtSafety

/-! # `transform_fdt` computes the edit

A well-formed device tree and a buffer that holds the result: the function
succeeds, and what the output blob holds is the edited tree of the input. -/
namespace Rkboot.Dramstage
open Lib DeviceTree List Exec
open Node (forest propTokens tokens)

/-! ## The edit and the names of properties -/

section
variable {α : Type} {nm g : α → List UInt8} {key : InsStr → α} {info : FdtAddendum}

/-- The edit of a tree with its names spelled out. -/
def editTree (info : FdtAddendum) (tree : Node (List UInt8)) : Node (List UInt8) :=
  editRoot id InsStr.text info tree

theorem cellsOf_map (c : String) (props : List (α × List UInt8)) :
    cellsOf id c (props.map fun p => (nm p.1, p.2)) = cellsOf nm c props := by
  induction props with
  | nil => rfl
  | cons p props ih => rw [map_cons, cellsOf, cellsOf, ih]; rfl

theorem chosenProps_map (hkey : ∀ i, g (key i) = i.text) (addrCells : Nat) :
    (chosenProps key info addrCells).map (fun p => (g p.1, p.2)) =
      chosenProps InsStr.text info addrCells := by
  unfold chosenProps initrdProps kaslrProps rngProps
  rw [map_append, map_append]
  congr 1
  · split <;> simp [hkey]
  · congr 1
    · split <;> simp [hkey]
    · split <;> simp [hkey]

theorem keepsProp_map (props : List (α × List UInt8)) (h : ∀ p ∈ props, g p.1 = nm p.1) :
    (props.filter (keepsProp nm)).map (fun p => (g p.1, p.2)) =
      (props.map fun p => (nm p.1, p.2)).filter (keepsProp id) := by
  rw [filter_map]
  exact map_congr_left fun p hp => by rw [h p (mem_of_mem_filter hp)]

theorem editChild_map (hkey : ∀ i, g (key i) = i.text) (addrCells : Nat) (n : Node α)
    (h : n.All fun a => g a = nm a) : (editChild nm key info addrCells n).map (Node.map g) =
      editChild id InsStr.text info addrCells (n.map nm) := by
  unfold editChild
  rw [Node.map_name]
  split
  · rfl
  · split
    · cases n with
      | mk name props children =>
        simp only [map_cons, map_nil, editChosen, Node.name, Node.props, Node.children,
          Node.map, map_append, chosenProps_map hkey, keepsProp_map props h.1,
          Node.mapForest_congr children h.2]
    · rw [map_cons, map_nil, Node.map_congr n h]

/-- Editing and then spelling out is spelling out and then editing. -/
theorem editRoot_map (hkey : ∀ i, g (key i) = i.text) (n : Node α) (h : n.All fun a => g a = nm a) :
    (editRoot nm key info n).map g = editTree info (n.map nm) := by
  cases n with
  | mk name props children =>
    have hprops : props.map (fun p => (g p.1, p.2)) = props.map fun p => (nm p.1, p.2) :=
      map_congr_left fun p hp => by rw [h.1 p hp]
    have hkids : ∀ a, (children.flatMap (editChild nm key info a)).map (Node.map g) =
        (children.map (Node.map nm)).flatMap (editChild id InsStr.text info a) := by
      intro a
      rw [map_flatMap, flatMap_map]
      exact flatMap_congr fun n hn =>
        editChild_map hkey a n (Node.allForest_iff.mp h.2 n hn)
    simp only [editTree, editRoot, Node.map, Node.name, Node.props, Node.children, cellsOf_map,
      Node.mapForest_eq, map_append, hkids, hprops, dramNode, map_cons, map_nil, hkey]

end

/-! ## The tokens of the edited tree -/

section
variable {names : Nat → List UInt8} {key : InsStr → Nat} {info : FdtAddendum}

theorem mem_editChild {addrCells} {n : Node Nat} {tok}
    (h : tok ∈ forest (editChild names key info addrCells n)) :
    tok ∈ n.tokens ∨ tok ∈ propTokens (chosenProps key info addrCells) := by
  unfold editChild at h
  split at h
  · cases h
  · split at h
    · cases n with
      | mk name props children =>
        have hfilter : ∀ tok, tok ∈ propTokens (props.filter (keepsProp names)) →
            tok ∈ propTokens props := fun tok ht =>
          map_subset _ (filter_subset_self props) ht
        simp only [forest, append_nil, editChosen, tokens, Node.name, Node.props,
          Node.children, propTokens, map_append, mem_cons, mem_append] at h ⊢
        rcases h with h | (h | h) | h
        · exact Or.inl (Or.inl h)
        · exact Or.inl (Or.inr (Or.inl (hfilter tok h)))
        · exact Or.inr h
        · exact Or.inl (Or.inr (Or.inr h))
    · rw [forest, forest, append_nil] at h
      exact Or.inl h

theorem mem_forest_flatMap {addrCells} {ns : List (Node Nat)} {tok}
    (h : tok ∈ forest (ns.flatMap (editChild names key info addrCells))) :
    tok ∈ forest ns ∨ tok ∈ propTokens (chosenProps key info addrCells) := by
  induction ns with
  | nil => cases h
  | cons n ns ih =>
    rw [flatMap_cons, Node.forest_append, mem_append] at h
    rw [forest, mem_append]
    rcases h with h | h
    · rcases mem_editChild h with h | h
      · exact Or.inl (Or.inl h)
      · exact Or.inr h
    · rcases ih h with h | h
      · exact Or.inl (Or.inr h)
      · exact Or.inr h

/-- A token of the edited tree was there before or has been inserted. -/
theorem mem_editRoot {n : Node Nat} {tok} (h : tok ∈ (editRoot names key info n).tokens) :
    tok ∈ n.tokens ∨
      tok ∈ propTokens (chosenProps key info (cellsOf names "#address-cells" n.props)) ∨
      tok ∈ (dramNode key info (cellsOf names "#address-cells" n.props)
        (cellsOf names "#size-cells" n.props)).tokens := by
  cases n with
  | mk name props children =>
    simp only [editRoot, Node.name, Node.props, Node.children] at h ⊢
    rw [tokens, Node.forest_append, forest, forest, append_nil, mem_cons,
      mem_append, mem_append, mem_append] at h
    rw [tokens, mem_cons, mem_append, mem_append]
    rcases h with h | h | (h | h) | h
    · exact Or.inl (Or.inl h)
    · exact Or.inl (Or.inr (Or.inl h))
    · rcases mem_forest_flatMap h with h | h
      · exact Or.inl (Or.inr (Or.inr (Or.inl h)))
      · exact Or.inr (Or.inl h)
    · exact Or.inr (Or.inr h)
    · exact Or.inl (Or.inr (Or.inr (Or.inr h)))

/-- An inserted token is the node's or a property with an inserted name. -/
theorem inserted_tok {addrCells sizeCells tok}
    (h : tok ∈ propTokens (chosenProps key info addrCells) ∨
      tok ∈ (dramNode key info addrCells sizeCells).tokens) :
    (∃ i value, tok = .prop (key i) value) ∨ tok = .beginNode (ascii "memory") ∨ tok = .endNode := by
  rcases h with h | h
  · unfold propTokens chosenProps initrdProps kaslrProps rngProps at h
    obtain ⟨p, hp, rfl⟩ := mem_map.mp h
    rw [mem_append, mem_append] at hp
    rcases hp with hp | hp | hp
    · split at hp
      · cases hp
      · rcases mem_cons.mp hp with rfl | hp
        · exact Or.inl ⟨_, _, rfl⟩
        · rw [mem_singleton.mp hp]
          exact Or.inl ⟨_, _, rfl⟩
    · split at hp
      · rw [mem_singleton.mp hp]
        exact Or.inl ⟨_, _, rfl⟩
      · cases hp
    · split at hp
      · rw [mem_singleton.mp hp]
        exact Or.inl ⟨_, _, rfl⟩
      · cases hp
  · simp only [dramNode, tokens, propTokens, forest, map_cons, map_nil,
      cons_append, nil_append, mem_cons, not_mem_nil, or_false] at h
    rcases h with rfl | rfl | rfl | rfl
    · exact Or.inr (Or.inl rfl)
    · exact Or.inl ⟨_, _, rfl⟩
    · exact Or.inl ⟨_, _, rfl⟩
    · exact Or.inr (Or.inr rfl)

/-- The tokens of the edited tree are valid if those of the tree are and the
whole fits into memory. -/
theorem editRoot_valid {n : Node Nat} (hv : ∀ tok ∈ n.tokens, tok.Valid)
    (hkey : ∀ i, key i < 2 ^ 32)
    (hlen : (encode (editRoot names key info n).tokens).length < 2 ^ 32) :
    ∀ tok ∈ (editRoot names key info n).tokens, tok.Valid := by
  intro tok ht
  rcases mem_editRoot ht with h | h
  · exact hv tok h
  · rcases inserted_tok h with ⟨i, value, rfl⟩ | rfl | rfl
    · have hle := bytes_length_le_encode ht
      simp only [Token.bytes, Token.body, length_append, beBytes_length, pad_length] at hle
      exact ⟨hkey i, by omega⟩
    · decide
    · trivial

end

/-! ## In front of the structure block -/

section
variable {outEnd : Nat} {info : FdtAddendum}

/-- `n` reservations that are not empty, and the empty one behind them. -/
structure Reserves (inp : Nat → UInt8) (resv n : Nat) : Prop where
  entries : ∀ i, i < n → bytesAt inp (8 * (resv + 2 * i + 1)) 8 ≠ List.replicate 8 0
  last : bytesAt inp (8 * (resv + 2 * n + 1)) 8 = List.replicate 8 0

theorem copyReservations_emits {inp resvEnd n fuel resv out}
    (h : Reserves inp resv n) (hend : resv + 2 * n + 2 ≤ resvEnd) (hroom : out + 4 * n + 4 ≤ outEnd)
    (hfuel : n < fuel) : ∃ bs,
      Emits (copyReservations outEnd inp resvEnd fuel resv out) out bs (out + 4 * n) := by
  induction n generalizing fuel resv out with
  | zero =>
    obtain ⟨f, rfl⟩ : ∃ f, fuel = f + 1 := ⟨fuel - 1, by omega⟩
    refine ⟨[], ?_⟩
    rw [copyReservations, if_neg (by omega), if_neg (by omega), if_pos h.last]
    exact .pure _
  | succ n ih =>
    obtain ⟨f, rfl⟩ : ∃ f, fuel = f + 1 := ⟨fuel - 1, by omega⟩
    have hrest : Reserves inp (resv + 2) n := by
      refine ⟨fun i hi => ?_, ?_⟩
      · have := h.entries (i + 1) (by omega)
        rwa [show resv + 2 * (i + 1) + 1 = resv + 2 + 2 * i + 1 by omega] at this
      · have := h.last
        rwa [show resv + 2 * (n + 1) + 1 = resv + 2 + 2 * n + 1 by omega] at this
    obtain ⟨bs, hem⟩ := @ih f (resv + 2) (out + 4) hrest (by omega) (by omega) (by omega)
    refine ⟨bytesAt inp (8 * resv) 16 ++ bs, ?_⟩
    rw [copyReservations, if_neg (by omega), if_neg (by omega), if_neg (h.entries 0 (by omega)),
      show out + 4 * (n + 1) = out + 4 + 4 * n by omega]
    refine Emits.orFail (emit_appends (bytesAt inp (8 * resv) 16)) ?_ ?_
    · rw [bytesAt_length]; decide
    · rw [bytesAt_length]; exact hem

/-- The word at which the reservations of the input are copied to. -/
def resvWord (info : FdtAddendum) : Nat :=
  if info.initcpioStart = info.initcpioEnd then 16 else 20

/-- The word at which the structure block begins, behind `n` reservations. -/
def structWord (info : FdtAddendum) (n : Nat) : Nat := resvWord info + 4 * n + 4

theorem reserveInitcpio_emits : ∃ bs, Emits (reserveInitcpio info 16) 16 bs (resvWord info) := by
  unfold reserveInitcpio resvWord
  split
  · exact ⟨[], .pure 16⟩
  · refine ⟨be64 info.initcpioStart.toNat ++ be64 (info.initcpioEnd - info.initcpioStart).toNat, ?_⟩
    have h := @emit_appends 16
      (be64 info.initcpioStart.toNat ++ be64 (info.initcpioEnd - info.initcpioStart).toNat)
    unfold Appends at h
    rwa [length_append, be64_length, be64_length] at h

theorem startTokens_run {l : FdtLayout} {n} (h : Reserves l.tree.inp l.resv n)
    (hend : l.resv + 2 * n + 2 ≤ l.resvEnd) (hroom : structWord info n ≤ outEnd) (m : Mem) :
    ∃ m', (startTokens outEnd l info).run m =
        .ok (some ⟨startPass, l.tree.toks, structWord info n⟩) m' ∧
      Stands m'.byte 8 (be32 (4 * structWord info n)) := by
  have h16 : 16 ≤ resvWord info := by
    unfold resvWord
    split <;> omega
  unfold structWord at hroom ⊢
  obtain ⟨bs, hinit⟩ := @reserveInitcpio_emits info
  obtain ⟨cs, hcopy⟩ := @copyReservations_emits outEnd _ _ _ (l.resvEnd - l.resv + 1) _
    (resvWord info) h hend (by omega) (by omega)
  unfold startTokens
  rw [if_neg (by omega), run_bind_of_ok (run_put _ _ _), orFail_of_some (hinit _),
    orFail_of_some (hcopy _)]
  exact ⟨_, rfl, stands_put _ 8 _⟩

end

/-! ## Behind the structure block -/

section
variable {outEnd : Nat} {info : FdtAddendum} {t : FdtInput} {s : TokState}

/-- The stores of `finish`, in their order. -/
def finishWrites (info : FdtAddendum) (t : FdtInput) (structOut out : Nat) :
    List (Nat × List UInt8) :=
  [(4 * out, be32 cmdEnd), (12, be32 (4 * (out + 1))),
    (36, be32 (4 * (out + 1) - 4 * structOut - 4)),
    (32, be32 ((insertedStrings.length + t.stringSize) % 2 ^ 32)),
    (4 * (out + 1), bytesAt t.inp t.str t.stringSize),
    (4 * (out + 1) + t.stringSize, insertedStrings),
    (4, be32 ((4 * (out + 1) + (insertedStrings.length + t.stringSize) % 2 ^ 32) % 2 ^ 32)),
    (48, be64 info.fdtAddress.toNat),
    (56, be64 ((4 * (out + 1) + (insertedStrings.length + t.stringSize) % 2 ^ 32) % 2 ^ 32)),
    (20, be32 17), (24, be32 16), (28, be32 info.bootCpu.toNat)]

theorem finish_run (hend : t.cmd s.toks = cmdEnd) (structOut : Nat)
    (hroom : 4 * (s.out + 1) + t.stringSize + 73 ≤ 4 * outEnd) (hout : outEnd ≤ 2 ^ 30) (m : Mem) :
    (finish outEnd info t structOut s).run m =
      .ok (some ()) (m.puts (finishWrites info t structOut s.out)) := by
  have hsize : (insertedStrings.length + t.stringSize) % 2 ^ 32 = 73 + t.stringSize := by
    rw [insertedStrings_length]
    omega
  unfold finish
  rw [if_neg (fun h => h hend), if_neg (by omega)]
  have hfits : ¬ (73 + t.stringSize < t.stringSize ∨
      (outEnd - (s.out + 1)) * 4 < 73 + t.stringSize) := by omega
  dsimp only
  unfold finishWrites
  rw [hsize, if_neg hfits]
  rfl

/-- The structure block, the strings and the fields that point to them, when
everything has been stored. -/
theorem finish_stands {m : Mem} {structOut out} {bs : List UInt8} (hlow : 16 ≤ structOut)
    (hout : 4 * out = 4 * structOut + bs.length) (hbs : Stands m.byte (4 * structOut) bs)
    {field : List UInt8} (hfield : Stands m.byte 8 field) (hlen : field.length = 4) :
    Stands (m.puts (finishWrites info t structOut out)).byte (4 * structOut) (bs ++ endMark) ∧
    Stands (m.puts (finishWrites info t structOut out)).byte 8 field ∧
    Stands (m.puts (finishWrites info t structOut out)).byte 12 (be32 (4 * (out + 1))) ∧
    Stands (m.puts (finishWrites info t structOut out)).byte 32
      (be32 ((insertedStrings.length + t.stringSize) % 2 ^ 32)) ∧
    Stands (m.puts (finishWrites info t structOut out)).byte 36
      (be32 (4 * (out + 1) - 4 * structOut - 4)) ∧
    Stands (m.puts (finishWrites info t structOut out)).byte (4 * (out + 1))
      (bytesAt t.inp t.str t.stringSize ++ insertedStrings) := by
  have h73 := insertedStrings_length
  refine ⟨stands_append.mpr ⟨hbs.puts ?_, hout ▸ stands_puts m [] ?_⟩, hfield.puts ?_,
    stands_puts m (_ :: []) ?_, stands_puts m (_ :: _ :: _ :: []) ?_, stands_puts m (_ :: _ :: []) ?_,
    stands_append.mpr ⟨stands_puts m (_ :: _ :: _ :: _ :: []) ?_, ?_⟩⟩
  on_goal 8 =>
    rw [bytesAt_length]
    refine stands_puts m (_ :: _ :: _ :: _ :: _ :: []) ?_
  -- every claim is about where later stores do not go
  all_goals
    simp only [finishWrites, forall_mem_cons, not_mem_nil, false_imp_iff, implies_true,
      and_true, be32_length, be64_length, bytesAt_length, h73, hlen]
    omega

/-- The magic number is stored in front of everything. -/
theorem Stands.magic {m : Mem} {a} {bs : List UInt8} (h : Stands m.byte a bs) (ha : 4 ≤ a) :
    Stands (m.put 0 (be32 0xd00dfeed)).byte a bs :=
  @Stands.puts _ _ _ [(0, be32 0xd00dfeed)] h fun w hw => by
    rw [mem_singleton.mp hw, be32_length]
    omega

end

/-! ## The strings of the output -/

section
variable {f inp : Nat → UInt8} {str ss out : Nat}

theorem Stands.drop {a k} {bs : List UInt8} (h : Stands f a bs) (hk : k ≤ bs.length) :
    bytesAt f (a + k) (bs.length - k) = bs.drop k := by
  rw [← bytesAt_drop f hk]
  exact congrArg (List.drop k) h

theorem takeWhile_append_of_mem {l : List UInt8} {r} (h : 0 ∈ l) :
    (l ++ r).takeWhile (· ≠ 0) = l.takeWhile (· ≠ 0) := by
  induction l with
  | nil => cases h
  | cons b l ih =>
    by_cases hb : b = 0
    · subst hb
      rfl
    · have hl : 0 ∈ l := by
        rcases mem_cons.mp h with h | h
        · exact absurd h.symm hb
        · exact h
      rw [cons_append, takeWhile_cons_of_pos (by simpa using hb),
        takeWhile_cons_of_pos (by simpa using hb), ih hl]

/-- A string of the input is found at the same offset. -/
theorem nameAt_kept {off} (h : Stands f out (bytesAt inp str ss ++ insertedStrings))
    (hterm : Terminated inp str ss off) :
    nameAt f out (73 + ss) off = nameAt inp str ss off ∧ Terminated f out (73 + ss) off := by
  have hoff : off < ss := by
    by_contra hge
    have h0 : ss - off = 0 := by omega
    unfold Terminated at hterm
    rw [h0] at hterm
    cases hterm
  have hlen : (bytesAt inp str ss ++ insertedStrings).length = 73 + ss := by
    rw [length_append, bytesAt_length, insertedStrings_length, Nat.add_comm]
  have hbytes : bytesAt f (out + off) (73 + ss - off) =
      bytesAt inp (str + off) (ss - off) ++ insertedStrings := by
    rw [← hlen, Stands.drop h (by omega), drop_append_of_le_length
      (by rw [bytesAt_length]; omega), bytesAt_drop inp (by omega)]
  unfold nameAt Terminated
  rw [hbytes]
  exact ⟨takeWhile_append_of_mem hterm, mem_append_left _ hterm⟩

/-- An inserted string is found behind those of the input. -/
theorem nameAt_inserted (h : Stands f out (bytesAt inp str ss ++ insertedStrings)) (i : InsStr) :
    nameAt f out (73 + ss) (insertedAt ss i) = i.text ∧
      Terminated f out (73 + ss) (insertedAt ss i) := by
  have hoff : i.off ≤ 73 := by cases i <;> decide
  have hlen : (bytesAt inp str ss ++ insertedStrings).length = 73 + ss := by
    rw [length_append, bytesAt_length, insertedStrings_length, Nat.add_comm]
  have hbytes : bytesAt f (out + insertedAt ss i) (73 + ss - insertedAt ss i) =
      insertedStrings.drop i.off := by
    rw [← hlen, Stands.drop h (by rw [hlen]; unfold insertedAt; omega)]
    unfold insertedAt
    rw [drop_append, bytesAt_length, Nat.add_sub_cancel_left,
      drop_eq_nil_of_le (by rw [bytesAt_length]; omega), nil_append]
  unfold nameAt Terminated
  rw [hbytes]
  cases i <;> decide

end

/-! ## The whole function -/

/-- A version 16 or 17 blob of at most `inSize` bytes with the tokens `toks`,
which traverse the tree `raw` and leave no room between the root and the end
mark, and `n` memory reservations. -/
structure WellFormed (inp : Nat → UInt8) (inSize : Nat) (toks : List Token) (raw : Node Nat)
    (n : Nat) : Prop where
  magic : field inp 0 = 0xd00dfeed
  version : field inp 5 = 16 ∨ field inp 5 = 17
  compatible : field inp 6 ≤ field inp 5
  total : field inp 1 ≤ inSize
  aligned : field inp 2 % 4 = 0
  block : Block inp toks raw
  inside : field inp 2 + (encode toks).length + 4 ≤ field inp 1
  structSize : field inp 5 = 17 → field inp 9 % 4 = 0 ∧ (encode toks).length ≤ field inp 9 ∧
    field inp 2 + field inp 9 ≤ inSize
  root : ∃ ws, toks = .beginNode [] :: (ws ++ [.endNode])
  strings : field inp 3 + field inp 8 ≤ field inp 1
  resvAligned : field inp 4 % 8 = 0
  resvInside : field inp 4 + 16 * (n + 1) ≤ field inp 1
  reserves : Reserves inp (field inp 4 / 8) n

section
variable {inp : Nat → UInt8} {inSize n outEnd : Nat} {toks : List Token} {raw : Node Nat}
  {info : FdtAddendum}

/-- The layout the header describes. -/
def layoutOf (inp : Nat → UInt8) (inSize : Nat) : FdtLayout where
  tree := {
    inp
    toks := field inp 2 / 4
    toksEnd := if 17 ≤ field inp 5 then field inp 2 / 4 + field inp 9 / 4 else inSize / 4
    str := field inp 3
    stringSize := field inp 8 }
  resv := field inp 4 / 8
  resvEnd := field inp 4 / 8 + (field inp 1 - field inp 4) / 8

theorem WellFormed.readHeader (h : WellFormed inp inSize toks raw n) (hstr : 0 < field inp 8) :
    readHeader inp inSize = some (layoutOf inp inSize) := by
  have hversion := h.version
  have hcompatible := h.compatible
  have htotal := h.total
  have haligned := h.aligned
  have hinside := h.inside
  have hstrings := h.strings
  have hresv := h.resvInside
  have hresv8 := h.resvAligned
  have hlt : field inp 1 < 256 ^ 4 := beAt_lt _ _ _
  have hstart : 4 * (field inp 2 / 4) = field inp 2 := by omega
  have hroot : beAt inp (4 * (field inp 2 / 4)) 4 = 1 ∧
      beAt inp (4 * (field inp 2 / 4 + 1)) 4 = 0 := by
    obtain ⟨ws, hws⟩ := h.root
    have hst := h.block.stands
    rw [hws] at hst
    have htok : Stands inp (field inp 2) (beBytes 4 1 ++ beBytes 4 0) := hst.left.left
    rw [Nat.mul_add, hstart]
    exact ⟨htok.left.beAt, htok.right.beAt⟩
  have hsize : ¬ (17 ≤ field inp 5 ∧ (field inp 9 % 4 ≠ 0 ∨
      inSize / 4 - field inp 2 / 4 < field inp 9 / 4)) := by
    rintro ⟨h17, hbad⟩
    obtain ⟨h4, -, hend⟩ := h.structSize (by omega)
    omega
  unfold field at *
  unfold Dramstage.readHeader layoutOf
  dsimp only
  rw [if_neg (fun hm => hm h.magic), if_neg (by omega), if_neg (by omega), if_neg (by omega),
    if_neg hsize, if_neg (by rw [hroot.1, hroot.2]; decide), if_neg (by omega), if_neg (by omega)]
  rfl

/-- The tokens of a well-formed blob, where the loop reads them. -/
theorem WellFormed.readsAll (h : WellFormed inp inSize toks raw n) :
    ReadsAll (layoutOf inp inSize).tree (field inp 2 / 4) toks := by
  have hversion := h.version
  have haligned := h.aligned
  have htotal := h.total
  have hinside := h.inside
  have hlt : field inp 1 < 256 ^ 4 := beAt_lt _ _ _
  have hstart : 4 * (field inp 2 / 4) = field inp 2 := by omega
  refine ⟨by rw [hstart]; exact h.block.stands.left, ?_, fun tok ht => ⟨h.block.valid tok ht, ?_⟩, ?_⟩
  · unfold layoutOf
    dsimp only
    split
    · next h17 =>
      obtain ⟨h4, hlen, -⟩ := h.structSize (by omega)
      omega
    · omega
  · have := bytes_length_le_encode ht
    omega
  · intro off value ht
    have hmem : .prop off value ∈ raw.tokens := by
      rw [← h.block.tree]
      exact mem_filter.mpr ⟨ht, by simp⟩
    have hterm := (Node.all_iff raw).mp h.block.strings off value hmem
    refine ⟨?_, hterm⟩
    by_contra hge
    have h0 : field inp 8 - off = 0 := Nat.sub_eq_zero_of_le (not_lt.mp hge)
    unfold Terminated at hterm
    rw [h0] at hterm
    cases hterm

/-- What the tree and the addendum must satisfy for the edit to be possible. -/
structure Editable (info : FdtAddendum) (names : Nat → List UInt8) (raw : Node Nat) : Prop where
  paths : PathsFit 256 raw
  unique : (raw.props.map fun p => names p.1).Nodup
  addr : 1 ≤ cellsOf names "#address-cells" raw.props ∧ cellsOf names "#address-cells" raw.props ≤ 4
  size : cellsOf names "#size-cells" raw.props ≤ 4
  dram : DramFits info (cellsOf names "#address-cells" raw.props)
    (cellsOf names "#size-cells" raw.props)
  initcpio : info.initcpioStart.toNat < 2 ^ 32 ∧ info.initcpioEnd.toNat < 2 ^ 32

/-- The names of a blob's properties. -/
def namesOf (inp : Nat → UInt8) : Nat → List UInt8 := nameAt inp (field inp 3) (field inp 8)

/-- The edited tree of a blob, with the offsets its properties get. -/
def editedOf (info : FdtAddendum) (inp : Nat → UInt8) (raw : Node Nat) : Node Nat :=
  editRoot (namesOf inp) (insertedAt (field inp 8)) info raw

/-- The cell count of the root has a name, so there are strings. -/
theorem WellFormed.strings_pos (h : WellFormed inp inSize toks raw n)
    (he : Editable info (namesOf inp) raw) : 0 < field inp 8 := by
  by_contra h0
  have hall := h.block.strings
  cases raw with
  | mk name props children =>
    cases props with
    | nil => exact absurd he.addr.1 (Nat.not_succ_le_zero 0)
    | cons p props =>
      have hterm := hall.1 p mem_cons_self
      unfold Terminated at hterm
      rw [show field inp 8 - p.1 = 0 by omega] at hterm
      cases hterm

/-- The tree of a well-formed blob and the tokens inside its root. -/
theorem WellFormed.cases (h : WellFormed inp inSize toks raw n) :
    ∃ props children ws, raw = .mk [] props children ∧ toks = .beginNode [] :: (ws ++ [.endNode]) ∧
      ws.filter (· ≠ .nop) = propTokens props ++ forest children := by
  obtain ⟨ws, hws⟩ := h.root
  have htree := h.block.tree
  cases raw with
  | mk name props children =>
    rw [hws, filter_cons_of_pos (by simp), filter_append, tokens, ← append_assoc] at htree
    obtain ⟨hname, hrest⟩ := List.cons.inj htree
    refine ⟨props, children, ws, by rw [Token.beginNode.inj hname], hws, ?_⟩
    exact append_cancel_right hrest

/-- The function up to the magic number: the structure block is stored, then
everything that points to it. -/
theorem transformTree_run (h : WellFormed inp inSize toks raw n)
    (he : Editable info (namesOf inp) raw)
    (hroom : 4 * structWord info n + (encode (editedOf info inp raw).tokens).length + 4 +
      (73 + field inp 8) ≤ 4 * outEnd) (hout : outEnd ≤ 2 ^ 30) (m : Mem) :
    ∃ m' : Mem, (transformTree outEnd (layoutOf inp inSize) info).run m = .ok (some ())
      (m'.puts (finishWrites info (layoutOf inp inSize).tree (structWord info n)
        (structWord info n + (encode (editedOf info inp raw).tokens).length / 4))) ∧
      Stands m'.byte 8 (be32 (4 * structWord info n)) ∧
      Stands m'.byte (4 * structWord info n) (encode (editedOf info inp raw).tokens) := by
  have hreads := h.readsAll
  have haligned := h.aligned
  have hresv := h.resvInside
  have hmark := h.block.stands.right
  have hwords := length_le_encode toks
  have hstop := hreads.stop
  obtain ⟨k, hk⟩ := encode_length_dvd toks
  have hlow : 20 ≤ structWord info n := by
    unfold structWord resvWord
    split <;> omega
  obtain ⟨m₁, hstart, hfield⟩ := @startTokens_run outEnd info (layoutOf inp inSize) n h.reserves
    (by dsimp only [layoutOf]; omega) (by omega) m
  obtain ⟨props, children, ws, rfl, rfl, hws⟩ := h.cases
  rw [length_cons, length_append, length_singleton] at hwords
  obtain ⟨fuel, hfuel⟩ := Nat.exists_eq_add_of_le (show ws.length + 2 ≤
    (layoutOf inp inSize).tree.toksEnd - (layoutOf inp inSize).tree.toks + 1 by
      dsimp only [layoutOf] at hstop ⊢
      omega)
  obtain ⟨st, hloop⟩ := @tokenLoop_tree outEnd info (layoutOf inp inSize).tree props children ws
    (namesOf inp) rfl ⟨startPass, (layoutOf inp inSize).tree.toks, structWord info n⟩ rfl hreads hws
    he.paths he.unique he.addr.2 he.size ⟨he.initcpio, ne_of_gt he.addr.1, he.addr.2⟩ he.dram
    (by unfold editedOf at hroom; dsimp only [layoutOf, FdtInput.key]; omega) fuel m₁
  refine ⟨m₁.put (4 * structWord info n)
    (encode (editedOf info inp (.mk [] props children)).tokens), ?_, ?_, stands_put _ _ _⟩
  · unfold transformTree
    rw [orFail_of_some hstart, hfuel, orFail_of_some hloop]
    refine finish_run ?_ _ ?_ hout _
    · have haddr : 4 * (field inp 2 / 4 + (encode (.beginNode [] :: (ws ++ [.endNode]))).length / 4) =
          field inp 2 + (encode (.beginNode [] :: (ws ++ [.endNode]))).length := by omega
      change beAt inp (4 * (field inp 2 / 4 + _)) 4 = 9
      rw [haddr]
      exact hmark.beAt
    · change 4 * (structWord info n + (encode (editedOf info inp (.mk [] props children)).tokens).length / 4
        + 1) + field inp 8 + 73 ≤ 4 * outEnd
      omega
  · refine @Stands.puts _ _ _ [(4 * structWord info n, _)] hfield ?_
    simp only [forall_mem_cons, not_mem_nil, false_imp_iff, implies_true, and_true, be32_length]
    omega

/-- Structure block and strings where the header says: the blob holds the edited tree. -/
theorem holds_edited {f start str} (h : WellFormed inp inSize toks raw n)
    (hlen : start + (encode (editedOf info inp raw).tokens).length + (73 + field inp 8) < 2 ^ 32)
    (hstr : str < 2 ^ 32)
    (hblock : Stands f start (encode (editedOf info inp raw).tokens ++ endMark))
    (h2 : Stands f 8 (be32 start)) (h3 : Stands f 12 (be32 str))
    (h8 : Stands f 32 (be32 (73 + field inp 8)))
    (hstrings : Stands f str (bytesAt inp (field inp 3) (field inp 8) ++ insertedStrings)) :
    Holds f (editTree info (raw.map (namesOf inp))) := by
  have hf2 : field f 2 = start := h2.word (by omega)
  have hf3 : field f 3 = str := h3.word (by omega)
  have hf8 : field f 8 = 73 + field inp 8 := h8.word (by omega)
  have hkey : ∀ i, insertedAt (field inp 8) i < 2 ^ 32 := by
    intro i
    have hoff : i.off ≤ 73 := by cases i <;> decide
    unfold insertedAt
    omega
  have hraw : ∀ tok ∈ raw.tokens, tok.Valid := by
    intro tok ht
    rw [← h.block.tree] at ht
    exact h.block.valid tok (mem_of_mem_filter ht)
  refine ⟨(editedOf info inp raw).tokens, editedOf info inp raw,
    ⟨editRoot_valid hraw hkey (by unfold editedOf at hlen; omega), by rw [hf2]; exact hblock,
      Node.tokens_filter _, ?_⟩, ?_⟩
  · rw [hf3, hf8, Node.all_iff]
    intro off value ht
    rcases mem_editRoot ht with ht | ht
    · exact (nameAt_kept hstrings ((Node.all_iff raw).mp h.block.strings off value ht)).2
    · rcases inserted_tok ht with ⟨i, v, heq⟩ | heq | heq
      · obtain ⟨rfl, -⟩ := Token.prop.inj heq
        exact (nameAt_inserted hstrings i).2
      · cases heq
      · cases heq
  · rw [hf3, hf8]
    refine editRoot_map (fun i => (nameAt_inserted hstrings i).1) raw ?_
    rw [Node.all_iff]
    intro off value ht
    exact (nameAt_kept hstrings ((Node.all_iff raw).mp h.block.strings off value ht)).1

/-- For a well-formed device tree whose edit fits into the output buffer the
function succeeds, and the blob it has stored holds the edited tree and no other. -/
theorem transformFdt_edits (outEnd : Nat) (inp : Nat → UInt8) (inSize : Nat) (info : FdtAddendum)
    (toks : List Token) (raw : Node Nat) (n : Nat) (h : WellFormed inp inSize toks raw n)
    (he : Editable info (namesOf inp) raw)
    (hroom : 4 * structWord info n + (encode (editedOf info inp raw).tokens).length + 4 +
      (73 + field inp 8) ≤ 4 * outEnd) (hout : outEnd ≤ 2 ^ 30) (m : Mem) :
    ∃ m', (transformFdt outEnd inp inSize info).run m = .ok true m' ∧
      ∀ u, Holds m'.byte u ↔ u = editTree info (raw.map (namesOf inp)) := by
  obtain ⟨m₁, hrun, hfield, hblock⟩ := transformTree_run h he hroom hout (m.put 0 (be32 0))
  have hlow : 16 ≤ structWord info n := by
    unfold structWord resvWord
    split <;> omega
  obtain ⟨k, hk⟩ := encode_length_dvd (editedOf info inp raw).tokens
  have hsize : (insertedStrings.length + field inp 8) % 2 ^ 32 = 73 + field inp 8 := by
    rw [insertedStrings_length]
    omega
  obtain ⟨hst, h2, h3, h8, -, hstr⟩ := @finish_stands info (layoutOf inp inSize).tree m₁
    (structWord info n) (structWord info n + (encode (editedOf info inp raw).tokens).length / 4)
    (encode (editedOf info inp raw).tokens) hlow (by omega) hblock _ hfield (be32_length _)
  generalize hm : m₁.puts _ = m₂ at hrun hst h2 h3 h8 hstr
  rw [show (layoutOf inp inSize).tree.stringSize = field inp 8 from rfl, hsize] at h8
  have hholds := holds_edited h (by omega) (by omega) (Stands.magic hst (by omega))
    (Stands.magic h2 (by decide)) (Stands.magic h3 (by decide)) (Stands.magic h8 (by decide))
    (Stands.magic hstr (by omega))
  refine ⟨m₂.put 0 (be32 0xd00dfeed), ?_, fun u => ⟨fun hu => hu.unique hholds, ?_⟩⟩
  · unfold transformFdt
    rw [decide_eq_true (show outEnd ≤ 0x40000000 from hout), h.readHeader (h.strings_pos he)]
    exact run_bind_of_ok hrun _
  · rintro rfl
    exact hholds

/-! A board's tree: cell counts with a no-operation between them, an old memory
node, and a `/chosen` with an old seed. -/

def boardStrings : List UInt8 :=
  ascii "#address-cells" ++ [0] ++ ascii "#size-cells" ++ [0] ++ ascii "kaslr-seed" ++ [0] ++
    ascii "bootargs" ++ [0]

def boardTree : Node Nat :=
  .mk [] [(0, be32 2), (15, be32 1)]
    [.mk (ascii "memory") [] [],
      .mk (ascii "chosen") [(27, be64 0), (38, ascii "quiet" ++ [0])] []]

def boardToks : List Token :=
  [.beginNode [], .prop 0 (be32 2), .nop, .prop 15 (be32 1), .beginNode (ascii "memory"), .endNode,
    .beginNode (ascii "chosen"), .prop 27 (be64 0), .prop 38 (ascii "quiet" ++ [0]), .endNode,
    .endNode]

def boardBlob : List UInt8 :=
  be32 0xd00dfeed ++ be32 227 ++ be32 56 ++ be32 180 ++ be32 40 ++ be32 17 ++ be32 16 ++ be32 0 ++
    be32 47 ++ be32 124 ++ List.replicate 16 0 ++ encode boardToks ++ endMark ++ boardStrings

def boardInfo : FdtAddendum :=
  ⟨0x8000000, 0x1000, 0x2000, 0x200000, 0x7fe00000, fun i => UInt32.ofNat i, 4, 0⟩

theorem boardBlob_wellFormed :
    WellFormed (fun i => boardBlob.getD i 0) 227 boardToks boardTree 0 where
  magic := by decide +kernel
  version := by decide +kernel
  compatible := by decide +kernel
  total := by decide +kernel
  aligned := by decide +kernel
  block := {
    valid := by decide +kernel
    stands := by unfold Stands; decide +kernel
    tree := by decide +kernel
    strings := by
      simp only [boardTree, Node.All, Node.AllForest, forall_mem_cons]
      unfold Terminated
      decide +kernel }
  inside := by decide +kernel
  structSize := by decide +kernel
  root := ⟨boardToks.tail.dropLast, by decide +kernel⟩
  strings := by decide +kernel
  resvAligned := by decide +kernel
  resvInside := by decide +kernel
  reserves := ⟨fun i hi => absurd hi (Nat.not_lt_zero i), by decide +kernel⟩

theorem boardTree_editable :
    Editable boardInfo (namesOf fun i => boardBlob.getD i 0) boardTree where
  paths := by
    simp only [boardTree, PathsFit, PathsFitForest]
    decide
  unique := by decide +kernel
  addr := by decide +kernel
  size := by decide +kernel
  dram := ⟨by decide +kernel, by decide +kernel⟩
  initcpio := by decide +kernel

theorem transformFdt_edits_board :
    ∃ m', (transformFdt 256 (fun i => boardBlob.getD i 0) 227 boardInfo).run ⟨fun _ => 0, []⟩ =
        .ok true m' ∧
      ∀ u, Holds m'.byte u ↔
        u = editTree boardInfo (boardTree.map (namesOf fun i => boardBlob.getD i 0)) :=
  transformFdt_edits 256 (fun i => boardBlob.getD i 0) 227 boardInfo boardToks boardTree 0
    boardBlob_wellFormed boardTree_editable (by decide +kernel) (by decide) ⟨fun _ => 0, []⟩

end

/-! ## The header `transform_fdt` writes

`struct_size` is the distance from the structure block to the strings, less the
four bytes of the `FDT_END` between them: whatever the input, the block that
the header describes stops in front of the end of its tokens. -/

/-- The names of all properties end inside the string block. -/
def NamesEnd (f : Nat → UInt8) : Prop :=
  ∀ toks : List Token, (∀ tok ∈ toks, tok.Valid) → Stands f (field f 2) (encode toks ++ endMark) →
    ∀ off value, .prop off value ∈ toks → Terminated f (field f 3) (field f 8) off

/-- The offsets and sizes of the reservations, `n` and the empty one, of the
structure block and of the strings. -/
def blocksOf (f : Nat → UInt8) (n : Nat) : List (Nat × Nat) :=
  [(field f 4, 16 * (n + 1)), (field f 2, field f 9), (field f 3, field f 8)]

/-- The header of the blob `f` made from `inp`, whose tokens have been stored
from the word `start` on and whose `FDT_END` is the word `stop`. -/
structure HeaderCorrect (inp f : Nat → UInt8) (start stop : Nat) : Prop where
  version : field f 0 = 0xd00dfeed ∧ field f 5 = 17 ∧ field f 6 = 16
  blocks : ∃ n, Reserves f (field f 4 / 8) n ∧ (∀ b ∈ blocksOf f n, b.1 + b.2 ≤ field f 1) ∧
    (blocksOf f n).Pairwise fun b c => b.1 + b.2 ≤ c.1 ∨ c.1 + c.2 ≤ b.1
  aligned : field f 4 % 8 = 0 ∧ field f 2 % 4 = 0
  stream : field f 2 ≤ 4 * start ∧ 4 * (stop + 1) ≤ field f 2 + field f 9
  names : NamesEnd inp → NamesEnd f

variable {outEnd : Nat} {info : FdtAddendum} {t : FdtInput} {s : TokState}

/-! ## The fields of the structure block -/

theorem orFail_eq_ok {α β : Type} {x : Exec (Option α)} {f : α → Exec (Option β)} {m m' b}
    (h : (x.orFail f).run m = .ok (some b) m') :
    ∃ a m₁, x.run m = .ok (some a) m₁ ∧ (f a).run m₁ = .ok (some b) m' := by
  obtain ⟨_ | a, m₁, hx, hf⟩ := bind_eq_ok h
  · cases hf
  · exact ⟨a, m₁, hx, hf⟩

/-- The function returns true, with the loop entered in `s` and left in `s'`. -/
structure Succeeds (outEnd : Nat) (inp : Nat → UInt8) (inSize : Nat) (info : FdtAddendum) (m : Mem)
    (s s' : TokState) (m' : Mem) : Prop where
  run : (transformFdt outEnd inp inSize info).run m = .ok true m'
  loop : ∃ l m₁ m₂, readHeader inp inSize = some l ∧
    (startTokens outEnd l info).run (m.put 0 (be32 0)) = .ok (some s) m₁ ∧
    (tokenLoop outEnd info l.tree (l.tree.toksEnd - l.tree.toks + 1) s).run m₁ = .ok (some s') m₂

theorem startTokens_field {l : FdtLayout} {m m' : Mem}
    (h : (startTokens outEnd l info).run m = .ok (some s) m') :
    16 ≤ s.out ∧ Stands m'.byte 8 (be32 (4 * s.out)) := by
  obtain ⟨r, m₁, hrun, -, hr⟩ := @startTokens_kept outEnd info l m
  rw [h] at hrun
  cases hrun
  refine ⟨(hr s rfl).1.room.low, ?_⟩
  unfold startTokens at h
  split at h
  · cases h
  · obtain ⟨_, m₂, -, h⟩ := orFail_eq_ok h
    obtain ⟨_, m₃, -, h⟩ := orFail_eq_ok h
    cases h
    exact stands_put _ 8 _

theorem finish_eq_ok {structOut} {m m' : Mem}
    (h : (finish outEnd info t structOut s).run m = .ok (some ()) m') :
    s.out < outEnd ∧ m' = m.puts (finishWrites info t structOut s.out) := by
  unfold finish at h
  split at h
  · cases h
  · split at h
    · cases h
    · next hlt =>
      obtain ⟨_, _, ⟨⟩, h⟩ := bind_eq_ok h
      obtain ⟨_, _, ⟨⟩, h⟩ := bind_eq_ok h
      split at h
      · cases h
      · cases h
        exact ⟨not_le.mp hlt, rfl⟩

/-- A run that returns true has passed through the loop, and its fields describe
the words the loop has stored to. -/
theorem transformFdt_fields {inp inSize} {m m' : Mem}
    (h : (transformFdt outEnd inp inSize info).run m = .ok true m') :
    ∃ s s', Succeeds outEnd inp inSize info m s s' m' ∧ s.out ≤ s'.out ∧ field m'.byte 2 = 4 * s.out ∧
      field m'.byte 9 = 4 * s'.out - 4 * s.out := by
  have hrun := h
  rw [transformFdt_eq] at h
  obtain ⟨hout, h⟩ := bind_assert_eq_ok h
  obtain ⟨_, _, ⟨⟩, h⟩ := bind_eq_ok h
  unfold afterMagic at h
  split at h
  · cases h
  · next l hl =>
    obtain ⟨_ | u, m₃, htree, h⟩ := bind_eq_ok h
    · cases h
    cases h
    obtain ⟨s, m₁, hstart, htree⟩ := orFail_eq_ok htree
    obtain ⟨s', m₂, hloop, hfinish⟩ := orFail_eq_ok htree
    obtain ⟨h16, hfield⟩ := startTokens_field hstart
    obtain ⟨r, ws, hws, hlo, hmono⟩ :=
      @tokenLoop_above outEnd info l.tree _ (l.tree.toksEnd - l.tree.toks + 1) s le_rfl
    obtain ⟨hlt, rfl⟩ := finish_eq_ok hfinish
    rw [hws] at hloop
    cases r with
    | error e => cases hloop
    | ok r =>
      cases hloop
      have hle := hmono s' rfl
      have hout : outEnd ≤ 2 ^ 30 := of_decide_eq_true hout
      have hkept : Stands (m₁.puts ws).byte 8 (be32 (4 * s.out)) := hfield.puts fun w hw => by
        have := hlo w hw
        rw [be32_length]
        omega
      obtain ⟨-, h2, -, -, h9, -⟩ := @finish_stands info l.tree _ s.out s'.out
        (bytesAt (m₁.puts ws).byte (4 * s.out) (4 * s'.out - 4 * s.out)) h16
        (by rw [bytesAt_length]; omega) (by unfold Stands; rw [bytesAt_length]) _ hkept
        (be32_length _)
      have h9 := (Stands.magic h9 (by decide)).word (by omega)
      refine ⟨s, s', ⟨hrun, l, m₁, _, hl, hstart, hws m₁⟩, by omega,
        (Stands.magic h2 (by decide)).word (by omega), h9.trans ?_⟩
      omega

/-- No run that returns true writes a correct header. -/
theorem header_incorrect {inp inSize} {m m' : Mem}
    (h : (transformFdt outEnd inp inSize info).run m = .ok true m') :
    ¬ ∀ s s' m', Succeeds outEnd inp inSize info m s s' m' →
      HeaderCorrect inp m'.byte s.out s'.out := by
  intro hall
  obtain ⟨s, s', hs, hle, hstart, hsize⟩ := transformFdt_fields h
  have hstream := (hall s s' m' hs).stream.2
  omega

/-- The header describes its blob correctly exactly when there is none: for
every input that is accepted, `FDT_END` is outside the structure block. -/
theorem transformFdt_header_iff (outEnd : Nat) (inp : Nat → UInt8) (inSize : Nat)
    (info : FdtAddendum) (m : Mem) :
    (∀ s s' m', Succeeds outEnd inp inSize info m s s' m' →
      HeaderCorrect inp m'.byte s.out s'.out) ↔
      ¬ ∃ m', (transformFdt outEnd inp inSize info).run m = .ok true m' := by
  refine ⟨fun hall ⟨m', h⟩ => header_incorrect h hall, fun hno s s' m' h => ?_⟩
  exact absurd ⟨m', h.run⟩ hno

/-- The tree of a root and an empty `/chosen`, with nothing to announce. -/
theorem bareChosen_header : ¬ ∀ s s' m',
    Succeeds 64 (fun i => bareChosen.getD i 0) 92 ⟨0, 0, 0, 0, 0, fun _ => 0, 0, 0⟩ ⟨fun _ => 0, []⟩
      s s' m' → HeaderCorrect (fun i => bareChosen.getD i 0) m'.byte s.out s'.out := by
  have h : ((transformFdt 64 (fun i => bareChosen.getD i 0) 92
      ⟨0, 0, 0, 0, 0, fun _ => 0, 0, 0⟩).run ⟨fun _ => 0, []⟩).value = some true := by
    decide +kernel
  obtain ⟨m', hrun⟩ := Res.eq_ok_of_value h
  exact header_incorrect hrun

end Rkboot.Dramstage
