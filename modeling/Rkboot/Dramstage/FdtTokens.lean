import Rkboot.Lib.DeviceTree
import Rkboot.Dramstage.TransformFdt

/-! # The pass of `transform_fdt` over tokens

The token loop, read as a machine that takes the tokens of the input one by
one and puts out tokens (`react`). The loop over the bytes refines it: where a
token stands in the input and the machine accepts it, one round of the loop
does what the machine does and stores the bytes of its output. -/
namespace Rkboot.Dramstage
open Lib DeviceTree List Nat

variable {st st' : Pass} {toks off n : Nat} {outs o : List Token} {value bs cs : List UInt8}

/-! ## What is inserted -/

section
variable {α : Type} (key : InsStr → α) (info : FdtAddendum)

def initrdProps (addrCells : Nat) : List (α × List UInt8) :=
  if info.initcpioStart = info.initcpioEnd then []
  else [(key .initrdStart, beBytes (4 * addrCells) info.initcpioStart.toNat),
    (key .initrdEnd, beBytes (4 * addrCells) info.initcpioEnd.toNat)]

def kaslrProps : List (α × List UInt8) :=
  if 2 ≤ info.entropyWords then [(key .kaslrSeed, le32 (info.entropy 0) ++ le32 (info.entropy 1))]
  else []

def rngProps : List (α × List UInt8) :=
  if 2 < info.entropyWords then [(key .rngSeed,
    (List.range (info.entropyWords - 2)).flatMap fun i => le32 (info.entropy (i + 2)))]
  else []

/-- The properties `/chosen` gets. -/
def chosenProps (addrCells : Nat) : List (α × List UInt8) :=
  initrdProps key info addrCells ++ (kaslrProps key info ++ rngProps key info)

/-- The node that describes the DRAM. -/
def dramNode (addrCells sizeCells : Nat) : Node α :=
  .mk (ascii "memory") [(key .deviceType, ascii "memory" ++ [0]),
    (key .reg, beBytes (4 * addrCells) info.dramStart.toNat ++
      beBytes (4 * sizeCells) info.dramSize.toNat)] []

end

/-- The DRAM range can be said in so many cells. -/
structure DramFits (info : FdtAddendum) (addrCells sizeCells : Nat) : Prop where
  start : info.dramStart.toNat < 256 ^ (4 * addrCells)
  size : info.dramSize.toNat < 256 ^ (4 * sizeCells)

/-- The addresses of the initcpio can be said in the cells of the root. -/
structure InitrdFits (info : FdtAddendum) (addrCells : Nat) : Prop where
  low : info.initcpioStart.toNat < 2 ^ 32 ∧ info.initcpioEnd.toNat < 2 ^ 32
  cells : addrCells ≠ 0 ∧ addrCells ≤ 4

/-! ## The machine -/

section
variable (names : Nat → List UInt8) (key : InsStr → Nat) (info : FdtAddendum)

/-- The properties of `/chosen` that are still to be inserted. -/
def Pass.pending (st : Pass) : List Token :=
  if st.inChosen then Node.propTokens (chosenProps key info st.addrCells) else []

/-- A token after the properties of the node it is in. -/
def Pass.behindProps (st : Pass) : Pass := { st with inChosen := false }

/-- The token itself, unless it is left out. -/
def Pass.copied (st : Pass) (tok : Token) : List Token := if st.skipLen = 0 then [tok] else []

def Pass.settle (st : Pass) : Pass :=
  { st with skipLen := if st.path.length ≤ st.skipLen then 0 else st.skipLen }

def Pass.enter (st : Pass) (name : List UInt8) : Option Pass :=
  let skipLen := if st.path.length = 1 ∧ name = ascii "memory" then st.path.length else st.skipLen
  if 256 - st.path.length < name.length + 1 then none
  else
    let path := st.path ++ (name ++ [0])
    let inChosen := if path = chosenPath then true else st.inChosen
    some { st with path, skipLen, inChosen }

def Pass.leave (st : Pass) : Option (Pass × List Token) :=
  if 1 < st.path.length then (popName st.path).map fun path => ({ st with path }, [])
  else if st.path.length = 1 then
    some ({ st with path := [] }, (dramNode key info st.addrCells st.sizeCells).tokens)
  else none

theorem Pass.leave_root (h1 : st.path.length = 1) :
    st.leave key info =
      some ({ st with path := [] }, (dramNode key info st.addrCells st.sizeCells).tokens) := by
  unfold leave
  rw [if_neg (by omega), if_pos h1]

def Pass.take (st : Pass) (off : Nat) (value : List UInt8) : Option Pass :=
  if st.path.length = 1 ∧ value.length = 4 then
    if names off = ascii "#address-cells" then
      if st.addrCells ≠ 0 then none
      else if 4 < beNat value then none
      else some { st with addrCells := beNat value }
    else if names off = ascii "#size-cells" then
      if st.sizeCells ≠ 0 then none
      else if 4 < beNat value then none
      else some { st with sizeCells := beNat value }
    else some st
  else if st.inChosen ∧ names off ∈ replacedProps.map ascii then
    some { st with skipLen := st.path.length }
  else some st

def keepsProp {α : Type} (nm : α → List UInt8) (p : α × List UInt8) : Bool :=
  nm p.1 ∉ replacedProps.map ascii

/-- One token in, the tokens for it out. -/
def react (st : Pass) : Token → Option (Pass × List Token)
  | .nop => some (st, [])
  | .prop off value => (st.take names off value).map fun st' =>
      (st'.settle, st'.copied (.prop off value))
  | .beginNode name => (st.behindProps.enter name).map fun st' =>
      (st'.settle, st.pending key info ++ st'.copied (.beginNode name))
  | .endNode => (st.behindProps.leave key info).map fun r =>
      (r.1.settle, st.pending key info ++ (r.2 ++ r.1.copied .endNode))

/-- Where the token ends the properties of `/chosen`, the initrd can be announced. -/
def Pass.Closes (info : FdtAddendum) (st : Pass) (tok : Token) : Prop :=
  tok.cmd ≠ cmdProp → tok.cmd ≠ cmdNop → st.inChosen = true → InitrdFits info st.addrCells

/-- The machine takes the tokens without leaving the root. -/
inductive Reacts : Pass → List Token → List Token → Pass → Prop where
  | nil (st : Pass) : Reacts st [] [] st
  | cons {st st' st'' : Pass} {tok : Token} {toks o outs : List Token}
      (hc : st.Closes info tok) (h : react names key info st tok = some (st', o))
      (hp : st'.path ≠ []) (hs : Reacts st' toks outs st'') :
      Reacts st (tok :: toks) (o ++ outs) st''

variable {names key info}

theorem Reacts.append {st st' st'' toks toks' outs outs'}
    (h : Reacts names key info st toks outs st') (h' : Reacts names key info st' toks' outs' st'') :
    Reacts names key info st (toks ++ toks') (outs ++ outs') st'' := by
  induction h with
  | nil st => exact h'
  | cons hc hr hp _ ih =>
    rw [append_assoc]
    exact .cons hc hr hp (ih h')

/-- Tokens that are no operation make no difference. -/
theorem Reacts.of_filter {toks : List Token} (hp : st.path ≠ [])
    (h : Reacts names key info st (toks.filter (· ≠ .nop)) outs st') :
    Reacts names key info st toks outs st' := by
  induction toks generalizing st outs with
  | nil => exact h
  | cons tok toks ih =>
    by_cases hnop : tok = .nop
    · subst hnop
      exact .cons (o := []) (fun _ hn => absurd rfl hn) rfl hp (ih hp (by simpa using h))
    · rw [filter_cons_of_pos (by simpa using hnop)] at h
      cases h with
      | cons hc hr hp' hs => exact .cons hc hr hp' (ih hp' hs)

end

/-! ## The inserted bytes -/

theorem prop_bytes (h : 4 ∣ value.length) :
    (Token.prop off value).bytes = propHeader value.length off ++ value := by
  have hpad : pad value = value := by
    have h0 : (4 - value.length % 4) % 4 = 0 := by omega
    rw [pad, h0, replicate_zero, append_nil]
  rw [Token.bytes, Token.body, hpad]
  simp [propHeader, be32, Token.cmd, cmdProp]

theorem initrdCells_eq {addrCells} {v : UInt64} (h0 : addrCells ≠ 0) (h4 : addrCells ≤ 4)
    (hv : v.toNat < 2 ^ 32) : initrdCells addrCells v = beBytes (4 * addrCells) v.toNat := by
  have hzeros : 4 * ((addrCells + (2 ^ 32 - 1)) % 2 ^ 32) = 4 * (addrCells - 1) := by omega
  have hsplit : 4 * addrCells = 4 * (addrCells - 1) + 4 := by omega
  rw [initrdCells, hzeros, hsplit, beBytes_add, div_eq_of_lt (by simpa using hv), beBytes_zero]
  rfl

theorem flatMap_zeros (k : Nat) :
    (List.range k).flatMap (fun _ => be32 0) = List.replicate (4 * k) 0 := by
  induction k with
  | zero => rfl
  | succ k ih =>
    rw [range_succ, flatMap_append, ih, mul_succ, replicate_add]
    rfl

theorem dramCells_eq (n : Nat) (v : UInt64) : dramCells n v = beBytes (4 * n) v.toNat := by
  have hv := v.toNat_lt
  match n with
  | 0 => rfl
  | 1 => simp [dramCells, be32]
  | k + 2 =>
    have hfront : (List.range k).flatMap (fun i => if k + 2 - i > 2 then be32 0
        else be32 (v.toNat >>> ((k + 2 - i - 1) * 32))) = List.replicate (4 * k) 0 := by
      rw [← flatMap_zeros]
      refine flatMap_congr fun i hi => if_pos ?_
      have := mem_range.mp hi
      omega
    have hsplit : 4 * (k + 2) = 4 * k + (4 + 4) := by omega
    have hlow : k + 2 - (k + 1) = 1 := by omega
    rw [hsplit, beBytes_add, beBytes_add 4 4, div_eq_of_lt (by simpa using hv), beBytes_zero,
      dramCells, range_succ, range_succ, flatMap_append, flatMap_append, hfront]
    simp [be32, hlow, shiftRight_eq_div_pow]

/-- From every memory the run stores `bs` at the word `out` and returns `a`. -/
def Emits {α : Type} (x : Exec (Option α)) (out : Nat) (bs : List UInt8) (a : α) : Prop :=
  ∀ m, x.run m = .ok (some a) (m.put (4 * out) bs)

/-- The run moves the output pointer behind what it stores. -/
abbrev Appends (x : Exec (Option Nat)) (out : Nat) (bs : List UInt8) : Prop :=
  Emits x out bs (out + bs.length / 4)

section
variable {α β : Type} {out : Nat}

theorem Emits.pure (a : α) : Emits (Pure.pure (some a)) out [] a := fun _ => rfl

theorem emit_appends (bs : List UInt8) : Appends (emit out bs) out bs := fun _ => rfl

theorem Emits.orFail {x : Exec (Option α)} {f : α → Exec (Option β)} {a b}
    (hx : Emits x out bs a) (hbs : 4 ∣ bs.length)
    (hf : Emits (f a) (out + bs.length / 4) cs b) : Emits (x.orFail f) out (bs ++ cs) b := by
  intro m
  have haddr : 4 * (out + bs.length / 4) = 4 * out + bs.length := by omega
  rw [Exec.orFail_of_some (hx m), hf, haddr, Mem.put_append]

theorem Emits.orFail_nil {x : Exec (Option α)} {f : α → Exec (Option β)} {a b}
    (hx : Emits x out [] a) (hf : Emits (f a) out cs b) : Emits (x.orFail f) out cs b :=
  hx.orFail (Nat.dvd_zero 4) hf

theorem Appends.orFail {x : Exec (Option Nat)} {f : Nat → Exec (Option Nat)} (hx : Appends x out bs)
    (hbs : 4 ∣ bs.length) (hf : Appends (f (out + bs.length / 4)) (out + bs.length / 4) cs) :
    Appends (x.orFail f) out (bs ++ cs) := by
  have hlen : out + (bs ++ cs).length / 4 = out + bs.length / 4 + cs.length / 4 := by
    rw [length_append]
    omega
  unfold Appends
  rw [hlen]
  exact Emits.orFail hx hbs hf

theorem Emits.then_pure {x : Exec (Option α)} {a} (hx : Emits x out bs a)
    (g : α → β) : Emits (x.orFail fun a => Pure.pure (some (g a))) out bs (g a) :=
  fun m => Exec.orFail_of_some (hx m) _

end

section
variable {outEnd : Nat} {info : FdtAddendum} {addrCells out : Nat}

/-- The offset of an inserted string behind the strings of the input. -/
def insertedAt (stringSize : Nat) (i : InsStr) : Nat := stringSize + i.off

abbrev FdtInput.names (t : FdtInput) : Nat → List UInt8 := nameAt t.inp t.str t.stringSize

abbrev FdtInput.key (t : FdtInput) : InsStr → Nat := insertedAt t.stringSize

def propBytes (props : List (Nat × List UInt8)) : List UInt8 := encode (Node.propTokens props)

theorem propBytes_cons {p} (props : List (Nat × List UInt8)) (h : 4 ∣ p.2.length) :
    propBytes (p :: props) = propHeader p.2.length p.1 ++ (p.2 ++ propBytes props) := by
  rw [propBytes, Node.propTokens, map_cons, encode_cons, prop_bytes h, append_assoc]
  rfl

@[simp] theorem propBytes_nil : propBytes [] = [] := rfl

theorem propBytes_append (ps qs : List (Nat × List UInt8)) :
    propBytes (ps ++ qs) = propBytes ps ++ propBytes qs := by
  simp [propBytes, Node.propTokens]

theorem propBytes_dvd (props : List (Nat × List UInt8)) : 4 ∣ (propBytes props).length :=
  encode_length_dvd _

theorem insertInitrd_appends (stringSize : Nat) (hfit : InitrdFits info addrCells)
    (hroom : 4 * out + (propBytes (initrdProps (insertedAt stringSize) info addrCells)).length ≤
      4 * outEnd) : Appends (insertInitrd outEnd info addrCells stringSize out) out
      (propBytes (initrdProps (insertedAt stringSize) info addrCells)) := by
  unfold insertInitrd initrdProps at *
  split at hroom
  · next heq => rw [if_pos heq, if_pos heq]; exact .pure out
  · next hne =>
    have hdvd : ∀ v, 4 ∣ (beBytes (4 * addrCells) v).length := fun v => by
      rw [beBytes_length]
      exact Nat.dvd_mul_right 4 addrCells
    rw [propBytes_cons _ (hdvd _), propBytes_cons _ (hdvd _)] at hroom
    simp only [length_append, propHeader_length, beBytes_length] at hroom
    rw [if_neg hne, if_neg hne, if_neg (by omega), if_neg (by omega), propBytes_cons _ (hdvd _),
      propBytes_cons _ (hdvd _), initrdCells_eq hfit.cells.1 hfit.cells.2 hfit.low.1,
      initrdCells_eq hfit.cells.1 hfit.cells.2 hfit.low.2]
    simp only [propBytes_nil, append_nil, append_assoc, beBytes_length]
    exact emit_appends _

theorem insertKaslrSeed_appends (stringSize : Nat)
    (hroom : 4 * out + (propBytes (kaslrProps (insertedAt stringSize) info)).length ≤ 4 * outEnd) :
    Appends (insertKaslrSeed outEnd info stringSize out) out
      (propBytes (kaslrProps (insertedAt stringSize) info)) := by
  unfold insertKaslrSeed kaslrProps at *
  split at hroom
  · next h2 =>
    have hdvd : 4 ∣ (le32 (info.entropy 0) ++ le32 (info.entropy 1)).length := ⟨2, rfl⟩
    rw [propBytes_cons _ hdvd] at hroom
    simp only [length_append, propHeader_length, le32_length] at hroom
    rw [if_pos h2, if_pos h2, if_neg (by omega), propBytes_cons _ hdvd, append_assoc,
      propBytes_nil, append_nil]
    exact emit_appends _
  · next h2 => rw [if_neg h2, if_neg h2]; exact .pure out

theorem insertRngSeed_appends (stringSize : Nat)
    (hroom : 4 * out + (propBytes (rngProps (insertedAt stringSize) info)).length ≤ 4 * outEnd) :
    Appends (insertRngSeed outEnd info stringSize out) out
      (propBytes (rngProps (insertedAt stringSize) info)) := by
  unfold insertRngSeed rngProps at *
  split at hroom
  · next h2 =>
    have hlen := flatMap_le32_length (List.range (info.entropyWords - 2))
      fun i => info.entropy (i + 2)
    rw [length_range] at hlen
    have hdvd : 4 ∣ ((List.range (info.entropyWords - 2)).flatMap
        fun i => le32 (info.entropy (i + 2))).length := ⟨_, hlen⟩
    rw [propBytes_cons _ hdvd] at hroom
    simp only [length_append, propHeader_length, hlen] at hroom
    rw [if_pos h2, if_pos h2, if_neg (by omega), if_neg (by omega), propBytes_cons _ hdvd, hlen,
      propBytes_nil, append_nil]
    exact emit_appends _
  · next h2 => rw [if_neg h2, if_neg h2]; exact .pure out

theorem insertChosenProps_appends (stringSize : Nat) (hfit : InitrdFits info addrCells)
    (hroom : 4 * out + (propBytes (chosenProps (insertedAt stringSize) info addrCells)).length ≤
      4 * outEnd) : Appends (insertChosenProps outEnd info addrCells stringSize out) out
      (propBytes (chosenProps (insertedAt stringSize) info addrCells)) := by
  have h1 := propBytes_dvd (initrdProps (insertedAt stringSize) info addrCells)
  have h2 := propBytes_dvd (kaslrProps (insertedAt stringSize) info)
  rw [chosenProps, propBytes_append, propBytes_append] at hroom ⊢
  simp only [length_append] at hroom
  exact Appends.orFail (insertInitrd_appends stringSize hfit (by omega)) h1
    (Appends.orFail (insertKaslrSeed_appends stringSize (by omega)) h2
      (insertRngSeed_appends stringSize (by omega)))

theorem memoryNode_eq (info : FdtAddendum) (addrCells sizeCells stringSize : Nat) :
    memoryNode info addrCells sizeCells stringSize =
      encode (dramNode (insertedAt stringSize) info addrCells sizeCells).tokens := by
  have hname : pad (ascii "memory" ++ [0]) = ascii "memory" ++ [0, 0] := by decide
  have hdvd : 4 ∣ (beBytes (4 * addrCells) info.dramStart.toNat ++
      beBytes (4 * sizeCells) info.dramSize.toNat).length := by
    simp only [length_append, beBytes_length]
    omega
  have hlen : (addrCells + sizeCells) * 4 = (beBytes (4 * addrCells) info.dramStart.toNat ++
      beBytes (4 * sizeCells) info.dramSize.toNat).length := by
    simp only [length_append, beBytes_length]
    omega
  rw [memoryNode, hlen, dramCells_eq, dramCells_eq, dramNode, Node.tokens, Node.propTokens]
  simp only [map_cons, map_nil, cons_append, nil_append, Node.forest,
    encode_cons, encode_nil, prop_bytes hdvd]
  simp only [Token.bytes, Token.body, hname, Token.cmd]
  simp [be32, propHeader, insertedAt, cmdNode, cmdNodeEnd, cmdProp, ascii]

theorem insertMemoryNode_appends {sizeCells} (stringSize : Nat)
    (hfit : DramFits info addrCells sizeCells) (hroom : 4 * out + (encode
      (dramNode (insertedAt stringSize) info addrCells sizeCells).tokens).length ≤ 4 * outEnd) :
    Appends (insertMemoryNode outEnd info addrCells sizeCells stringSize out) out
      (encode (dramNode (insertedAt stringSize) info addrCells sizeCells).tokens) := by
  rw [← memoryNode_eq] at hroom ⊢
  rw [memoryNode_length] at hroom
  have hone : ∀ n < 2, 256 ^ (4 * n) ≤ 0x100000000 := by
    intro n hn
    have h := Nat.pow_le_pow_right (show 0 < 256 by decide) (show 4 * n ≤ 4 by omega)
    simpa using h
  have hstart := hfit.start
  have hsize := hfit.size
  unfold insertMemoryNode
  rw [if_neg]
  · exact emit_appends _
  · rintro (⟨h, rfl⟩ | ⟨h, h2⟩ | ⟨h, rfl⟩ | ⟨h, h2⟩ | h)
    · omega
    · have := hone _ h2
      omega
    · omega
    · have := hone _ h2
      omega
    · omega

end

/-! ## Reading a token -/

theorem strnlen_eq {f a} {name : List UInt8}
    (h : Stands f a (name ++ [0])) (h0 : 0 ∉ name) (hn : name.length < n) :
    strnlen f a n = name.length := by
  induction name generalizing a n with
  | nil =>
    obtain ⟨k, rfl⟩ : ∃ k, n = k + 1 := ⟨n - 1, by simp at hn; omega⟩
    rw [strnlen, if_pos h.head.1]
    rfl
  | cons b name ih =>
    rw [length_cons] at hn
    obtain ⟨k, rfl⟩ : ∃ k, n = k + 1 := ⟨n - 1, by omega⟩
    obtain ⟨hb, ht⟩ := Stands.head h
    have hne : ¬ f a = 0 := by
      intro h'
      exact h0 (by rw [← hb, h']; exact mem_cons_self)
    rw [strnlen, if_neg hne, ih ht (fun hm => h0 (mem_cons_of_mem _ hm)) (by omega), length_cons]

theorem strncmpZero_iff {f a c} (h0 : 0 ∉ c) (hz : 0 ∈ bytesAt f a n) :
    strncmpZero f a c n = true ↔ (bytesAt f a n).takeWhile (· ≠ 0) = c := by
  induction c generalizing a n with
  | nil =>
    cases n with
    | zero => simp at hz
    | succ n =>
      rw [bytesAt_succ, strncmpZero]
      by_cases hb : f a = 0 <;> simp [hb]
  | cons b c ih =>
    cases n with
    | zero => simp at hz
    | succ n =>
      rw [mem_cons, not_or] at h0
      rw [bytesAt_succ] at hz ⊢
      rw [strncmpZero, Bool.and_eq_true, beq_iff_eq]
      by_cases hb : f a = 0
      · simp [hb, h0.1]
      · have hz' : 0 ∈ bytesAt f (a + 1) n := by
          rcases mem_cons.mp hz with hz | hz
          · exact absurd hz.symm hb
          · exact hz
        rw [ih h0.2 hz', takeWhile_cons_of_pos (by simpa using hb), List.cons.injEq]

/-- The bytes of a token that are not padding. -/
def tokenSize : Token → Nat
  | .beginNode name => 5 + name.length
  | .prop _ value => 12 + value.length
  | .endNode | .nop => 4

theorem tokenSize_words (tok : Token) (h : tok.bytes.length < 2 ^ 32) :
    (tokenSize tok + 3) % 2 ^ 32 / 4 = tok.bytes.length / 4 := by
  cases tok <;> simp [tokenSize, Token.bytes, Token.body, pad_length] at h ⊢ <;> omega

section
variable {t : FdtInput} {s : TokState} {tok : Token}

/-- A token that stands at the loop's position, wholly inside the structure block. -/
structure Reads (t : FdtInput) (toks : Nat) (tok : Token) : Prop where
  stands : Stands t.inp (4 * toks) tok.bytes
  stop : 4 * toks + tok.bytes.length ≤ 4 * t.toksEnd
  valid : tok.Valid
  short : tok.bytes.length < 2 ^ 32

theorem Reads.cmd (h : Reads t toks tok) : t.cmd toks = tok.cmd :=
  Token.beAt_cmd h.stands

theorem Reads.size (h : Reads t toks tok) : fdtTokenSize t.inp toks t.toksEnd = tokenSize tok := by
  have hcmd := h.cmd
  have hstop := h.stop
  have hshort := h.short
  have hbody := h.stands.right
  rw [beBytes_length] at hbody
  obtain ⟨k, hk⟩ := tok.bytes_length_dvd
  unfold FdtInput.cmd at hcmd
  unfold fdtTokenSize
  rw [if_neg (by omega)]
  cases tok with
  | beginNode name =>
    have h1 : beAt t.inp (4 * toks) 4 = cmdNode := hcmd
    simp only [Token.bytes, Token.body, length_append, beBytes_length, pad_length,
      length_singleton] at hstop hshort
    have hname := strnlen_eq (n := 4 * (t.toksEnd - toks)) hbody.left h.valid (by omega)
    rw [if_pos h1, hname, if_pos (by omega), mod_eq_of_lt (by omega)]
    rfl
  | endNode => rw [hcmd]; rfl
  | prop off value =>
    simp only [Token.bytes, Token.body, length_append, beBytes_length, pad_length] at hstop hshort
    have hlen := hbody.left.left.word h.valid.2
    have h1 : ¬ beAt t.inp (4 * toks) 4 = cmdNode := by simp [hcmd, Token.cmd, cmdNode]
    have h2 : ¬ beAt t.inp (4 * toks) 4 = cmdNodeEnd := by simp [hcmd, Token.cmd, cmdNodeEnd]
    have h3 : beAt t.inp (4 * toks) 4 = cmdProp := hcmd
    rw [if_neg h1, if_neg h2, if_pos h3, if_neg (by omega), hlen, mod_eq_of_lt (by omega),
      if_neg (by omega)]
    rfl
  | nop => rw [hcmd]; rfl

/-- The state with the same pointers and other locals. -/
def TokState.withPass (s : TokState) (st : Pass) : TokState := ⟨st, s.toks, s.out⟩

theorem beginNode_reads {name} (h : Reads t s.toks (.beginNode name)) :
    beginNode t s (tokenSize (.beginNode name)) = (s.toPass.enter name).map s.withPass := by
  have hbody := h.stands.right
  have hname : bytesAt t.inp (4 * s.toks + 4) (name.length + 1) = name ++ [0] := by
    have := hbody.left
    unfold Stands at this
    rwa [length_append, length_singleton] at this
  have hsize : tokenSize (.beginNode name) = 5 + name.length := rfl
  have hrest : nameSize (tokenSize (.beginNode name)) = name.length + 1 := by
    rw [nameSize, if_neg (by omega)]
    omega
  have hmem : (tokenSize (.beginNode name) = 11 ∧ bytesAt t.inp (4 * s.toks + 4) 7 = ascii "memory" ++ [0]) ↔
      name = ascii "memory" := by
    constructor
    · rintro ⟨hlen, hb⟩
      rw [show name.length + 1 = 7 by omega, hb] at hname
      exact (append_cancel_right hname).symm
    · rintro rfl
      exact ⟨rfl, hname⟩
  unfold beginNode Pass.enter
  simp only [hmem, hrest, hname]
  split <;> rfl

theorem named_iff {off c} (hc : 0 ∉ ascii c) (hterm : Terminated t.inp t.str t.stringSize off) :
    t.named off c = true ↔ t.names off = ascii c :=
  strncmpZero_iff hc hterm

theorem property_reads (h : Reads t s.toks (.prop off value))
    (hoff : off < t.stringSize) (hterm : Terminated t.inp t.str t.stringSize off) :
    property t s (tokenSize (.prop off value)) =
      (s.toPass.take t.names off value).map s.withPass := by
  have hbody := h.stands.right
  have hoffset : beAt t.inp (4 * s.toks + 8) 4 = off := by
    have := hbody.left.right.word h.valid.1
    rwa [beBytes_length] at this
  have hvalue : value.length = 4 → beAt t.inp (4 * s.toks + 12) 4 = beNat value := by
    intro h4
    have := hbody.right.left
    unfold Stands at this
    simp only [length_append, beBytes_length, h4] at this
    rw [beAt, this]
  have hsize : tokenSize (.prop off value) = 16 ↔ value.length = 4 := by
    simp only [tokenSize]
    omega
  have haddr := @named_iff t off "#address-cells" (by decide) hterm
  have hsizes := @named_iff t off "#size-cells" (by decide) hterm
  have hnul : ∀ c ∈ replacedProps, 0 ∉ ascii c := by decide
  have hany : replacedProps.any (t.named off) = true ↔ t.names off ∈ replacedProps.map ascii := by
    rw [any_eq_true, mem_map]
    refine exists_congr fun c => and_congr_right fun hc => ?_
    rw [named_iff (hnul c hc) hterm, eq_comm]
  unfold property Pass.take
  simp only [hoffset, hsize, haddr, hsizes, hany]
  rw [if_neg (not_le.mpr hoff)]
  split
  · next hl =>
    rw [hvalue hl.2]
    split
    · split
      · rfl
      · split <;> rfl
    · split
      · split
        · rfl
        · split <;> rfl
      · rfl
  · split <;> rfl

end

/-! ## One round of the loop -/

section
variable {outEnd : Nat} {info : FdtAddendum} {t : FdtInput} {s : TokState} {tok : Token}

/-- The state behind a token of `w` words and output of `n` bytes. -/
def TokState.behind (s : TokState) (st : Pass) (w n : Nat) : TokState :=
  ⟨st, s.toks + w, s.out + n / 4⟩

/-- The state behind the tokens `toks` and the output `outs`. -/
def TokState.after (s : TokState) (st : Pass) (toks outs : List Token) : TokState :=
  s.behind st ((encode toks).length / 4) (encode outs).length

theorem TokState.after_after (s : TokState) (st st' : Pass) (toks toks' : List Token) {o'} :
    (s.after st toks o).after st' toks' o' = s.after st' (toks ++ toks') (o ++ o') := by
  have htoks := encode_length_dvd toks
  have hout := encode_length_dvd o
  simp only [after, behind, encode_append, length_append]
  congr 1 <;> omega

theorem TokState.after_out (s : TokState) (st : Pass) (toks outs : List Token) :
    4 * (s.after st toks outs).out = 4 * s.out + (encode outs).length := by
  have := encode_length_dvd outs
  simp only [after, behind]
  omega

theorem closeChosen_emits (hprop : t.cmd s.toks ≠ cmdProp)
    (hfit : s.inChosen = true → InitrdFits info s.addrCells)
    (hroom : 4 * s.out + (encode (s.toPass.pending t.key info)).length ≤ 4 * outEnd) :
    Emits (closeChosen outEnd info t s) s.out (encode (s.toPass.pending t.key info))
      (s.after s.toPass.behindProps [] (s.toPass.pending t.key info)) := by
  unfold closeChosen Pass.pending at *
  cases hc : s.inChosen with
  | false =>
    have hsame : s.after s.toPass.behindProps [] [] = s := by
      cases s with
      | mk st toks out => cases st; cases hc; rfl
    exact hsame ▸ Emits.pure _
  | true =>
    rw [hc, if_pos rfl] at hroom
    rw [if_pos ⟨rfl, hprop⟩, if_pos rfl]
    exact (insertChosenProps_appends t.stringSize (hfit hc) hroom).then_pure _

theorem endNode_emits {st o} (hr : s.toPass.leave t.key info = some (st, o))
    (hfit : s.path.length = 1 → DramFits info s.addrCells s.sizeCells)
    (hroom : 4 * s.out + (encode o).length ≤ 4 * outEnd) :
    Emits (endNode outEnd info t s) s.out (encode o) (s.after st [] o) := by
  unfold Pass.leave at hr
  unfold endNode
  split at hr
  · next hlen =>
    rw [if_pos hlen]
    obtain ⟨path, hpop, hst⟩ := Option.map_eq_some_iff.mp hr
    cases hst
    rw [hpop]
    exact .pure _
  · next hlen =>
    rw [if_neg hlen]
    split at hr
    · next h1 =>
      cases hr
      rw [if_pos h1]
      exact (insertMemoryNode_appends t.stringSize (hfit h1) hroom).then_pure _
    · cases hr

theorem copyToken_emits (h : Reads t s.toks tok)
    (hroom : 4 * s.out + (encode (s.toPass.copied tok)).length ≤ 4 * outEnd) :
    Emits (copyToken outEnd t s (tok.bytes.length / 4)) s.out (encode (s.toPass.copied tok))
      (s.after s.toPass.settle [tok] (s.toPass.copied tok)) := by
  have hone : (encode [tok]).length = tok.bytes.length := by simp
  obtain ⟨n, hn⟩ := tok.bytes_length_dvd
  have hbytes : bytesAt t.inp (4 * s.toks) (4 * (tok.bytes.length / 4)) = tok.bytes := by
    rw [Nat.mul_div_cancel' ⟨_, hn⟩]
    exact h.stands
  have hcopy : Appends (if s.skipLen = 0 then
      if outEnd - s.out < tok.bytes.length / 4 then pure none
      else emit s.out (bytesAt t.inp (4 * s.toks) (4 * (tok.bytes.length / 4)))
      else pure (some s.out)) s.out (encode (s.toPass.copied tok)) := by
    unfold Pass.copied at *
    split at hroom
    · next h0 =>
      rw [if_pos h0, if_pos h0, if_neg (by omega), hbytes, encode_cons, encode_nil, append_nil]
      exact emit_appends _
    · next h0 => rw [if_neg h0, if_neg h0]; exact .pure _
  unfold TokState.after
  rw [hone]
  exact hcopy.then_pure _

theorem tokenStep_eq (h : Reads t s.toks tok) (hnop : tok.cmd ≠ cmdNop) :
    tokenStep outEnd info t s = (closeChosen outEnd info t s).orFail fun s =>
      (token outEnd info t s (tokenSize tok)).orFail fun s =>
      copyToken outEnd t s (tok.bytes.length / 4) := by
  have hpos : ¬ tokenSize tok = 0 := by cases tok <;> simp [tokenSize]
  unfold tokenStep
  rw [h.size, if_neg hpos, tokenSize_words tok h.short, h.cmd, if_neg hnop]

/-- A round for a token behind the properties of a node: what is pending, what
the token itself inserts, the token. -/
theorem tokenStep_closing (h : Reads t s.toks tok)
    (hprop : tok.cmd ≠ cmdProp) (hnop : tok.cmd ≠ cmdNop)
    (hinit : s.inChosen = true → InitrdFits info s.addrCells)
    (htok : ∀ out, 4 * out + (encode o).length ≤ 4 * outEnd →
      Emits (token outEnd info t ⟨s.toPass.behindProps, s.toks, out⟩ (tokenSize tok)) out (encode o)
        ⟨st, s.toks, out + (encode o).length / 4⟩)
    (hroom : 4 * s.out + (encode (s.toPass.pending t.key info ++
      (o ++ st.copied tok))).length ≤ 4 * outEnd) : Emits (tokenStep outEnd info t s) s.out
      (encode (s.toPass.pending t.key info ++ (o ++ st.copied tok)))
      (s.after st.settle [tok] (s.toPass.pending t.key info ++ (o ++ st.copied tok))) := by
  have hdvd := encode_length_dvd (s.toPass.pending t.key info)
  have hdvd' := encode_length_dvd o
  rw [encode_append, encode_append, length_append, length_append] at hroom
  rw [tokenStep_eq h hnop, ← nil_append [tok], ← s.after_after s.toPass.behindProps,
    ← nil_append [tok], ← TokState.after_after _ st, encode_append, encode_append]
  refine (closeChosen_emits (by rwa [h.cmd]) hinit (by omega)).orFail hdvd ?_
  refine (htok _ (by omega)).orFail hdvd' ?_
  refine @copyToken_emits outEnd t ⟨st, s.toks, _⟩ tok h ?_
  dsimp only
  omega

/-- A round of the loop is a step of the machine. -/
theorem tokenStep_emits (h : Reads t s.toks tok) (hstr : ∀ off value, tok = .prop off value →
      off < t.stringSize ∧ Terminated t.inp t.str t.stringSize off)
    (hr : react t.names t.key info s.toPass tok = some (st, o)) (hinit : s.toPass.Closes info tok)
    (hdram : s.path.length = 1 → tok = .endNode → DramFits info s.addrCells s.sizeCells)
    (hroom : 4 * s.out + (encode o).length ≤ 4 * outEnd) :
    Emits (tokenStep outEnd info t s) s.out (encode o) (s.after st [tok] o) := by
  have hcmd := h.cmd
  cases tok with
  | nop =>
    cases hr
    unfold tokenStep
    rw [h.size, hcmd]
    exact .pure _
  | prop off value =>
    obtain ⟨st₁, htake, hst⟩ := Option.map_eq_some_iff.mp hr
    cases hst
    obtain ⟨hoff, hterm⟩ := hstr off value rfl
    have hclose : Emits (closeChosen outEnd info t s) s.out [] s := by
      unfold closeChosen
      rw [if_neg fun hc => hc.2 hcmd]
      exact .pure s
    have htok : Emits (token outEnd info t s (tokenSize (.prop off value))) s.out []
        (s.withPass st₁) := by
      unfold token
      rw [hcmd, property_reads h hoff hterm, htake]
      exact .pure _
    rw [tokenStep_eq h (by simp [Token.cmd, cmdNop])]
    exact hclose.orFail_nil (htok.orFail_nil (copyToken_emits h hroom))
  | beginNode name =>
    obtain ⟨st₁, henter, hst⟩ := Option.map_eq_some_iff.mp hr
    cases hst
    have hprop : Token.cmd (.beginNode name) ≠ cmdProp := by simp [Token.cmd, cmdProp]
    have hnop : Token.cmd (.beginNode name) ≠ cmdNop := by simp [Token.cmd, cmdNop]
    refine tokenStep_closing (o := []) h hprop hnop (hinit hprop hnop) (fun out _ => ?_) hroom
    have hnode : t.cmd s.toks = cmdNode := hcmd
    unfold token
    rw [if_pos hnode, @beginNode_reads t ⟨s.toPass.behindProps, s.toks, out⟩ name h]
    rw [henter]
    exact .pure _
  | endNode =>
    obtain ⟨⟨st₁, o₁⟩, hleave, hst⟩ := Option.map_eq_some_iff.mp hr
    cases hst
    refine tokenStep_closing h (by decide) (by decide) (hinit (by decide) (by decide))
      (fun out hout => ?_) hroom
    unfold token
    rw [hcmd]
    exact @endNode_emits outEnd info t ⟨s.toPass.behindProps, s.toks, out⟩ st₁ o₁ hleave
      (fun h1 => hdram h1 rfl) hout

theorem react_root_end {names key} (h1 : st.path.length = 1)
    (hr : react names key info st .endNode = some (st', o)) : st'.path = [] := by
  obtain ⟨r, hleave, hst⟩ := Option.map_eq_some_iff.mp hr
  rw [Pass.leave_root key info (show st.behindProps.path.length = 1 from h1)] at hleave
  cases hleave
  cases hst
  rfl

/-- Tokens that stand one behind the other, with the names of their properties. -/
structure ReadsAll (t : FdtInput) (toks : Nat) (l : List Token) : Prop where
  stands : Stands t.inp (4 * toks) (encode l)
  stop : 4 * toks + (encode l).length ≤ 4 * t.toksEnd
  valid : ∀ tok ∈ l, tok.Valid ∧ tok.bytes.length < 2 ^ 32
  strings : ∀ off value, .prop off value ∈ l →
    off < t.stringSize ∧ Terminated t.inp t.str t.stringSize off

theorem ReadsAll.append {toks l r} (h : ReadsAll t toks (l ++ r)) :
    ReadsAll t toks l ∧ ReadsAll t (toks + (encode l).length / 4) r := by
  have hstop := h.stop
  have hst := h.stands
  obtain ⟨n, hn⟩ := encode_length_dvd l
  have haddr : 4 * (toks + (encode l).length / 4) = 4 * toks + (encode l).length := by omega
  rw [encode_append, length_append] at hstop
  rw [encode_append] at hst
  refine ⟨⟨hst.left, by omega, fun u hu => h.valid u (mem_append_left _ hu),
    fun off value hu => h.strings off value (mem_append_left _ hu)⟩, ?_, by omega,
    fun u hu => h.valid u (mem_append_right _ hu),
    fun off value hu => h.strings off value (mem_append_right _ hu)⟩
  rw [haddr]
  exact hst.right

theorem ReadsAll.head (h : ReadsAll t toks [tok]) : Reads t toks tok := by
  obtain ⟨hst, hstop, hv, -⟩ := h
  have hone : encode [tok] = tok.bytes := append_nil _
  rw [hone] at hst hstop
  exact ⟨hst, hstop, (hv tok mem_cons_self).1, (hv tok mem_cons_self).2⟩

/-- A round of the loop, up to the question whether it was the last. -/
theorem tokenLoop_succ {st o} (h : ReadsAll t s.toks [tok])
    (hr : react t.names t.key info s.toPass tok = some (st, o)) (hinit : s.toPass.Closes info tok)
    (hdram : s.path.length = 1 → tok = .endNode → DramFits info s.addrCells s.sizeCells)
    (hroom : 4 * s.out + (encode o).length ≤ 4 * outEnd) (fuel : Nat) (m : Mem) :
    (tokenLoop outEnd info t (fuel + 1) s).run m =
      (if st.path = [] then pure (some (s.after st [tok] o))
        else tokenLoop outEnd info t fuel (s.after st [tok] o)).run (m.put (4 * s.out) (encode o)) := by
  have hstep := tokenStep_emits h.head
    (fun off value he => h.strings off value (he ▸ mem_cons_self)) hr hinit hdram hroom m
  rw [tokenLoop, Exec.orFail_of_some hstep]
  rfl

/-- As long as the machine runs inside the root, so does the loop. -/
theorem tokenLoop_reacts {toks : List Token} (hr : Reacts t.names t.key info st toks outs st')
    (s : TokState) (hs : s.toPass = st) (h : ReadsAll t s.toks toks)
    (hroom : 4 * s.out + (encode outs).length ≤ 4 * outEnd) (fuel : Nat) (m : Mem) :
    (tokenLoop outEnd info t (toks.length + fuel) s).run m =
      (tokenLoop outEnd info t fuel (s.after st' toks outs)).run
        (m.put (4 * s.out) (encode outs)) := by
  induction hr generalizing s m with
  | nil st =>
    subst hs
    rw [length_nil, Nat.zero_add]
    rfl
  | @cons st st₁ st₂ tok toks o outs hc hr hp _ ih =>
    subst hs
    obtain ⟨htok, hrest⟩ := @ReadsAll.append t _ [tok] toks h
    have hout := s.after_out st₁ [tok] o
    have hfuel : (tok :: toks).length + fuel = toks.length + fuel + 1 := by
      rw [length_cons]
      omega
    rw [encode_append, length_append] at hroom
    rw [hfuel, tokenLoop_succ htok hr hc (fun h1 he => absurd (react_root_end h1 (he ▸ hr)) hp)
      (by omega), if_neg hp, ih (s.after st₁ [tok] o) rfl hrest (by omega), s.after_after, hout,
      encode_append, Mem.put_append]
    rfl

/-- The token that leaves the root ends the loop. -/
theorem tokenLoop_ends {st'' : Pass} {toks : List Token}
    (hr : Reacts t.names t.key info st toks outs st')
    (hlast : react t.names t.key info st' tok = some (st'', o)) (hc : st'.Closes info tok)
    (hp : st''.path = []) (hdram : tok = .endNode → DramFits info st'.addrCells st'.sizeCells)
    (s : TokState) (hs : s.toPass = st) (h : ReadsAll t s.toks (toks ++ [tok]))
    (hroom : 4 * s.out + (encode (outs ++ o)).length ≤ 4 * outEnd) (fuel : Nat) (m : Mem) :
    (tokenLoop outEnd info t (toks.length + (fuel + 1)) s).run m =
      .ok (some (s.after st'' (toks ++ [tok]) (outs ++ o))) (m.put (4 * s.out) (encode (outs ++ o))) := by
  obtain ⟨hbody, htail⟩ := h.append
  have hout := s.after_out st' toks outs
  rw [encode_append, length_append] at hroom
  rw [tokenLoop_reacts hr s hs hbody (by omega),
    @tokenLoop_succ outEnd info t (s.after st' toks outs) tok st'' o htail hlast hc (fun _ => hdram)
      (by omega), if_pos hp, s.after_after, hout, encode_append outs, Mem.put_append]
  rfl

end

end Rkboot.Dramstage
