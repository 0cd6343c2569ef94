import Rkboot.Dramstage.TransformFdt

/-! # The safety of `transform_fdt`

What `fdt_token_size` returns, which starts `strnlen` behind the first word of the space with the whole
space as the limit and adds up sizes in 32 bits; and what `transform_fdt` stores. It stays in its
output buffer and ends exactly if the cell counts are known wherever an initcpio is added. -/
namespace Rkboot.Dramstage
open Lib Nat

/-! ## What `fdt_token_size` returns -/

/-- A token of `n` bytes, padding not counted. -/
def TokenAt (inp : Nat → UInt8) (a n : Nat) : Prop :=
  beAt inp a 4 = cmdNode ∧
      (∃ len, n = 5 + len ∧ (∀ i < len, inp (a + 4 + i) ≠ 0) ∧ inp (a + 4 + len) = 0) ∨
    (beAt inp a 4 = cmdNodeEnd ∨ beAt inp a 4 = cmdNop) ∧ n = 4 ∨
    beAt inp a 4 = cmdProp ∧ n = 12 + beAt inp (a + 4) 4

/-- How many bytes from `start` on `fdt_token_size` looks at. -/
def tokenExamined (inp : Nat → UInt8) (start stop : Nat) : Nat :=
  let space := 4 * (stop - start)
  if stop ≤ start then 0
  else if beAt inp (4 * start) 4 = cmdNode then
    4 + min (strnlen inp (4 * start + 4) space + 1) space
  else if beAt inp (4 * start) 4 = cmdProp ∧ 12 ≤ space then 8
  else 4

/-- The size of a token that lies in the space, found by looking at nothing else. -/
structure TokenSizeExact (inp : Nat → UInt8) (start stop : Nat) : Prop where
  size : ∀ n, 0 < n → (fdtTokenSize inp start stop = n ↔
    TokenAt inp (4 * start) n ∧ 4 * start + n ≤ 4 * stop)
  examined : tokenExamined inp start stop ≤ 4 * (stop - start)

theorem strnlen_le (f : Nat → UInt8) (a n : Nat) : strnlen f a n ≤ n := by
  induction n generalizing a with
  | zero => exact le_refl 0
  | succ n ih =>
    rw [strnlen]
    have := ih (a + 1)
    split <;> omega

theorem strnlen_spec (f : Nat → UInt8) (a n : Nat) : (∀ i < strnlen f a n, f (a + i) ≠ 0) ∧
    (strnlen f a n < n → f (a + strnlen f a n) = 0) := by
  induction n generalizing a with
  | zero => exact ⟨fun i hi => absurd hi (Nat.not_lt_zero i), fun h => absurd h (lt_irrefl 0)⟩
  | succ n ih =>
    rw [strnlen]
    split
    · rename_i h0
      exact ⟨fun i hi => absurd hi (Nat.not_lt_zero i), fun _ => h0⟩
    · rename_i hne
      obtain ⟨hbefore, hend⟩ := ih (a + 1)
      refine ⟨fun i hi => ?_, fun hlt => ?_⟩
      · cases i with
        | zero => exact hne
        | succ i =>
          rw [show a + (i + 1) = a + 1 + i by omega]
          exact hbefore i (lt_of_succ_lt_succ hi)
      · rw [show a + (strnlen f (a + 1) n + 1) = a + 1 + strnlen f (a + 1) n by omega]
        exact hend (lt_of_succ_lt_succ hlt)

theorem strnlen_of_nul {f : Nat → UInt8} {a n len} (hbefore : ∀ i < len, f (a + i) ≠ 0)
    (hend : f (a + len) = 0) (hlt : len < n) : strnlen f a n = len := by
  obtain ⟨hbefore', hend'⟩ := strnlen_spec f a n
  rcases lt_trichotomy (strnlen f a n) len with hless | heq | hmore
  · exact absurd (hend' (hless.trans hlt)) (hbefore _ hless)
  · exact heq
  · exact absurd hend (hbefore' _ hmore)

section
variable {inp : Nat → UInt8} {start stop n : Nat}

theorem fdtTokenSize_of_node (hlt : start < stop) (hc : beAt inp (4 * start) 4 = cmdNode) :
    fdtTokenSize inp start stop =
      if strnlen inp (4 * start + 4) (4 * (stop - start)) ≠ 4 * (stop - start) then
        (5 + strnlen inp (4 * start + 4) (4 * (stop - start))) % 2 ^ 32 else 0 := by
  unfold fdtTokenSize
  rw [if_neg (not_le.mpr hlt)]
  exact if_pos hc

theorem tokenAt_node (hc : beAt inp (4 * start) 4 = cmdNode) : TokenAt inp (4 * start) n ↔
    ∃ len, n = 5 + len ∧ (∀ i < len, inp (4 * start + 4 + i) ≠ 0) ∧ inp (4 * start + 4 + len) = 0 := by
  simp [TokenAt, hc, cmdNode, cmdNodeEnd, cmdNop, cmdProp]

theorem tokenAt_prop (hc : beAt inp (4 * start) 4 = cmdProp) : TokenAt inp (4 * start) n ↔
    n = 12 + beAt inp (4 * start + 4) 4 := by
  simp [TokenAt, hc, cmdNode, cmdNodeEnd, cmdNop, cmdProp]

theorem tokenSizeExact_node (hlt : start < stop) (hc : beAt inp (4 * start) 4 = cmdNode) :
    TokenSizeExact inp start stop ↔
      ∃ n < 2 ^ 32, TokenAt inp (4 * start) n ∧ 4 * start + n ≤ 4 * stop := by
  obtain ⟨hbefore, hend⟩ := strnlen_spec inp (4 * start + 4) (4 * (stop - start))
  have hsize := fdtTokenSize_of_node hlt hc
  have hexamined : tokenExamined inp start stop =
      4 + min (strnlen inp (4 * start + 4) (4 * (stop - start)) + 1) (4 * (stop - start)) := by
    unfold tokenExamined
    rw [if_neg (not_le.mpr hlt)]
    exact if_pos hc
  constructor
  · rintro ⟨hexact, hread⟩
    have htoken : TokenAt inp (4 * start) (5 + strnlen inp (4 * start + 4) (4 * (stop - start))) :=
      (tokenAt_node hc).mpr ⟨_, rfl, hbefore, hend (by omega)⟩
    have hret := (hexact _ (by omega)).mpr ⟨htoken, by omega⟩
    rw [hsize, if_pos (by omega)] at hret
    exact ⟨_, hret ▸ mod_lt _ (by decide), htoken, by omega⟩
  · rintro ⟨n, hn, htoken, hin⟩
    obtain ⟨len, rfl, hbefore', hend'⟩ := (tokenAt_node hc).mp htoken
    have hlen := strnlen_of_nul hbefore' hend' (show len < 4 * (stop - start) by omega)
    rw [hlen] at hsize hexamined
    rw [if_pos (by omega), mod_eq_of_lt hn] at hsize
    refine ⟨fun n h0 => ?_, by omega⟩
    rw [hsize]
    constructor
    · rintro rfl
      exact ⟨htoken, hin⟩
    · rintro ⟨htoken, hin⟩
      obtain ⟨len', rfl, hbefore, hend⟩ := (tokenAt_node hc).mp htoken
      rw [← hlen, strnlen_of_nul hbefore hend (by omega)]

theorem tokenSizeExact_prop (hlt : start < stop) (hc : beAt inp (4 * start) 4 = cmdProp) :
    TokenSizeExact inp start stop ↔ (12 ≤ 4 * (stop - start) →
      12 + beAt inp (4 * start + 4) 4 < 2 ^ 32 ∨
        12 + beAt inp (4 * start + 4) 4 = 2 ^ 32 ∧ 4 * (stop - start) < 2 ^ 32) := by
  have hlen : beAt inp (4 * start + 4) 4 < 2 ^ 32 := beAt_lt _ _ 4
  have hsize : fdtTokenSize inp start stop = if 4 * (stop - start) < 12 then 0 else
      if 4 * (stop - start) < (12 + beAt inp (4 * start + 4) 4) % 2 ^ 32 then 0
      else (12 + beAt inp (4 * start + 4) 4) % 2 ^ 32 := by
    simp [fdtTokenSize, hc, not_le.mpr hlt, cmdNode, cmdNodeEnd, cmdProp]
  have hexamined : tokenExamined inp start stop ≤ 4 * (stop - start) := by
    simp only [tokenExamined, hc, cmdNode, cmdProp]
    split_ifs <;> omega
  constructor
  · rintro ⟨hexact, -⟩ h12
    rw [if_neg (not_lt.mpr h12)] at hsize
    rcases lt_trichotomy (12 + beAt inp (4 * start + 4) 4) (2 ^ 32) with h | h | h
    · exact .inl h
    · refine .inr ⟨h, ?_⟩
      by_contra hspace
      have hret := (hexact (2 ^ 32) (by decide)).mpr ⟨(tokenAt_prop hc).mpr h.symm, by omega⟩
      rw [hsize, h, mod_self, if_neg (Nat.not_lt_zero _)] at hret
      exact absurd hret (by decide)
    · have hmod : (12 + beAt inp (4 * start + 4) 4) % 2 ^ 32 = 12 + beAt inp (4 * start + 4) 4 - 2 ^ 32 := by
        omega
      rw [hmod, if_neg (by omega)] at hsize
      have htoken := (tokenAt_prop hc).mp ((hexact _ (by omega)).mp hsize).1
      omega
  · intro h
    refine ⟨fun n h0 => ?_, hexamined⟩
    rw [hsize, tokenAt_prop hc]
    split
    · omega
    · rcases h (by omega) with h | ⟨h, hspace⟩
      · split <;> omega
      · rw [h, mod_self, if_neg (Nat.not_lt_zero _)]
        omega

/-- A command that is neither a node nor a property takes one word, or is not one. -/
theorem tokenSizeExact_other (hnode : beAt inp (4 * start) 4 ≠ cmdNode)
    (hprop : beAt inp (4 * start) 4 ≠ cmdProp) : TokenSizeExact inp start stop := by
  refine ⟨fun n h0 => ?_, ?_⟩
  · by_cases hword : beAt inp (4 * start) 4 = cmdNodeEnd ∨ beAt inp (4 * start) 4 = cmdNop
    · have hret : fdtTokenSize inp start stop = if stop ≤ start then 0 else 4 := by
        rcases hword with h | h <;> simp [fdtTokenSize, h, cmdNode, cmdNodeEnd, cmdProp, cmdNop]
      have htoken : TokenAt inp (4 * start) n ↔ n = 4 := by simp [TokenAt, hnode, hprop, hword]
      rw [hret, htoken]
      split <;> omega
    · obtain ⟨hend, hnop⟩ := not_or.mp hword
      simp [fdtTokenSize, TokenAt, hnode, hprop, hend, hnop, h0.ne]
  · simp only [tokenExamined, hnode, hprop, if_false, false_and]
    split <;> omega

/-- The size is exact unless a node does not end in front of `stop`, or its size or the one of a
property is not below `2 ^ 32`. -/
theorem fdtTokenSize_exact_iff (inp : Nat → UInt8) (start stop : Nat) :
    TokenSizeExact inp start stop ↔ (start < stop →
      (beAt inp (4 * start) 4 = cmdNode →
        ∃ n < 2 ^ 32, TokenAt inp (4 * start) n ∧ 4 * start + n ≤ 4 * stop) ∧
      (beAt inp (4 * start) 4 = cmdProp → 12 ≤ 4 * (stop - start) →
        12 + beAt inp (4 * start + 4) 4 < 2 ^ 32 ∨
          12 + beAt inp (4 * start + 4) 4 = 2 ^ 32 ∧ 4 * (stop - start) < 2 ^ 32)) := by
  by_cases hlt : start < stop
  · by_cases hnode : beAt inp (4 * start) 4 = cmdNode
    · rw [tokenSizeExact_node hlt hnode]
      simp [hlt, hnode, cmdNode, cmdProp]
    · by_cases hprop : beAt inp (4 * start) 4 = cmdProp
      · rw [tokenSizeExact_prop hlt hprop]
        simp [hlt, hprop, cmdNode, cmdProp]
      · simp [hnode, hprop, tokenSizeExact_other hnode hprop]
  · refine ⟨fun _ h => absurd h hlt, fun _ => ⟨fun n h0 => ?_, ?_⟩⟩
    · rw [fdtTokenSize, if_pos (not_lt.mp hlt)]
      omega
    · rw [tokenExamined, if_pos (not_lt.mp hlt)]
      exact Nat.zero_le _

/-- A node at the end of the space whose name ends behind it, and a property of `2 ^ 32 - 1` bytes. -/
theorem fdtTokenSize_inexact :
    (∃ inp, fdtTokenSize inp 0 1 = 5 ∧ tokenExamined inp 0 1 = 5 ∧ ¬ TokenSizeExact inp 0 1) ∧
      ∃ inp, fdtTokenSize inp 0 3 = 11 ∧ ¬ TokenSizeExact inp 0 3 := by
  refine ⟨⟨fun a => [0, 0, 0, 1].getD a 0, by decide, by decide, fun h => ?_⟩,
    fun a => [0, 0, 0, 3, 255, 255, 255, 255].getD a 0, by decide, fun h => ?_⟩
  · exact absurd h.examined (by decide)
  · obtain ⟨htoken, -⟩ := (h.size 11 (by decide)).mp (by decide)
    exact absurd ((tokenAt_prop (by decide)).mp htoken) (by decide)

end

/-! ## What `transform_fdt` stores, and where

Every store in front of, inside and behind the token loop is guarded by a
check of the room left, so whatever the input holds the function returns and
keeps to the output buffer. The exception is `insert_chosen_props` for a tree
whose root has said nothing (or zero) about `#address-cells` by the time
`/chosen` is left: `addr_cells - 1` then is 2^32 - 1. -/
open Exec List

variable {outEnd : Nat} {info : FdtAddendum} {t : FdtInput} {s : TokState}

/-! ## Blindness -/

theorem emit_blind (out : Nat) (bs : List UInt8) : Blind (emit out bs) :=
  (Blind.put _ bs).bind fun _ => .pure _

section
variable {lo out : Nat}

theorem emit_above (bs : List UInt8) (h : lo ≤ 4 * out) :
    Above lo (emit out bs) fun out => lo ≤ 4 * out :=
  ⟨.ok (some _), [(4 * out, bs)], fun _ => rfl, by simpa using h, by rintro _ ⟨⟩; omega⟩

/-- What follows the initrd properties in `/chosen`. -/
theorem insertSeeds_above (stringOffset : Nat) (h : lo ≤ 4 * out) :
    Above lo ((insertKaslrSeed outEnd info stringOffset out).orFail fun out =>
      insertRngSeed outEnd info stringOffset out) fun out => lo ≤ 4 * out :=
  .orFail (.ite (.ite .none (emit_above _ h)) (.some h)) fun _ h =>
    .ite (.ite .none (.ite .none (emit_above _ h))) (.some h)

theorem closeChosen_above (h : lo ≤ 4 * s.out) :
    Above lo (closeChosen outEnd info t s) fun s' => lo ≤ 4 * s'.out :=
  .ite (.orFail (.orFail (.ite (.some h) (.ite .none (.ite .none (emit_above _ h)))) fun _ h =>
    insertSeeds_above _ h) fun _ h => .some h) (.some h)

theorem beginNode_out {size} {s' : TokState} (h : beginNode t s size = some s') : s'.out = s.out := by
  unfold beginNode at h
  dsimp only at h
  split at h
  · cases h
  · cases h
    rfl

theorem property_out {size} {s' : TokState} (h : property t s size = some s') : s'.out = s.out := by
  unfold property at h
  dsimp only at h
  split_ifs at h <;> cases h <;> rfl

theorem token_above (size : Nat) (h : lo ≤ 4 * s.out) :
    Above lo (token outEnd info t s size) fun s' => lo ≤ 4 * s'.out := by
  refine .ite (.pure fun s' hs => (beginNode_out hs).symm ▸ h) (.ite (.ite ?_
    (.ite (.orFail (.ite .none (emit_above _ h)) fun _ h => .some h) .none)) ?_)
  · split
    · exact .fault _
    · exact .some h
  · cases decide (t.cmd s.toks = cmdProp) with
    | false => exact .fault _
    | true => exact .pure fun s' hs => (property_out hs).symm ▸ h

theorem copyToken_above (sizeWords : Nat) (h : lo ≤ 4 * s.out) :
    Above lo (copyToken outEnd t s sizeWords) fun s' => lo ≤ 4 * s'.out :=
  .orFail (.ite (.ite .none (emit_above _ h)) (.some h)) fun _ h => .some h

theorem tokenStep_above (h : lo ≤ 4 * s.out) :
    Above lo (tokenStep outEnd info t s) fun s' => lo ≤ 4 * s'.out :=
  .ite .none (.ite (.some h) ((closeChosen_above h).orFail fun _ h =>
    (token_above _ h).orFail fun _ h => copyToken_above _ h))

/-- The loop leaves alone what is in front of its output. -/
theorem tokenLoop_above (fuel : Nat) (s : TokState) (h : lo ≤ 4 * s.out) :
    Above lo (tokenLoop outEnd info t fuel s) fun s' => lo ≤ 4 * s'.out := by
  induction fuel generalizing s with
  | zero => exact .fault _
  | succ fuel ih => exact (tokenStep_above h).orFail fun s' h' => .ite (.some h') (ih s' h')

end

theorem copyReservations_blind (inp : Nat → UInt8) (resvEnd fuel resv out : Nat) :
    Blind (copyReservations outEnd inp resvEnd fuel resv out) := by
  induction fuel generalizing resv out with
  | zero => exact .fault _
  | succ fuel ih =>
    exact .ite (.pure _) (.ite (.pure _) (.ite (.pure _) ((emit_blind _ _).orFail fun _ => ih _ _)))

theorem startTokens_blind (l : FdtLayout) : Blind (startTokens outEnd l info) :=
  .ite (.pure _) ((Blind.put _ _).bind fun _ =>
    .orFail (.ite (.pure _) (emit_blind _ _)) fun _ => (copyReservations_blind _ _ _ _ _).orFail
      fun _ => (Blind.put _ _).bind fun _ => (Blind.put _ _).bind fun _ => (Blind.put _ _).bind
        fun _ => .pure _)

theorem finish_blind (structOut : Nat) : Blind (finish outEnd info t structOut s) :=
  .ite (.pure _) (.ite (.pure _) ((Blind.put _ _).bind fun _ => (Blind.put _ _).bind fun _ =>
    (Blind.put _ _).bind fun _ => (Blind.put _ _).bind fun _ => .ite (.pure _)
      ((Blind.put _ _).bind fun _ => (Blind.put _ _).bind fun _ => (Blind.put _ _).bind fun _ =>
        (Blind.put _ _).bind fun _ => (Blind.put _ _).bind fun _ => (Blind.put _ _).bind fun _ =>
          (Blind.put _ _).bind fun _ => (Blind.put _ _).bind fun _ => .pure _)))

/-! ## Room -/

/-- The run returns, storing only behind the magic number and inside the
buffer, and if it does not give up its result satisfies `Q`. -/
abbrev Kept {α : Type} (outEnd : Nat) (x : Exec (Option α)) (Q : α → Prop) : Prop :=
  Yields 4 (4 * outEnd) x (IfSome Q)

/-- An output pointer behind the header and not behind the buffer. -/
structure Room (outEnd out : Nat) : Prop where
  low : 16 ≤ out
  high : out ≤ outEnd

variable {out : Nat}

theorem kept_none {α : Type} {Q : α → Prop} : Kept outEnd (pure none) Q := .pure ifSome_none

theorem kept_some {α : Type} {Q : α → Prop} {a} (h : Q a) : Kept outEnd (pure (some a)) Q :=
  .pure (ifSome_some.mpr h)

theorem emit_kept {bs : List UInt8} {n} (h : Room outEnd out) (hbs : bs.length = 4 * n)
    (hn : n ≤ outEnd - out) : Kept outEnd (emit out bs) (Room outEnd) := by
  have hlow := h.low
  have hhigh := h.high
  refine (Yields.put (by omega) (by omega)).bind fun _ _ => kept_some ?_
  exact ⟨by omega, by omega⟩

theorem insertInitrd_kept {addrCells : Nat} (stringOffset : Nat) (h : Room outEnd out)
    (h4 : addrCells ≤ 4)
    (hcells : info.initcpioStart ≠ info.initcpioEnd → 6 ≤ outEnd - out → addrCells ≠ 0) :
    Kept outEnd (insertInitrd outEnd info addrCells stringOffset out) (Room outEnd) := by
  refine .ite (fun _ => kept_some h) fun hne => .ite (fun _ => kept_none) fun h6 =>
    .ite (fun _ => kept_none) fun hroom => ?_
  have h0 := hcells hne (by omega)
  refine emit_kept (n := 6 + 2 * addrCells) h ?_ (by omega)
  simp only [length_append, propHeader_length, initrdCells_length _ h0 h4]
  omega

theorem insertKaslrSeed_kept (stringOffset : Nat) (h : Room outEnd out) :
    Kept outEnd (insertKaslrSeed outEnd info stringOffset out) (Room outEnd) :=
  .ite (fun _ => .ite (fun _ => kept_none) fun h5 => emit_kept (n := 5) h (by simp) (by omega))
    fun _ => kept_some h

theorem insertRngSeed_kept (stringOffset : Nat) (h : Room outEnd out) :
    Kept outEnd (insertRngSeed outEnd info stringOffset out) (Room outEnd) := by
  refine .ite (fun _ => .ite (fun _ => kept_none) fun h3 => .ite (fun _ => kept_none) fun hroom => ?_)
    fun _ => kept_some h
  refine emit_kept (n := 3 + (info.entropyWords - 2)) h ?_ (by omega)
  rw [length_append, propHeader_length, flatMap_le32_length, length_range]
  omega

theorem insertMemoryNode_kept (addrCells sizeCells stringSize : Nat) (h : Room outEnd out) :
    Kept outEnd (insertMemoryNode outEnd info addrCells sizeCells stringSize out) (Room outEnd) :=
  .ite (fun _ => kept_none) fun hroom =>
    emit_kept h (memoryNode_length info addrCells sizeCells stringSize) (by omega)

/-! ## The token loop -/

/-- A token begins inside the structure block and reaches at most one word beyond it. -/
theorem fdtTokenSize_bounds {inp start stop} (h : fdtTokenSize inp start stop ≠ 0) :
    start < stop ∧ fdtTokenSize inp start stop ≤ 4 * (stop - start) + 4 := by
  unfold fdtTokenSize at h ⊢
  dsimp only at h ⊢
  split at h
  · exact absurd rfl h
  · next hlt =>
    refine ⟨by omega, ?_⟩
    rw [if_neg hlt]
    have hlen := strnlen_le inp (4 * start + 4) (4 * (stop - start))
    split
    · split <;> omega
    · split
      · omega
      · split
        · split
          · omega
          · split <;> omega
        · split <;> omega

theorem fdtTokenSize_cmd {start} (h : fdtTokenSize t.inp start t.toksEnd ≠ 0) :
    t.cmd start = cmdNode ∨ t.cmd start = cmdNodeEnd ∨ t.cmd start = cmdProp ∨
      t.cmd start = cmdNop := by
  by_contra hno
  push Not at hno
  obtain ⟨h1, h2, h3, h4⟩ := hno
  unfold FdtInput.cmd at h1 h2 h3 h4
  unfold fdtTokenSize at h
  rw [if_neg h1, if_neg h2, if_neg h3, if_neg h4] at h
  split at h <;> exact h rfl

/-- The loop's pointers and counts, in every round; a path, once there is one,
begins with the NUL of the root's name. -/
structure Sane (outEnd : Nat) (s : TokState) : Prop where
  room : Room outEnd s.out
  addr : s.addrCells ≤ 4
  size : s.sizeCells ≤ 4
  path : s.path ≠ [] → s.path.head? = some 0

/-- Leaving `/chosen` with an initcpio to announce and no address cells to do it with. -/
structure CellsMissing (outEnd : Nat) (info : FdtAddendum) (t : FdtInput) (s : TokState) : Prop where
  inChosen : s.inChosen = true
  valid : fdtTokenSize t.inp s.toks t.toksEnd ≠ 0
  cmd : t.cmd s.toks ≠ cmdProp ∧ t.cmd s.toks ≠ cmdNop
  addr : s.addrCells = 0
  initcpio : info.initcpioStart ≠ info.initcpioEnd
  room : 6 ≤ outEnd - s.out

theorem closeChosen_kept (h : Sane outEnd s) (hvalid : fdtTokenSize t.inp s.toks t.toksEnd ≠ 0)
    (hnop : t.cmd s.toks ≠ cmdNop) (hcells : ¬ CellsMissing outEnd info t s) :
    Kept outEnd (closeChosen outEnd info t s) fun s' =>
      Sane outEnd s' ∧ s'.toks = s.toks ∧ s'.path = s.path := by
  refine .ite (fun hin => ?_) fun _ => kept_some ⟨h, rfl, rfl⟩
  have hnot : info.initcpioStart ≠ info.initcpioEnd → 6 ≤ outEnd - s.out → s.addrCells ≠ 0 :=
    fun hne h6 h0 => hcells ⟨hin.1, hvalid, ⟨hin.2, hnop⟩, h0, hne, h6⟩
  have hprops : Kept outEnd (insertChosenProps outEnd info s.addrCells t.stringSize s.out)
      (Room outEnd) :=
    (insertInitrd_kept _ h.room h.addr hnot).orFail fun _ h1 =>
      (insertKaslrSeed_kept _ h1).orFail fun _ h2 => insertRngSeed_kept _ h2
  exact hprops.orFail fun out hout => kept_some ⟨⟨hout, h.addr, h.size, h.path⟩, rfl, rfl⟩

/-- The root of the tree, whose name is empty. -/
structure RootAt (t : FdtInput) (toks : Nat) : Prop where
  cmd : t.cmd toks = cmdNode
  name : t.inp (4 * toks + 4) = 0

theorem beginNode_sane {size} {s' : TokState} (h : Sane outEnd s)
    (hroot : s.path = [] → RootAt t s.toks) (hsize : 4 < size) (hs : beginNode t s size = some s') :
    Sane outEnd s' ∧ s'.toks = s.toks := by
  unfold beginNode at hs
  dsimp only at hs
  split at hs
  · cases hs
  · cases hs
    refine ⟨⟨h.room, h.addr, h.size, fun _ => ?_⟩, rfl⟩
    cases hp : s.path with
    | cons b bs => simpa [hp] using h.path
    | nil =>
      obtain ⟨n, hn⟩ : ∃ n, nameSize size = n + 1 := ⟨size - 5, by rw [nameSize, if_neg (by omega)]; omega⟩
      simp only [hn, nil_append, bytesAt_succ, List.head?_cons, (hroot hp).name]

/-- The first byte of the path stops the loop, as the source's comment says. -/
theorem popName_isSome {path : List UInt8} (h : path.head? = some 0) (hlen : 1 < path.length) :
    ∃ p, popName path = some p ∧ p.head? = some 0 := by
  cases path with
  | nil => simp at hlen
  | cons b bs =>
    cases bs with
    | nil => simp at hlen
    | cons c cs =>
      obtain rfl : b = 0 := by simpa using h
      have hpre : ((0 : UInt8) :: (c :: cs).dropLast).rdropWhile (· ≠ 0) <+:
          0 :: (c :: cs).dropLast := List.rdropWhile_prefix _ _
      unfold popName
      rw [dropLast_cons_cons]
      cases hr : ((0 : UInt8) :: (c :: cs).dropLast).rdropWhile (· ≠ 0) with
      | nil =>
        have hall := rdropWhile_eq_nil_iff.mp hr 0 (mem_cons_self)
        simp at hall
      | cons d ds =>
        rw [hr] at hpre
        obtain ⟨rfl, -⟩ := cons_prefix_cons.mp hpre
        exact ⟨_, rfl, rfl⟩

theorem endNode_kept (h : Sane outEnd s) :
    Kept outEnd (endNode outEnd info t s) fun s' => Sane outEnd s' ∧ s'.toks = s.toks := by
  refine .ite (fun hlen => ?_) fun _ => .ite (fun _ => ?_) fun _ => kept_none
  · have hne : s.path ≠ [] := fun hnil => by simp [hnil] at hlen
    obtain ⟨p, hp, hhead⟩ := popName_isSome (h.path hne) hlen
    rw [hp]
    exact kept_some ⟨⟨h.room, h.addr, h.size, fun _ => hhead⟩, rfl⟩
  · exact (insertMemoryNode_kept _ _ _ h.room).orFail fun out hout =>
      kept_some ⟨⟨hout, h.addr, h.size, fun hnil => absurd rfl hnil⟩, rfl⟩

theorem property_sane {size} {s' : TokState} (h : Sane outEnd s)
    (hs : property t s size = some s') : Sane outEnd s' ∧ s'.toks = s.toks := by
  unfold property at hs
  dsimp only at hs
  split at hs
  · cases hs
  · split at hs
    · split at hs
      · split at hs
        · cases hs
        · split at hs
          · cases hs
          · next h4 => cases hs; exact ⟨⟨h.room, not_lt.mp h4, h.size, h.path⟩, rfl⟩
      · split at hs
        · split at hs
          · cases hs
          · split at hs
            · cases hs
            · next h4 => cases hs; exact ⟨⟨h.room, h.addr, not_lt.mp h4, h.path⟩, rfl⟩
        · cases hs; exact ⟨h, rfl⟩
    · split at hs
      · cases hs; exact ⟨⟨h.room, h.addr, h.size, h.path⟩, rfl⟩
      · cases hs; exact ⟨h, rfl⟩

theorem fdtTokenSize_node {start} (hcmd : t.cmd start = cmdNode)
    (h : fdtTokenSize t.inp start t.toksEnd ≠ 0) (hstop : 4 * t.toksEnd ≤ 2 ^ 31) :
    4 < fdtTokenSize t.inp start t.toksEnd := by
  have hlen := strnlen_le t.inp (4 * start + 4) (4 * (t.toksEnd - start))
  have hlt := (fdtTokenSize_bounds h).1
  rw [fdtTokenSize_of_node hlt hcmd] at h ⊢
  split at h
  · next hne => rw [if_pos hne]; omega
  · exact absurd rfl h

theorem token_kept (h : Sane outEnd s) (hroot : s.path = [] → RootAt t s.toks)
    (hvalid : fdtTokenSize t.inp s.toks t.toksEnd ≠ 0) (hnop : t.cmd s.toks ≠ cmdNop)
    (hstop : 4 * t.toksEnd ≤ 2 ^ 31) :
    Kept outEnd (token outEnd info t s (fdtTokenSize t.inp s.toks t.toksEnd)) fun s' =>
      Sane outEnd s' ∧ s'.toks = s.toks := by
  refine .ite (fun hnode => .pure fun s' hs => ?_) fun hnode => .ite (fun _ => endNode_kept h)
    fun hend => ?_
  · exact beginNode_sane h hroot (fdtTokenSize_node hnode hvalid hstop) hs
  · have hprop : t.cmd s.toks = cmdProp := by
      rcases fdtTokenSize_cmd hvalid with hc | hc | hc | hc
      · exact absurd hc hnode
      · exact absurd hc hend
      · exact hc
      · exact absurd hc hnop
    exact (Yields.assert (decide_eq_true hprop)).bind fun _ _ => .pure fun s' hs =>
      property_sane h hs

theorem copyToken_kept (h : Sane outEnd s) (sizeWords : Nat) :
    Kept outEnd (copyToken outEnd t s sizeWords) fun s' =>
      Sane outEnd s' ∧ s'.toks = s.toks + sizeWords := by
  have hcopy : Kept outEnd (if s.skipLen = 0 then
      if outEnd - s.out < sizeWords then pure none
      else emit s.out (bytesAt t.inp (4 * s.toks) (4 * sizeWords))
      else pure (some s.out)) (Room outEnd) :=
    .ite (fun _ => .ite (fun _ => kept_none) fun hroom =>
      emit_kept h.room (bytesAt_length _ _ _) (by omega)) fun _ => kept_some h.room
  exact hcopy.orFail fun out hout => kept_some ⟨⟨hout, h.addr, h.size, h.path⟩, rfl⟩

/-- One round: it stays inside the buffer and moves on in the input. -/
theorem tokenStep_kept (h : Sane outEnd s) (hroot : s.path = [] → RootAt t s.toks)
    (hstop : 4 * t.toksEnd ≤ 2 ^ 31) (hcells : ¬ CellsMissing outEnd info t s) :
    Kept outEnd (tokenStep outEnd info t s) fun s' =>
      Sane outEnd s' ∧ s.toks < t.toksEnd ∧ s.toks < s'.toks := by
  refine .ite (fun _ => kept_none) fun hvalid => ?_
  obtain ⟨hlt, hsize⟩ := fdtTokenSize_bounds hvalid
  refine .ite (fun _ => kept_some ⟨⟨h.room, h.addr, h.size, h.path⟩, hlt, lt_succ_self _⟩)
    fun hnop => ?_
  refine (closeChosen_kept h hvalid hnop hcells).orFail fun s₁ ⟨h₁, ht₁, hp₁⟩ => ?_
  rw [← ht₁] at hvalid hnop hroot
  rw [← hp₁] at hroot
  rw [← ht₁]
  refine (token_kept h₁ hroot hvalid hnop hstop).orFail fun s₂ ⟨h₂, ht₂⟩ => ?_
  refine (copyToken_kept h₂ _).mono fun r hr s₃ hs₃ => ?_
  obtain ⟨h₃, ht₃⟩ := hr s₃ hs₃
  rw [← ht₁] at hlt hsize
  exact ⟨h₃, hlt, by omega⟩

section
variable {l : FdtLayout}

/-- The states in which the body of the loop is entered. -/
inductive Visits (outEnd : Nat) (l : FdtLayout) (info : FdtAddendum) : TokState → Prop where
  | start {m m' : Mem} {s : TokState} (h : (startTokens outEnd l info).run m = .ok (some s) m') :
      Visits outEnd l info s
  | step {m m' : Mem} {s s' : TokState} (hs : Visits outEnd l info s)
      (h : (tokenStep outEnd info l.tree s).run m = .ok (some s') m') (hp : s'.path ≠ []) :
      Visits outEnd l info s'

/-- The loop from a state it visits: rounds that all have their cells leave it
inside the buffer, and the input's end stops it. -/
theorem tokenLoop_kept (hstop : 4 * l.tree.toksEnd ≤ 2 ^ 31)
    (hcells : ∀ s, Visits outEnd l info s → ¬ CellsMissing outEnd info l.tree s)
    (fuel : Nat) (s : TokState) (hv : Visits outEnd l info s) (h : Sane outEnd s)
    (hroot : s.path = [] → RootAt l.tree s.toks) (hfuel : l.tree.toksEnd - s.toks < fuel) :
    Kept outEnd (tokenLoop outEnd info l.tree fuel s) (Sane outEnd) := by
  induction fuel generalizing s with
  | zero => exact absurd hfuel (Nat.not_lt_zero _)
  | succ fuel ih =>
    intro m
    obtain ⟨r, m', hrun, hst, hr⟩ := tokenStep_kept h hroot hstop (hcells s hv) m
    cases r with
    | none => exact ⟨none, m', run_bind_of_ok hrun _, hst, ifSome_none⟩
    | some s' =>
      obtain ⟨h', hlt, hadv⟩ := hr s' rfl
      have hrest : Kept outEnd (if s'.path = [] then pure (some s')
          else tokenLoop outEnd info l.tree fuel s') (Sane outEnd) :=
        .ite (fun _ => kept_some h') fun hne =>
          ih s' (hv.step hrun hne) h' (fun hnil => absurd hnil hne) (by omega)
      obtain ⟨r', m'', hrun', hst', hr'⟩ := hrest m'
      exact ⟨r', m'', (orFail_of_some hrun _).trans hrun', hst.trans hst', hr'⟩

theorem initrdCells_length_zero (v : UInt64) : (initrdCells 0 v).length = 2 ^ 34 := by
  have hsize : 4 * ((0 + (2 ^ 32 - 1)) % 2 ^ 32) + 4 = 2 ^ 34 := by omega
  rw [initrdCells, length_append, length_replicate, be32_length, hsize]

/-- A visit without cells makes the loop store beyond the buffer. -/
theorem tokenStep_strays (hout : outEnd ≤ 2 ^ 30) (h : CellsMissing outEnd info t s) :
    Strays (4 * outEnd) (tokenStep outEnd info t s) := by
  unfold tokenStep
  rw [if_neg h.valid, if_neg h.cmd.2]
  refine Strays.bind_left ?_ fun r => ?_
  · unfold closeChosen
    rw [if_pos ⟨h.inChosen, h.cmd.1⟩]
    refine Strays.bind_left (Strays.bind_left ?_ fun r => ?_) fun r => ?_
    · have hroom := h.room
      unfold insertInitrd
      rw [if_neg h.initcpio, if_neg (by omega), if_neg (by rw [h.addr]; omega)]
      have hlen := initrdCells_length_zero info.initcpioStart
      refine Strays.bind_left (Strays.put ?_ ?_) fun _ => .pure _
      · simp only [length_append, propHeader_length, h.addr, hlen]
        omega
      · refine ne_nil_of_length_pos ?_
        simp only [length_append, propHeader_length]
        omega
    · cases r with
      | none => exact .pure _
      | some out => exact (insertSeeds_above _ (Nat.zero_le _)).blind
    · cases r <;> exact .pure _
  · cases r with
    | none => exact .pure _
    | some s' => exact ((token_above _ (Nat.zero_le _)).orFail fun _ h => copyToken_above _ h).blind

/-! ## Around the loop -/

theorem readHeader_tree {inp inSize} (h : readHeader inp inSize = some l)
    (hsize : inSize ≤ 2 ^ 31) : 4 * l.tree.toksEnd ≤ 2 ^ 31 ∧ RootAt l.tree l.tree.toks ∧
      l.tree.stringSize < 2 ^ 32 := by
  obtain ⟨-, h⟩ := Option.ite_none_left_eq_some.mp h
  obtain ⟨-, h⟩ := Option.ite_none_left_eq_some.mp h
  obtain ⟨-, h⟩ := Option.ite_none_left_eq_some.mp h
  obtain ⟨hoff, h⟩ := Option.ite_none_left_eq_some.mp h
  obtain ⟨hstruct, h⟩ := Option.ite_none_left_eq_some.mp h
  obtain ⟨hroot, h⟩ := Option.ite_none_left_eq_some.mp h
  obtain ⟨-, h⟩ := Option.ite_none_left_eq_some.mp h
  obtain ⟨-, h⟩ := Option.ite_none_left_eq_some.mp h
  push Not at hoff hstruct hroot
  cases h
  refine ⟨?_, ⟨hroot.1, beAt_eq_zero hroot.2 (i := 0) (by decide)⟩, beAt_lt _ _ _⟩
  dsimp only
  split
  · next h17 =>
    omega
  · omega

theorem copyReservations_kept (inp : Nat → UInt8) (resvEnd fuel resv : Nat)
    (hfuel : resvEnd - resv < fuel) (h : Room outEnd out) :
    Kept outEnd (copyReservations outEnd inp resvEnd fuel resv out) fun out =>
      Room outEnd out ∧ 4 ≤ outEnd - out := by
  induction fuel generalizing resv out with
  | zero => exact absurd hfuel (Nat.not_lt_zero _)
  | succ fuel ih =>
    refine .ite (fun _ => kept_none) fun h2 => .ite (fun _ => kept_none) fun h4 =>
      .ite (fun _ => kept_some ⟨h, by omega⟩) fun _ => ?_
    exact (emit_kept (n := 4) h (bytesAt_length _ _ _) (by omega)).orFail fun _ h' =>
      ih (resv + 2) (by omega) h'

theorem startTokens_kept : Kept outEnd (startTokens outEnd l info) fun s =>
    Sane outEnd s ∧ s.toks = l.tree.toks := by
  refine .ite (fun _ => kept_none) fun h20 => ?_
  refine (Yields.put (by decide) (by rw [length_replicate]; omega)).bind fun _ _ => ?_
  have h16 : Room outEnd 16 := ⟨le_refl 16, by omega⟩
  have hinit : Kept outEnd (reserveInitcpio info 16) (Room outEnd) :=
    .ite (fun _ => kept_some h16) fun _ => emit_kept (n := 4) h16 (by simp) (by omega)
  refine hinit.orFail fun out₁ h₁ => ?_
  refine (copyReservations_kept _ _ _ _ (lt_succ_self _) h₁).orFail fun out₂ ⟨h₂, h4⟩ => ?_
  have hlow := h₂.low
  refine (Yields.put (by omega) (by rw [length_replicate]; omega)).bind fun _ _ => ?_
  refine (Yields.put (by decide) (by rw [be32_length]; omega)).bind fun _ _ => ?_
  refine (Yields.put (by decide) (by rw [be32_length]; omega)).bind fun _ _ => kept_some ?_
  exact ⟨⟨⟨by dsimp only; omega, by dsimp only; omega⟩, Nat.zero_le 4, Nat.zero_le 4,
    fun hnil => absurd rfl hnil⟩, rfl⟩

theorem finish_kept (h : Sane outEnd s) (hstr : t.stringSize < 2 ^ 32) (structOut : Nat) :
    Kept outEnd (finish outEnd info t structOut s) fun _ => True := by
  have hlow := h.room.low
  refine .ite (fun _ => kept_none) fun _ => .ite (fun _ => kept_none) fun hlt => ?_
  have hfield : ∀ (a v : Nat), 4 ≤ a → a ≤ 60 →
      Yields 4 (4 * outEnd) (Exec.put a (be32 v)) fun _ => True :=
    fun a v h1 h2 => .put h1 (by rw [be32_length]; omega)
  have hdouble : ∀ (a v : Nat), 4 ≤ a → a ≤ 56 →
      Yields 4 (4 * outEnd) (Exec.put a (be64 v)) fun _ => True :=
    fun a v h1 h2 => .put h1 (by rw [be64_length]; omega)
  refine (Yields.put (by omega) (by rw [be32_length]; omega)).bind fun _ _ => ?_
  refine (hfield _ _ (by decide) (by decide)).bind fun _ _ => ?_
  refine (hfield _ _ (by decide) (by decide)).bind fun _ _ => ?_
  refine (hfield _ _ (by decide) (by decide)).bind fun _ _ => ?_
  refine .ite (fun _ => kept_none) fun hroom => ?_
  rw [insertedStrings_length] at hroom
  refine (Yields.put (by omega) (by rw [bytesAt_length]; omega)).bind fun _ _ => ?_
  refine (Yields.put (by omega) (by rw [insertedStrings_length]; omega)).bind fun _ _ => ?_
  refine (hfield _ _ (by decide) (by decide)).bind fun _ _ => ?_
  refine (hdouble _ _ (by decide) (by decide)).bind fun _ _ => ?_
  refine (hdouble _ _ (by decide) (by decide)).bind fun _ _ => ?_
  refine (hfield _ _ (by decide) (by decide)).bind fun _ _ => ?_
  refine (hfield _ _ (by decide) (by decide)).bind fun _ _ => ?_
  refine (hfield _ _ (by decide) (by decide)).bind fun _ _ => ?_
  exact kept_some trivial

/-- The tree is transformed inside the buffer when every round has its cells. -/
theorem transformTree_kept (hstop : 4 * l.tree.toksEnd ≤ 2 ^ 31) (hroot : RootAt l.tree l.tree.toks)
    (hstr : l.tree.stringSize < 2 ^ 32)
    (hcells : ∀ s, Visits outEnd l info s → ¬ CellsMissing outEnd info l.tree s) :
    Kept outEnd (transformTree outEnd l info) fun _ => True := by
  intro m
  obtain ⟨r, m', hrun, hst, hr⟩ := @startTokens_kept outEnd info l m
  cases r with
  | none => exact ⟨none, m', run_bind_of_ok hrun _, hst, ifSome_none⟩
  | some s =>
    obtain ⟨hsane, htoks⟩ := hr s rfl
    have hrest : Kept outEnd ((tokenLoop outEnd info l.tree (l.tree.toksEnd - l.tree.toks + 1) s).orFail
        fun s' => finish outEnd info l.tree s.out s') fun _ => True :=
      (tokenLoop_kept hstop hcells _ s (.start hrun) hsane (fun _ => htoks ▸ hroot)
        (by rw [htoks]; exact lt_succ_self _)).orFail fun s' h' => finish_kept h' hstr _
    obtain ⟨r', m'', hrun', hst', hr'⟩ := hrest m'
    exact ⟨r', m'', (orFail_of_some hrun _).trans hrun', hst.trans hst', hr'⟩

/-! ## The converse -/

theorem cellsMissing_strays {fuel} (hout : outEnd ≤ 2 ^ 30) (h : CellsMissing outEnd info t s) :
    Strays (4 * outEnd) (tokenLoop outEnd info t (fuel + 1) s) :=
  (tokenStep_strays hout h).bind_left fun r => by
    cases r with
    | none => exact .pure _
    | some s' => exact .ite (.pure _) (tokenLoop_above _ _ (Nat.zero_le _)).blind

/-- A run that does not stray visits only sane states that have their cells. -/
theorem visits_sane (hout : outEnd ≤ 2 ^ 30) (hstop : 4 * l.tree.toksEnd ≤ 2 ^ 31)
    (hroot : RootAt l.tree l.tree.toks)
    (hno : ¬ Strays (4 * outEnd) (transformTree outEnd l info)) (hv : Visits outEnd l info s) :
    Sane outEnd s ∧ (s.path = [] → RootAt l.tree s.toks) ∧ ∃ fuel, l.tree.toksEnd - s.toks ≤ fuel ∧
      ¬ Strays (4 * outEnd) (tokenLoop outEnd info l.tree (fuel + 1) s) := by
  induction hv with
  | @start m m' s h =>
    obtain ⟨r, m₁, hrun, -, hr⟩ := @startTokens_kept outEnd info l m
    rw [h] at hrun
    cases hrun
    obtain ⟨hsane, htoks⟩ := hr s rfl
    refine ⟨hsane, fun _ => htoks ▸ hroot, l.tree.toksEnd - l.tree.toks, by rw [htoks], fun hs => ?_⟩
    obtain ⟨ws, hws⟩ := (startTokens_blind l).ok h
    refine hno (Strays.bind_right hws (Strays.bind_left hs fun r => ?_))
    cases r with
    | none => exact .pure _
    | some s' => exact finish_blind _
  | @step m m' s s' _ h hp ih =>
    obtain ⟨hsane, hr, fuel, hfuel, hloop⟩ := ih
    have hcells : ¬ CellsMissing outEnd info l.tree s := fun hc => hloop (cellsMissing_strays hout hc)
    obtain ⟨r, m₁, hrun, -, hpost⟩ := tokenStep_kept hsane hr hstop hcells m
    rw [h] at hrun
    cases hrun
    obtain ⟨hsane', hlt, hadv⟩ := hpost s' rfl
    obtain ⟨f, rfl⟩ : ∃ f, fuel = f + 1 := ⟨fuel - 1, by omega⟩
    refine ⟨hsane', fun hnil => absurd hnil hp, f, by omega, fun hs => hloop ?_⟩
    obtain ⟨ws, hws⟩ := (tokenStep_above (Nat.zero_le _)).blind.ok h
    refine Strays.bind_right hws ?_
    dsimp only
    rwa [if_neg hp]

theorem transformTree_strays (hout : outEnd ≤ 2 ^ 30) (hstop : 4 * l.tree.toksEnd ≤ 2 ^ 31)
    (hroot : RootAt l.tree l.tree.toks) (hv : Visits outEnd l info s)
    (hc : CellsMissing outEnd info l.tree s) :
    Strays (4 * outEnd) (transformTree outEnd l info) := by
  by_contra hno
  obtain ⟨-, -, fuel, -, hloop⟩ := visits_sane hout hstop hroot hno hv
  exact hloop (cellsMissing_strays hout hc)

end

/-! ## The whole function -/

/-- The function returns, stores only in the output buffer, and leaves the magic
number zero when it refuses the input. -/
def Safe (outEnd : Nat) (inp : Nat → UInt8) (inSize : Nat) (info : FdtAddendum) : Prop :=
  ∀ m, ∃ ok m', (transformFdt outEnd inp inSize info).run m = .ok ok m' ∧
    Stored m m' 0 (4 * outEnd) ∧ (ok = false → m'.bytes 0 4 = [0, 0, 0, 0])

variable {inp : Nat → UInt8} {inSize : Nat}

/-- Everything between the first store and the return. -/
def afterMagic (outEnd : Nat) (inp : Nat → UInt8) (inSize : Nat) (info : FdtAddendum) :
    Exec Bool :=
  match readHeader inp inSize with
  | none => pure false
  | some l => transformTree outEnd l info >>= fun
    | none => pure false
    | some () => Exec.put 0 (be32 0xd00dfeed) >>= fun _ => pure true

theorem transformFdt_eq : transformFdt outEnd inp inSize info =
    (Exec.assert (outEnd ≤ 0x40000000) >>= fun _ => Exec.put 0 (be32 0) >>= fun _ =>
      afterMagic outEnd inp inSize info) := rfl

theorem transformTree_blind (l : FdtLayout) : Blind (transformTree outEnd l info) :=
  (startTokens_blind l).orFail fun _ => (tokenLoop_above _ _ (Nat.zero_le _)).blind.orFail
    fun _ => finish_blind _

theorem magic_blind (r : Option Unit) : Blind (match r with
    | none => pure false
    | some () => Exec.put 0 (be32 0xd00dfeed) >>= fun _ => pure true : Exec Bool) := by
  cases r with
  | none => exact .pure _
  | some _ => exact (Blind.put _ _).bind fun _ => .pure _

theorem afterMagic_blind : Blind (afterMagic outEnd inp inSize info) := by
  unfold afterMagic
  split
  · exact .pure _
  · exact (transformTree_blind _).bind magic_blind

theorem transformFdt_run (hout : outEnd ≤ 2 ^ 30) (m : Mem) :
    (transformFdt outEnd inp inSize info).run m =
      (afterMagic outEnd inp inSize info).run (m.put 0 (be32 0)) := by
  rw [transformFdt_eq, decide_eq_true (show outEnd ≤ 0x40000000 from hout)]
  rfl

theorem transformFdt_strays {b} (hout : outEnd ≤ 2 ^ 30)
    (h : Strays b (Exec.put 0 (be32 0) >>= fun _ => afterMagic outEnd inp inSize info)) :
    Strays b (transformFdt outEnd inp inSize info) := by
  rw [transformFdt_eq, decide_eq_true (show outEnd ≤ 0x40000000 from hout)]
  exact h

theorem Safe.not_strays (h : Safe outEnd inp inSize info) :
    ¬ Strays (4 * outEnd) (transformFdt outEnd inp inSize info) := by
  intro hs
  obtain ⟨ok, m', hrun, hst, -⟩ := h ⟨fun _ => 0, []⟩
  refine @Strays.not_stored _ 0 _ _ hs ⟨fun _ => 0, []⟩ ?_
  rw [hrun]
  exact hst

/-- Behind the first store everything stays behind the magic number, which is
stored again only when the function succeeds. -/
theorem safe_of_cells (hsize : inSize ≤ 2 ^ 31) (hpos : 0 < outEnd) (hout : outEnd ≤ 2 ^ 30)
    (hcells : ∀ l, readHeader inp inSize = some l → ∀ s, Visits outEnd l info s →
      ¬ CellsMissing outEnd info l.tree s) : Safe outEnd inp inSize info := by
  intro m
  have hmagic : Stored m (m.put 0 (be32 0)) 0 (4 * outEnd) :=
    m.put_stored _ (le_refl 0) (by rw [be32_length]; omega)
  have hzero : (m.put 0 (be32 0)).bytes 0 4 = [0, 0, 0, 0] := m.put_bytes 0 (be32 0)
  rw [transformFdt_run hout]
  unfold afterMagic
  cases hl : readHeader inp inSize with
  | none => exact ⟨false, _, rfl, hmagic, fun _ => hzero⟩
  | some l =>
    obtain ⟨hstop, hroot, hstr⟩ := readHeader_tree hl hsize
    obtain ⟨r, m', hrun, hst, -⟩ :=
      transformTree_kept hstop hroot hstr (hcells l hl) (m.put 0 (be32 0))
    have hst' : Stored m m' 0 (4 * outEnd) := hmagic.trans (hst.mono (Nat.zero_le 4) le_rfl)
    rw [run_bind_of_ok hrun]
    cases r with
    | none => exact ⟨false, m', rfl, hst', fun _ => (hst.bytes (Or.inl (le_refl 4))).trans hzero⟩
    | some u =>
      refine ⟨true, m'.put 0 (be32 0xd00dfeed), rfl, hst'.trans ?_, fun hf => by cases hf⟩
      exact m'.put_stored _ (le_refl 0) (by rw [be32_length]; omega)

theorem visits_cells_of_safe (hsize : inSize ≤ 2 ^ 31) (hout : outEnd ≤ 2 ^ 30)
    (h : Safe outEnd inp inSize info) {l : FdtLayout} (hl : readHeader inp inSize = some l)
    (hv : Visits outEnd l info s) : ¬ CellsMissing outEnd info l.tree s := by
  intro hc
  obtain ⟨hstop, hroot, -⟩ := readHeader_tree hl hsize
  have hput : ∀ m : Mem, (Exec.put 0 (be32 0)).run m = .ok () (m.puts [(0, be32 0)]) := fun _ => rfl
  refine h.not_strays (transformFdt_strays hout (Strays.bind_right hput ?_))
  unfold afterMagic
  rw [hl]
  exact (transformTree_strays hout hstop hroot hv hc).bind_left magic_blind

/-- For an input of at most 2^31 bytes the function is safe exactly when the
buffer has room for the magic number, is not larger than the 4 GiB its
assertion allows, and no round of the loop leaves `/chosen` without address cells. -/
theorem transformFdt_safe_iff (outEnd : Nat) (inp : Nat → UInt8) (inSize : Nat)
    (info : FdtAddendum) (hsize : inSize ≤ 2 ^ 31) :
    Safe outEnd inp inSize info ↔
      0 < outEnd ∧ outEnd ≤ 2 ^ 30 ∧ ∀ l, readHeader inp inSize = some l →
        ∀ s, Visits outEnd l info s → ¬ CellsMissing outEnd info l.tree s := by
  refine ⟨fun h => ?_, fun ⟨hpos, hout, hcells⟩ => safe_of_cells hsize hpos hout hcells⟩
  have hout : outEnd ≤ 2 ^ 30 := by
    by_contra hgt
    obtain ⟨ok, m', hrun, -⟩ := h ⟨fun _ => 0, []⟩
    rw [transformFdt_eq, decide_eq_false (show ¬ outEnd ≤ 0x40000000 from hgt)] at hrun
    cases hrun
  refine ⟨?_, hout, fun l hl s hv => visits_cells_of_safe hsize hout h hl hv⟩
  rcases Nat.eq_zero_or_pos outEnd with rfl | hpos
  · refine absurd (transformFdt_strays hout (Strays.bind_left (Strays.put ?_ ?_) ?_)) h.not_strays
    · rw [be32_length]; decide
    · exact ne_nil_of_length_pos (by rw [be32_length]; decide)
    · exact fun _ => afterMagic_blind
  · exact hpos

/-- A tree of a root without properties and an empty `/chosen`. -/
def bareChosen : List UInt8 :=
  be32 0xd00dfeed ++ be32 92 ++ be32 56 ++ be32 88 ++ be32 40 ++ be32 17 ++ be32 16 ++ be32 0 ++
    be32 4 ++ be32 28 ++ List.replicate 16 0 ++
    be32 1 ++ be32 0 ++ be32 1 ++ ascii "chosen" ++ [0, 0] ++ be32 2 ++ be32 2 ++ be32 9 ++ be32 0

def bareInitcpio : FdtAddendum :=
  ⟨0, 0x1000, 0x2000, 0, 0x80000000, fun _ => 0, 0, 0⟩

def bareLayout : FdtLayout := ⟨⟨fun i => bareChosen.getD i 0, 14, 21, 88, 4⟩, 5, 11⟩

/-- The state in which `/chosen` of `bareChosen` is left. -/
def bareState : TokState := ⟨⟨chosenPath, 0, 0, 0, true⟩, 19, 29⟩

theorem bareState_visited : Visits 64 bareLayout bareInitcpio bareState := by
  have h₀ : ((startTokens 64 bareLayout bareInitcpio).run ⟨fun _ => 0, []⟩).value =
      some (some ⟨⟨[], 0, 0, 0, false⟩, 14, 24⟩) := by decide +kernel
  have h₁ : ((tokenStep 64 bareInitcpio bareLayout.tree ⟨⟨[], 0, 0, 0, false⟩, 14, 24⟩).run
      ⟨fun _ => 0, []⟩).value = some (some ⟨⟨[0], 0, 0, 0, false⟩, 16, 26⟩) := by decide +kernel
  have h₂ : ((tokenStep 64 bareInitcpio bareLayout.tree ⟨⟨[0], 0, 0, 0, false⟩, 16, 26⟩).run
      ⟨fun _ => 0, []⟩).value = some (some bareState) := by decide +kernel
  obtain ⟨_, h₀⟩ := Res.eq_ok_of_value h₀
  obtain ⟨_, h₁⟩ := Res.eq_ok_of_value h₁
  obtain ⟨_, h₂⟩ := Res.eq_ok_of_value h₂
  exact ((Visits.start h₀).step h₁ (by simp)).step h₂ (by simp [bareState, chosenPath])

theorem bareState_missing : CellsMissing 64 bareInitcpio bareLayout.tree bareState where
  inChosen := rfl
  valid := by decide +kernel
  cmd := by decide +kernel
  addr := rfl
  initcpio := by decide +kernel
  room := by decide

theorem readHeader_bareChosen : readHeader (fun i => bareChosen.getD i 0) 92 = some bareLayout := by
  unfold readHeader
  rw [if_neg (by decide +kernel), if_neg (by decide +kernel), if_neg (by decide +kernel),
    if_neg (by decide +kernel), if_neg (by decide +kernel), if_neg (by decide +kernel),
    if_neg (by decide +kernel), if_neg (by decide +kernel), bareLayout, Option.some.injEq,
    FdtLayout.mk.injEq, FdtInput.mk.injEq]
  refine ⟨⟨rfl, ?_⟩, ?_⟩ <;> decide +kernel

/-- A tree that says nothing about address cells sends the function beyond its buffer. -/
theorem bareChosen_not_safe : ¬ Safe 64 (fun i => bareChosen.getD i 0) 92 bareInitcpio := by
  intro h
  exact visits_cells_of_safe (by decide) (by decide) h readHeader_bareChosen bareState_visited
    bareState_missing

/-- Without an initcpio the same tree is no danger. -/
theorem transformFdt_safe_iff_bareChosen :
    Safe 64 (fun i => bareChosen.getD i 0) 92 { bareInitcpio with initcpioEnd := 0x1000 } :=
  (transformFdt_safe_iff 64 _ 92 _ (by decide)).mpr
    ⟨by decide, by decide, fun _ _ _ _ hc => hc.initcpio rfl⟩

end Rkboot.Dramstage
