import Mathlib.Data.List.Sort
import Mathlib.Algebra.Ring.Nat

/-! # Flashing over SPI

The erase operations that the SFDP tables of a flash chip name, and the loop that sorts them. -/
namespace Rkboot.Sramstage
open Nat List

structure EraseOp where
  shift : UInt8
  opcode : UInt8
  deriving DecidableEq, Repr, Inhabited

/-- The operations of a JEDEC parameter table, behind those of the tables before it. -/
def collectOps (eraseOps : List EraseOp) (sfdp : Nat → UInt8) : List EraseOp :=
  (List.range 4).foldl (fun eraseOps j =>
    let shift := sfdp (0x1c + j * 2)
    let op := sfdp (0x1d + j * 2)
    if shift ≠ 0 ∧ eraseOps.length < 16 ∧ shift ≤ 16 then eraseOps ++ [⟨shift, op⟩] else eraseOps)
    eraseOps

/-- The inner loop, and where it leaves `p + 1`. -/
def shiftOps (tmp : EraseOp) : Nat → List EraseOp → List EraseOp × Nat
  | 0, eraseOps => (eraseOps, 0) -- `p--` wraps, and `p + 1` wraps back
  | p + 1, eraseOps =>
    if tmp.shift < (eraseOps.getD p default).shift then
      shiftOps tmp p (eraseOps.set p (eraseOps.getD (p + 1) default))
    else (eraseOps, p + 1)

def insertOp (eraseOps : List EraseOp) (i : Nat) : List EraseOp :=
  let tmp := eraseOps.getD i default
  let r := shiftOps tmp i eraseOps
  r.1.set r.2 tmp

def sortOps (eraseOps : List EraseOp) : List EraseOp :=
  (List.range' 1 (eraseOps.length - 1)).foldl insertOp eraseOps

def Ascending (eraseOps : List EraseOp) : Prop := eraseOps.Pairwise (·.shift ≤ ·.shift)

def totalShift (eraseOps : List EraseOp) : Nat := (eraseOps.map (·.shift.toNat)).sum

variable {ops : List EraseOp} {tmp : EraseOp} {p i : Nat}

theorem totalShift_set (h : p < ops.length) (op : EraseOp) :
    totalShift (ops.set p op) + (ops.getD p default).shift.toNat =
      totalShift ops + op.shift.toNat := by
  induction ops generalizing p with
  | nil => exact absurd h (Nat.not_lt_zero p)
  | cons o ops ih =>
    cases p with
    | zero => simp [totalShift]; omega
    | succ p =>
      have := ih (lt_of_succ_lt_succ h)
      simp only [totalShift, set_cons_succ, map_cons, sum_cons, getD_cons_succ] at this ⊢
      omega

/-- The loop copies the new operation over every one it passes: the list is as it was, or some
operation is replaced by a smaller one. -/
def Shrinks (ops ops' : List EraseOp) : Prop := ops' = ops ∨ totalShift ops' < totalShift ops

theorem Shrinks.trans {a b c : List EraseOp} (h : Shrinks a b) (h' : Shrinks b c) : Shrinks a c := by
  rcases h with rfl | h
  · exact h'
  · rcases h' with rfl | h'
    · exact .inr h
    · exact .inr (h'.trans h)

theorem shiftOps_spec (h : p < ops.length) (htmp : ops.getD p default = tmp) :
    (shiftOps tmp p ops).1.getD (shiftOps tmp p ops).2 default = tmp ∧
      (shiftOps tmp p ops).1.length = ops.length ∧ Shrinks ops (shiftOps tmp p ops).1 := by
  induction p generalizing ops with
  | zero => exact ⟨htmp, rfl, .inl rfl⟩
  | succ p ih =>
    rw [shiftOps]
    split
    · rename_i hlt
      have hp : p < ops.length := lt_of_succ_lt h
      have hset := totalShift_set hp tmp
      have hless : totalShift (ops.set p tmp) < totalShift ops := by
        have : tmp.shift.toNat < (ops.getD p default).shift.toNat := hlt
        omega
      obtain ⟨hget, hlen, hs⟩ := @ih (ops.set p tmp) (by simpa using hp) (by simp [hp])
      rw [htmp]
      exact ⟨hget, hlen.trans length_set, Shrinks.trans (.inr hless) hs⟩
    · exact ⟨htmp, rfl, .inl rfl⟩

theorem set_getD_self (ops : List EraseOp) (i : Nat) : ops.set i (ops.getD i default) = ops := by
  rcases lt_or_ge i ops.length with h | h
  · simp [h]
  · exact set_eq_of_length_le h

theorem insertOp_shrinks (h : i < ops.length) :
    (insertOp ops i).length = ops.length ∧ Shrinks ops (insertOp ops i) := by
  obtain ⟨hget, hlen, hs⟩ := shiftOps_spec h rfl
  have heq : insertOp ops i = (shiftOps (ops.getD i default) i ops).1 := by
    rw [insertOp]
    conv_lhs => arg 3; rw [← hget]
    exact set_getD_self _ _
  rw [heq]
  exact ⟨hlen, hs⟩

theorem sortOps_shrinks (ops : List EraseOp) : Shrinks ops (sortOps ops) := by
  have hrun (is : List Nat) (a : List EraseOp) (hlen : a.length = ops.length)
      (his : ∀ i ∈ is, i < ops.length) (h : Shrinks ops a) : Shrinks ops (is.foldl insertOp a) := by
    induction is generalizing a with
    | nil => exact h
    | cons i is ih =>
      have hi : i < a.length := hlen ▸ his i mem_cons_self
      obtain ⟨hlen', hs⟩ := insertOp_shrinks hi
      exact ih _ (hlen'.trans hlen) (fun j hj => his j (mem_cons_of_mem i hj)) (h.trans hs)
  refine hrun _ ops rfl (fun i hi => ?_) (.inl rfl)
  rw [mem_range'_1] at hi
  omega

/-- A list in order stays as it is. -/
theorem Ascending.sortOps (h : Ascending ops) : sortOps ops = ops := by
  refine List.foldlRecOn _ insertOp (motive := fun a => a = ops) rfl fun a ha i hi => ?_
  subst ha
  rw [mem_range'_1] at hi
  obtain ⟨p, rfl⟩ : ∃ p, i = p + 1 := ⟨i - 1, by omega⟩
  have hle : (a.getD p default).shift ≤ (a.getD (p + 1) default).shift := by
    have hle := pairwise_iff_getElem.mp h p (p + 1) (by omega) (by omega) (lt_succ_self p)
    rwa [getElem_eq_getD default, getElem_eq_getD default] at hle
  rw [insertOp]
  simp only [shiftOps, if_neg (UInt8.not_lt.mpr hle)]
  exact set_getD_self _ _

/-- The operations come out sorted, and all of them, only where there was nothing to sort. -/
theorem erase_ops_sorted_iff (ops : List EraseOp) :
    ((sortOps ops).Perm ops ∧ Ascending (sortOps ops)) ↔ Ascending ops := by
  constructor
  · rintro ⟨hperm, hsorted⟩
    rcases sortOps_shrinks ops with heq | hless
    · exact heq ▸ hsorted
    · exact absurd ((hperm.map _).sum_nat) (Nat.ne_of_lt hless)
  · intro h
    rw [h.sortOps]
    exact ⟨.refl ops, h⟩

/-- A table with a 64 KiB and a 4 KiB operation leaves the latter twice. -/
theorem erase_op_lost :
    let sfdp := fun a => [(0x1c, 16), (0x1d, 0xd8), (0x1e, 12), (0x1f, 0x20)].lookup a |>.getD 0
    collectOps [] sfdp = [⟨16, 0xd8⟩, ⟨12, 0x20⟩] ∧
      sortOps (collectOps [] sfdp) = [⟨12, 0x20⟩, ⟨12, 0x20⟩] ∧
      ¬ (sortOps (collectOps [] sfdp)).Perm (collectOps [] sfdp) := by
  decide

end Rkboot.Sramstage
