import Mathlib.Data.List.FinRange
import Mathlib.Data.List.Induction
import Mathlib.Data.List.ProdSigma

/-! # The memory test

`write_block` and `test_block` with the generator `MEMTEST_CHACHAISH`. The words of a group of 16
come from the block and the salt alone, so that every group of a block gets the same ones, and a
group that stands for another has what the test expects. -/
namespace Rkboot.Sramstage.Memtest
open Function (update)

/-! ## The generator -/

/-- `a0` to `d3`. -/
abbrev Words := Fin 16 → UInt64

def ror (x : UInt64) (r : UInt64) : UInt64 := x >>> r ||| x <<< (64 - r)

def ladder (a b c : Fin 16) (r : UInt64) (x : Words) : Words :=
  let x := update x b (x b + x a)
  update x c (ror (x c ^^^ x b) r)

def qr (a b c d : Fin 16) (x : Words) : Words :=
  ladder d c b 7 (ladder b a d 8 (ladder d c b 12 (ladder b a d 16 (ladder d c b 24 (ladder b a d 32 x)))))

def dr (x : Words) : Words :=
  let x := qr 12 13 14 15 (qr 8 9 10 11 (qr 4 5 6 7 (qr 0 1 2 3 x)))
  qr 3 4 9 14 (qr 2 7 8 13 (qr 1 6 11 12 (qr 0 5 10 15 x)))

/-- What the body of both loops computes. -/
def pattern (block : UInt32) (salt : UInt64) : Words :=
  let block := block.toUInt64
  let salt1 := salt.toUInt32.toUInt64
  let salt2 := (salt >>> 32).toUInt32.toUInt64
  dr (dr fun i => [0x65787062, 0x6e642033, 0x322d6279, 0x7465206b, 0x65790000, block, salt1, salt2,
    block, salt1, salt2, block, salt1, salt2, block, salt1].getD i 0)

/-! ## The test -/

/-- The words of a block in the order of the loops, as the first of a group and the place in it. -/
def cells (block : UInt32) : List (Nat × Fin 16) :=
  let word := if block = 0 then 16 else 0
  List.range' word ((0x01000000 - word) / 16) 16 ×ˢ List.finRange 16

section
variable (phys : Nat → Nat) (block : UInt32) (salt : UInt64)

/-- Word `w` of the block is stored in cell `phys w`. -/
def writeBlock (m : Nat → UInt64) : Nat → UInt64 :=
  (cells block).foldl (fun m c => update m (phys (c.1 + c.2)) (pattern block salt c.2)) m

def testBlock (m : Nat → UInt64) : Bool :=
  (cells block).all fun c => m (phys (c.1 + c.2)) == pattern block salt c.2

end

/-- Memory in which a store to group `g` or `g'` changes both. -/
def aliased (g g' word : Nat) : Nat := if word / 16 = g' then 16 * g + word % 16 else word

/-- Where only words of one pattern share cells, a word that was written keeps its value. -/
theorem foldl_update_apply {phys : Nat → Nat} {pattern : Words} {l : List (Nat × Fin 16)}
    (hl : ∀ c ∈ l, ∀ c' ∈ l, phys (c.1 + c.2) = phys (c'.1 + c'.2) →
      pattern c.2 = pattern c'.2) (m : Nat → UInt64) :
    ∀ c ∈ l, l.foldl (fun m c => update m (phys (c.1 + c.2)) (pattern c.2)) m (phys (c.1 + c.2)) =
      pattern c.2 := by
  induction l using List.reverseRecOn with
  | nil => simp
  | append_singleton l d ih =>
    intro c hc
    rw [List.foldl_append, List.foldl_cons, List.foldl_nil, Function.update_apply]
    split
    · next h => rw [hl c hc d (by simp) h]
    · next h =>
      have hc' : c ∈ l := by
        rcases List.mem_append.mp hc with hc | hc
        · exact hc
        · rw [List.mem_singleton.mp hc] at h
          exact absurd rfl h
      exact ih (fun c hc c' hc' => hl c (by simp [hc]) c' (by simp [hc'])) c hc'

theorem mem_cells {block : UInt32} {c} (h : c ∈ cells block) : c.1 % 16 = 0 := by
  obtain ⟨i, -, hi⟩ := List.mem_range'.mp (List.pair_mem_product.mp h).1
  rw [hi]
  split <;> omega

theorem testBlock_writeBlock (g g' : Nat) (block : UInt32) (salt : UInt64) (m : Nat → UInt64) :
    testBlock (aliased g g') block salt (writeBlock (aliased g g') block salt m) = true := by
  rw [testBlock, List.all_eq_true]
  intro c hc
  rw [beq_iff_eq]
  refine foldl_update_apply (fun c hc c' hc' h => congrArg _ (Fin.ext ?_)) m c hc
  have := mem_cells hc
  have := mem_cells hc'
  unfold aliased at h
  split_ifs at h <;> omega

/-- The test reports an address fault exactly when words of different patterns share a cell. -/
theorem passes_iff (phys : Nat → Nat) (block : UInt32) (salt : UInt64) (m : Nat → UInt64) :
    testBlock phys block salt (writeBlock phys block salt m) = true ↔
      ∀ c ∈ cells block, ∀ c' ∈ cells block, phys (c.1 + c.2) = phys (c'.1 + c'.2) →
        pattern block salt c.2 = pattern block salt c'.2 := by
  simp only [testBlock, List.all_eq_true, beq_iff_eq]
  refine ⟨fun h c hc c' hc' heq => ?_, fun h => foldl_update_apply h m⟩
  rw [← h c hc, heq, h c' hc']

/-- The test never reports groups that are the same memory. -/
theorem alias_reported_iff (g g' : Nat) (block : UInt32) (salt : UInt64) (m : Nat → UInt64) :
    testBlock (aliased g g') block salt (writeBlock (aliased g g') block salt m) = false ↔ False := by
  rw [testBlock_writeBlock]
  simp

/-- The second group of block 1 is the first. -/
theorem alias_unreported : (∀ i < 16, aliased 0 1 (16 + i) = aliased 0 1 i) ∧
    testBlock (aliased 0 1) 1 0 (writeBlock (aliased 0 1) 1 0 fun _ => 0) = true :=
  ⟨by decide, testBlock_writeBlock 0 1 1 0 _⟩

end Rkboot.Sramstage.Memtest
