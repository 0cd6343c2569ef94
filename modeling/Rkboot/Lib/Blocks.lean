import Rkboot.Lib.Exec

/-! # Streams in blocks

A block function takes a stream `k` elements at a time. What does not fill a block waits for the
elements that follow, so that it makes no difference where a stream is cut. -/
namespace Rkboot.Lib
open Nat List

section
variable {α : Type} {k : Nat}

/-- The whole blocks of `k` elements. -/
def blocks (k : Nat) (data : List α) : List (List α) :=
  (List.range (data.length / k)).map fun i => (data.drop (k * i)).take k

/-- What is left behind the last whole block. -/
def blockRest (k : Nat) (data : List α) : List α := data.drop (k * (data.length / k))

theorem blockRest_length (k : Nat) (data : List α) : (blockRest k data).length = data.length % k := by
  rw [blockRest, length_drop, mod_def]

theorem blocks_of_lt {data : List α} (h : data.length < k) : blocks k data = [] := by
  rw [blocks, Nat.div_eq_of_lt h, range_zero, map_nil]

theorem blockRest_of_lt {data : List α} (h : data.length < k) : blockRest k data = data := by
  rw [blockRest, Nat.div_eq_of_lt h, Nat.mul_zero, drop_zero]

theorem length_block_append {block data : List α} (hk : 0 < k) (hblock : block.length = k) :
    (block ++ data).length / k = data.length / k + 1 := by
  rw [length_append, hblock, add_div_left _ hk]

theorem drop_block_append {block data : List α} (hblock : block.length = k) (i : Nat) :
    (block ++ data).drop (k * (i + 1)) = data.drop (k * i) := by
  rw [Nat.mul_succ, Nat.add_comm, ← hblock, drop_length_add_append]

theorem blocks_append_block {block : List α} {data} (hk : 0 < k) (hblock : block.length = k) :
    blocks k (block ++ data) = block :: blocks k data := by
  rw [blocks, length_block_append hk hblock, range_succ_eq_map, map_cons, map_map,
    Nat.mul_zero, drop_zero, take_left' hblock, blocks]
  congr 1
  refine map_congr_left fun i _ => ?_
  exact congrArg (List.take k) (drop_block_append hblock i)

theorem blockRest_append_block {block : List α} {data} (hk : 0 < k) (hblock : block.length = k) :
    blockRest k (block ++ data) = blockRest k data := by
  rw [blockRest, length_block_append hk hblock, drop_block_append hblock, blockRest]

/-- Cutting a stream changes neither its blocks nor what is left over. -/
theorem blocks_append (hk : 0 < k) (a b : List α) :
    blocks k (a ++ b) = blocks k a ++ blocks k (blockRest k a ++ b) ∧
      blockRest k (a ++ b) = blockRest k (blockRest k a ++ b) := by
  induction hn : a.length using Nat.strong_induction_on generalizing a with
  | _ n ih =>
    rcases lt_or_ge a.length k with hlt | hge
    · rw [blocks_of_lt hlt, blockRest_of_lt hlt]
      exact ⟨rfl, rfl⟩
    · have hblock : (a.take k).length = k := length_take_of_le hge
      obtain ⟨hblocks, hrest⟩ := ih (a.drop k).length (by rw [length_drop]; omega) (a.drop k) rfl
      rw [← take_append_drop k a, append_assoc, blocks_append_block hk hblock,
        blocks_append_block hk hblock, blockRest_append_block hk hblock,
        blockRest_append_block hk hblock, hblocks, hrest]
      exact ⟨rfl, rfl⟩

/-! ## Blocks of a byte range -/

theorem blocks_bytesAt (f : Nat → UInt8) (a n k : Nat) :
    blocks k (bytesAt f a n) = (List.range (n / k)).map fun i => bytesAt f (a + k * i) k := by
  rw [blocks, bytesAt_length]
  refine map_congr_left fun i hi => ?_
  have hle : k * (i + 1) ≤ n :=
    le_trans (Nat.mul_le_mul_left k (mem_range.mp hi)) (mul_div_le n k)
  rw [mul_succ] at hle
  rw [bytesAt_drop f (by omega), bytesAt_take f (by omega)]

theorem blockRest_bytesAt (f : Nat → UInt8) (a n k : Nat) :
    blockRest k (bytesAt f a n) = bytesAt f (a + k * (n / k)) (n % k) := by
  rw [blockRest, bytesAt_length, bytesAt_drop f (mul_div_le n k), mod_def]

end
end Rkboot.Lib
