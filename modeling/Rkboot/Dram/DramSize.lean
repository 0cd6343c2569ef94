import Rkboot.Lib.Exec
import Mathlib.Data.Nat.Bitwise

/-! # The DRAM size in the OS registers

`encode_dram_size` leaves the geometry of both channels in two registers, from which a later stage
computes the size again. Arithmetic is that of `u32`. -/
namespace Rkboot.Dram
open Lib Nat

structure SdramGeometry where
  csmask : Nat
  width : Nat
  col : Nat
  bank : Nat
  cs0Row : Nat
  cs1Row : Nat

def sub32 (a b : Nat) : Nat := (a + 2 ^ 32 - b) % 2 ^ 32

namespace SdramGeometry
variable (g : SdramGeometry)

def blockInfos : Nat :=
  (if g.csmask = 3 then 1 else 0) <<< 11 ||| sub32 g.col 9 <<< 9 ||| sub32 3 g.bank <<< 8 |||
    (sub32 g.cs0Row 13 <<< 6 &&& 0xc0) ||| (sub32 g.cs1Row 13 <<< 4 &&& 0x30) |||
    ((2 >>> g.width) <<< 2 ||| 1)

def reg3Infos : Nat :=
  sub32 g.col 9 ||| (sub32 g.cs0Row 13 <<< 3 &&& 0x20) ||| (sub32 g.cs1Row 13 <<< 2 &&& 0x10)

def asserts : Prop := sub32 g.col 9 ≤ 3 ∧ sub32 3 g.bank ≤ 1 ∧ (12 ≤ g.cs0Row ∧ g.cs0Row ≤ 19) ∧
  12 ≤ g.cs1Row ∧ g.cs1Row ≤ 19

instance : Decidable g.asserts := inferInstanceAs (Decidable (_ ∧ _))

/-- The body of the loop of `encode_dram_size`, on `osreg2` and `osreg3`. -/
def encode (i : Nat) (regs : Nat × Nat) : Except Fault (Nat × Nat) :=
  if g.csmask = 0 then .ok regs
  else if g.asserts then
    .ok (regs.1 ||| (g.blockInfos <<< (16 * i) ||| 1 <<< (28 + i)), regs.2 ||| g.reg3Infos <<< (2 * i))
  else .error .assertion

/-- `!!csmask`. -/
def present : Nat := if g.csmask = 0 then 0 else 1

end SdramGeometry

def encodeDramSize (geo0 geo1 : SdramGeometry) : Except Fault (Nat × Nat) := do
  let regs ← geo0.encode 0
    ((sub32 (geo0.present + geo1.present) 1 <<< 12) % 2 ^ 32 ||| 7 <<< 13, 0x20000000)
  geo1.encode 1 regs

def rankSize (rowsLower rowsUpper colDiff : Nat) : Nat :=
  let rowBits := (((rowsUpper &&& 4) ||| (rowsLower &&& 3)) + 1 &&& 7) + 12
  let colBits := (colDiff &&& 3) + 9
  1 <<< rowBits <<< colBits

/-- What a channel adds to `total_size`; `dies` is the bit of 3/4-sized dies. -/
def channelSize (blockInfos reg3Infos dies : Nat) : Nat :=
  let chSize := rankSize (blockInfos >>> 6) (reg3Infos >>> 3) (blockInfos >>> 9)
  let chSize := if blockInfos &&& 0x800 ≠ 0 then
    chSize + rankSize (blockInfos >>> 4) (reg3Infos >>> 2) reg3Infos else chSize
  let chSize := if dies ≠ 0 then (chSize >>> 1) + (chSize >>> 2) else chSize
  chSize <<< (3 - (blockInfos >>> 8 &&& 1)) <<< (2 >>> (blockInfos >>> 2 &&& 3))

def dramSize (osreg2 osreg3 : Nat) : Nat :=
  let channel (i : Nat) := if osreg2 &&& 1 <<< (28 + i) = 0 then 0 else
    channelSize (osreg2 >>> (16 * i) &&& 0xfff) (osreg3 >>> (2 * i) &&& 0x33) (osreg2 &&& 1 <<< (30 + i))
  let totalSize := channel 0 + channel 1
  if 0xf8000000 ≤ totalSize then 0xf8000000 else totalSize % 2 ^ 32

/-! ## One channel -/

namespace SdramGeometry
variable {g : SdramGeometry}

/-- The bytes of a channel. -/
def size (g : SdramGeometry) : Nat :=
  if g.csmask = 0 then 0
  else (2 ^ g.cs0Row + if g.csmask = 3 then 2 ^ g.cs1Row else 0) * 2 ^ g.col * 2 ^ g.bank * 2 ^ g.width

/-- What the training can find on a channel. -/
structure Possible (g : SdramGeometry) : Prop where
  csmask : g.csmask ∈ [0, 1, 3]
  width : g.width ∈ [1, 2]
  col : g.col ∈ [9, 10, 11, 12]
  bank : g.bank ∈ [2, 3]
  cs0Row : g.cs0Row ∈ List.range' 12 8
  cs1Row : g.cs1Row ∈ List.range' 12 8

/-- The fields of a channel fit and stand for its size. -/
theorem fields_size : ∀ csmask ∈ [0, 1, 3], ∀ width ∈ [1, 2], ∀ col ∈ [9, 10, 11, 12], ∀ bank ∈ [2, 3],
    ∀ cs0Row ∈ List.range' 12 8, ∀ cs1Row ∈ List.range' 12 8,
    let g : SdramGeometry := ⟨csmask, width, col, bank, cs0Row, cs1Row⟩
    g.csmask ≠ 0 → g.asserts ∧ g.blockInfos < 2 ^ 12 ∧ g.reg3Infos < 64 ∧
      g.reg3Infos &&& 0x33 = g.reg3Infos ∧ channelSize g.blockInfos g.reg3Infos 0 = g.size := by
  decide +kernel

/-- A channel that is not there leaves the registers alone, as fields that are zero would. -/
theorem Possible.encode (h : g.Possible) (i : Nat) (regs : Nat × Nat) :
    ∃ b c, g.encode i regs = .ok (regs.1 ||| (b <<< (16 * i) ||| g.present <<< (28 + i)),
        regs.2 ||| c <<< (2 * i)) ∧ b < 2 ^ 12 ∧ c < 64 ∧ c &&& 0x33 = c ∧
      (if g.present = 0 then 0 else channelSize b c 0) = g.size := by
  unfold SdramGeometry.encode present
  by_cases hcs : g.csmask = 0
  · exact ⟨0, 0, by simp [hcs, size]⟩
  · obtain ⟨hasserts, hb, hc, hmask, hsize⟩ := fields_size _ h.csmask _ h.width _ h.col _ h.bank _
      h.cs0Row _ h.cs1Row hcs
    exact ⟨g.blockInfos, g.reg3Infos, by rw [if_neg hcs, if_neg hcs, if_pos hasserts], hb, hc, hmask,
      by rw [if_neg hcs, if_neg (by decide), hsize]⟩

end SdramGeometry

/-! ## Both registers -/

theorem reg3_fields : ∀ c < 64, ∀ c' < 64, c &&& 0x33 = c → c' &&& 0x33 = c' →
    (0x20000000 ||| c ||| c' <<< 2) &&& 0x33 = c ∧
    (0x20000000 ||| c ||| c' <<< 2) >>> 2 &&& 0x33 = c' := by decide +kernel

theorem and_bit_eq_zero (w k : Nat) : w &&& 1 <<< k = 0 ↔ w / 2 ^ k % 2 ^ 1 = 0 := by
  rw [one_shiftLeft, and_two_pow, testBit_eq_decide_div_mod_eq]
  rcases mod_two_eq_zero_or_one (w / 2 ^ k) with h | h <;> simp [h]

theorem or_shiftLeft_eq_add {x k} (h : x < 2 ^ k) (y : Nat) : x ||| y <<< k = x + y * 2 ^ k := by
  rw [Nat.or_comm, ← shiftLeft_add_eq_or_of_lt h, shiftLeft_eq, Nat.add_comm]

theorem osreg2_fields {n b b' p p' w} (hn : n < 2) (hb : b < 2 ^ 12) (hb' : b' < 2 ^ 12) (hp : p < 2)
    (hp' : p' < 2) (hw : n <<< 12 ||| 7 <<< 13 ||| (b ||| p <<< 28) ||| (b' <<< 16 ||| p' <<< 29) = w) :
    w &&& 0xfff = b ∧ w >>> 16 &&& 0xfff = b' ∧ (w &&& 1 <<< 28 = 0 ↔ p = 0) ∧
      (w &&& 1 <<< 29 = 0 ↔ p' = 0) ∧ w &&& 1 <<< 30 = 0 ∧ w &&& 1 <<< 31 = 0 := by
  have hac (a b c d e f : Nat) : a ||| b ||| (c ||| d) ||| (e ||| f) = c ||| a ||| b ||| e ||| d ||| f := by
    ac_rfl
  rw [hac, @or_shiftLeft_eq_add _ 12 hb, @or_shiftLeft_eq_add _ 13 (by omega),
    @or_shiftLeft_eq_add _ 16 (by omega), @or_shiftLeft_eq_add _ 28 (by omega),
    @or_shiftLeft_eq_add _ 29 (by omega)] at hw
  have hmask (x : Nat) : x &&& 0xfff = x % 2 ^ 12 := and_two_pow_sub_one_eq_mod x 12
  rw [hmask, hmask, shiftRight_eq_div_pow]
  simp only [and_bit_eq_zero]
  omega

/-- A later stage finds the size of both channels in the registers, up to the limit it has. -/
theorem dramSize_encodeDramSize {geo0 geo1 : SdramGeometry} (h0 : geo0.Possible) (h1 : geo1.Possible)
    (hcs : geo0.csmask ≠ 0 ∨ geo1.csmask ≠ 0) :
    ∃ osreg2 osreg3, encodeDramSize geo0 geo1 = .ok (osreg2, osreg3) ∧
      dramSize osreg2 osreg3 = min 0xf8000000 (geo0.size + geo1.size) := by
  have hn : (sub32 (geo0.present + geo1.present) 1 <<< 12) % 2 ^ 32 =
      (geo0.present + geo1.present - 1) <<< 12 := by
    unfold SdramGeometry.present
    split_ifs <;> first | rfl | omega
  have hp (g : SdramGeometry) : g.present < 2 := by
    unfold SdramGeometry.present
    split <;> decide
  have hp0 := hp geo0
  have hp1 := hp geo1
  obtain ⟨b, c, he, hb, hc, hmask, hsize⟩ := h0.encode 0
    ((geo0.present + geo1.present - 1) <<< 12 ||| 7 <<< 13, 0x20000000)
  obtain ⟨b', c', he', hb', hc', hmask', hsize'⟩ := h1.encode 1 (_, _)
  unfold encodeDramSize
  rw [hn]
  refine ⟨_, _, (congrArg (· >>= _) he).trans he', ?_⟩
  obtain ⟨hr, hr'⟩ := reg3_fields c hc c' hc' hmask hmask'
  simp only [dramSize, mul_zero, mul_one, add_zero, shiftLeft_zero, shiftRight_zero, hr, hr']
  generalize hw : _ ||| _ ||| (b ||| _) ||| (b' <<< 16 ||| _) = w
  obtain ⟨h1, h2, h3, h4, h5, h6⟩ := osreg2_fields (by omega) hb hb' hp0 hp1 hw
  simp only [h1, h2, h3, h4, h5, h6, hsize, hsize']
  split <;> omega

/-- Two channels with two ranks each. -/
theorem dramSize_encodeDramSize_two : ∃ osreg2 osreg3,
    encodeDramSize ⟨3, 2, 10, 3, 15, 14⟩ ⟨3, 1, 9, 3, 13, 13⟩ = .ok (osreg2, osreg3) ∧
      dramSize osreg2 osreg3 = 2 ^ 30 + 2 ^ 29 + 2 ^ 27 :=
  dramSize_encodeDramSize (by constructor <;> decide) (by constructor <;> decide) (.inl (by decide))

end Rkboot.Dram
