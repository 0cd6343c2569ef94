import Mathlib.Data.Nat.Bitwise

/-! # Reflected cyclic redundancy checks

A register is fed bit by bit: it moves down one place, and the polynomial is added where
the bit that leaves and the bit fed differ. Moving down is linear in exclusive or, so the
register behind a whole byte is a table's word for its low octet, added to the rest of it
moved down eight places. -/
namespace Rkboot.Lib.Crc
open Nat List

/-- One bit of the message. -/
def feedBit (poly reg : Nat) (b : Bool) : Nat :=
  (reg >>> 1) ^^^ (if reg.testBit 0 ^^ b then poly else 0)

/-- A byte of the message, its lowest bit first. -/
def feedByte (poly reg : Nat) (c : UInt8) : Nat :=
  (List.range 8).foldl (fun reg i => feedBit poly reg (c.toNat.testBit i)) reg

/-- The register behind a message. -/
def register (poly init : Nat) (message : List UInt8) : Nat :=
  message.foldl (feedByte poly) init

/-- CRC-32: the register starts with all ones and is complemented at the end. -/
def crc32 (message : List UInt8) : Nat := register 0xedb88320 0xffffffff message ^^^ 0xffffffff

theorem register_append (poly init : Nat) (l r : List UInt8) :
    register poly init (l ++ r) = register poly (register poly init l) r := foldl_append

section
variable (poly : Nat)

/-- The register after a zero bit. -/
def shift (x : Nat) : Nat := (x >>> 1) ^^^ (if x.testBit 0 then poly else 0)

def shifts : Nat → Nat → Nat
  | 0, x => x
  | n + 1, x => shift poly (shifts n x)

theorem shift_xor (x y : Nat) : shift poly (x ^^^ y) = shift poly x ^^^ shift poly y := by
  unfold shift
  rw [testBit_xor, shiftRight_xor_distrib]
  cases x.testBit 0 <;> cases y.testBit 0 <;>
    simp [Nat.xor_comm, xor_left_comm]

theorem shifts_xor (n x y : Nat) :
    shifts poly n (x ^^^ y) = shifts poly n x ^^^ shifts poly n y := by
  induction n with
  | zero => rfl
  | succ n ih => simp only [shifts, ih, shift_xor]

/-- What has zeros below only moves down. -/
theorem shifts_shiftLeft (y : Nat) {n k} (h : n ≤ k) : shifts poly n (y <<< k) = y <<< (k - n) := by
  induction n with
  | zero => rfl
  | succ n ih =>
    have hlow : (y <<< (k - n)).testBit 0 = false := by
      rw [testBit_shiftLeft, decide_eq_false (by omega : ¬ 0 ≥ k - n), Bool.false_and]
    rw [shifts, ih (by omega), shift, hlow, if_neg Bool.false_ne_true, xor_zero,
      (by omega : k - n = (k - (n + 1)) + 1), shiftLeft_add, shiftLeft_shiftRight]

theorem feedBit_eq (reg : Nat) (b : Bool) : feedBit poly reg b = shift poly (reg ^^^ b.toNat) := by
  rw [shift_xor]
  unfold feedBit shift
  cases b <;> cases reg.testBit 0 <;> simp

/-- Numbers below `2 ^ (n + 1)` are those below `2 ^ n`, with or without the bit `n`. -/
theorem mod_two_pow_succ_xor (c n : Nat) :
    c % 2 ^ (n + 1) = c % 2 ^ n ^^^ (c.testBit n).toNat <<< n := by
  apply eq_of_testBit_eq
  intro i
  rw [testBit_mod_two_pow, testBit_xor, testBit_mod_two_pow, testBit_shiftLeft]
  rcases lt_trichotomy i n with h | rfl | h
  · simp [h, lt_succ_of_lt h, not_le.mpr h]
  · cases c.testBit i <;> simp
  · obtain ⟨j, hj⟩ := exists_eq_succ_of_ne_zero (by omega : i - n ≠ 0)
    have hout : ¬ i < n + 1 := by omega
    cases c.testBit n <;> simp [hj, hout, not_lt.mpr (le_of_lt h), testBit_succ]

/-- Bits that are fed one after the other could have been added to the register at once. -/
theorem foldl_feedBit (reg c n : Nat) :
    (List.range n).foldl (fun reg i => feedBit poly reg (c.testBit i)) reg =
      shifts poly n (reg ^^^ c % 2 ^ n) := by
  induction n with
  | zero => simp [shifts, mod_one]
  | succ n ih =>
    have hbit : shifts poly n ((c.testBit n).toNat <<< n) = (c.testBit n).toNat := by
      rw [shifts_shiftLeft poly _ (le_refl n), Nat.sub_self, shiftLeft_zero]
    rw [range_succ, foldl_append, ih, foldl_cons, foldl_nil, feedBit_eq,
      mod_two_pow_succ_xor, ← Nat.xor_assoc, shifts, shifts_xor poly n _ (_ <<< n), hbit]

/-- A byte at a time: the table's word for the low octet, and the rest moved down. -/
theorem feedByte_eq (reg : Nat) (c : UInt8) :
    feedByte poly reg c = (reg >>> 8) ^^^ shifts poly 8 (reg % 256 ^^^ c.toNat) := by
  have hc : c.toNat % 2 ^ 8 = c.toNat := mod_eq_of_lt c.toNat_lt
  have hreg : reg = reg % 256 ^^^ (reg >>> 8) <<< 8 := by
    apply eq_of_testBit_eq
    intro i
    rw [testBit_xor, (by rfl : 256 = 2 ^ 8), testBit_mod_two_pow, testBit_shiftLeft,
      testBit_shiftRight]
    rcases lt_or_ge i 8 with h | h
    · simp [h, not_le.mpr h]
    · simp [h, not_lt.mpr h, Nat.add_sub_cancel' h]
  have hhigh : shifts poly 8 ((reg >>> 8) <<< 8) = reg >>> 8 := by
    rw [shifts_shiftLeft poly _ (le_refl 8), Nat.sub_self, shiftLeft_zero]
  rw [feedByte, foldl_feedBit, hc]
  conv => lhs; rw [hreg]
  rw [shifts_xor, shifts_xor, hhigh, shifts_xor, Nat.xor_comm (shifts poly 8 (reg % 256)),
    Nat.xor_assoc]

end

end Rkboot.Lib.Crc
