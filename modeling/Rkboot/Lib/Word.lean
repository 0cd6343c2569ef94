import Rkboot.Lib.Exec
import Mathlib.Data.Nat.Bitwise
import Mathlib.Tactic.Ring

/-! # Little-endian words in byte memory

A word is a natural number; its `k`-th byte is `wordByte v k`. Loads and
stores of `n`-byte words read and write the bytes in ascending order of
address, the least significant first. -/
namespace Rkboot.Lib
open Nat

/-- Byte `k` of a word, byte 0 the least significant. -/
def wordByte (v k : Nat) : UInt8 := UInt8.ofNat (v >>> (8 * k))

/-- The `n`-byte little-endian word at address `a`. -/
def leWord (f : Nat → UInt8) : Nat → Nat → Nat
  | _, 0 => 0
  | a, n + 1 => (f a).toNat ||| (leWord f (a + 1) n <<< 8)

theorem or_shiftLeft_lt {a x k p} (ha : a < 2 ^ k) (hx : x < 2 ^ p) :
    a ||| (x <<< k) < 2 ^ (k + p) := by
  refine or_lt_two_pow (lt_of_lt_of_le ha (Nat.pow_le_pow_right (by decide) (by omega))) ?_
  rw [shiftLeft_eq, add_comm, pow_add]
  exact Nat.mul_lt_mul_of_pos_right hx (Nat.two_pow_pos k)

theorem shiftRight_lt {v d p} (hv : v < 2 ^ (d + p)) : v >>> d < 2 ^ p := by
  rw [shiftRight_eq_div_pow]
  exact Nat.div_lt_of_lt_mul (by rwa [← pow_add])

theorem leWord_lt (f : Nat → UInt8) (a n : Nat) : leWord f a n < 2 ^ (8 * n) := by
  induction n generalizing a with
  | zero => simp [leWord]
  | succ n ih =>
    rw [show 8 * (n + 1) = 8 + 8 * n by ring]
    exact or_shiftLeft_lt (f a).toNat_lt (ih (a + 1))

/-- Two words agree in a byte when they agree in its eight bits. -/
theorem wordByte_congr {v w : Nat} {k l}
    (h : ∀ i < 8, v.testBit (8 * k + i) = w.testBit (8 * l + i)) : wordByte v k = wordByte w l := by
  apply UInt8.toNat_inj.mp
  simp only [wordByte, UInt8.toNat_ofNat']
  apply eq_of_testBit_eq
  intro i
  rw [testBit_mod_two_pow, testBit_mod_two_pow]
  by_cases hi : i < 8
  · simp [hi, testBit_shiftRight, h i hi]
  · simp [hi]

/-- Below a word of `p` bytes, gluing a second word on top changes nothing;
above it the second word is seen. -/
theorem wordByte_or_shiftLeft {b} (x p k : Nat) (hb : b < 2 ^ (8 * p)) :
    wordByte (b ||| (x <<< (8 * p))) k = if k < p then wordByte b k else wordByte x (k - p) := by
  split
  · next hk =>
    apply wordByte_congr
    intro i hi
    rw [testBit_or, testBit_shiftLeft, decide_eq_false (by omega)]
    simp
  · next hk =>
    apply wordByte_congr
    intro i hi
    have hz : b.testBit (8 * k + i) = false :=
      testBit_lt_two_pow (lt_of_lt_of_le hb (Nat.pow_le_pow_right (by decide) (by omega)))
    rw [testBit_or, testBit_shiftLeft, hz, decide_eq_true (by omega),
      show 8 * k + i - 8 * p = 8 * (k - p) + i by omega]
    simp

theorem wordByte_shiftRight (v n k : Nat) : wordByte (v >>> (8 * n)) k = wordByte v (n + k) := by
  apply wordByte_congr
  intro i _
  rw [testBit_shiftRight, show 8 * n + (8 * k + i) = 8 * (n + k) + i by ring]

theorem wordByte_toNat (b : UInt8) : wordByte b.toNat 0 = b := by
  simp [wordByte, UInt8.ofNat_toNat]

theorem wordByte_leWord (f : Nat → UInt8) {a n k} (hk : k < n) :
    wordByte (leWord f a n) k = f (a + k) := by
  induction n generalizing a k with
  | zero => omega
  | succ n ih =>
    rw [leWord, show (8 : Nat) = 8 * 1 from rfl,
      wordByte_or_shiftLeft _ 1 k (by simpa using (f a).toNat_lt)]
    split
    · rw [show k = 0 by omega, wordByte_toNat, add_zero]
    · rw [ih (by omega), show a + 1 + (k - 1) = a + k by omega]

theorem leWord_congr {f g : Nat → UInt8} {a n} (h : ∀ i < n, f (a + i) = g (a + i)) :
    leWord f a n = leWord g a n := by
  induction n generalizing a with
  | zero => rfl
  | succ n ih =>
    have h0 := h 0 (by omega)
    rw [leWord, leWord, ih fun i hi => by
      simpa [add_assoc, add_comm 1] using h (i + 1) (by omega)]
    rw [show f a = g a from h0]

theorem leWord_append (f : Nat → UInt8) (a k n : Nat) :
    leWord f a (k + n) = leWord f a k ||| leWord f (a + k) n <<< (8 * k) := by
  induction k generalizing a with
  | zero => simp [leWord]
  | succ k ih =>
    rw [show k + 1 + n = k + n + 1 by omega, leWord, ih, leWord, shiftLeft_or_distrib,
      ← shiftLeft_add, Nat.or_assoc, show a + 1 + k = a + (k + 1) by omega,
      show 8 * k + 8 = 8 * (k + 1) by omega]

/-- The first bytes of a word are its low bits. -/
theorem leWord_mod (f : Nat → UInt8) (a k n : Nat) :
    leWord f a (k + n) % 2 ^ (8 * k) = leWord f a k := by
  rw [leWord_append, or_mod_two_pow, mod_eq_of_lt (leWord_lt f a k), shiftLeft_eq,
    mul_mod_left, or_zero]

theorem leWord_zero {f : Nat → UInt8} {a n} (h : ∀ i < n, f (a + i) = 0) : leWord f a n = 0 := by
  rw [leWord_congr (g := fun _ => 0) h]
  clear h
  induction n generalizing a with
  | zero => rfl
  | succ n ih => rw [leWord, ih]; rfl

/-- A word is what its bytes say. -/
theorem leWord_of_wordByte {f : Nat → UInt8} {a n v} (hv : v < 2 ^ (8 * n))
    (h : ∀ k < n, f (a + k) = wordByte v k) : leWord f a n = v := by
  induction n generalizing a v with
  | zero => exact (lt_one_iff.mp hv).symm
  | succ n ih =>
    have hlow : (f a).toNat = v % 2 ^ 8 := by
      rw [show f a = wordByte v 0 from h 0 (succ_pos n)]
      simp [wordByte]
    have hhigh : leWord f (a + 1) n = v >>> 8 := by
      refine ih (shiftRight_lt (by rwa [add_comm, ← mul_succ])) ?_
      intro k hk
      rw [add_assoc, add_comm 1, h (k + 1) (succ_lt_succ hk), add_comm k 1]
      exact (wordByte_shiftRight v 1 k).symm
    rw [leWord, hlow, hhigh, Nat.or_comm, ← shiftLeft_add_eq_or_of_lt (mod_lt _ (by decide)),
      shiftLeft_eq, shiftRight_eq_div_pow, div_add_mod']

/-! ## Loads and stores -/

/-- `n` bytes of `v`, stored from address `a` on. -/
def Mem.storeWord (m : Mem) (a v : Nat) : Nat → Mem
  | 0 => m
  | n + 1 => (m.store a (wordByte v 0)).storeWord (a + 1) (v >>> 8) n

theorem Mem.storeWord_byte (m : Mem) (a v n x : Nat) :
    (m.storeWord a v n).byte x = if a ≤ x ∧ x < a + n then wordByte v (x - a) else m.byte x := by
  induction n generalizing m a v with
  | zero => rw [if_neg (by omega)]; rfl
  | succ n ih =>
    rw [Mem.storeWord, ih, Mem.store_byte]
    by_cases hx : x = a
    · subst hx
      rw [if_neg (by omega), if_pos rfl, if_pos (by omega), Nat.sub_self]
    · rw [if_neg hx]
      by_cases hin : a ≤ x ∧ x < a + (n + 1)
      · rw [if_pos (by omega), if_pos hin, show (8 : Nat) = 8 * 1 from rfl, wordByte_shiftRight,
          show 1 + (x - (a + 1)) = x - a by omega]
      · rw [if_neg (by omega), if_neg hin]

theorem Mem.storeWord_stored (m : Mem) (a v n : Nat) : Stored m (m.storeWord a v n) a (a + n) := by
  induction n generalizing m a v with
  | zero => exact .refl m _ _
  | succ n ih => exact (ih ..).behind

namespace Exec

def loadWord (inp : Nat → UInt8) (sp : Space) (a n : Nat) : Exec Nat :=
  ⟨fun m => .ok (leWord (m.src inp sp) a n) m⟩

def storeWord (a n v : Nat) : Exec Unit := ⟨fun m => .ok () (m.storeWord a v n)⟩

@[simp] theorem run_loadWord (inp : Nat → UInt8) (sp : Space) (a n : Nat) (m : Mem) :
    (loadWord inp sp a n).run m = .ok (leWord (m.src inp sp) a n) m := rfl
@[simp] theorem run_storeWord (a n v : Nat) (m : Mem) :
    (storeWord a n v).run m = .ok () (m.storeWord a v n) := rfl

end Exec

/-! ## `memcpy` and `memset` -/

/-- `memcpy`, copying in ascending order of address. -/
def Mem.memcpy (inp : Nat → UInt8) (sp : Space) (m : Mem) (dest src : Nat) : Nat → Mem
  | 0 => m
  | n + 1 => (m.store dest (m.src inp sp src)).memcpy inp sp (dest + 1) (src + 1) n

def Mem.memset (m : Mem) (dest : Nat) (c : UInt8) : Nat → Mem
  | 0 => m
  | n + 1 => (m.store dest c).memset (dest + 1) c n

theorem Mem.memcpy_stored (inp : Nat → UInt8) (sp : Space) (m : Mem) (dest src n : Nat) :
    Stored m (m.memcpy inp sp dest src n) dest (dest + n) := by
  induction n generalizing m dest src with
  | zero => exact .refl m _ _
  | succ n ih => exact (ih ..).behind

/-- Where source bytes are not stored to before they are read (another memory,
or a source that is not just behind the destination), `memcpy` copies. -/
theorem Mem.memcpy_byte {inp sp} {m : Mem} {dest src n k}
    (h : sp = .input ∨ src + k < dest ∨ dest ≤ src) (hk : k < n) :
    (m.memcpy inp sp dest src n).byte (dest + k) = m.src inp sp (src + k) := by
  induction n generalizing m dest src k with
  | zero => omega
  | succ n ih =>
    rw [Mem.memcpy]
    cases k with
    | zero =>
      rw [(Mem.memcpy_stored _ _ _ _ _ _).frame _ (by omega)]
      simp
    | succ k =>
      rw [show dest + (k + 1) = dest + 1 + k by ring,
        ih (h.imp_right fun h => by omega) (by omega), show src + 1 + k = src + (k + 1) by ring]
      cases sp with
      | input => rfl
      | output =>
        simp only [reduceCtorEq, false_or] at h
        exact m.store_byte_ne _ (by omega)

theorem Mem.memset_stored (m : Mem) (dest : Nat) (c : UInt8) (n : Nat) :
    Stored m (m.memset dest c n) dest (dest + n) := by
  induction n generalizing m dest with
  | zero => exact .refl m _ _
  | succ n ih => exact (ih ..).behind

theorem Mem.memset_byte {m : Mem} {dest n k c} (hk : k < n) :
    (m.memset dest c n).byte (dest + k) = c := by
  induction n generalizing m dest k with
  | zero => omega
  | succ n ih =>
    rw [Mem.memset]
    cases k with
    | zero =>
      rw [(Mem.memset_stored _ _ _ _).frame _ (by omega)]
      simp
    | succ k => rw [show dest + (k + 1) = dest + 1 + k by ring, ih (by omega)]

end Rkboot.Lib
