import Rkboot.Lib.Word
import Mathlib.Tactic.IntervalCases

/-! # The copy routines shared by the LZ4 and zstd decoders

`copy` moves aligned 8-byte words and therefore reads past the end of its
source and may store up to seven bytes past the end of its destination.
`lzcommon_literal_copy` is correct for a source in another memory, for one that
ends before the destination and for one that starts at least eight bytes behind
it. -/
namespace Rkboot.Compression.Lzcommon
open Lib Nat Exec

variable {length b p k n v off i j stop bits : Nat} {m : Mem}

/-- Scratch bytes a client provides after the output it grants. -/
abbrev lzcommonBlock : Nat := 8

/-! ## The word-wise copy -/

section
variable (inp : Nat → UInt8) (sp : Space)

/-- `*(uN *)src`, for `uN` of `n` bytes; an access that is not naturally aligned stops the run. -/
def loadAligned (src n : Nat) : Exec Nat :=
  if src % n = 0 then Exec.loadWord inp sp src n else Exec.fault .undefined

/-- `*(uN *)dest = v`. -/
def storeAligned (dest n v : Nat) : Exec Unit :=
  if dest % n = 0 then Exec.storeWord dest n v else Exec.fault .undefined

/-- `if (off & n) {*(uN *)dest = *(uN *)src; src += n; dest += n;}`. -/
def moveIf (off n dest src : Nat) : Exec (Nat × Nat) :=
  if off &&& n ≠ 0 then do
    let x ← loadAligned inp sp src n
    storeAligned dest n x
    pure (dest + n, src + n)
  else pure (dest, src)

/-- `if (off & n) {bits |= (u64)*(uN *)src << shift; src += n; shift += 8 * n;}`. -/
def gatherIf (off n src bits shift : Nat) : Exec (Nat × Nat × Nat) :=
  if off &&& n ≠ 0 then do
    let x ← loadAligned inp sp src n
    pure (src + n, bits ||| (x <<< shift), shift + 8 * n)
  else pure (src, bits, shift)

/-- `if (off & n) {*(uN *)dest = (uN)bits; dest += n; bits >>= 8 * n; shift -= 8 * n;}`; `shift`
is a `u8` and wraps. -/
def emitIf (off n dest bits shift : Nat) : Exec (Nat × Nat × Nat) :=
  if off &&& n ≠ 0 then do
    storeAligned dest n bits
    pure (dest + n, bits >>> (8 * n), (shift + 256 - 8 * n) % 256)
  else pure (dest, bits, shift)

/-- The bytes in front of the first aligned word, for a common alignment. -/
def move (off dest src : Nat) : Exec (Nat × Nat) := do
  let (dest, src) ← moveIf inp sp off 1 dest src
  let (dest, src) ← moveIf inp sp off 2 dest src
  moveIf inp sp off 4 dest src

def gather (off src : Nat) : Exec (Nat × Nat × Nat) := do
  let (src, bits, shift) ← gatherIf inp sp off 1 src 0 0
  let (src, bits, shift) ← gatherIf inp sp off 2 src bits shift
  gatherIf inp sp off 4 src bits shift

def emit (off dest bits shift : Nat) : Exec (Nat × Nat × Nat) := do
  let (dest, bits, shift) ← emitIf off 1 dest bits shift
  let (dest, bits, shift) ← emitIf off 2 dest bits shift
  emitIf off 4 dest bits shift

/-- `while (src64 < end) {*dest64++ = *src64++;}` -/
def copyWords (stop : Nat) : Nat → Nat → Nat → Exec Unit
  | 0, _, _ => pure ()
  | fuel + 1, dest, src =>
    if src < stop then do
      let x ← loadAligned inp sp src 8
      storeAligned dest 8 x
      copyWords stop fuel (dest + 8) (src + 8)
    else pure ()

/-- The loop over unequally aligned words; `bits` holds the `shift / 8` source bytes that were
read and not yet stored. -/
def shiftWords (stop shift : Nat) : Nat → Nat → Nat → Nat → Exec (Nat × Nat × Nat)
  | 0, dest, src, bits => pure (dest, src, bits)
  | fuel + 1, dest, src, bits =>
    if src < stop then do
      let x ← loadAligned inp sp src 8
      storeAligned dest 8 ((x <<< shift) % 2 ^ 64 ||| bits)
      shiftWords stop shift fuel (dest + 8) (src + 8) (x >>> (64 - shift))
    else pure (dest, src, bits)

/-- The loop and the last store: only if at least one byte of it is not garbage. -/
def copyShifted (stop destEnd shift dest src bits : Nat) : Exec Unit := do
  let (dest, src, bits) ← shiftWords inp sp stop shift ((stop - src) / 8) dest src bits
  -- both differences are multiples of eight, so bytes compare as words do
  if (stop : Int) - src < (destEnd : Int) - dest then storeAligned dest 8 bits
  else pure ()

/-- `copy`: assumes `length ≥ 8`. -/
def copy (dest src length : Nat) : Exec Unit := do
  let stop := (src + length + 7) / 8 * 8
  let destEnd := (dest + length + 7) / 8 * 8
  let srcAlignOff := (8 - src % 8) % 8
  let destAlignOff := (8 - dest % 8) % 8
  if srcAlignOff = destAlignOff then do
    let (dest, src) ← move inp sp srcAlignOff dest src
    copyWords inp sp stop ((stop - src) / 8) dest src
  else do
    let (src, bits, shift) ← gather inp sp srcAlignOff src
    Exec.assert (src % 8 == 0)
    let bits ← if srcAlignOff < destAlignOff then do
        let x ← loadAligned inp sp src 8
        pure (bits ||| (x <<< shift) % 2 ^ 64)
      else pure bits
    let (dest, bits, shift) ← emit destAlignOff dest bits shift
    Exec.assert (dest % 8 == 0)
    let shift := shift &&& 0x38
    Exec.assert (shift != 0)
    let (src, bits) ← if srcAlignOff < destAlignOff then do
        let x ← loadAligned inp sp src 8
        pure (src + 8, x >>> (64 - shift))
      else pure (src, bits)
    copyShifted inp sp stop destEnd shift dest src bits

def lzcommonLiteralCopy (dest src length : Nat) : Exec Unit :=
  if length < lzcommonBlock then Exec.modify fun m => m.memcpy inp sp dest src lzcommonBlock
  else copy inp sp dest src length

end

/-- `while (length--) {*dest++ = *src++;}` -/
def copyBytes (dest src : Nat) : Nat → Mem → Mem
  | 0, m => m
  | n + 1, m => copyBytes (dest + 1) (src + 1) n (m.store dest (m.byte src))

/-- `lzcommon_match_copy`; the source is in the memory written. -/
def lzcommonMatchCopy (inp : Nat → UInt8) (dest dist length : Nat) : Exec Unit :=
  let src := dest - dist
  if length ≤ dist then lzcommonLiteralCopy inp .output dest src length
  else if dist = 1 then Exec.modify fun m => m.memset dest (m.byte src) length
  else Exec.modify (copyBytes dest src length)

/-! ## The word-wise copy copies

The bytes `[0, j)` are stored; a word gathered from the source holds bytes
`[k, k + n)` of it. Bytes at or past `length` are garbage and nothing is said
of them. -/

/-- Source positions `copy` may be given: another memory, or one the stores do not reach before
it is read. -/
def Separate (sp : Space) (dest src length : Nat) : Prop :=
  sp = .input ∨ src + length ≤ dest ∨ dest + 8 ≤ src

/-- The first `n` bytes of `v` are the bytes `k, k + 1, ..` of `g`, as far as these are below
`length`. -/
def Holds (g : Nat → UInt8) (length v n k : Nat) : Prop :=
  ∀ t, t < n → k + t < length → wordByte v t = g (k + t)

theorem Holds.or {g x} (hb : Holds g length b p k)
    (hlt : b < 2 ^ (8 * p)) (hx : Holds g length x n (k + p)) :
    Holds g length (b ||| (x <<< (8 * p))) (p + n) k := by
  intro t ht hl
  rw [wordByte_or_shiftLeft x p t hlt]
  split
  · exact hb t ‹_› hl
  · have := hx (t - p) (by omega) (by omega)
    rwa [show k + p + (t - p) = k + t by omega] at this

theorem Holds.shiftRight {g} (h : Holds g length v n k)
    (d : Nat) : Holds g length (v >>> (8 * d)) (n - d) (k + d) := by
  intro t ht hl
  rw [wordByte_shiftRight, h (d + t) (by omega) (by omega), add_assoc]

theorem Holds.mono {g n'} (h : Holds g length v n k)
    (hn : n' ≤ n) : Holds g length v n' k := fun t ht hl => h t (by omega) hl

/-- Truncation to the 64-bit container loses no byte below the eighth. -/
theorem Holds.or_mod {g}
    (h : Holds g length (b ||| v) 8 k) : Holds g length (b ||| v % 2 ^ 64) 8 k := by
  intro t ht hl
  rw [← h t ht hl]
  apply wordByte_congr
  intro i hi
  rw [testBit_or, testBit_or, testBit_mod_two_pow, decide_eq_true (by omega), Bool.true_and]

/-- How far `if (off & n)` advances. -/
def part (off n : Nat) : Nat := if off &&& n ≠ 0 then n else 0

theorem part_sum (h : off < 8) : part off 1 + part off 2 + part off 4 = off := by
  interval_cases off <;> rfl

/-- Behind each part of the head, the next one is aligned. -/
theorem part_aligned {a} (h : off < 8) (ha : (a + off) % 8 = 0) :
    (a + (0 + part off 1)) % 2 = 0 ∧ (a + (0 + part off 1 + part off 2)) % 4 = 0 := by
  interval_cases off <;> simp [part] <;> omega

section
variable {inp : Nat → UInt8} {sp : Space} {m0 : Mem} {dest src length : Nat}

theorem run_loadAligned {a} (h : a % n = 0) (m : Mem) :
    (loadAligned inp sp a n).run m = .ok (leWord (m.src inp sp) a n) m := by
  rw [loadAligned, if_pos h, run_loadWord]

theorem run_storeAligned {a} (h : a % n = 0) (v : Nat) (m : Mem) :
    (storeAligned a n v).run m = .ok () (m.storeWord a v n) := by
  rw [storeAligned, if_pos h, run_storeWord]

/-- `m` is reached from `m0` with the first `j` bytes of the copy stored. -/
structure Copying (inp : Nat → UInt8) (sp : Space) (m0 : Mem) (dest src length : Nat) (m : Mem)
    (j : Nat) : Prop where
  stored : Stored m0 m dest (dest + j)
  done : ∀ i, i < j → i < length → m.byte (dest + i) = m0.src inp sp (src + i)

theorem Copying.start (inp : Nat → UInt8) (sp : Space) (m0 : Mem) (dest src length : Nat) :
    Copying inp sp m0 dest src length m0 0 :=
  ⟨.refl m0 _ _, fun _ h => by omega⟩

section
variable (h : Copying inp sp m0 dest src length m j)
include h

/-- A source byte whose turn has not come is as it was. -/
theorem Copying.unread (hsep : Separate sp dest src length) (hi : j ≤ i) (hl : i < length) :
    m.src inp sp (src + i) = m0.src inp sp (src + i) := by
  cases sp with
  | input => rfl
  | output =>
    simp only [Separate, reduceCtorEq, false_or] at hsep
    exact h.stored.frame _ (by omega)

theorem Copying.loadWord (hsep : Separate sp dest src length) (n d : Nat) (hk : j ≤ k + d) :
    Holds (fun i => m0.src inp sp (src + i)) length (leWord (m.src inp sp) (src + k) n >>> (8 * d))
      (n - d) (k + d) := by
  intro t ht hl
  rw [wordByte_shiftRight, wordByte_leWord _ (by omega),
    show src + k + (d + t) = src + (k + d + t) by omega, h.unread hsep (by omega) hl]

theorem Copying.storeWord (hv : Holds (fun i => m0.src inp sp (src + i)) length v n j) :
    Copying inp sp m0 dest src length (m.storeWord (dest + j) v n) (j + n) := by
  refine ⟨(h.stored.mono le_rfl (by omega)).trans
    ((m.storeWord_stored _ _ _).mono (by omega) (by omega)), fun i hi hl => ?_⟩
  rw [Mem.storeWord_byte]
  split
  · have := hv (i - j) (by omega) (by omega)
    rwa [show j + (i - j) = i by omega, show i - j = dest + i - (dest + j) by omega] at this
  · exact h.done i (by omega) hl

theorem moveIf_ok (hsep : Separate sp dest src length) (off : Nat) (hd : (dest + j) % n = 0)
    (hs : (src + j) % n = 0) : ∃ m', (moveIf inp sp off n (dest + j) (src + j)).run m =
        .ok (dest + (j + part off n), src + (j + part off n)) m' ∧
      Copying inp sp m0 dest src length m' (j + part off n) := by
  unfold moveIf part
  split
  · refine ⟨_, ?_, h.storeWord (v := leWord (m.src inp sp) (src + j) n) ?_⟩
    · simp [run_bind, run_loadAligned hs, run_storeAligned hd, add_assoc]
    · exact h.loadWord hsep n 0 (by omega)
  · exact ⟨m, rfl, h⟩

theorem copyWords_ok (hsep : Separate sp dest src length) (fuel : Nat) (hf : src + j + 8 * fuel = stop)
    (hd : (dest + j) % 8 = 0) (hs : (src + j) % 8 = 0) :
    ∃ m', (copyWords inp sp stop fuel (dest + j) (src + j)).run m = .ok () m' ∧
      Copying inp sp m0 dest src length m' (stop - src) := by
  induction fuel generalizing m j with
  | zero => exact ⟨m, rfl, by rwa [show stop - src = j by omega]⟩
  | succ fuel ih =>
    have hw := h.storeWord (h.loadWord hsep (k := j) 8 0 (by omega))
    obtain ⟨m', hm, hc⟩ := ih hw (by omega) (by omega) (by omega)
    refine ⟨m', ?_, hc⟩
    rw [copyWords, if_pos (by omega)]
    simpa [run_bind, run_loadAligned hs, run_storeAligned hd, add_assoc] using hm

end

/-- Nothing is stored while the bits in front of the first aligned word are gathered. -/
theorem gatherIf_ok (hsep : Separate sp dest src length) (off : Nat) (hs : (src + p) % n = 0)
    (hb : Holds (fun i => m0.src inp sp (src + i)) length bits p 0) (hlt : bits < 2 ^ (8 * p)) :
    ∃ bits', (gatherIf inp sp off n (src + p) bits (8 * p)).run m0 =
        .ok (src + (p + part off n), bits', 8 * (p + part off n)) m0 ∧
      Holds (fun i => m0.src inp sp (src + i)) length bits' (p + part off n) 0 ∧
      bits' < 2 ^ (8 * (p + part off n)) := by
  unfold gatherIf part
  split
  · refine ⟨bits ||| (leWord (m0.src inp sp) (src + p) n <<< (8 * p)), ?_, ?_, ?_⟩
    · simp [run_bind, run_loadAligned hs, add_assoc, mul_add]
    · have := (Copying.start inp sp m0 dest src length).loadWord hsep
        (k := p) n 0 (by omega)
      exact hb.or hlt (by simpa using this)
    · rw [mul_add]
      exact or_shiftLeft_lt hlt (leWord_lt _ _ _)
  · exact ⟨bits, rfl, hb, hlt⟩

theorem emitIf_ok (off : Nat) (hd : (dest + j) % n = 0) {shift}
    (h : Copying inp sp m0 dest src length m j)
    (hb : Holds (fun i => m0.src inp sp (src + i)) length bits p j)
    (hlt : bits < 2 ^ (8 * p)) (hp : part off n ≤ p) (hs : shift < 256) :
    ∃ bits' m', (emitIf off n (dest + j) bits shift).run m =
        .ok (dest + (j + part off n), bits', (shift + 256 - 8 * part off n) % 256) m' ∧
      Copying inp sp m0 dest src length m' (j + part off n) ∧
      Holds (fun i => m0.src inp sp (src + i)) length bits' (p - part off n) (j + part off n) ∧
      bits' < 2 ^ (8 * (p - part off n)) := by
  unfold emitIf
  by_cases hc : off &&& n ≠ 0
  · have hn : part off n = n := if_pos hc
    rw [hn] at hp ⊢
    rw [if_pos hc]
    refine ⟨bits >>> (8 * n), m.storeWord (dest + j) bits n, ?_, h.storeWord (hb.mono hp),
      hb.shiftRight n, ?_⟩
    · simp [run_bind, run_storeAligned hd, add_assoc]
    · exact shiftRight_lt (by rwa [show 8 * n + 8 * (p - n) = 8 * p by omega])
  · have hn : part off n = 0 := if_neg hc
    rw [hn, if_neg hc]
    refine ⟨bits, m, ?_, h, hb, hlt⟩
    rw [show (shift + 256 - 8 * 0) % 256 = shift by omega]
    rfl

theorem shiftWords_ok (hsep : Separate sp dest src length) (hp : p ≤ 8) (fuel : Nat)
    (h : Copying inp sp m0 dest src length m j)
    (hb : Holds (fun i => m0.src inp sp (src + i)) length bits p j) (hlt : bits < 2 ^ (8 * p))
    (hf : src + j + p + 8 * fuel = stop) (hs : (src + j + p) % 8 = 0) (hd : (dest + j) % 8 = 0) :
    ∃ bits' j' m', (shiftWords inp sp stop (8 * p) fuel (dest + j) (src + j + p) bits).run m =
        .ok (dest + j', stop, bits') m' ∧ src + j' + p = stop ∧
      Copying inp sp m0 dest src length m' j' ∧
      Holds (fun i => m0.src inp sp (src + i)) length bits' p j' := by
  induction fuel generalizing m j bits with
  | zero =>
    refine ⟨bits, j, m, ?_, by omega, h, hb⟩
    rw [shiftWords, show src + j + p = stop by omega]
    rfl
  | succ fuel ih =>
    have hx : Holds (fun i => m0.src inp sp (src + i)) length
        (leWord (m.src inp sp) (src + (j + p)) 8) 8 (j + p) :=
      h.loadWord hsep (k := j + p) 8 0 (by omega)
    have hval := (((hb.or hlt hx).mono (by omega : 8 ≤ _)).or_mod)
    rw [Nat.or_comm] at hval
    have hhi := hx.shiftRight (8 - p)
    rw [show 8 - (8 - p) = p by omega, show j + p + (8 - p) = j + 8 by omega,
      show 8 * (8 - p) = 64 - 8 * p by omega] at hhi
    have hhilt : leWord (m.src inp sp) (src + (j + p)) 8 >>> (64 - 8 * p) < 2 ^ (8 * p) := by
      apply shiftRight_lt
      rw [show 64 - 8 * p + 8 * p = 8 * 8 by omega]
      exact leWord_lt _ _ _
    obtain ⟨bits', j', m', hm, hj, hc, hb'⟩ := ih (h.storeWord hval) hhi hhilt (by omega) (by omega)
      (by omega)
    refine ⟨bits', j', m', ?_, hj, hc, hb'⟩
    rw [shiftWords, if_pos (by omega)]
    rw [show src + (j + 8) + p = src + (j + p) + 8 by omega, ← add_assoc dest] at hm
    simp only [run_bind, run_loadAligned hs, run_storeAligned hd]
    simpa [add_assoc] using hm

theorem move_ok (inp : Nat → UInt8) (hsep : Separate sp dest src length) (hoff : off < 8)
    (hd : (dest + off) % 8 = 0) (hs : (src + off) % 8 = 0) (m0 : Mem) :
    ∃ m, (move inp sp off dest src).run m0 = .ok (dest + off, src + off) m ∧
      Copying inp sp m0 dest src length m off := by
  obtain ⟨hd2, hd4⟩ := part_aligned hoff hd
  obtain ⟨hs2, hs4⟩ := part_aligned hoff hs
  obtain ⟨m1, h1, c1⟩ := moveIf_ok (Copying.start inp sp m0 dest src length) hsep off (mod_one _) (mod_one _)
  obtain ⟨m2, h2, c2⟩ := moveIf_ok c1 hsep off hd2 hs2
  obtain ⟨m3, h3, c3⟩ := moveIf_ok c2 hsep off hd4 hs4
  have hsum := part_sum hoff
  rw [show 0 + part off 1 + part off 2 + part off 4 = off by omega] at h3 c3
  rw [add_zero, add_zero] at h1
  refine ⟨m3, ?_, c3⟩
  rw [move, run_bind_of_ok h1]
  rw [run_bind_of_ok h2]
  exact h3

theorem gather_ok (inp : Nat → UInt8) (hsep : Separate sp dest src length) (hoff : off < 8)
    (hs : (src + off) % 8 = 0) (m0 : Mem) :
    ∃ bits, (gather inp sp off src).run m0 = .ok (src + off, bits, 8 * off) m0 ∧
      Holds (fun i => m0.src inp sp (src + i)) length bits off 0 ∧ bits < 2 ^ (8 * off) := by
  have h0 : Holds (fun i => m0.src inp sp (src + i)) length 0 0 0 := fun _ h => by omega
  obtain ⟨hs2, hs4⟩ := part_aligned hoff hs
  obtain ⟨b1, h1, g1, l1⟩ := gatherIf_ok hsep off (mod_one _) h0 (by decide)
  obtain ⟨b2, h2, g2, l2⟩ := gatherIf_ok hsep off hs2 g1 l1
  obtain ⟨b3, h3, g3, l3⟩ := gatherIf_ok hsep off hs4 g2 l2
  have hsum := part_sum hoff
  rw [show 0 + part off 1 + part off 2 + part off 4 = off by omega] at h3 g3 l3
  rw [add_zero, mul_zero] at h1
  refine ⟨b3, ?_, g3, l3⟩
  rw [gather, run_bind_of_ok h1]
  rw [run_bind_of_ok h2]
  exact h3

theorem emit_ok (hoff : off < 8) (hd : (dest + off) % 8 = 0) (shift : Nat) (m0 : Mem)
    (hb : Holds (fun i => m0.src inp sp (src + i)) length bits p 0) (hlt : bits < 2 ^ (8 * p))
    (hp : off ≤ p) (hs : shift < 256) : ∃ bits' m, (emit off dest bits shift).run m0 =
        .ok (dest + off, bits', (shift + 256 - 8 * off) % 256) m ∧
      Copying inp sp m0 dest src length m off ∧
      Holds (fun i => m0.src inp sp (src + i)) length bits' (p - off) off ∧
      bits' < 2 ^ (8 * (p - off)) := by
  have hsum := part_sum hoff
  obtain ⟨hd2, hd4⟩ := part_aligned hoff hd
  obtain ⟨b1, m1, h1, c1, g1, l1⟩ := emitIf_ok off (mod_one _)
    (Copying.start inp sp m0 dest src length) hb hlt (by omega) hs
  obtain ⟨b2, m2, h2, c2, g2, l2⟩ := emitIf_ok off hd2 c1 g1 l1 (by omega) (mod_lt _ (by decide))
  obtain ⟨b3, m3, h3, c3, g3, l3⟩ := emitIf_ok off hd4 c2 g2 l2 (by omega) (mod_lt _ (by decide))
  rw [show 0 + part off 1 + part off 2 + part off 4 = off by omega,
    show p - part off 1 - part off 2 - part off 4 = p - off by omega] at *
  rw [add_zero] at h1
  refine ⟨b3, m3, ?_, c3, g3, l3⟩
  rw [emit, run_bind_of_ok h1]
  rw [run_bind_of_ok h2]
  rw [h3, show (((shift + 256 - 8 * part off 1) % 256 + 256 - 8 * part off 2) % 256 + 256 -
    8 * part off 4) % 256 = (shift + 256 - 8 * off) % 256 by omega]

/-- The shift left over when `so` source bytes were gathered and `d` of them stored. -/
theorem shift_left_over : ∀ so < 8, ∀ d < 8,
    (8 * so + 256 - 8 * d) % 256 &&& 0x38 = 8 * ((so + 8 - d) % 8) := by decide

theorem copyShifted_ok (hsep : Separate sp dest src length)
    (h : Copying inp sp m0 dest src length m j)
    (hb : Holds (fun i => m0.src inp sp (src + i)) length bits p j) (hlt : bits < 2 ^ (8 * p))
    (hp : 0 < p) (hp8 : p < 8) (hstop : stop = (src + length + 7) / 8 * 8)
    (hle : src + j + p ≤ stop) (hs : (src + j + p) % 8 = 0) (hd : (dest + j) % 8 = 0) :
    ∃ m' j', (copyShifted inp sp stop ((dest + length + 7) / 8 * 8) (8 * p) (dest + j)
        (src + j + p) bits).run m = .ok () m' ∧
      Copying inp sp m0 dest src length m' j' ∧ dest + j' = (dest + length + 7) / 8 * 8 := by
  obtain ⟨bits', j', m', hm, hj, hc, hb'⟩ :=
    shiftWords_ok hsep (by omega : p ≤ 8) ((stop - (src + j + p)) / 8) h hb hlt
      (by omega : _ = stop) hs hd
  unfold copyShifted
  rw [run_bind_of_ok hm]
  dsimp only
  split
  · -- the pending bytes reach the end of the source, so the last word completes the copy
    refine ⟨m'.storeWord (dest + j') bits' 8, j' + 8, run_storeAligned (by omega) _ _,
      hc.storeWord ?_, by omega⟩
    intro t ht hl
    exact hb' t (by omega) hl
  · exact ⟨m', j', rfl, hc, by omega⟩

/-- `copy` returns, stores the source bytes and garbage behind them up to the next word. -/
theorem copy_ok (inp : Nat → UInt8) (hsep : Separate sp dest src length) (hlen : 8 ≤ length) (m0 : Mem) :
    ∃ m j, (copy inp sp dest src length).run m0 = .ok () m ∧
      Copying inp sp m0 dest src length m j ∧ dest + j = (dest + length + 7) / 8 * 8 := by
  obtain ⟨so, hso⟩ : ∃ so, so = (8 - src % 8) % 8 := ⟨_, rfl⟩
  obtain ⟨d, hd⟩ : ∃ d, d = (8 - dest % 8) % 8 := ⟨_, rfl⟩
  obtain ⟨stop, hstop⟩ : ∃ stop, stop = (src + length + 7) / 8 * 8 := ⟨_, rfl⟩
  have hso8 : so < 8 := by omega
  have hd8 : d < 8 := by omega
  unfold copy
  simp only [← hso, ← hd, ← hstop]
  by_cases heq : so = d
  · obtain ⟨m1, h1, c1⟩ := move_ok inp hsep hso8 (by omega) (by omega) m0
    obtain ⟨m2, h2, c2⟩ := copyWords_ok c1 hsep ((stop - (src + so)) / 8) (by omega : _ = stop)
      (by omega) (by omega)
    refine ⟨m2, stop - src, ?_, c2, by omega⟩
    rw [if_pos heq, run_bind_of_ok h1]
    exact h2
  · obtain ⟨b, h1, g1, l1⟩ := gather_ok inp hsep hso8 (by omega) m0
    rw [if_neg heq, run_bind_of_ok h1]
    rw [show ((src + so) % 8 == 0) = true by rw [beq_iff_eq]; omega]
    have hshift := shift_left_over so hso8 d hd8
    have hda : (dest + d) % 8 = 0 := by omega
    have hds : ((dest + d) % 8 == 0) = true := beq_iff_eq.mpr hda
    have hne : (8 * ((so + 8 - d) % 8) != 0) = true := by rw [bne_iff_ne]; omega
    by_cases hlt : so < d
    · -- the first whole source word is needed to reach the first aligned destination word
      have hx := (Copying.start inp sp m0 dest src length).loadWord hsep
        (k := so) 8 0 (by omega)
      have hbits := ((g1.or l1 (by simpa using hx)).mono (by omega : 8 ≤ _)).or_mod
      obtain ⟨b2, m2, h2, c2, -, -⟩ := emit_ok hd8 hda (8 * so) m0 hbits
        (or_lt_two_pow (lt_of_lt_of_le l1 (Nat.pow_le_pow_right (by decide) (by omega)))
          (mod_lt _ (by decide))) (by omega) (by omega)
      simp only [if_pos hlt, assert_true, pure_bind, run_bind,
        @run_loadAligned 8 inp sp (src + so) (by omega), h2, hds, hshift, hne]
      have hx2 := c2.loadWord hsep (k := so) 8 (d - so) (by omega)
      have hp : (so + 8 - d) % 8 = so + 8 - d := by omega
      rw [show 8 - (d - so) = so + 8 - d by omega, show so + (d - so) = d by omega] at hx2
      have := copyShifted_ok hsep c2 hx2
        (shiftRight_lt (by
          rw [show 8 * (d - so) + 8 * (so + 8 - d) = 8 * 8 by omega]; exact leWord_lt _ _ _))
        (by omega) (by omega) hstop (by omega) (by omega) (by omega)
      rwa [hp, show 64 - 8 * (so + 8 - d) = 8 * (d - so) by omega,
        show src + so + 8 = src + d + (so + 8 - d) by omega]
    · obtain ⟨b2, m2, h2, c2, g2, l2⟩ := emit_ok hd8 hda (8 * so) m0 g1 l1
        (by omega) (by omega)
      simp only [if_neg hlt, assert_true, pure_bind, run_bind, h2, hds, hshift, hne]
      have hp : (so + 8 - d) % 8 = so - d := by omega
      have := copyShifted_ok hsep c2 g2 l2 (by omega) (by omega) hstop (by omega)
        (by omega) (by omega)
      rwa [hp, show src + so = src + d + (so - d) by omega]

/-- Within one memory, with room or a gap of a word below the source, `copy` makes aligned accesses
only, copies and stores nothing behind the word the copy ends in. -/
theorem copy_copies (inp : Nat → UInt8) (hlen : 8 ≤ length)
    (hsep : src + length ≤ dest ∨ dest + 8 ≤ src) (m : Mem) :
    ∃ m', (copy inp .output dest src length).run m = .ok () m' ∧
      (∀ i, i < length → m'.byte (dest + i) = m.byte (src + i)) ∧
      Stored m m' dest ((dest + length + 7) / 8 * 8) := by
  obtain ⟨m', j, hm, hc, hj⟩ := copy_ok inp (.inr hsep) hlen m
  exact ⟨m', hm, fun i hi => hc.done i (by omega) hi, hj ▸ hc.stored⟩

theorem copy_copies_overlapping :
    ∃ m', (copy (fun _ => 0) .output 3 11 40).run ⟨fun a => .ofNat a, []⟩ = .ok () m' ∧
    (∀ i, i < 40 → m'.byte (3 + i) = .ofNat (11 + i)) ∧ Stored ⟨fun a => .ofNat a, []⟩ m' 3 48 :=
  copy_copies _ (by decide) (by decide) _

end

/-! ## Literal and match copies -/

section
variable {inp : Nat → UInt8} {sp : Space} {dest src dist length : Nat}

/-- `lzcommon_literal_copy` returns with the bytes copied, whatever the alignments. -/
theorem literalCopy_ok (inp : Nat → UInt8) (hsep : Separate sp dest src length) (m : Mem) :
    ∃ m', (lzcommonLiteralCopy inp sp dest src length).run m = .ok () m' ∧
      Stored m m' dest (max (dest + 8) ((dest + length + 7) / 8 * 8)) ∧
      ∀ i < length, m'.byte (dest + i) = m.src inp sp (src + i) := by
  unfold lzcommonLiteralCopy lzcommonBlock
  by_cases hlen : length < 8
  · rw [if_pos hlen]
    refine ⟨_, rfl, (m.memcpy_stored inp sp _ _ _).mono le_rfl (by omega), ?_⟩
    intro i hi
    refine Mem.memcpy_byte ?_ (by omega)
    rcases hsep with h | h | h
    · exact .inl h
    · exact .inr (.inl (by omega))
    · exact .inr (.inr (by omega))
  · rw [if_neg hlen]
    obtain ⟨m', j, hm, hc, hj⟩ := copy_ok inp hsep (by omega) m
    exact ⟨m', hm, hc.stored.mono le_rfl (by omega), fun i hi => hc.done i (by omega) hi⟩

theorem copyBytes_stored (dest src n : Nat) (m : Mem) :
    Stored m (copyBytes dest src n m) dest (dest + n) := by
  induction n generalizing m dest src with
  | zero => exact .refl m _ _
  | succ n ih =>
    have hs : Stored m (m.store dest (m.byte src)) dest (dest + (n + 1)) :=
      .store m _ (le_refl dest) (by omega)
    exact hs.trans ((ih (dest + 1) (src + 1) _).mono (by omega) (by omega))

/-- The byte loop reads each byte after it was written. -/
theorem copyBytes_byte (hlt : src < dest) (hi : i < n) (m : Mem) :
    (copyBytes dest src n m).byte (dest + i) = (copyBytes dest src n m).byte (src + i) := by
  induction n generalizing m dest src i with
  | zero => omega
  | succ n ih =>
    rw [copyBytes]
    cases i with
    | zero =>
      rw [(copyBytes_stored _ _ _ _).frame _ (by omega), (copyBytes_stored _ _ _ _).frame _ (by omega)]
      simp only [add_zero, Mem.store_byte_self]
      exact (m.store_byte_ne _ (by omega)).symm
    | succ i =>
      rw [show dest + (i + 1) = dest + 1 + i by omega, show src + (i + 1) = src + 1 + i by omega]
      exact ih (by omega) (by omega) _

/-- `lzcommon_match_copy` returns with every byte equal to the one `dist` back. -/
theorem matchCopy_ok (inp : Nat → UInt8) (length : Nat) (hpos : 0 < dist) (hle : dist ≤ dest) (m : Mem) :
    ∃ m', (lzcommonMatchCopy inp dest dist length).run m = .ok () m' ∧
      Stored m m' dest (max (dest + 8) ((dest + length + 7) / 8 * 8)) ∧
      ∀ i < length, m'.byte (dest + i) = m'.byte (dest + i - dist) := by
  unfold lzcommonMatchCopy
  by_cases hlen : length ≤ dist
  · rw [if_pos hlen]
    obtain ⟨m', hm, hs, hb⟩ := literalCopy_ok inp
      (.inr (.inl (by omega)) : Separate .output dest (dest - dist) length) m
    refine ⟨m', hm, hs, fun i hi => ?_⟩
    rw [hb i hi, hs.frame _ (by omega), show dest + i - dist = dest - dist + i by omega]
    rfl
  · rw [if_neg hlen]
    by_cases hd : dist = 1
    · subst hd
      have hs := m.memset_stored dest (m.byte (dest - 1)) length
      refine ⟨_, rfl, hs.mono le_rfl (by omega), fun i hi => ?_⟩
      rw [Mem.memset_byte hi]
      cases i with
      | zero => exact (hs.frame _ (by omega)).symm
      | succ i =>
        rw [show dest + (i + 1) - 1 = dest + i by omega, Mem.memset_byte (by omega)]
    · rw [if_neg hd]
      refine ⟨_, rfl, (copyBytes_stored _ _ length m).mono le_rfl (by omega), fun i hi => ?_⟩
      rw [copyBytes_byte (by omega) hi, show dest + i - dist = dest - dist + i by omega]

/-- `lzcommon_match_copy` is the overlapping copy byte by byte: each byte is the one `dist` back, those
below the destination are as before. -/
theorem matchCopy_lz77 (inp : Nat → UInt8) (length : Nat) (hpos : 1 ≤ dist) (hle : dist ≤ dest) (m : Mem) :
    ∃ m', (lzcommonMatchCopy inp dest dist length).run m = .ok () m' ∧
      (∀ a, a < dest → m'.byte a = m.byte a) ∧
      (∀ i, i < length → m'.byte (dest + i) = m'.byte (dest + i - dist) ∧
        m'.byte (dest + i) = (copyBytes dest (dest - dist) length m).byte (dest + i)) ∧
      Stored m m' dest (max (dest + 8) ((dest + length + 7) / 8 * 8)) := by
  obtain ⟨m', hm, hs, hb⟩ := matchCopy_ok inp length hpos hle m
  have hbelow (a) (ha : a < dest) : m'.byte a = m.byte a := hs.frame a (.inl ha)
  refine ⟨m', hm, hbelow, fun i hi => ⟨hb i hi, ?_⟩, hs⟩
  -- the bytes before the `i`th determine it, in both copies alike
  induction i using Nat.strong_induction_on with
  | _ i ih =>
    rw [hb i hi, copyBytes_byte (by omega) hi, show dest + i - dist = dest - dist + i by omega]
    by_cases hd : i < dist
    · rw [hbelow _ (by omega), (copyBytes_stored _ _ _ _).frame _ (by omega)]
    · rw [show dest - dist + i = dest + (i - dist) by omega]
      exact ih (i - dist) (by omega) (by omega)

theorem matchCopy_lz77_three :
    ∃ m', (lzcommonMatchCopy (fun _ => 0) 5 3 20).run ⟨fun a => .ofNat a, []⟩ = .ok () m' ∧
    (∀ a, a < 5 → m'.byte a = .ofNat a) ∧
    (∀ i, i < 20 → m'.byte (5 + i) = m'.byte (5 + i - 3) ∧
      m'.byte (5 + i) = (copyBytes 5 (5 - 3) 20 ⟨fun a => .ofNat a, []⟩).byte (5 + i)) ∧
    Stored ⟨fun a => .ofNat a, []⟩ m' 5 32 :=
  matchCopy_lz77 _ 20 (by decide) (by decide) _

end

end Rkboot.Compression.Lzcommon
