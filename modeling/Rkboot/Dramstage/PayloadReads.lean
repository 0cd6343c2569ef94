import Rkboot.Dramstage.BlockStream
import Rkboot.Dramstage.PayloadPartition

/-! # What the drivers read of the payload partition

`boot_blockdev` begins a stream at the first block of the partition it has selected, into all of
`blob_buffer`, and `decompress_payload` pumps it. How far the requests reach depends on what the
decompressors ask for and on the buffer, not on the end of the partition. -/
namespace Rkboot.Dramstage
open Lib Drivers Nat List

section
variable (size len : Nat)

/-- `x` bytes in whole requests of `size` bytes. -/
def roundUp (x : Nat) : Nat := (x + (size - 1)) / size * size

/-- What has arrived, and what has been requested, once a pump has been asked for `most` bytes of a
buffer of length `len`. -/
def bytesDelivered (most : Nat) : Nat := min len (roundUp size most)

def bytesRequested (most : Nat) : Nat :=
  if most = 0 then 0 else min len (roundUp size most + size)

/-- The most bytes that a sequence of calls, each with `consume` and `min_size`, asks for. It ends
at a call that consumes more than there is. -/
def mostWanted : List (Nat × Nat) → (consumed most : Nat) → Nat
  | [], _, most => most
  | (consume, minSize) :: calls, consumed, most =>
    if consume ≤ bytesDelivered size len most - consumed then
      mostWanted calls (consumed + consume) (max most (consumed + consume + minSize))
    else most

variable {size len}

theorem bytesRequested_eq_zero {most} (hsize : 0 < size) :
    bytesRequested size len most = 0 ↔ most = 0 ∨ len = 0 := by
  rw [bytesRequested]
  split
  · rename_i hzero
    exact ⟨fun _ => Or.inl hzero, fun _ => rfl⟩
  · rename_i hne
    constructor
    · intro hmin
      exact Or.inr (by omega)
    · rintro (hzero | rfl)
      · exact absurd hzero hne
      · exact Nat.zero_min _

theorem le_mostWanted (size len : Nat) (calls : List (Nat × Nat)) (consumed most : Nat) :
    most ≤ mostWanted size len calls consumed most := by
  induction calls generalizing consumed most with
  | nil => exact le_rfl
  | cons call calls ih =>
    rw [mostWanted]
    split
    · exact (le_max_left ..).trans (ih ..)
    · exact le_rfl

end

/-! ## Calls in general -/

section
variable {T : Type} {B : Backend T} {dev dev' : Blockdev T}

/-- The calls up to one of them; the last may have failed. -/
inductive Pumped (B : Backend T) : Blockdev T → List (Nat × Nat) → Blockdev T → Prop
  | nil (dev : Blockdev T) (calls : List (Nat × Nat)) : Pumped B dev calls dev
  | cons {dev dev' dev'' : Blockdev T} {fuel consume minSize : Nat} {b : AsyncBuf}
      {calls : List (Nat × Nat)} : dev.pump B fuel consume minSize = .ok (b, dev') →
      Pumped B dev' calls dev'' → Pumped B dev ((consume, minSize) :: calls) dev''

/-- What a call may not change. -/
structure SameStream (dev dev' : Blockdev T) : Prop where
  blockSize : dev'.blockSize = dev.blockSize
  numBlocks : dev'.numBlocks = dev.numBlocks
  stopPtr : dev'.stopPtr = dev.stopPtr

theorem Blockdev.catchUp_eq_ok {res} (h : dev.catchUp B = .ok (res, dev')) :
    dev' = dev ∧ res = .ok ∧ dev.endPtr = dev.nextEndPtr ∨
    ∃ x bus, B.wait dev.xfer dev.bus = .ok (res, x, bus) ∧ dev' = { dev with
        xfer := x, bus := bus, endPtr := if res = .ok then dev.nextEndPtr else dev.endPtr } := by
  rw [catchUp] at h
  split at h
  · exact Or.inr (waitXfer_eq_ok h)
  · rename_i heq
    cases h
    exact Or.inl ⟨rfl, rfl, not_not.mp heq⟩

theorem Blockdev.submit_eq_ok {fuel res} (h : dev.submit B fuel = .ok (res, dev')) :
    ∃ x bus, B.submit fuel dev.xfer dev.bus ⟨dev.nextLba, dev.endPtr, dev.requestEnd B⟩ =
        .ok (res, x, bus) ∧
      dev' = if res = .ok then { dev with
        xfer := x, bus := bus, nextEndPtr := dev.requestEnd B
        nextLba := (dev.nextLba + B.requestSize / dev.blockSize) % B.lbaRange }
      else { dev with xfer := x, bus := bus } := by
  obtain ⟨⟨r, x, bus⟩, hsub, h⟩ := except_bind_eq_ok h
  dsimp only at h
  split at h
  · rename_i hne
    cases h
    exact ⟨x, bus, hsub, (if_neg hne).symm⟩
  · rename_i heq
    obtain rfl : r = .ok := not_not.mp heq
    cases h
    exact ⟨x, bus, hsub, rfl⟩

/-- What the two steps of the loop keep, the loop keeps. -/
theorem Blockdev.pumpLoop_keeps (dev : Blockdev T) {J : Blockdev T → Prop}
    (hcatch : ∀ {dev res dev'}, J dev → dev.catchUp B = .ok (res, dev') → J dev')
    (hsubmit : ∀ {fuel dev res dev'}, J dev → dev.endPtr = dev.nextEndPtr → dev.stopPtr ≠ dev.endPtr →
      dev.submit B fuel = .ok (res, dev') → J dev') (h : J dev) {minSize fuel b}
    (hrun : pumpLoop B minSize fuel dev = .ok (b, dev')) : J dev' := by
  induction fuel generalizing dev with
  | zero => cases hrun
  | succ fuel ih =>
    rw [pumpLoop] at hrun
    split at hrun
    · cases hrun
      exact h
    obtain ⟨⟨res, dev₁⟩, hcat, hrun⟩ := except_bind_eq_ok hrun
    have h₁ := hcatch h hcat
    dsimp only at hrun
    split at hrun
    · cases hrun
      exact h₁
    rename_i heq
    obtain rfl : res = .ok := not_not.mp heq
    split at hrun
    · cases hrun
      exact h₁
    rename_i hstop
    have hend : dev₁.endPtr = dev₁.nextEndPtr := by
      rcases catchUp_eq_ok hcat with ⟨rfl, -, hend⟩ | ⟨x, bus, -, rfl⟩
      · exact hend
      · rfl
    obtain ⟨⟨res, dev₂⟩, hsub, hrun⟩ := except_bind_eq_ok hrun
    have h₂ := hsubmit h₁ hend hstop hsub
    split at hrun
    · cases hrun
      exact h₂
    · exact ih _ h₂ hrun

/-- A property of the transfer object that waiting and submitting keep. -/
theorem Blockdev.pump_frame {I : T → Prop}
    (hwait : ∀ {x bus res x' bus'}, I x → B.wait x bus = .ok (res, x', bus') → I x')
    (hsubmit : ∀ {fuel x bus r res x' bus'}, I x → B.submit fuel x bus r = .ok (res, x', bus') → I x')
    (hI : I dev.xfer) {consume minSize fuel b}
    (hrun : dev.pump B fuel consume minSize = .ok (b, dev')) : I dev'.xfer ∧ SameStream dev dev' := by
  obtain ⟨-, hloop⟩ := pump_eq_ok hrun
  refine pumpLoop_keeps { dev with consumePtr := dev.consumePtr + consume }
    (J := fun d => I d.xfer ∧ SameStream dev d) ?_ ?_ ⟨hI, rfl, rfl, rfl⟩ hloop
  · rintro d res d' ⟨hd, hsame⟩ hcat
    rcases catchUp_eq_ok hcat with ⟨rfl, -⟩ | ⟨x, bus, hw, rfl⟩
    · exact ⟨hd, hsame⟩
    · exact ⟨hwait hd hw, hsame.blockSize, hsame.numBlocks, hsame.stopPtr⟩
  · rintro fuel d res d' ⟨hd, hsame⟩ - - hrun
    obtain ⟨x, bus, hsub, rfl⟩ := submit_eq_ok hrun
    split
    · exact ⟨hsubmit hd hsub, hsame.blockSize, hsame.numBlocks, hsame.stopPtr⟩
    · exact ⟨hsubmit hd hsub, hsame.blockSize, hsame.numBlocks, hsame.stopPtr⟩

end

end Rkboot.Dramstage
