import Rkboot.Lib.Word

/-! # Bulk commands of the USB loader

`bulk_mode` of the host tool sends a header of 512 bytes for every command, and behind that of a load
or flash command the data. `xfer_complete` of the device reads the header as 64-bit words. The header
is written in halves of words. -/
namespace Rkboot.Usb
open Lib Function Nat

/-- `enum usbstage_command`, which both programs define. -/
inductive UsbstageCommand where
  | load
  | call
  | start
  | flash
  deriving DecidableEq, Repr

def UsbstageCommand.number : UsbstageCommand → Nat
  | .load => 0
  | .call => 1
  | .start => 2
  | .flash => 3

/-! ## The host -/

/-- `write_le32`. -/
def writeLe32 (buf : Nat → UInt8) (pos : Nat) (val : UInt32) : Nat → UInt8 :=
  let buf := update buf pos (val &&& 0xff).toUInt8
  let buf := update buf (pos + 1) (val >>> 8 &&& 0xff).toUInt8
  let buf := update buf (pos + 2) (val >>> 16 &&& 0xff).toUInt8
  update buf (pos + 3) (val >>> 24).toUInt8

/-- What a header is made for: a chunk of a file, or two addresses. -/
inductive BulkCommand where
  | load (addr : UInt64) (size : UInt32)
  | flash (addr : UInt64) (size : UInt32)
  | call (entry stack : UInt64)
  | start (entry stack : UInt64)
  deriving DecidableEq, Repr

/-- The header of `--load` and `--flash`. -/
def loadHeader (cmd : UsbstageCommand) (loadAddr : UInt64) (size : UInt32) : Nat → UInt8 :=
  let header : Nat → UInt8 := fun _ => 0
  let header := writeLe32 header 0 (UInt32.ofNat cmd.number)
  let header := writeLe32 header 8 size
  let header := writeLe32 header 12 0
  let header := writeLe32 header 16 loadAddr.toUInt32
  writeLe32 header 20 (loadAddr >>> 32).toUInt32

/-- The header of `--call` and `--start`. -/
def runHeader (cmd : UsbstageCommand) (entryAddr stackAddr : UInt64) : Nat → UInt8 :=
  let header : Nat → UInt8 := fun _ => 0
  let header := writeLe32 header 0 (UInt32.ofNat cmd.number)
  let header := writeLe32 header 8 entryAddr.toUInt32
  let header := writeLe32 header 12 (entryAddr >>> 32).toUInt32
  let header := writeLe32 header 16 stackAddr.toUInt32
  writeLe32 header 24 (stackAddr >>> 32).toUInt32

def BulkCommand.header : BulkCommand → Nat → UInt8
  | .load addr size => loadHeader .load addr size
  | .flash addr size => loadHeader .flash addr size
  | .call entry stack => runHeader .call entry stack
  | .start entry stack => runHeader .start entry stack

/-! ## The device -/

/-- `header[i]` of `u64 *header`. -/
def headerWord (header : Nat → UInt8) (i : Nat) : Nat := leWord header (8 * i) 8

/-- The words that `xfer_complete` and `sramstage_late` use. -/
def headerWords (header : Nat → UInt8) : List Nat := (List.range 9).map (headerWord header)

/-- What the words stand for. -/
def BulkCommand.words : BulkCommand → List Nat
  | .load addr size => [UsbstageCommand.load.number, size.toNat, addr.toNat, 0, 0, 0, 0, 0, 0]
  | .flash addr size => [UsbstageCommand.flash.number, size.toNat, addr.toNat, 0, 0, 0, 0, 0, 0]
  | .call entry stack => [UsbstageCommand.call.number, entry.toNat, stack.toNat, 0, 0, 0, 0, 0, 0]
  | .start entry stack => [UsbstageCommand.start.number, entry.toNat, stack.toNat, 0, 0, 0, 0, 0, 0]

/-! ## Halves of words -/

theorem masked_toUInt8 (val : UInt32) : (val &&& 0xff).toUInt8 = val.toUInt8 := by
  apply UInt8.toNat_inj.mp
  have h : val.toNat % 2 ^ 8 &&& 2 ^ 8 - 1 = val.toNat % 2 ^ 8 := by
    rw [and_two_pow_sub_one_eq_mod, mod_mod]
  simpa using h

theorem writeLe32_apply (buf : Nat → UInt8) (pos x : Nat) (val : UInt32) : writeLe32 buf pos val x =
      if pos ≤ x ∧ x < pos + 4 then wordByte val.toNat (x - pos) else buf x := by
  have h0 : val.toUInt8 = wordByte val.toNat 0 := by simp [wordByte]
  have h1 : (val >>> 8).toUInt8 = wordByte val.toNat 1 :=
    UInt8.toNat_inj.mp (by simp [wordByte])
  have h2 : (val >>> 16).toUInt8 = wordByte val.toNat 2 :=
    UInt8.toNat_inj.mp (by simp [wordByte])
  have h3 : (val >>> 24).toUInt8 = wordByte val.toNat 3 :=
    UInt8.toNat_inj.mp (by simp [wordByte])
  simp only [writeLe32, masked_toUInt8, h0, h1, h2, h3]
  by_cases hx : pos ≤ x ∧ x < pos + 4
  · obtain ⟨k, rfl⟩ := Nat.exists_eq_add_of_le hx.1
    rcases k with _ | _ | _ | _ | k
    · simp
    · simp
    · simp
    · simp
    · omega
  · rw [if_neg hx, update_of_ne (by omega), update_of_ne (by omega), update_of_ne (by omega),
      update_of_ne (by omega)]

/-- Half `j` of the words of a header. -/
def headerHalf (header : Nat → UInt8) (j : Nat) : Nat := leWord header (4 * j) 4

theorem headerHalf_write (header : Nat → UInt8) {pos} (hpos : pos % 4 = 0) (j : Nat)
    (val : UInt32) : headerHalf (writeLe32 header pos val) j =
      if 4 * j = pos then val.toNat else headerHalf header j := by
  split
  · rename_i hj
    subst hj
    refine leWord_of_wordByte val.toNat_lt ?_
    intro k hk
    rw [writeLe32_apply, if_pos (by omega), Nat.add_sub_cancel_left]
  · rename_i hj
    refine leWord_congr ?_
    intro k hk
    rw [writeLe32_apply, if_neg (by omega)]

@[simp] theorem headerHalf_zero (j : Nat) : headerHalf (fun _ => 0) j = 0 :=
  leWord_zero fun _ _ => rfl

theorem headerWord_eq (header : Nat → UInt8) (i : Nat) :
    headerWord header i = headerHalf header (2 * i) + headerHalf header (2 * i + 1) * 2 ^ 32 := by
  have hlt : headerHalf header (2 * i) < 2 ^ 32 := leWord_lt header _ 4
  rw [headerWord, leWord_append header (8 * i) 4 4, show 8 * i = 4 * (2 * i) by omega,
    show 4 * (2 * i) + 4 = 4 * (2 * i + 1) by omega, ← headerHalf, ← headerHalf, Nat.or_comm,
    ← shiftLeft_add_eq_or_of_lt hlt, shiftLeft_eq, add_comm]

theorem UsbstageCommand.number_toNat (cmd : UsbstageCommand) :
    (UInt32.ofNat cmd.number).toNat = cmd.number := by
  cases cmd <;> rfl

theorem low_toNat (x : UInt64) : x.toUInt32.toNat = x.toNat % 2 ^ 32 := by simp

theorem high_toNat (x : UInt64) : (x >>> 32).toUInt32.toNat = x.toNat / 2 ^ 32 := by
  have hlt : x.toNat / 2 ^ 32 < 2 ^ 32 := Nat.div_lt_of_lt_mul x.toNat_lt
  simpa [shiftRight_eq_div_pow] using hlt

/-! ## What the device reads -/

theorem loadHeader_words (cmd : UsbstageCommand) (addr : UInt64) (size : UInt32) :
    headerWords (loadHeader cmd addr size) =
      [cmd.number, size.toNat, addr.toNat, 0, 0, 0, 0, 0, 0] := by
  have hwords : headerWords (loadHeader cmd addr size) =
      [(UInt32.ofNat cmd.number).toNat, size.toNat,
        addr.toUInt32.toNat + (addr >>> 32).toUInt32.toNat * 2 ^ 32, 0, 0, 0, 0, 0, 0] := by
    simp (disch := decide) [headerWords, List.range_succ, headerWord_eq, loadHeader,
      headerHalf_write]
  rw [hwords, cmd.number_toNat, low_toNat, high_toNat, mod_add_div']

/-- The upper half of the stack address is in the word behind it. -/
theorem runHeader_words (cmd : UsbstageCommand) (entry stack : UInt64) :
    headerWords (runHeader cmd entry stack) =
      [cmd.number, entry.toNat, stack.toNat % 2 ^ 32, stack.toNat / 2 ^ 32, 0, 0, 0, 0, 0] := by
  have hwords : headerWords (runHeader cmd entry stack) = [(UInt32.ofNat cmd.number).toNat,
        entry.toUInt32.toNat + (entry >>> 32).toUInt32.toNat * 2 ^ 32, stack.toUInt32.toNat,
        (stack >>> 32).toUInt32.toNat, 0, 0, 0, 0, 0] := by
    simp (disch := decide) [headerWords, List.range_succ, headerWord_eq, runHeader,
      headerHalf_write]
  rw [hwords, cmd.number_toNat, low_toNat, high_toNat, mod_add_div', low_toNat, high_toNat]

/-- The stack address of a command fits into 32 bits. -/
def BulkCommand.StackFits : BulkCommand → Prop
  | .load _ _ | .flash _ _ => True
  | .call _ stack | .start _ stack => stack.toNat < 2 ^ 32

theorem runHeader_words_iff (cmd : UsbstageCommand) (entry stack : UInt64) :
    headerWords (runHeader cmd entry stack) =
        [cmd.number, entry.toNat, stack.toNat, 0, 0, 0, 0, 0, 0] ↔ stack.toNat < 2 ^ 32 := by
  rw [runHeader_words]
  constructor
  · intro h
    simp only [List.cons.injEq] at h
    obtain ⟨-, -, hlow, -⟩ := h
    rw [← hlow]
    exact mod_lt _ (by decide)
  · intro h
    rw [mod_eq_of_lt h, div_eq_of_lt h]

/-- The device reads the words that the host was given, except for a stack address of more than
32 bits. -/
theorem headerWords_eq_iff (c : BulkCommand) : headerWords c.header = c.words ↔ c.StackFits := by
  cases c with
  | load addr size => exact iff_of_true (loadHeader_words .load addr size) trivial
  | flash addr size => exact iff_of_true (loadHeader_words .flash addr size) trivial
  | call entry stack => exact runHeader_words_iff .call entry stack
  | start entry stack => exact runHeader_words_iff .start entry stack

/-- A stack at the end of 8 GiB: it is handed over as 0, and 2 as the first argument. -/
theorem start_high_stack : headerWords (BulkCommand.start 0x4000000 0x200000000).header =
      [2, 0x4000000, 0, 2, 0, 0, 0, 0, 0] ∧
    headerWords (BulkCommand.start 0x4000000 0x200000000).header ≠
      (BulkCommand.start 0x4000000 0x200000000).words := by
  have hwords : headerWords (BulkCommand.start 0x4000000 0x200000000).header =
      [2, 0x4000000, 0, 2, 0, 0, 0, 0, 0] := runHeader_words .start 0x4000000 0x200000000
  refine ⟨hwords, ?_⟩
  decide

end Rkboot.Usb
