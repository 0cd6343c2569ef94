import Rkboot.Dramstage.Blockdev

/-! # The pumps present a device as a stream

`Streams` relates the pointers of a driver, the transfer object, the memory and the requests in
flight; `start`, `pump` and the hardware keep it. The results hold for every behaviour of the
hardware: a call that meets a failure reports it, and the pointers stay where they were. -/
namespace Rkboot.Dramstage
open Lib Drivers Nat List

/-- One request is in flight while the transfer object is submitted, and none otherwise. -/
def Consistent (status : XferStatus) (flight : List Request) : Prop :=
  match status with
  | .submitted => ∃ r, flight = [r]
  | _ => flight = []

theorem Consistent.nil {status flight} (h : Consistent status flight)
    (hs : status ≠ .submitted) : flight = [] := by
  cases status with
  | submitted => exact absurd rfl hs
  | ended => exact h
  | creating => exact h

theorem Consistent.of_ne {status} (hs : status ≠ .submitted) : Consistent status [] := by
  cases status with
  | submitted => exact absurd rfl hs
  | ended => rfl
  | creating => rfl

/-- What the transfer functions of the SD and the eMMC driver have in common, on a device with blocks of
`bs` bytes. A submission either leaves everything as it was and reports an error, or makes the request
the one in flight. -/
structure Backend.Lawful {T : Type} (B : Backend T) (bs : Nat) (content : Nat → UInt8)
    (status : T → XferStatus) : Prop where
  block : bs = 512 ∨ bs = 4096
  size : ∃ n, 0 < n ∧ B.requestSize = bs * n
  range : B.lbaRange = 2 ^ 32
  wait : ∀ {x bus res x' bus'}, B.wait x bus = .ok (res, x', bus') →
    (status x = .ended res ∧ x' = x ∧ bus' = bus) ∨
    (status x = .submitted ∧ status x' = .ended res ∧ bus' = bus.complete content 512 res)
  submit : ∀ {fuel x bus r res x' bus'}, Consistent (status x) bus.flight →
    B.submit fuel x bus r = .ok (res, x', bus') →
    (res ≠ .ok ∧ bus'.mem = bus.mem ∧ bus'.flight = bus.flight ∧ bus'.sent = bus.sent ∧
      (status x' = .submitted ↔ status x = .submitted)) ∨
    (status x ≠ .submitted ∧ status x' = .submitted ∧ bus'.mem = bus.mem ∧ bus'.flight = [r] ∧
      bus'.sent = r :: bus.sent)

/-- The memory from `lo` to `hi` holds the device from block `addr` on, where the device has
blocks; `buf` is where the stream begins. The hardware counts in blocks of 512 bytes, so nothing is said
of other devices. -/
def Holds (bs : Nat) (content : Nat → UInt8) (numBlocks addr buf : Nat) (mem : Nat → UInt8)
    (lo hi : Nat) : Prop :=
  ∀ a, lo ≤ a → a < hi → bs = 512 ∧ 512 * addr + (a - buf) < 512 * numBlocks →
    mem a = content (512 * addr + (a - buf))

theorem Holds.append {bs content numBlocks addr buf lo mid hi mem}
    (h : Holds bs content numBlocks addr buf mem lo mid)
    (h' : Holds bs content numBlocks addr buf mem mid hi) :
    Holds bs content numBlocks addr buf mem lo hi := fun a hlo hhi hin =>
  (lt_or_ge a mid).elim (fun hlt => h a hlo hlt hin) fun hge => h' a hge hhi hin

/-- The block a stream from `addr` reads after `k` requests. -/
def Backend.lbaAt {T : Type} (B : Backend T) (bs addr k : Nat) : Nat :=
  (addr + k * (B.requestSize / bs)) % 2 ^ 32

/-- The request after `j` others. -/
def Backend.requestAt {T : Type} (B : Backend T) (bs addr buf stop j : Nat) : Request :=
  ⟨B.lbaAt bs addr j, buf + j * B.requestSize, min stop (buf + (j + 1) * B.requestSize)⟩

section
variable {T : Type} (B : Backend T) (bs : Nat) (content : Nat → UInt8) (status : T → XferStatus)

/-- The request after `j` others is on its way, or it has ended. -/
structure Pending (dev : Blockdev T) (addr buf j : Nat) : Prop where
  begins : dev.endPtr = buf + j * B.requestSize
  more : dev.endPtr < dev.nextEndPtr
  flying : status dev.xfer = .submitted →
    dev.bus.flight = [⟨B.lbaAt bs addr j, dev.endPtr, dev.nextEndPtr⟩]
  arrived : status dev.xfer = .ended .ok →
    Holds bs content dev.numBlocks addr buf dev.bus.mem dev.endPtr dev.nextEndPtr

/-- After `k` requests `next_end_ptr` and `next_lba` are where the next one begins; `end_ptr` is
there too, or one request behind. -/
structure Cursor (dev : Blockdev T) (addr buf k : Nat) : Prop where
  nextLba : dev.nextLba = B.lbaAt bs addr k
  nextEnd : dev.nextEndPtr = min dev.stopPtr (buf + k * B.requestSize)
  behind : dev.endPtr = dev.nextEndPtr ∨ ∃ j, k = j + 1 ∧ Pending B bs content status dev addr buf j

/-- A device with blocks of `bs` bytes is in a stream that began with block `addr` at address `buf` and has
led to `k` requests. -/
structure Streams (dev : Blockdev T) (addr buf k : Nat) : Prop where
  blockSize : dev.blockSize = bs
  numBlocks : dev.numBlocks ≤ 2 ^ 32
  consistent : Consistent (status dev.xfer) dev.bus.flight
  base_le : buf ≤ dev.consumePtr
  consume_le : dev.consumePtr ≤ dev.endPtr
  end_le : dev.endPtr ≤ dev.nextEndPtr
  next_le : dev.nextEndPtr ≤ dev.stopPtr
  delivered : Holds bs content dev.numBlocks addr buf dev.bus.mem buf dev.endPtr
  ahead : ∀ r ∈ dev.bus.flight, dev.endPtr ≤ r.start
  cursor : Cursor B bs content status dev addr buf k

variable {B bs content status} {dev dev' : Blockdev T} {addr buf k : Nat}

theorem Streams.base_le_end (h : Streams B bs content status dev addr buf k) : buf ≤ dev.endPtr :=
  h.base_le.trans h.consume_le

/-- The requests are whole sectors of the bus. -/
theorem Backend.Lawful.sectors (hB : B.Lawful bs content status) :
    ∃ n, 0 < n ∧ B.requestSize = 512 * n := by
  obtain ⟨n, hn, hsize⟩ := hB.size
  rcases hB.block with rfl | rfl
  · exact ⟨n, hn, hsize⟩
  · exact ⟨8 * n, by omega, by omega⟩

theorem Backend.Lawful.size_pos (hB : B.Lawful bs content status) : 0 < B.requestSize := by
  obtain ⟨n, hn, hsize⟩ := hB.sectors
  omega

/-- A request that ends well has filled its part of the stream. -/
theorem Backend.Lawful.holds_fill (hB : B.Lawful bs content status) {p q numBlocks mem}
    (hp : p = buf + k * B.requestSize) (hn : numBlocks ≤ 2 ^ 32) :
    Holds bs content numBlocks addr buf (Request.fill content 512 ⟨B.lbaAt bs addr k, p, q⟩ mem) p q := by
  rintro a hlo hhi ⟨rfl, hin⟩
  obtain ⟨n, -, hsize⟩ := hB.size
  rw [Request.fill_inside hlo hhi]
  have hmul : k * (512 * n) = 512 * (k * n) := mul_left_comm ..
  have hlba : B.lbaAt 512 addr k = addr + k * n := by
    rw [Backend.lbaAt, hsize, Nat.mul_div_cancel_left _ (by decide)]
    apply mod_eq_of_lt
    rw [hsize, hmul] at hp
    omega
  dsimp only
  congr 1
  rw [hsize, hmul] at hp
  omega

/-- What waiting does to the stream before `end_ptr` moves. -/
theorem Streams.waited (hB : B.Lawful bs content status) (h : Streams B bs content status dev addr buf k)
    {res x} {bus : Bus} (hw : B.wait dev.xfer dev.bus = .ok (res, x, bus)) :
    Streams B bs content status { dev with xfer := x, bus := bus } addr buf k ∧ bus.flight = [] ∧
      bus.sent = dev.bus.sent ∧ (res = .ok →
        Holds bs content dev.numBlocks addr buf bus.mem dev.endPtr dev.nextEndPtr) := by
  have hk := h.cursor
  have hnone : dev.endPtr = dev.nextEndPtr →
      Holds bs content dev.numBlocks addr buf bus.mem dev.endPtr dev.nextEndPtr := fun hend a hlo hhi =>
    absurd hhi (not_lt.mpr (hend ▸ hlo))
  rcases hB.wait hw with ⟨hst, rfl, rfl⟩ | ⟨hst, hst', rfl⟩
  · refine ⟨h, h.consistent.nil (by rw [hst]; exact nofun), rfl, ?_⟩
    rintro rfl
    rcases hk.behind with hend | ⟨j, -, hj⟩
    · exact hnone hend
    · exact hj.arrived hst
  · obtain ⟨r, hflight⟩ : ∃ r, dev.bus.flight = [r] := by
      have hc := h.consistent
      rw [hst] at hc
      exact hc
    have hstart : dev.endPtr ≤ r.start := h.ahead r (by rw [hflight]; exact mem_singleton.mpr rfl)
    have hbelow : ∀ a < dev.endPtr, (dev.bus.complete content 512 res).mem a = dev.bus.mem a := by
      intro a ha
      rw [Bus.complete, hflight]
      split
      · exact Request.fill_below (lt_of_lt_of_le ha hstart)
      · rfl
    have hfilled : res = .ok → Holds bs content dev.numBlocks addr buf
        (dev.bus.complete content 512 res).mem dev.endPtr dev.nextEndPtr := by
      rintro rfl
      rcases hk.behind with hend | ⟨j, -, hj⟩
      · exact hnone hend
      · rw [Bus.complete, if_pos rfl, hj.flying hst]
        exact hB.holds_fill hj.begins h.numBlocks
    refine ⟨⟨h.blockSize, h.numBlocks, ?_, h.base_le, h.consume_le, h.end_le, h.next_le, ?_, ?_,
      hk.nextLba, hk.nextEnd, hk.behind.imp id ?_⟩, rfl, rfl, hfilled⟩
    · rw [hst']
      rfl
    · intro a hlo hhi hin
      exact (hbelow a hhi).trans (h.delivered a hlo hhi hin)
    · exact fun r hr => nomatch hr
    · rintro ⟨j, hj, hp⟩
      refine ⟨j, hj, hp.begins, hp.more, fun hx => ?_, fun hx => hfilled ?_⟩
      · exact absurd (hst'.symm.trans hx) nofun
      · exact XferStatus.ended.inj (hst'.symm.trans hx)

theorem Blockdev.waitXfer_eq_ok {res} (h : dev.waitXfer B = .ok (res, dev')) :
    ∃ x bus, B.wait dev.xfer dev.bus = .ok (res, x, bus) ∧ dev' = { dev with
        xfer := x, bus := bus, endPtr := if res = .ok then dev.nextEndPtr else dev.endPtr } := by
  obtain ⟨⟨r, x, bus⟩, hwait, h⟩ := except_bind_eq_ok h
  dsimp only at h
  split at h
  · rename_i hne
    cases h
    exact ⟨x, bus, hwait, by rw [if_neg hne]⟩
  · rename_i heq
    obtain rfl : r = .ok := not_not.mp heq
    cases h
    exact ⟨x, bus, hwait, rfl⟩

/-- `wait_xfer`. -/
theorem Streams.waitXfer (hB : B.Lawful bs content status) (h : Streams B bs content status dev addr buf k)
    {res} (hw : dev.waitXfer B = .ok (res, dev')) :
    Streams B bs content status dev' addr buf k ∧ dev'.bus.flight = [] ∧
      dev'.bus.sent = dev.bus.sent ∧ dev'.consumePtr = dev.consumePtr ∧
      dev'.nextEndPtr = dev.nextEndPtr ∧ dev'.stopPtr = dev.stopPtr ∧
      dev'.numBlocks = dev.numBlocks ∧ dev'.endPtr = if res = .ok then dev.nextEndPtr else dev.endPtr := by
  obtain ⟨x, bus, hwait, rfl⟩ := Blockdev.waitXfer_eq_ok hw
  obtain ⟨hs, hflight, hsent, hok⟩ := h.waited hB hwait
  refine ⟨?_, hflight, hsent, rfl, rfl, rfl, rfl, rfl⟩
  by_cases hres : res = .ok
  · rw [if_pos hres]
    refine ⟨hs.blockSize, hs.numBlocks, hs.consistent, hs.base_le, hs.consume_le.trans hs.end_le,
      le_rfl, hs.next_le, hs.delivered.append (hok hres), ?_, hs.cursor.nextLba, hs.cursor.nextEnd,
      Or.inl rfl⟩
    rw [hflight]
    exact nofun
  · rw [if_neg hres]
    exact hs

theorem Blockdev.requestEnd_eq (dev : Blockdev T) (h : dev.endPtr ≤ dev.stopPtr) :
    dev.requestEnd B = min dev.stopPtr (dev.endPtr + B.requestSize) := by
  rw [requestEnd]
  split <;> omega

/-- What a call does to a stream, which goes from `k` requests to `k'`. -/
structure Advances (B : Backend T) (bs : Nat) (dev dev' : Blockdev T) (addr buf k k' : Nat) : Prop where
  consumePtr : dev'.consumePtr = dev.consumePtr
  stopPtr : dev'.stopPtr = dev.stopPtr
  numBlocks : dev'.numBlocks = dev.numBlocks
  end_le : dev.endPtr ≤ dev'.endPtr
  sent : ∃ new, dev'.bus.sent = new ++ dev.bus.sent ∧
    (∀ r ∈ new, ∃ j, r = B.requestAt bs addr buf dev.stopPtr j ∧ dev.endPtr ≤ r.start ∧
      r.start < dev.stopPtr) ∧
    ∀ j, k ≤ j → j < k' → B.requestAt bs addr buf dev.stopPtr j ∈ new

theorem Advances.refl (dev : Blockdev T) (addr buf k : Nat) : Advances B bs dev dev addr buf k k :=
  ⟨rfl, rfl, rfl, le_rfl, [], rfl, nofun, fun j hj hj' => by omega⟩

theorem Advances.trans {dev'' k' k''} (h : Advances B bs dev dev' addr buf k k')
    (h' : Advances B bs dev' dev'' addr buf k' k'') : Advances B bs dev dev'' addr buf k k'' := by
  obtain ⟨new, hsent, hnew, hall⟩ := h.sent
  obtain ⟨new', hsent', hnew', hall'⟩ := h'.sent
  rw [h.stopPtr] at hnew' hall'
  refine ⟨h'.consumePtr.trans h.consumePtr, h'.stopPtr.trans h.stopPtr, h'.numBlocks.trans h.numBlocks,
    h.end_le.trans h'.end_le, new' ++ new, by rw [hsent', hsent, append_assoc], ?_, ?_⟩
  · intro r hr
    rcases mem_append.mp hr with hr | hr
    · obtain ⟨j, hj, hlo, hhi⟩ := hnew' r hr
      exact ⟨j, hj, h.end_le.trans hlo, hhi⟩
    · exact hnew r hr
  · intro j hlo hhi
    rcases lt_or_ge j k' with hlt | hge
    · exact mem_append_right _ (hall j hlo hlt)
    · exact mem_append_left _ (hall' j hge hhi)

/-- The next request begins where the stream has got to. -/
theorem Streams.submit (hB : B.Lawful bs content status) (h : Streams B bs content status dev addr buf k)
    (hend : dev.endPtr = dev.nextEndPtr) (hstop : dev.stopPtr ≠ dev.endPtr) {fuel res}
    (hs : dev.submit B fuel = .ok (res, dev')) :
    Streams B bs content status dev' addr buf (if res = .ok then k + 1 else k) ∧
      Advances B bs dev dev' addr buf k (if res = .ok then k + 1 else k) := by
  obtain ⟨⟨r, x, bus⟩, hsub, hs⟩ := except_bind_eq_ok hs
  have hk := h.cursor
  have hle := h.end_le.trans h.next_le
  have hbegins : dev.endPtr = buf + k * B.requestSize := by
    have hnext := hk.nextEnd
    omega
  have hreq := dev.requestEnd_eq (B := B) hle
  have hrequest : (⟨dev.nextLba, dev.endPtr, dev.requestEnd B⟩ : Request) =
      B.requestAt bs addr buf dev.stopPtr k := by
    rw [Backend.requestAt, hk.nextLba, hreq, hbegins, succ_mul, add_assoc]
  have hnew : ∀ r ∈ [B.requestAt bs addr buf dev.stopPtr k],
      ∃ j, r = B.requestAt bs addr buf dev.stopPtr j ∧ dev.endPtr ≤ r.start ∧ r.start < dev.stopPtr := by
    intro r hr
    rw [mem_singleton.mp hr]
    exact ⟨k, rfl, hbegins.le, by rw [← hrequest]; exact lt_of_le_of_ne hle hstop.symm⟩
  have hsame : bus.mem = dev.bus.mem ∧ Consistent (status x) bus.flight ∧
      (∀ r ∈ bus.flight, dev.endPtr ≤ r.start) ∧
      (bus.sent = dev.bus.sent ∧ r ≠ .ok ∨
        bus.sent = B.requestAt bs addr buf dev.stopPtr k :: dev.bus.sent ∧
        bus.flight = [B.requestAt bs addr buf dev.stopPtr k] ∧ status x = .submitted) := by
    rw [← hrequest]
    rcases hB.submit h.consistent hsub with ⟨hr, hmem, hfl, hsent, hst⟩ | ⟨-, hst', hmem, hfl, hsent⟩
    · refine ⟨hmem, ?_, by rw [hfl]; exact h.ahead, Or.inl ⟨hsent, hr⟩⟩
      rw [hfl]
      by_cases hsub : status dev.xfer = .submitted
      · have hc := h.consistent
        rw [hsub] at hc
        rw [hst.mpr hsub]
        exact hc
      · rw [h.consistent.nil hsub]
        exact .of_ne fun hx => hsub (hst.mp hx)
    · refine ⟨hmem, ?_, ?_, Or.inr ⟨hsent, hfl, hst'⟩⟩
      · rw [hst', hfl]
        exact ⟨_, rfl⟩
      · rw [hfl]
        intro r hr
        rw [mem_singleton.mp hr]
  obtain ⟨hmem, hcons, hahead, hsent⟩ := hsame
  have hdel : Holds bs content dev.numBlocks addr buf bus.mem buf dev.endPtr := by
    rw [hmem]
    exact h.delivered
  dsimp only at hs
  split at hs
  · rename_i hne
    cases hs
    rw [if_neg hne]
    refine ⟨⟨h.blockSize, h.numBlocks, hcons, h.base_le, h.consume_le, h.end_le, h.next_le, hdel, hahead,
      hk.nextLba, hk.nextEnd, Or.inl hend⟩, rfl, rfl, rfl, le_rfl, ?_⟩
    rcases hsent with ⟨hsent, -⟩ | ⟨hsent, -⟩
    · exact ⟨[], hsent, nofun, fun j hj hj' => by omega⟩
    · exact ⟨_, hsent, hnew, fun j hj hj' => by omega⟩
  · rename_i heq
    obtain rfl : r = .ok := not_not.mp heq
    rcases hsent with ⟨-, hne⟩ | ⟨hsent, hfl, hst⟩
    · exact absurd rfl hne
    cases hs
    have hsize := hB.size_pos
    rw [if_pos rfl]
    refine ⟨⟨h.blockSize, h.numBlocks, hcons, h.base_le, h.consume_le, ?_, ?_, hdel, hahead,
      ?_, ?_, Or.inr ⟨k, rfl, hbegins, ?_, fun _ => ?_, fun hx => ?_⟩⟩, rfl, rfl, rfl, le_rfl,
      [_], hsent, hnew, fun j hj hj' => ?_⟩
    · dsimp only
      omega
    · dsimp only
      omega
    · rw [hk.nextLba, h.blockSize, hB.range, Backend.lbaAt, Backend.lbaAt, mod_add_mod,
        succ_mul, add_assoc]
    · rw [hreq, hbegins, succ_mul, add_assoc]
    · dsimp only
      omega
    · rw [hfl, ← hrequest, hk.nextLba]
    · exact absurd (hst.symm.trans hx) nofun
    · obtain rfl : j = k := by omega
      exact mem_cons_self

theorem Backend.errorBuf_lt {res} (h : res ≠ .ok) : (B.errorBuf res).stop < (B.errorBuf res).start := by
  have hcode : res.code ≠ 0 := fun hc => h (Iost.code_eq_zero.mp hc)
  dsimp only [errorBuf]
  omega

theorem Streams.catchUp (hB : B.Lawful bs content status) (h : Streams B bs content status dev addr buf k)
    {res} (hw : dev.catchUp B = .ok (res, dev')) :
    Streams B bs content status dev' addr buf k ∧ Advances B bs dev dev' addr buf k k ∧
      (res = .ok → dev'.endPtr = dev'.nextEndPtr) := by
  rw [Blockdev.catchUp] at hw
  split at hw
  · obtain ⟨hs, -, hsent, hcons, hnext, hstop, hnum, hend⟩ := h.waitXfer hB hw
    have hle := h.end_le
    refine ⟨hs, ⟨hcons, hstop, hnum, ?_, [], hsent, nofun, fun i hi hi' => by omega⟩, ?_⟩
    · rw [hend]
      split <;> omega
    · rintro rfl
      rw [hend, if_pos rfl, hnext]
  · rename_i heq
    cases hw
    exact ⟨h, .refl .., fun _ => not_not.mp heq⟩

/-- The loop of `pump`. -/
theorem Streams.pumpLoop (hB : B.Lawful bs content status) (h : Streams B bs content status dev addr buf k)
    {minSize fuel} {b : AsyncBuf} (hrun : Blockdev.pumpLoop B minSize fuel dev = .ok (b, dev')) :
    ∃ k', Streams B bs content status dev' addr buf k' ∧ Advances B bs dev dev' addr buf k k' ∧
      (b.stop < b.start ∨ b = ⟨dev'.consumePtr, dev'.endPtr⟩ ∧
        (dev.consumePtr + minSize ≤ dev'.endPtr ∨ dev'.endPtr = dev.stopPtr)) := by
  induction fuel generalizing dev k with
  | zero => cases hrun
  | succ fuel ih =>
    have hcons := h.consume_le
    rw [Blockdev.pumpLoop] at hrun
    split at hrun
    · cases hrun
      exact ⟨k, h, .refl .., Or.inr ⟨rfl, Or.inl (by omega)⟩⟩
    obtain ⟨⟨res, dev₁⟩, hw, hrun⟩ := except_bind_eq_ok hrun
    obtain ⟨hs₁, hadv₁, hok⟩ := h.catchUp hB hw
    dsimp only at hrun
    split at hrun
    · rename_i hne
      cases hrun
      exact ⟨k, hs₁, hadv₁, Or.inl (Backend.errorBuf_lt hne)⟩
    rename_i heq
    split at hrun
    · rename_i hstop
      cases hrun
      exact ⟨k, hs₁, hadv₁, Or.inr ⟨rfl, Or.inr (hstop.symm.trans hadv₁.stopPtr)⟩⟩
    rename_i hstop
    obtain ⟨⟨res, dev₂⟩, hsub, hrun⟩ := except_bind_eq_ok hrun
    obtain ⟨hs₂, hadv₂⟩ := hs₁.submit hB (hok (not_not.mp heq)) hstop hsub
    have hadv := hadv₁.trans hadv₂
    split at hrun
    · rename_i hne
      cases hrun
      exact ⟨_, hs₂, hadv, Or.inl (Backend.errorBuf_lt hne)⟩
    obtain ⟨k', hs', hadv', hres⟩ := ih hs₂ hrun
    rw [hadv.consumePtr, hadv.stopPtr] at hres
    exact ⟨k', hs', hadv.trans hadv', hres⟩

theorem Streams.consumed (h : Streams B bs content status dev addr buf k) {n}
    (hn : n ≤ dev.endPtr - dev.consumePtr) :
    Streams B bs content status { dev with consumePtr := dev.consumePtr + n } addr buf k := by
  have hle := h.consume_le
  refine ⟨h.blockSize, h.numBlocks, h.consistent, h.base_le.trans (Nat.le_add_right ..), ?_, h.end_le,
    h.next_le, h.delivered, h.ahead, h.cursor.nextLba, h.cursor.nextEnd, h.cursor.behind.imp id ?_⟩
  · dsimp only
    omega
  · rintro ⟨j, hj, hp⟩
    exact ⟨j, hj, hp.begins, hp.more, hp.flying, hp.arrived⟩

theorem Blockdev.pump_eq_ok {fuel consume minSize b}
    (hrun : dev.pump B fuel consume minSize = .ok (b, dev')) : consume ≤ dev.endPtr - dev.consumePtr ∧
      Blockdev.pumpLoop B minSize fuel { dev with consumePtr := dev.consumePtr + consume } =
        .ok (b, dev') := by
  obtain ⟨_, hcheck, hrun⟩ := except_bind_eq_ok hrun
  exact ⟨check_eq_ok hcheck, hrun⟩

theorem Streams.rewind (h : Streams B bs content status dev addr buf k) (hflight : dev.bus.flight = [])
    {addr' buf' bufEnd'} (hle : buf' ≤ bufEnd') :
    Streams B bs content status (dev.rewind addr' buf' bufEnd') addr' buf' 0 := by
  refine ⟨h.blockSize, h.numBlocks, h.consistent, le_rfl, le_rfl, le_rfl, hle,
    fun a hlo hhi => absurd hhi (not_lt.mpr hlo), ?_, ?_, ?_, Or.inl rfl⟩
  · intro r hr
    have hmem : r ∈ dev.bus.flight := hr
    rw [hflight] at hmem
    cases hmem
  · rw [Backend.lbaAt, zero_mul, add_zero]
    rfl
  · rw [zero_mul, add_zero]
    exact (min_eq_right hle).symm

theorem Blockdev.start_eq_ok {addr buf bufEnd res} (h : dev.start B addr buf bufEnd = .ok (res, dev')) :
    res = .invalid ∧ dev' = dev ∨ dev.Accepts addr buf bufEnd ∧ ∃ dev₁,
      dev.waitXfer B = .ok (res, dev₁) ∧ dev' = if res = .ok then dev₁.rewind addr buf bufEnd else dev₁ := by
  rw [start] at h
  split at h
  · cases h
    exact Or.inl ⟨rfl, rfl⟩
  · rename_i hacc
    obtain ⟨⟨r, dev₁⟩, hwait, h⟩ := except_bind_eq_ok h
    refine Or.inr ⟨not_not.mp hacc, dev₁, ?_⟩
    dsimp only at h
    split at h
    · rename_i hne
      cases h
      exact ⟨hwait, (if_neg hne).symm⟩
    · rename_i heq
      obtain rfl : r = .ok := not_not.mp heq
      cases h
      exact ⟨hwait, rfl⟩

/-- `start` begins a new stream, or leaves the old one. -/
theorem Streams.start (hB : B.Lawful bs content status) (h : Streams B bs content status dev addr buf k)
    {addr' buf' bufEnd' res} (hs : dev.start B addr' buf' bufEnd' = .ok (res, dev')) :
    (res = .ok ∧ dev.Accepts addr' buf' bufEnd' ∧ Streams B bs content status dev' addr' buf' 0 ∧
      dev'.consumePtr = buf' ∧ dev'.endPtr = buf' ∧ dev'.stopPtr = bufEnd' ∧
      dev'.numBlocks = dev.numBlocks ∧ dev'.bus.sent = dev.bus.sent) ∨
    (res ≠ .ok ∧ Streams B bs content status dev' addr buf k ∧
      dev'.consumePtr = dev.consumePtr ∧ dev'.endPtr = dev.endPtr ∧ dev'.stopPtr = dev.stopPtr) := by
  rcases Blockdev.start_eq_ok hs with ⟨rfl, rfl⟩ | ⟨hacc, dev₁, hw, rfl⟩
  · exact Or.inr ⟨nofun, h, rfl, rfl, rfl⟩
  · obtain ⟨hs₁, hflight, hsent, hcons, -, hstop, hnum, hend⟩ := h.waitXfer hB hw
    split
    · rename_i hok
      exact Or.inl ⟨hok, hacc, hs₁.rewind hflight hacc.1, rfl, rfl, rfl, hnum, hsent⟩
    · rename_i hne
      rw [if_neg hne] at hend
      exact Or.inr ⟨hne, hs₁, hcons, hend, hstop⟩

end

/-! ## Histories -/

/-- The arguments of `start`. -/
structure Stream where
  addr : Nat
  buf : Nat
  bufEnd : Nat

section
variable {T : Type} (B : Backend T) (init : Blockdev T → Prop)

/-- Calls of `start` and `pump` with what the hardware does between them: it ends a transfer, or stores
in the memory of one that is in flight. The stream is that of the last `start` that succeeded,
and `last` is what has been delivered of it and not consumed. -/
inductive History : Blockdev T → Stream → (last : AsyncBuf) → Prop
  | init {dev : Blockdev T} : init dev → History dev ⟨0, 0, 0⟩ ⟨0, 0⟩
  | started {dev dev' : Blockdev T} {st st' : Stream} {last : AsyncBuf} :
      History dev st last → dev.start B st'.addr st'.buf st'.bufEnd = .ok (.ok, dev') →
      History dev' st' ⟨st'.buf, st'.buf⟩
  | refused {dev dev' : Blockdev T} {st st' : Stream} {last : AsyncBuf} {res : Iost} :
      History dev st last → dev.start B st'.addr st'.buf st'.bufEnd = .ok (res, dev') → res ≠ .ok →
      History dev' st last
  | pumped {dev dev' : Blockdev T} {st : Stream} {fuel consume minSize : Nat} {last b : AsyncBuf} :
      History dev st last → dev.pump B fuel consume minSize = .ok (b, dev') →
      b.start ≤ b.stop → History dev' st b
  | failed {dev dev' : Blockdev T} {st : Stream} {fuel consume minSize : Nat} {last b : AsyncBuf} :
      History dev st last → dev.pump B fuel consume minSize = .ok (b, dev') →
      b.stop < b.start → History dev' st ⟨last.start + consume, last.stop⟩
  | interrupt {dev : Blockdev T} {st : Stream} {last : AsyncBuf} {res : Iost} {x : T} {bus : Bus} :
      History dev st last → B.wait dev.xfer dev.bus = .ok (res, x, bus) →
      History { dev with xfer := x, bus := bus } st last
  | dma {dev : Blockdev T} {st : Stream} {last : AsyncBuf} (mem : Nat → UInt8) :
      History dev st last →
      (∀ a, mem a = dev.bus.mem a ∨ ∃ r ∈ dev.bus.flight, r.start ≤ a ∧ a < r.stop) →
      History { dev with bus := { dev.bus with mem := mem } } st last

variable {B init} {bs : Nat} {content : Nat → UInt8} {status : T → XferStatus}
  {dev : Blockdev T} {st : Stream} {last : AsyncBuf}

theorem Streams.dma {addr buf k} (h : Streams B bs content status dev addr buf k) (mem : Nat → UInt8)
    (hmem : ∀ a, mem a = dev.bus.mem a ∨ ∃ r ∈ dev.bus.flight, r.start ≤ a ∧ a < r.stop) :
    Streams B bs content status { dev with bus := { dev.bus with mem := mem } } addr buf k := by
  refine ⟨h.blockSize, h.numBlocks, h.consistent, h.base_le, h.consume_le, h.end_le, h.next_le, ?_,
    h.ahead, h.cursor.nextLba, h.cursor.nextEnd, h.cursor.behind.imp id ?_⟩
  · intro a hlo hhi hin
    rcases hmem a with hsame | ⟨r, hr, hge, -⟩
    · exact hsame.trans (h.delivered a hlo hhi hin)
    · exact absurd (lt_of_lt_of_le hhi (h.ahead r hr)) (not_lt.mpr hge)
  · rintro ⟨j, hj, hp⟩
    refine ⟨j, hj, hp.begins, hp.more, hp.flying, fun hx a hlo hhi hin => ?_⟩
    have hnone : dev.bus.flight = [] := h.consistent.nil fun hsub => nomatch hsub.symm.trans hx
    rcases hmem a with hsame | ⟨r, hr, -⟩
    · exact hsame.trans (hp.arrived hx a hlo hhi hin)
    · rw [hnone] at hr
      cases hr

/-- What holds in every history. -/
structure Followed (B : Backend T) (bs : Nat) (content : Nat → UInt8) (status : T → XferStatus)
    (dev : Blockdev T)
    (st : Stream) (last : AsyncBuf) : Prop where
  streams : ∃ k, Streams B bs content status dev st.addr st.buf k
  bufEnd : dev.stopPtr = st.bufEnd
  start : last.start = dev.consumePtr
  stop : last.stop ≤ dev.endPtr

theorem History.followed (hB : B.Lawful bs content status)
    (hinit : ∀ dev, init dev → Followed B bs content status dev ⟨0, 0, 0⟩ ⟨0, 0⟩)
    (h : History B init dev st last) : Followed B bs content status dev st last := by
  induction h with
  | init hdev => exact hinit _ hdev
  | started _ hrun ih =>
    obtain ⟨k, hs⟩ := ih.streams
    rcases hs.start hB hrun with ⟨-, -, hs', hcons, hend, hstop, -⟩ | ⟨hne, -⟩
    · exact ⟨⟨0, hs'⟩, hstop, hcons.symm, hend.symm.le⟩
    · exact absurd rfl hne
  | refused _ hrun hne ih =>
    obtain ⟨k, hs⟩ := ih.streams
    rcases hs.start hB hrun with ⟨hok, -⟩ | ⟨-, hs', hcons, hend, hstop⟩
    · exact absurd hok hne
    · exact ⟨⟨k, hs'⟩, hstop.trans ih.bufEnd, ih.start.trans hcons.symm, ih.stop.trans hend.symm.le⟩
  | pumped _ hrun hle ih =>
    obtain ⟨k, hs⟩ := ih.streams
    obtain ⟨hn, hloop⟩ := Blockdev.pump_eq_ok hrun
    obtain ⟨k', hs', hadv, hres⟩ := (hs.consumed hn).pumpLoop hB hloop
    rcases hres with hlt | ⟨rfl, -⟩
    · exact absurd hlt (not_lt.mpr hle)
    · exact ⟨⟨k', hs'⟩, hadv.stopPtr.trans ih.bufEnd, rfl, le_rfl⟩
  | failed _ hrun _ ih =>
    obtain ⟨k, hs⟩ := ih.streams
    obtain ⟨hn, hloop⟩ := Blockdev.pump_eq_ok hrun
    obtain ⟨k', hs', hadv, -⟩ := (hs.consumed hn).pumpLoop hB hloop
    exact ⟨⟨k', hs'⟩, hadv.stopPtr.trans ih.bufEnd, by rw [hadv.consumePtr, ih.start],
      ih.stop.trans hadv.end_le⟩
  | interrupt _ hrun ih =>
    obtain ⟨k, hs⟩ := ih.streams
    exact ⟨⟨k, (hs.waited hB hrun).1⟩, ih.bufEnd, ih.start, ih.stop⟩
  | dma mem _ hmem ih =>
    obtain ⟨k, hs⟩ := ih.streams
    exact ⟨⟨k, hs.dma mem hmem⟩, ih.bufEnd, ih.start, ih.stop⟩

/-- The device looks like a stream of bytes: a pump that succeeds hands out the stream from where it was
consumed to, as many bytes as it was asked for unless the buffer ends, each of them the one of the
device. No request reaches into what has been delivered, and at most one is outstanding. -/
structure Contiguous (B : Backend T) (content : Nat → UInt8) (dev : Blockdev T) (st : Stream)
    (last : AsyncBuf) : Prop where
  single : dev.bus.flight.length ≤ 1
  apart : ∀ r ∈ dev.bus.flight, last.stop ≤ r.start
  requests : ∀ {fuel consume minSize b dev'}, dev.pump B fuel consume minSize = .ok (b, dev') →
    ∃ new, dev'.bus.sent = new ++ dev.bus.sent ∧ ∀ r ∈ new, last.stop ≤ r.start
  pump : ∀ {fuel consume minSize b dev'}, dev.pump B fuel consume minSize = .ok (b, dev') →
    b.start ≤ b.stop → b.start = last.start + consume ∧
      (minSize ≤ b.stop - b.start ∨ b.stop = st.bufEnd) ∧
      ∀ i < b.stop - st.buf, 512 * st.addr + i < 512 * dev.numBlocks →
        dev'.bus.mem (st.buf + i) = content (512 * st.addr + i)

theorem Followed.contiguous (hB : B.Lawful 512 content status)
    (h : Followed B 512 content status dev st last) : Contiguous B content dev st last := by
  obtain ⟨k, hs⟩ := h.streams
  refine ⟨?_, fun r hr => h.stop.trans (hs.ahead r hr), fun hrun => ?_,
    @fun fuel consume minSize b dev' hrun hle => ?_⟩
  · by_cases hst : status dev.xfer = .submitted
    · have hc := hs.consistent
      rw [hst] at hc
      obtain ⟨r, hr⟩ := hc
      rw [hr]
      exact le_rfl
    · rw [hs.consistent.nil hst]
      exact Nat.zero_le _
  · obtain ⟨hn, hloop⟩ := Blockdev.pump_eq_ok hrun
    obtain ⟨_, -, hadv, -⟩ := (hs.consumed hn).pumpLoop hB hloop
    obtain ⟨new, hsent, hnew, -⟩ := hadv.sent
    refine ⟨new, hsent, fun r hr => ?_⟩
    obtain ⟨-, -, hlo, -⟩ := hnew r hr
    exact h.stop.trans hlo
  · obtain ⟨hn, hloop⟩ := Blockdev.pump_eq_ok hrun
    obtain ⟨k', hs', hadv, hres⟩ := (hs.consumed hn).pumpLoop hB hloop
    rcases hres with hlt | ⟨rfl, hcase⟩
    · exact absurd hlt (not_lt.mpr hle)
    have hcons := hadv.consumePtr
    have hnum := hadv.numBlocks
    dsimp only at hcons hcase hnum ⊢
    refine ⟨by rw [hcons, h.start], ?_, fun i hi hin => ?_⟩
    · rw [← h.bufEnd]
      omega
    · rw [hs'.delivered (st.buf + i) (Nat.le_add_right ..) (by omega)
        (by rw [hnum, Nat.add_sub_cancel_left]; exact ⟨rfl, hin⟩), Nat.add_sub_cancel_left]

end

/-! ## The SD and eMMC drivers deliver their devices -/

theorem Sd.lawful (c : Controller) (content : Nat → UInt8) (iostU8 : Nat) :
    (Sd.backend c content iostU8).Lawful 512 content DwmmcXfer.status where
  block := .inl rfl
  size := ⟨1024, by decide, rfl⟩
  range := rfl
  wait := by
    intro x bus res x' bus' h
    have h : dwmmcWaitXfer c content x bus = .ok (res, x', bus') := h
    rw [dwmmcWaitXfer] at h
    split at h
    · rename_i hst
      cases h
      exact Or.inl ⟨hst, rfl, rfl⟩
    · cases h
    · rename_i hst
      cases h
      exact Or.inr ⟨hst, rfl, rfl⟩
  submit := by
    intro fuel x bus r res x' bus' _ h
    obtain ⟨⟨res₁, x₁⟩, hreq, h⟩ := except_bind_eq_ok h
    obtain ⟨⟨res₂, st⟩, hclaim, hreq⟩ := except_bind_eq_ok hreq
    rcases claim_eq_ok hclaim with ⟨rfl, hsub, rfl⟩ | ⟨rfl, hsub, -⟩
    · cases hreq
      cases h
      exact Or.inl ⟨nofun, rfl, rfl, rfl, Iff.rfl⟩
    · cases hreq
      obtain ⟨⟨ok, x₂⟩, hadd, h⟩ := except_bind_eq_ok h
      obtain ⟨_, -, h⟩ := except_bind_eq_ok h
      have hst₂ : x₂.status = .creating := by
        obtain ⟨_, hcheck, hadd⟩ := except_bind_eq_ok hadd
        have hst := check_eq_ok hcheck
        split at hadd
        · cases hadd
          exact hst
        · exact (DwmmcXfer.addBuffers_status hadd).trans hst
      rw [dwmmcStartXfer] at h
      split at h
      · cases h
        exact Or.inl ⟨nofun, rfl, rfl, rfl, by rw [hst₂]; exact ⟨nofun, fun hx => absurd hx hsub⟩⟩
      · obtain ⟨_, -, h⟩ := except_bind_eq_ok h
        obtain ⟨_, hfree, h⟩ := except_bind_eq_ok h
        have hfree := check_eq_ok hfree
        obtain ⟨_, -, h⟩ := except_bind_eq_ok h
        cases h
        exact Or.inr ⟨hsub, rfl, rfl, by rw [Bus.send, hfree], rfl⟩

theorem Emmc.lawful {bs} (hbs : bs = 512 ∨ bs = 4096) (c : Controller) (content : Nat → UInt8)
    (iostU8 : Nat) : (Emmc.backend c content iostU8).Lawful bs content SdhciXfer.status where
  block := hbs
  size := by
    rcases hbs with rfl | rfl
    · exact ⟨4096, by decide, rfl⟩
    · exact ⟨512, by decide, rfl⟩
  range := rfl
  wait := by
    intro x bus res x' bus' h
    have h : sdhciWaitXfer c content x bus = .ok (res, x', bus') := h
    rw [sdhciWaitXfer] at h
    split at h
    · rename_i hst
      cases h
      exact Or.inl ⟨hst, rfl, rfl⟩
    · cases h
    · rename_i hst
      cases h
      exact Or.inr ⟨hst, rfl, rfl⟩
  submit := by
    intro fuel x bus r res x' bus' hcons h
    obtain ⟨⟨ok₁, x₁⟩, hreset, h⟩ := except_bind_eq_ok h
    rw [sdhciResetXfer] at hreset
    split at hreset
    · rename_i st hst
      cases hreset
      have hsub : x.status ≠ .submitted := by
        rw [hst]
        simp
      obtain ⟨⟨ok₂, x₂⟩, hadd, h⟩ := except_bind_eq_ok h
      obtain ⟨_, -, h⟩ := except_bind_eq_ok h
      obtain ⟨_, hcheck, h⟩ := except_bind_eq_ok h
      have hst₂ := check_eq_ok hcheck
      split at h
      · cases h
        exact Or.inl ⟨by simp, rfl, rfl, rfl, by rw [hst₂]; exact ⟨by simp, fun hx => absurd hx hsub⟩⟩
      · obtain ⟨_, -, h⟩ := except_bind_eq_ok h
        have hfree : bus.flight = [] := hcons.nil hsub
        rw [if_neg (not_not.mpr hfree)] at h
        cases h
        exact Or.inr ⟨hsub, rfl, rfl, by rw [Bus.send, hfree], rfl⟩
    · cases hreset

/-- A new device is at the end of an empty stream. -/
theorem Followed.of_new {T : Type} {B bs content} {status : T → XferStatus}
    {dev : Blockdev T} (hsize : dev.blockSize = bs) (hnum : dev.numBlocks ≤ 2 ^ 32)
    (hst : status dev.xfer = .ended .ok) (hflight : dev.bus.flight = [])
    (hptr : dev.consumePtr = 0 ∧ dev.endPtr = 0 ∧ dev.nextEndPtr = 0 ∧ dev.stopPtr = 0 ∧ dev.nextLba = 0) :
    Followed B bs content status dev ⟨0, 0, 0⟩ ⟨0, 0⟩ := by
  obtain ⟨hcons, hend, hnext, hstop, hlba⟩ := hptr
  refine ⟨⟨0, hsize, hnum, ?_, Nat.zero_le _, ?_, ?_, ?_, ?_, ?_, ?_, ?_, ?_⟩, hstop, hcons.symm,
    Nat.zero_le _⟩
  · rw [hst]
    exact hflight
  · rw [hcons]
    exact Nat.zero_le _
  · rw [hend]
    exact Nat.zero_le _
  · rw [hnext]
    exact Nat.zero_le _
  · rw [hend]
    exact fun a _ hhi => absurd hhi (Nat.not_lt_zero a)
  · rw [hend]
    exact fun _ _ => Nat.zero_le _
  · rw [hlba, Backend.lbaAt]
    simp
  · rw [hnext, hstop]
    exact (Nat.zero_min _).symm
  · exact Or.inl (hend.trans hnext.symm)

theorem Sd.numBlocks_le {csd1} (h : csd1 < 2 ^ 32) (csd2 : Nat) : Sd.numBlocks csd1 csd2 ≤ 2 ^ 32 := by
  have hlow : csd1 >>> 16 < 2 ^ 22 := by
    omega
  have hhigh : csd2 <<< 16 &&& 0x3f0000 < 2 ^ 22 := lt_of_le_of_lt and_le_right (by decide)
  have hor := or_lt_two_pow hlow hhigh
  rw [Sd.numBlocks]
  omega

theorem mmcSectorCount_lt (b0 b1 b2 b3 : UInt8) : mmcSectorCount b0 b1 b2 b3 < 2 ^ 32 := by
  have hbyte : ∀ (b : UInt8) (n : Nat), n ≤ 24 → b.toNat <<< n < 2 ^ 32 := by
    intro b n hn
    rw [shiftLeft_eq]
    calc b.toNat * 2 ^ n < 2 ^ 8 * 2 ^ n := Nat.mul_lt_mul_of_pos_right b.toNat_lt (Nat.two_pow_pos n)
      _ = 2 ^ (8 + n) := (pow_add ..).symm
      _ ≤ 2 ^ 32 := Nat.pow_le_pow_right (by decide) (by omega)
  exact or_lt_two_pow (or_lt_two_pow (or_lt_two_pow (hbyte b0 0 (by decide))
    (hbyte b1 8 (by decide))) (hbyte b2 16 (by decide))) (hbyte b3 24 le_rfl)

/-- The devices `boot_sd` starts with, for a card with these words in its CSD. -/
def Sd.IsCard (csd1 csd2 : Nat) (dev : Blockdev DwmmcXfer) : Prop :=
  ∃ descPtr desc mem, dev = Sd.initial csd1 csd2 descPtr desc mem

def Sd.IsInitial (dev : Blockdev DwmmcXfer) : Prop :=
  ∃ csd1 csd2, csd1 < 2 ^ 32 ∧ Sd.IsCard csd1 csd2 dev

/-- The devices `boot_emmc` starts with, for a card whose extended CSD tells of sectors of `bs` bytes. -/
def Emmc.IsCard (bs : Nat) (dev : Blockdev SdhciXfer) : Prop :=
  ∃ rev dataSectorSize b0 b1 b2 b3 desc8 mem, Emmc.blockSize rev dataSectorSize = some bs ∧
    dev = Emmc.initial bs b0 b1 b2 b3 desc8 mem

/-- The devices with 512-byte sectors. -/
def Emmc.IsInitial (dev : Blockdev SdhciXfer) : Prop := Emmc.IsCard 512 dev

theorem Sd.IsCard.followed {csd1 csd2 dev} (h : Sd.IsCard csd1 csd2 dev)
    (hcsd : csd1 < 2 ^ 32) (c : Controller) (content : Nat → UInt8) (iostU8 : Nat) :
    Followed (Sd.backend c content iostU8) 512 content DwmmcXfer.status dev ⟨0, 0, 0⟩ ⟨0, 0⟩ := by
  obtain ⟨descPtr, desc, mem, rfl⟩ := h
  exact .of_new rfl (Sd.numBlocks_le hcsd csd2) rfl rfl ⟨rfl, rfl, rfl, rfl, rfl⟩

theorem Emmc.IsCard.followed {bs dev} (h : Emmc.IsCard bs dev) (c : Controller) (content : Nat → UInt8)
    (iostU8 : Nat) :
    Followed (Emmc.backend c content iostU8) bs content SdhciXfer.status dev ⟨0, 0, 0⟩ ⟨0, 0⟩ := by
  obtain ⟨rev, dataSectorSize, b0, b1, b2, b3, desc8, mem, -, rfl⟩ := h
  exact .of_new rfl (mmcSectorCount_lt ..).le rfl rfl ⟨rfl, rfl, rfl, rfl, rfl⟩

/-- Whatever is called and whatever the hardware does, the SD and the eMMC driver present the device as
a contiguous stream. -/
theorem mmc_contiguous (c : Controller) (content : Nat → UInt8) (iostU8 : Nat) :
    (∀ dev st last, History (Sd.backend c content iostU8) Sd.IsInitial dev st last →
      Contiguous (Sd.backend c content iostU8) content dev st last) ∧
    ∀ dev st last, History (Emmc.backend c content iostU8) Emmc.IsInitial dev st last →
      Contiguous (Emmc.backend c content iostU8) content dev st last := by
  constructor
  · intro dev st last h
    have hB := Sd.lawful c content iostU8
    refine (h.followed hB ?_).contiguous hB
    rintro _ ⟨csd1, csd2, hcsd, hcard⟩
    exact hcard.followed hcsd c content iostU8
  · intro dev st last h
    have hB := Emmc.lawful (.inl rfl) c content iostU8
    refine (h.followed hB ?_).contiguous hB
    exact fun dev (hcard : Emmc.IsCard 512 dev) => hcard.followed c content iostU8

/-- Hardware without failures. -/
def healthy : Controller := ⟨fun _ => .ok, fun _ => .ok, fun _ _ => false⟩

/-- A card of `2 ^ 32` sectors. -/
def largeCard : Blockdev DwmmcXfer :=
  Sd.initial 0xffff0000 0x3f 0x1000 (fun _ => ⟨0, 0, 0, 0⟩) fun _ => 0

def firstByte (a : Nat) : UInt8 := if a = 0 then 7 else 0

theorem largeCard_initial : Sd.IsInitial largeCard := ⟨_, _, by decide, _, _, _, rfl⟩

/-- One byte, half a mebibyte behind the fourth block. -/
def markedByte (a : Nat) : UInt8 := if a = 512 * 3 + 0x80000 then 7 else 0

/-- The first pump waits for one request, the second one for another, behind which the buffer ends. -/
theorem mmc_contiguous_second : ∃ dev b dev',
    History (Sd.backend healthy markedByte 0) Sd.IsInitial dev ⟨3, 0x4400000, 0x4500000⟩
      ⟨0x4400000, 0x4480000⟩ ∧
    dev.pump (Sd.backend healthy markedByte 0) 5 1024 0x80000 = .ok (b, dev') ∧
    b.start = 0x4400400 ∧ b.stop = 0x4500000 ∧ dev'.bus.sent.length = 2 ∧
    dev'.bus.mem 0x4480000 = 7 ∧ dev'.bus.mem 0x4480001 = 0 := by
  obtain ⟨⟨⟨start, stop⟩, dev⟩, hfirst, hsecond⟩ := exists_ok
    (x := (largeCard.rewind 3 0x4400000 0x4500000).pump (Sd.backend healthy markedByte 0) 5 0 1024)
    (f := fun r => (r.1.start, r.1.stop,
      (r.2.pump (Sd.backend healthy markedByte 0) 5 1024 0x80000).toOption.map
        fun r => (r.1.start, r.1.stop, r.2.bus.sent.length)))
    (b := (0x4400000, 0x4480000, some (0x4400400, 0x4500000, 2))) (by decide +kernel)
  simp only [Prod.mk.injEq] at hsecond
  obtain ⟨rfl, rfl, hsecond⟩ := hsecond
  obtain ⟨⟨b, dev'⟩, hrun, hb⟩ := exists_ok hsecond
  simp only [Prod.mk.injEq] at hb
  obtain ⟨hstart, hstop, hsent⟩ := hb
  have hist : History (Sd.backend healthy markedByte 0) Sd.IsInitial dev ⟨3, 0x4400000, 0x4500000⟩
      ⟨0x4400000, 0x4480000⟩ :=
    .pumped (.started (.init largeCard_initial) rfl) hfirst (by decide)
  obtain ⟨-, -, hmem⟩ := ((mmc_contiguous healthy markedByte 0).1 _ _ _ hist).pump hrun (by omega)
  have hblocks : dev.numBlocks = 2 ^ 32 := by
    have h : ((largeCard.rewind 3 0x4400000 0x4500000).pump (Sd.backend healthy markedByte 0) 5 0
        1024).toOption.map (·.2.numBlocks) = some (2 ^ 32) := by decide +kernel
    rw [hfirst] at h
    exact Option.some.inj h
  rw [hstop, hblocks] at hmem
  refine ⟨dev, b, dev', hist, hrun, hstart, hstop, hsent, ?_, ?_⟩
  · exact hmem 0x80000 (by decide) (by decide)
  · exact hmem 0x80001 (by decide) (by decide)

/-- The last 1024 blocks of the large card and more: `next_lba` starts again at zero. -/
theorem largeCard_wraps : ∃ dev b dev',
    History (Sd.backend healthy firstByte 0) Sd.IsInitial dev ⟨2 ^ 32 - 1024, 0x4400000, 0x4500000⟩
      ⟨0x4400000, 0x4400000⟩ ∧ 2 ^ 32 - 1024 < dev.numBlocks ∧
    dev.pump (Sd.backend healthy firstByte 0) 5 0 0x100000 = .ok (b, dev') ∧
    b = ⟨0x4400000, 0x4500000⟩ ∧ 0x80000 < b.stop - 0x4400000 ∧
    dev'.bus.mem (0x4400000 + 0x80000) ≠ firstByte (512 * (2 ^ 32 - 1024) + 0x80000) := by
  obtain ⟨⟨b, dev'⟩, hrun, hb⟩ := exists_ok
    (x := (largeCard.rewind (2 ^ 32 - 1024) 0x4400000 0x4500000).pump
      (Sd.backend healthy firstByte 0) 5 0 0x100000)
    (f := fun r => (r.1.start, r.1.stop, r.2.bus.mem (0x4400000 + 0x80000)))
    (b := (0x4400000, 0x4500000, 7)) (by decide +kernel)
  simp only [Prod.mk.injEq] at hb
  obtain ⟨hstart, hstop, hmem⟩ := hb
  refine ⟨_, b, dev', .started (.init largeCard_initial) rfl, by decide, hrun, ?_, ?_, ?_⟩
  · cases b
    subst hstart hstop
    rfl
  · rw [hstop]
    decide
  · rw [hmem]
    decide

end Rkboot.Dramstage
