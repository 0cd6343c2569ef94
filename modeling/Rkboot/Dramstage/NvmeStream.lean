import Rkboot.Dramstage.PayloadReads

/-! # The read commands of the NVMe driver

Where the pump is in its stream decides the blocks and the memory of every command it emits. -/
namespace Rkboot.Dramstage
open Lib Drivers Nat List

/-! ## The requests of any pump -/

section
variable {T : Type} (B : Backend T)

/-- The request after `j` others, of a stream that begins with block `base`. -/
def Backend.placedAt (blockSize base buf stop j : Nat) : Request :=
  ⟨(base + j * (B.requestSize / blockSize)) % B.lbaRange, buf + j * B.requestSize,
    min stop (buf + (j + 1) * B.requestSize)⟩

/-- The pointers and `next_lba` after `k` requests. -/
structure Placed (dev : Blockdev T) (base buf k : Nat) : Prop where
  end_le : dev.endPtr ≤ dev.nextEndPtr
  next_le : dev.nextEndPtr ≤ dev.stopPtr
  nextLba : dev.nextLba = (base + k * (B.requestSize / dev.blockSize)) % B.lbaRange
  nextEnd : dev.nextEndPtr = min dev.stopPtr (buf + k * B.requestSize)

variable {B} {dev dev' : Blockdev T} {base buf k : Nat}

section
variable {I : T → Bus → Prop} (h : Placed B dev base buf k)
  (hwait : ∀ {x bus res x' bus'}, I x bus → B.wait x bus = .ok (res, x', bus') → I x' bus')
  (hsubmit : ∀ {j fuel x bus res x' bus'}, buf + j * B.requestSize < dev.stopPtr → I x bus →
    B.submit fuel x bus (B.placedAt dev.blockSize base buf dev.stopPtr j) = .ok (res, x', bus') →
    I x' bus')
  (hI : I dev.xfer dev.bus)
include h hwait hsubmit hI

/-- A property of the transfer object that holds for all requests of a stream holds after a pump. -/
theorem Placed.pumpLoop {minSize fuel b}
    (hrun : Blockdev.pumpLoop B minSize fuel dev = .ok (b, dev')) :
    (∃ k', Placed B dev' base buf k') ∧ I dev'.xfer dev'.bus ∧ SameStream dev dev' := by
  refine Blockdev.pumpLoop_keeps dev
    (J := fun d => (∃ k', Placed B d base buf k') ∧ I d.xfer d.bus ∧ SameStream dev d) ?_ ?_
    ⟨⟨k, h⟩, hI, rfl, rfl, rfl⟩ hrun
  · rintro d res d' ⟨⟨k, hk⟩, hd, hsame⟩ hcat
    rcases Blockdev.catchUp_eq_ok hcat with ⟨rfl, -⟩ | ⟨x, bus, hw, rfl⟩
    · exact ⟨⟨k, hk⟩, hd, hsame⟩
    · refine ⟨⟨k, ?_, hk.next_le, hk.nextLba, hk.nextEnd⟩, hwait hd hw,
        hsame.blockSize, hsame.numBlocks, hsame.stopPtr⟩
      split
      · exact le_rfl
      · exact hk.end_le
  · rintro fuel d res d' ⟨⟨k, hk⟩, hd, hsame⟩ hend hstop hrun
    obtain ⟨x, bus, hsub, rfl⟩ := Blockdev.submit_eq_ok hrun
    have hnext := hk.nextEnd
    have hreq := d.requestEnd_eq (B := B) (by omega)
    have hbegins : d.endPtr = buf + k * B.requestSize := by omega
    have hplace : (⟨d.nextLba, d.endPtr, d.requestEnd B⟩ : Request) =
        B.placedAt dev.blockSize base buf dev.stopPtr k := by
      rw [Backend.placedAt, hk.nextLba, hreq, hbegins, hsame.blockSize, hsame.stopPtr, succ_mul,
        add_assoc]
    rw [hplace] at hsub
    have hI' := hsubmit (by rw [← hsame.stopPtr]; omega) hd hsub
    split
    · refine ⟨⟨k + 1, ?_, ?_, ?_, ?_⟩, hI', hsame.blockSize, hsame.numBlocks, hsame.stopPtr⟩ <;> dsimp only
      · omega
      · omega
      · rw [hk.nextLba, mod_add_mod, succ_mul, add_assoc]
      · rw [hreq, hbegins, succ_mul, add_assoc]
    · exact ⟨⟨k, hk.end_le, hk.next_le, hk.nextLba, hk.nextEnd⟩, hI',
        hsame.blockSize, hsame.numBlocks, hsame.stopPtr⟩

theorem Placed.pumped {calls} (hrun : Pumped B dev calls dev') : I dev'.xfer dev'.bus := by
  induction hrun generalizing k with
  | nil => exact hI
  | @cons dev dev₁ dev₂ fuel consume minSize b calls hpump hrun ih =>
    obtain ⟨-, hloop⟩ := Blockdev.pump_eq_ok hpump
    have hplaced : Placed B { dev with consumePtr := dev.consumePtr + consume } base buf k :=
      ⟨h.end_le, h.next_le, h.nextLba, h.nextEnd⟩
    obtain ⟨⟨k₁, h₁⟩, hI₁, hsame⟩ := hplaced.pumpLoop hwait hsubmit hI hloop
    exact ih h₁ (by rw [hsame.stopPtr, hsame.blockSize]; exact hsubmit) hI₁

end
end

/-! ## Commands -/

/-- The command reads the blocks that belong to the memory from `p` to `q`, in a stream that begins
with block `addr` at address `buf`. -/
structure ReadsAt (blockSize addr buf : Nat) (cmd : NvmeCmd) (p q : Nat) : Prop where
  lba : cmd.cmdSpec = addr + (p - buf) / blockSize
  count : cmd.cmdSpec + (cmd.dw12 + 1) = addr + (q - buf) / blockSize
  byte : ∀ a, p ≤ a → a < q → blockSize * cmd.cmdSpec + (a - p) = blockSize * addr + (a - buf)

theorem virtToPhys_of_aligned {ptr} (h : virtToPhys ptr % 4 = 0) :
    virtToPhys ptr = ptr ∧ ptr < 0xffe00000 := by
  rw [virtToPhys] at h ⊢
  split at h
  · omega
  · rename_i hlt
    exact ⟨if_neg hlt, Nat.lt_of_not_le hlt⟩

/-- A call emits at most one command: for the blocks and the memory of its request. -/
theorem Nvme.submit_spec {c fuel} {port port' : NvmePort} {bus bus'}
    {r : Request} {res} (h : submit c fuel port bus r = .ok (res, port', bus')) :
    port'.lbaShift = port.lbaShift ∧ (port'.emitted = port.emitted ∨
      ∃ cmd, port'.emitted = (cmd, r.start, r.stop) :: port.emitted ∧ r.start % 4 = 0 ∧
        r.stop < 0xffe00000 ∧ cmd.cmdSpec = r.lba ∧
        cmd.dw12 = ((r.stop - r.start) / 2 ^ port.lbaShift + 2 ^ 32 - 1) % 2 ^ 32) := by
  obtain ⟨⟨res₁, x₁⟩, hreset, h⟩ := except_bind_eq_ok h
  dsimp only at h
  split at h
  · cases h
    exact ⟨rfl, Or.inl rfl⟩
  rename_i hok
  obtain rfl : res₁ = .ok := not_not.mp hok
  have hsize : x₁.prpSize = 0 := by
    obtain ⟨⟨res₂, st⟩, -, hreset⟩ := except_bind_eq_ok hreset
    dsimp only at hreset
    split at hreset
    · rename_i hne
      cases hreset
      exact absurd rfl hne
    · cases hreset
      rfl
  obtain ⟨⟨ok, x₂⟩, hadd, h⟩ := except_bind_eq_ok h
  obtain ⟨_, hcheck, h⟩ := except_bind_eq_ok h
  obtain rfl : ok = true := check_eq_ok hcheck
  have hbytes := nvmeAddPhysBuffer_bytes hsize hadd
  obtain ⟨_, -, hadd⟩ := except_bind_eq_ok hadd
  obtain ⟨_, hargs, -⟩ := except_bind_eq_ok hadd
  obtain ⟨hfour, hfour', -⟩ := check_eq_ok hargs
  obtain ⟨hstart, -⟩ := virtToPhys_of_aligned hfour
  obtain ⟨hstop, hlt⟩ := virtToPhys_of_aligned hfour'
  rw [hstart] at hfour
  rw [hstart, hstop] at hbytes h
  rw [nvmeEmitRead] at h
  split at h
  · rename_i hnone
    cases h
    exact ⟨rfl, Or.inl rfl⟩
  · rename_i cmd x₃ hsome
    split at hsome
    · cases hsome
    rw [hbytes] at hsome
    obtain ⟨hcmd, -⟩ := Prod.mk.inj (Option.some.inj hsome)
    have hemitted : port'.lbaShift = port.lbaShift ∧
        port'.emitted = (cmd, r.start, r.stop) :: port.emitted := by
      split at h
      · cases h
        exact ⟨rfl, rfl⟩
      · cases h
        exact ⟨rfl, rfl⟩
      · cases h
        exact ⟨rfl, rfl⟩
    refine ⟨hemitted.1, Or.inr ⟨cmd, hemitted.2, hfour, hlt, ?_, ?_⟩⟩
    · rw [← hcmd]
    · rw [← hcmd]

theorem nvmeWaitReq_spec {c} {port port' : NvmePort} {bus bus' res}
    (h : nvmeWaitReq c port bus = .ok (res, port', bus')) :
    port'.lbaShift = port.lbaShift ∧ port'.emitted = port.emitted := by
  rw [nvmeWaitReq] at h
  split at h
  · cases h
    exact ⟨rfl, rfl⟩
  · cases h
    exact ⟨rfl, rfl⟩

theorem nvmeReadShift_range (mdts mpsmin : Nat) :
    13 ≤ nvmeReadShift mdts mpsmin ∧ nvmeReadShift mdts mpsmin ≤ 17 := by
  rw [nvmeReadShift]
  split <;> omega

/-- The numbers of a command for the request after `j` others, in a stream of `m` blocks with `n`
blocks in a request. -/
theorem readsAt_placed {blockSize n base buf m j} {cmd : NvmeCmd} (hpos : 0 < n)
    (hn : n ≤ 2 ^ 17) (hsize : 0 < blockSize) (hbase : base < 2 ^ 32) (hj : j * n < m)
    (hend : min m (j * n + n) < 2 ^ 32) (hspec : cmd.cmdSpec = (base + j * n) % 2 ^ 64)
    (hcount : cmd.dw12 = (min m (j * n + n) - j * n + 2 ^ 32 - 1) % 2 ^ 32) :
    ReadsAt blockSize base buf cmd (buf + blockSize * (j * n))
      (buf + blockSize * min m (j * n + n)) := by
  have hspec' : cmd.cmdSpec = base + j * n := by
    omega
  refine ⟨?_, ?_, fun a hlo hhi => ?_⟩
  · rw [Nat.add_sub_cancel_left, Nat.mul_div_cancel_left _ hsize, hspec']
  · rw [Nat.add_sub_cancel_left, Nat.mul_div_cancel_left _ hsize, hspec']
    omega
  · rw [hspec', mul_add]
    omega

/-! ## Runs of the driver -/

/-- The states of `nvme_blk` that `boot_nvme` and its callers lead to. -/
inductive Nvme.Reachable (c : NvmeController) (xferShift iostU8 : Nat) : Blockdev NvmePort → Prop
  | initial (prpListAddr prpListPtr : Nat) (prpList : Nat → Nat) (mem : Nat → UInt8) :
      Reachable c xferShift iostU8 (Nvme.initial prpListAddr prpListPtr prpList mem)
  | identify {dev : Blockdev NvmePort} {lbaShift : Nat} (numBlocks nsid : Nat) :
      Reachable c xferShift iostU8 dev → 9 ≤ lbaShift → lbaShift ≤ 12 →
      Reachable c xferShift iostU8 (Nvme.identify dev lbaShift numBlocks nsid)
  | start {dev : Blockdev NvmePort} (addr buf bufEnd : Nat) : Reachable c xferShift iostU8 dev →
      Reachable c xferShift iostU8 (Nvme.start dev addr buf bufEnd).2
  | pump {dev dev' : Blockdev NvmePort} {fuel consume minSize : Nat} {b : AsyncBuf} :
      Reachable c xferShift iostU8 dev →
      dev.pump (Nvme.backend c xferShift iostU8) fuel consume minSize = .ok (b, dev') →
      Reachable c xferShift iostU8 dev'

/-- Every command that the calls emit after a `start` reads the blocks it should. -/
def Nvme.ReadsStream (c : NvmeController) (xferShift iostU8 lbaShift numBlocks addr buf bufEnd : Nat)
    (calls : List (Nat × Nat)) : Prop :=
  ∀ dev dev₁ dev₂, Reachable c xferShift iostU8 dev → dev.xfer.lbaShift = lbaShift →
    dev.numBlocks = numBlocks → Nvme.start dev addr buf bufEnd = (.ok, dev₁) →
    Pumped (backend c xferShift iostU8) dev₁ calls dev₂ →
    ∃ new, dev₂.xfer.emitted = new ++ dev₁.xfer.emitted ∧
      ∀ e ∈ new, ReadsAt (2 ^ lbaShift) addr buf e.1 e.2.1 e.2.2

section
variable {c : NvmeController} {xferShift iostU8 lbaShift numBlocks addr buf bufEnd : Nat}
  {dev dev₁ dev₂ : Blockdev NvmePort} {calls : List (Nat × Nat)}

theorem Nvme.start_eq_ok (h : Nvme.start dev addr buf bufEnd = (.ok, dev₁)) :
    dev.Accepts addr buf bufEnd ∧ dev₁ = dev.rewind addr buf bufEnd := by
  rw [Nvme.start] at h
  split at h
  · rename_i hacc
    cases h
    exact ⟨hacc, rfl⟩
  · cases h

theorem Nvme.rewind_placed (hle : buf ≤ bufEnd) :
    Placed (backend c xferShift iostU8) (dev.rewind addr buf bufEnd) (addr % 2 ^ 32) buf 0 := by
  refine ⟨le_rfl, hle, ?_, ?_⟩
  · rw [zero_mul, add_zero]
    have hlt : addr % 2 ^ 32 < 2 ^ 64 := (mod_lt _ (by decide)).trans (by decide)
    exact (mod_eq_of_lt hlt).symm
  · rw [zero_mul, add_zero]
    exact (min_eq_right hle).symm

/-- The block size is that of the controller's `lba_shift` once there is a namespace. -/
theorem Nvme.Reachable.blockSize (h : Nvme.Reachable c xferShift iostU8 dev) :
    dev.xfer.lbaShift = 0 ∨ dev.blockSize = 2 ^ dev.xfer.lbaShift := by
  induction h with
  | initial => exact Or.inl rfl
  | identify => exact Or.inr rfl
  | start addr buf bufEnd _ ih =>
    rw [Nvme.start]
    split
    · exact ih
    · exact ih
  | @pump dev dev' fuel consume minSize b _ hrun ih =>
    obtain ⟨hshift, hsame⟩ := Blockdev.pump_frame (I := fun port => port.lbaShift = dev.xfer.lbaShift)
      (fun hx hw => (nvmeWaitReq_spec hw).1.trans hx) (fun hx hsub => (Nvme.submit_spec hsub).1.trans hx)
      rfl hrun
    rw [hshift, hsame.blockSize]
    exact ih

/-- Where the first request of a stream ends. -/
def firstEnd (xferShift buf bufEnd : Nat) : Nat := min bufEnd (buf + 2 ^ xferShift)

/-- What the commands of a stream read, wherever it began, and where they can store it. -/
theorem Nvme.pumped_reads (hshift : 12 ≤ xferShift ∧ xferShift ≤ 17)
    (hlba : 9 ≤ lbaShift ∧ lbaShift ≤ 12) (hport : dev.xfer.lbaShift = lbaShift)
    (hsize : dev.blockSize = 2 ^ lbaShift) (hacc : dev.Accepts addr buf bufEnd)
    (hrun : Pumped (backend c xferShift iostU8) (dev.rewind addr buf bufEnd) calls dev₂) :
    ∃ new, dev₂.xfer.emitted = new ++ dev.xfer.emitted ∧
      ∀ e ∈ new, ReadsAt (2 ^ lbaShift) (addr % 2 ^ 32) buf e.1 e.2.1 e.2.2 ∧
        buf % 4 = 0 ∧ firstEnd xferShift buf bufEnd < 0xffe00000 := by
  obtain ⟨hle, hmod, -⟩ := hacc
  rw [hsize] at hmod
  obtain ⟨m, hm⟩ := dvd_of_mod_eq_zero hmod
  have hpow : 2 ^ xferShift = 2 ^ lbaShift * 2 ^ (xferShift - lbaShift) := by
    rw [← pow_add]
    congr 1
    omega
  generalize hn : 2 ^ (xferShift - lbaShift) = n at hpow
  have hpos : 0 < 2 ^ lbaShift := Nat.two_pow_pos _
  have hnpos : 0 < n := hn ▸ Nat.two_pow_pos _
  have hnle : n ≤ 2 ^ 17 := hn ▸ Nat.pow_le_pow_right (by decide) (by omega)
  have hreq : (backend c xferShift iostU8).requestSize = 2 ^ lbaShift * n := by
    rw [← hpow]
    exact one_shiftLeft _
  have hplace : ∀ j, (backend c xferShift iostU8).placedAt (2 ^ lbaShift) (addr % 2 ^ 32) buf bufEnd j =
      ⟨(addr % 2 ^ 32 + j * n) % 2 ^ 64, buf + 2 ^ lbaShift * (j * n),
        buf + 2 ^ lbaShift * min m (j * n + n)⟩ := by
    intro j
    have hstop : min bufEnd (buf + 2 ^ lbaShift * (j * n + n)) =
        buf + min (2 ^ lbaShift * m) (2 ^ lbaShift * (j * n + n)) := by omega
    rw [Backend.placedAt, hreq, Nat.mul_div_cancel_left _ hpos, mul_left_comm j,
      mul_left_comm (j + 1), succ_mul, hstop, Nat.mul_min_mul_left]
    rfl
  refine ((rewind_placed hle).pumped (I := fun port _ => port.lbaShift = lbaShift ∧
    ∃ new, port.emitted = new ++ dev.xfer.emitted ∧
      ∀ e ∈ new, ReadsAt (2 ^ lbaShift) (addr % 2 ^ 32) buf e.1 e.2.1 e.2.2 ∧
        buf % 4 = 0 ∧ firstEnd xferShift buf bufEnd < 0xffe00000)
    ?_ ?_ ⟨hport, [], rfl, nofun⟩ hrun).2
  · intro x bus res x' bus' hx hw
    obtain ⟨hsame, hemitted⟩ := nvmeWaitReq_spec hw
    rw [hsame, hemitted]
    exact hx
  · rintro j fuel x bus res x' bus' hlt ⟨rfl, new, hnew, hall⟩ hsub
    have hsub : submit c fuel x bus ((backend c xferShift iostU8).placedAt dev.blockSize
      (addr % 2 ^ 32) buf bufEnd j) = .ok (res, x', bus') := hsub
    rw [hsize, hplace] at hsub
    obtain ⟨hsame, hemitted⟩ := submit_spec hsub
    refine ⟨hsame, ?_⟩
    rcases hemitted with hnone | ⟨cmd, hone, hfour, hhi, hspec, hcount⟩
    · rw [hnone]
      exact ⟨new, hnew, hall⟩
    refine ⟨_ :: new, by rw [hone, hnew, cons_append], fun e he => ?_⟩
    rcases mem_cons.mp he with rfl | he
    · have hj : j * n < m := by
        rw [hreq, mul_left_comm] at hlt
        refine Nat.lt_of_mul_lt_mul_left (a := 2 ^ x.lbaShift) ?_
        have hlt : buf + 2 ^ x.lbaShift * (j * n) < bufEnd := hlt
        omega
      dsimp only at hfour hhi hspec hcount ⊢
      refine ⟨readsAt_placed hnpos hnle hpos (mod_lt _ (by decide)) hj ?_ hspec ?_, ?_, ?_⟩
      · calc min m (j * n + n) ≤ 2 ^ x.lbaShift * min m (j * n + n) := Nat.le_mul_of_pos_left _ hpos
          _ < 2 ^ 32 := by omega
      · rw [hcount, Nat.add_sub_add_left, ← Nat.mul_sub, Nat.mul_div_cancel_left _ hpos]
      · have hblock : 2 ^ x.lbaShift * (j * n) % 4 = 0 := mod_eq_zero_of_dvd
          ((pow_dvd_pow 2 (by omega : 2 ≤ x.lbaShift)).trans (dvd_mul_right ..))
        omega
      · have hfirst : firstEnd xferShift buf bufEnd = buf + 2 ^ x.lbaShift * min m n := by
          rw [firstEnd, hpow, ← Nat.mul_min_mul_left]
          omega
        have hmono : 2 ^ x.lbaShift * min m n ≤ 2 ^ x.lbaShift * min m (j * n + n) :=
          Nat.mul_le_mul_left _ (by omega)
        omega
    · exact hall e he

/-- A drive that takes every command and answers none. -/
def silentDrive : NvmeController := ⟨fun _ => .free, fun _ => none, fun _ _ => true⟩

theorem Nvme.submit_emits (fuel : Nat) (port : NvmePort) (bus : Bus) (r : Request)
    (hst : port.xfer.status = nvmeCreating) (hcap : port.xfer.prpCap = 512)
    (hargs : r.start % 4 = 0 ∧ r.stop % 4 = 0 ∧ r.start ≤ r.stop) (hend : r.stop < 0xffe00000)
    (hlen : r.stop - r.start ≤ 2 ^ 17) (hmod : (r.stop - r.start) % 2 ^ port.lbaShift = 0) :
    ∃ port' bus' cmd, submit silentDrive (fuel + 1) port bus r = .ok (.ok, port', bus') ∧
      port'.xfer.status = nvmeSubmitted ∧ cmd.cmdSpec = r.lba ∧
      port'.emitted = (cmd, r.start, r.stop) :: port.emitted := by
  have hreset : nvmeResetXfer (silentDrive.spurious bus.claims) (fuel + 1) port.xfer =
      .ok (.ok, { port.xfer with
        status := nvmeCreating, prpSize := 0, firstPrpEntry := 0, lastPrpEntry := 0 }) := by
    rw [nvmeResetXfer, hst]
    rfl
  have hstop : virtToPhys r.stop = r.stop := if_neg (not_le.mpr hend)
  have hstart : virtToPhys r.start = r.start := if_neg (by omega)
  obtain ⟨x, hadd⟩ : ∃ x, nvmeAddPhysBuffer { port.xfer with
      status := nvmeCreating, prpSize := 0, firstPrpEntry := 0, lastPrpEntry := 0 } r.start r.stop =
        .ok (true, x) := nvmeAddPhysBuffer_ok rfl rfl hcap hargs hlen
  have hbytes := nvmeAddPhysBuffer_bytes rfl hadd
  rw [← hstop, ← hstart] at hadd
  have hemit : ∃ cmd x', nvmeEmitRead port.lbaShift x port.nsid r.lba = some (cmd, x') ∧
      cmd.cmdSpec = r.lba := by
    rw [nvmeEmitRead, if_neg (by rw [hbytes, not_not]; exact hmod)]
    exact ⟨_, _, rfl, rfl⟩
  obtain ⟨cmd, x', hemit, hspec⟩ := hemit
  have hsub : submit silentDrive (fuel + 1) port bus r = .ok (.ok, { port with
      xfer := { x' with status := nvmeSubmitted },
      emitted := (cmd, virtToPhys r.start, virtToPhys r.stop) :: port.emitted },
      { bus with claims := bus.claims + 1 }.send r) := by
    refine (bind_of_ok hreset _).trans ((bind_of_ok hadd _).trans ((bind_of_ok (check_of rfl) _).trans ?_))
    rw [hemit]
    rfl
  rw [hstart, hstop] at hsub
  exact ⟨_, _, cmd, hsub, rfl, hspec, rfl⟩

section
variable (dev : Blockdev NvmePort) (addr iostU8 : Nat) (hshift : xferShift ≤ 17)
  (hst : dev.xfer.xfer.status = nvmeCreating) (hcap : dev.xfer.xfer.prpCap = 512)
  (hlba : 9 ≤ dev.xfer.lbaShift) (hfull : 2 ^ xferShift % 2 ^ dev.xfer.lbaShift = 0)
  (hmod : (bufEnd - buf) % 2 ^ dev.xfer.lbaShift = 0) (hbuf : buf % 4 = 0)
  (hend : firstEnd xferShift buf bufEnd < 0xffe00000)
include hshift hst hcap hlba hfull hmod hbuf hend

/-- The first call that asks for anything emits a command for the first block of the stream, by the
low half of its number. -/
theorem Nvme.pump_emits (hlt : buf < bufEnd) {minSize} (hmin : 0 < minSize) :
    ∃ b dev₂ cmd, (dev.rewind addr buf bufEnd).pump (backend silentDrive xferShift iostU8) 2 0 minSize =
        .ok (b, dev₂) ∧ cmd.cmdSpec = addr % 2 ^ 32 ∧
      dev₂.xfer.emitted = (cmd, buf, firstEnd xferShift buf bufEnd) :: dev.xfer.emitted := by
  have hreq : (dev.rewind addr buf bufEnd).requestEnd (backend silentDrive xferShift iostU8) =
      firstEnd xferShift buf bufEnd := by
    rw [Blockdev.requestEnd_eq _ hlt.le, firstEnd, ← one_shiftLeft]
    rfl
  have hsize : 2 ^ xferShift ≤ 2 ^ 17 := Nat.pow_le_pow_right (by decide) hshift
  have hpos := Nat.two_pow_pos xferShift
  have hlen : firstEnd xferShift buf bufEnd - buf = min (bufEnd - buf) (2 ^ xferShift) := by
    rw [firstEnd]
    omega
  have hblocks : (firstEnd xferShift buf bufEnd - buf) % 2 ^ dev.xfer.lbaShift = 0 := by
    rw [hlen]
    rcases le_total (bufEnd - buf) (2 ^ xferShift) with hle | hle
    · rw [min_eq_left hle]
      exact hmod
    · rw [min_eq_right hle]
      exact hfull
  have hfour : (firstEnd xferShift buf bufEnd - buf) % 4 = 0 :=
    mod_eq_zero_of_dvd ((pow_dvd_pow 2 (by omega : 2 ≤ dev.xfer.lbaShift)).trans
      (dvd_of_mod_eq_zero hblocks))
  obtain ⟨port, bus, cmd, hsub, hst', hspec, hemitted⟩ := submit_emits 1
    dev.xfer dev.bus ⟨addr % 2 ^ 32, buf, firstEnd xferShift buf bufEnd⟩ hst hcap
    (by dsimp only; omega) hend (by dsimp only; omega) hblocks
  obtain ⟨dev₂, hdev₂⟩ : ∃ dev₂, dev₂ = { dev.rewind addr buf bufEnd with
      xfer := port, bus := bus, nextEndPtr := firstEnd xferShift buf bufEnd
      nextLba := (addr % 2 ^ 32 + 1 <<< xferShift / dev.blockSize) % 2 ^ 64 } := ⟨_, rfl⟩
  have hsubmit : (dev.rewind addr buf bufEnd).submit (backend silentDrive xferShift iostU8) 2 =
      .ok (.ok, dev₂) := by
    rw [Blockdev.submit, hreq, hdev₂]
    exact bind_of_ok hsub _
  -- the drive does not answer, and the second round reports it
  have hwait : dev₂.catchUp (backend silentDrive xferShift iostU8) = .ok (.globalFault, dev₂) := by
    rw [hdev₂, Blockdev.catchUp, if_pos (by dsimp only [Blockdev.rewind]; omega), Blockdev.waitXfer]
    refine bind_of_ok (a := (Iost.globalFault, port, bus)) ?_ _
    change nvmeWaitReq silentDrive port bus = _
    rw [nvmeWaitReq, if_pos hst']
    rfl
  have hfail : Blockdev.pumpLoop (backend silentDrive xferShift iostU8) minSize 1 dev₂ =
      .ok ((backend silentDrive xferShift iostU8).errorBuf .globalFault, dev₂) := by
    rw [Blockdev.pumpLoop, if_neg (by rw [hdev₂]; dsimp only [Blockdev.rewind]; omega)]
    exact bind_of_ok hwait _
  have hpump : (dev.rewind addr buf bufEnd).pump (backend silentDrive xferShift iostU8) 2 0 minSize =
      .ok ((backend silentDrive xferShift iostU8).errorBuf .globalFault, dev₂) := by
    rw [Blockdev.pump, check_of (Nat.zero_le _)]
    rw [Blockdev.pumpLoop, if_neg (by dsimp only [Blockdev.rewind]; omega)]
    refine (bind_of_ok (a := (Iost.ok, dev.rewind addr buf bufEnd)) ?_ _).trans ?_
    · exact if_neg (not_not.mpr rfl)
    · refine (if_neg hlt.ne').trans ((bind_of_ok hsubmit _).trans ?_)
      exact hfail
  exact ⟨_, dev₂, cmd, hpump, hspec, by rw [hdev₂]; exact hemitted⟩

/-- Calls that lead to a request emit a command in some run. -/
theorem Nvme.pumped_emits (hreq : bytesRequested (2 ^ xferShift) (bufEnd - buf)
      (mostWanted (2 ^ xferShift) (bufEnd - buf) calls 0 0) ≠ 0) :
    ∃ dev₂ cmd, Pumped (backend silentDrive xferShift iostU8) (dev.rewind addr buf bufEnd) calls dev₂ ∧
      cmd.cmdSpec = addr % 2 ^ 32 ∧
      dev₂.xfer.emitted = (cmd, buf, firstEnd xferShift buf bufEnd) :: dev.xfer.emitted := by
  induction calls with
  | nil => exact absurd rfl hreq
  | cons call calls ih =>
    obtain ⟨consume, minSize⟩ := call
    have hnone : bytesDelivered (2 ^ xferShift) (bufEnd - buf) 0 = 0 := by
      rw [bytesDelivered, roundUp, zero_add,
        div_eq_of_lt (sub_lt (Nat.two_pow_pos _) one_pos), zero_mul, Nat.min_zero]
    rw [mostWanted, hnone] at hreq
    split at hreq
    · rename_i hzero
      obtain rfl : consume = 0 := by omega
      rcases Nat.eq_zero_or_pos minSize with rfl | hmin
      · obtain ⟨dev₂, cmd, hrun, hspec⟩ := ih hreq
        have hskip : (dev.rewind addr buf bufEnd).pump (backend silentDrive xferShift iostU8) 1 0 0 =
            .ok (⟨buf, buf⟩, dev.rewind addr buf bufEnd) := rfl
        exact ⟨dev₂, cmd, .cons hskip hrun, hspec⟩
      · have hlen : bufEnd - buf ≠ 0 := fun hzero =>
          hreq ((bytesRequested_eq_zero (Nat.two_pow_pos _)).mpr (Or.inr hzero))
        have hlt : buf < bufEnd := by omega
        obtain ⟨b, dev₂, cmd, hpump, hspec⟩ := pump_emits dev addr iostU8 hshift hst hcap hlba hfull
          hmod hbuf hend hlt hmin
        exact ⟨dev₂, cmd, .cons hpump (.nil ..), hspec⟩
    · exact absurd rfl hreq

end

/-- Calls that lead to no request leave the driver where it is. -/
theorem Nvme.pumped_idle (hle : buf ≤ bufEnd) (hreq : bytesRequested (2 ^ xferShift) (bufEnd - buf)
      (mostWanted (2 ^ xferShift) (bufEnd - buf) calls 0 0) = 0)
    (hrun : Pumped (backend c xferShift iostU8) (dev.rewind addr buf bufEnd) calls dev₂) :
    dev₂ = dev.rewind addr buf bufEnd := by
  rw [bytesRequested_eq_zero (Nat.two_pow_pos _)] at hreq
  induction calls with
  | nil =>
    cases hrun
    rfl
  | cons call calls ih =>
    cases hrun with
    | nil => rfl
    | @cons _ dev₁ _ fuel consume minSize b _ hpump hrun =>
      obtain ⟨hn, hloop⟩ := Blockdev.pump_eq_ok hpump
      obtain rfl : consume = 0 := le_zero.mp (hn.trans (Nat.sub_self buf).le)
      have hmost : mostWanted (2 ^ xferShift) (bufEnd - buf) ((0, minSize) :: calls) 0 0 =
          mostWanted (2 ^ xferShift) (bufEnd - buf) calls 0 minSize := by
        rw [mostWanted, if_pos (Nat.zero_le _), zero_add, zero_add, Nat.zero_max]
      have hidle : ∀ fuel, Blockdev.pumpLoop (backend c xferShift iostU8) minSize (fuel + 1)
          (dev.rewind addr buf bufEnd) = .ok (⟨buf, buf⟩, dev.rewind addr buf bufEnd) := by
        intro fuel
        rw [Blockdev.pumpLoop]
        split
        · rfl
        · rename_i hmin
          have hstop : bufEnd = buf := by
            have hmost := le_mostWanted (2 ^ xferShift) (bufEnd - buf) calls 0 minSize
            omega
          exact (bind_of_ok (a := (Iost.ok, dev.rewind addr buf bufEnd)) (if_neg (not_not.mpr rfl)) _).trans
            (if_pos hstop)
      cases fuel with
      | zero => cases hloop
      | succ fuel =>
        obtain ⟨-, rfl⟩ := Prod.mk.inj (Except.ok.inj (hloop.symm.trans (hidle fuel)))
        refine ih (hreq.imp_left fun hzero => ?_) hrun
        have hmost := le_mostWanted (2 ^ xferShift) (bufEnd - buf) calls 0 minSize
        obtain rfl : minSize = 0 := by omega
        exact hzero

/-- The commands of a stream are right if and only if the stream begins below block `2 ^ 32`, or there
are none: nothing is requested, or the buffer is not one the drive can reach. -/
theorem nvme_reads_stream (mdts mpsmin : Nat) (calls : List (Nat × Nat)) (hlba : 9 ≤ lbaShift ∧ lbaShift ≤ 12)
    (hle : buf ≤ bufEnd) (hmod : (bufEnd - buf) % 2 ^ lbaShift = 0) (haddr : addr < numBlocks) :
    (∀ c iostU8, Nvme.ReadsStream c (nvmeReadShift mdts mpsmin) iostU8 lbaShift numBlocks addr buf bufEnd
      calls) ↔
    addr < 2 ^ 32 ∨
    bytesRequested (2 ^ nvmeReadShift mdts mpsmin) (bufEnd - buf)
      (mostWanted (2 ^ nvmeReadShift mdts mpsmin) (bufEnd - buf) calls 0 0) = 0 ∨
    buf % 4 ≠ 0 ∨ 0xffe00000 ≤ firstEnd (nvmeReadShift mdts mpsmin) buf bufEnd := by
  have hrange := nvmeReadShift_range mdts mpsmin
  generalize nvmeReadShift mdts mpsmin = xferShift at hrange
  constructor
  · intro h
    by_contra hcond
    simp only [not_or, not_lt, not_not, not_le] at hcond
    obtain ⟨hbig, hreq, hbuf, hend⟩ := hcond
    have hreach : Nvme.Reachable silentDrive xferShift 0
        (Nvme.identify (Nvme.initial 0 0 (fun _ => 0) fun _ => 0) lbaShift numBlocks 1) :=
      .identify numBlocks 1 (.initial ..) hlba.1 hlba.2
    have hfull : 2 ^ xferShift % 2 ^ lbaShift = 0 :=
      mod_eq_zero_of_dvd (pow_dvd_pow 2 (by omega))
    obtain ⟨dev₂, cmd, hrun, hspec, hemitted⟩ := Nvme.pumped_emits
      (Nvme.identify (Nvme.initial 0 0 (fun _ => 0) fun _ => 0) lbaShift numBlocks 1) addr 0
      hrange.2 rfl rfl hlba.1 hfull hmod hbuf hend hreq
    obtain ⟨new, hnew, hall⟩ := h silentDrive 0 _ _ dev₂ hreach rfl rfl (if_pos ⟨hle, hmod, haddr⟩) hrun
    have hmem : (cmd, buf, firstEnd xferShift buf bufEnd) ∈ new := by
      have hlist : new ++ [] = [(cmd, buf, firstEnd xferShift buf bufEnd)] := hnew.symm.trans hemitted
      rw [append_nil] at hlist
      rw [hlist]
      exact mem_singleton.mpr rfl
    have hwrong := (hall _ hmem).lba
    rw [hspec] at hwrong
    have hge : addr ≤ addr % 2 ^ 32 := hwrong.symm ▸ Nat.le_add_right ..
    omega
  · intro hcond c iostU8 dev dev₁ dev₂ hreach hport hnum hstart hrun
    obtain ⟨hacc, rfl⟩ := Nvme.start_eq_ok hstart
    have hsize : dev.blockSize = 2 ^ lbaShift := by
      rw [← hport]
      exact hreach.blockSize.resolve_left (by omega)
    obtain ⟨new, hnew, hall⟩ := Nvme.pumped_reads ⟨by omega, hrange.2⟩ hlba hport hsize hacc hrun
    rcases hcond with hlow | hnone | hbuf | hend
    · rw [mod_eq_of_lt hlow] at hall
      exact ⟨new, hnew, fun e he => (hall e he).1⟩
    · rw [Nvme.pumped_idle hle hnone hrun]
      exact ⟨[], rfl, nofun⟩
    · exact ⟨new, hnew, fun e he => absurd (hall e he).2.1 hbuf⟩
    · exact ⟨new, hnew, fun e he => absurd (hall e he).2.2 (not_lt.mpr hend)⟩

end

/-- A stream from the first partition of a large drive. -/
theorem nvme_reads_stream_low : Nvme.ReadsStream silentDrive (nvmeReadShift 0 0) 0 9 (2 ^ 33) 2048
    0x4400000 0x8000000 [(0, 1)] :=
  (nvme_reads_stream 0 0 [(0, 1)] (by decide) (by decide) (by decide) (by decide)).mpr
    (Or.inl (by decide)) silentDrive 0

/-- On the same drive a stream from block `2 ^ 32 + 5` reads block 5. -/
theorem nvme_reads_low_half : ∃ dev dev₁ dev₂ cmd, Nvme.Reachable silentDrive 17 0 dev ∧
    dev.blockSize = 512 ∧ dev.numBlocks = 2 ^ 33 ∧
    Nvme.start dev (2 ^ 32 + 5) 0x4400000 0x8000000 = (.ok, dev₁) ∧
    Pumped (Nvme.backend silentDrive 17 0) dev₁ [(0, 1)] dev₂ ∧
    dev₂.xfer.emitted = (cmd, 0x4400000, 0x4420000) :: dev₁.xfer.emitted ∧ cmd.cmdSpec = 5 ∧
    ¬ ReadsAt 512 (2 ^ 32 + 5) 0x4400000 cmd 0x4400000 0x4420000 := by
  obtain ⟨b, dev₂, cmd, hpump, hspec, hemitted⟩ := Nvme.pump_emits
    (Nvme.identify (Nvme.initial 0 0 (fun _ => 0) fun _ => 0) 9 (2 ^ 33) 1)
    (2 ^ 32 + 5) 0 (by decide : 17 ≤ 17) rfl rfl (by decide) (by decide)
    (by decide : (0x8000000 - 0x4400000) % _ = 0) (by decide) (by decide) (by decide) one_pos
  have hreach : Nvme.Reachable silentDrive 17 0
      (Nvme.identify (Nvme.initial 0 0 (fun _ => 0) fun _ => 0) 9 (2 ^ 33) 1) :=
    .identify _ _ (.initial ..) (by decide) (by decide)
  refine ⟨_, _, dev₂, cmd, hreach, rfl, rfl, if_pos ⟨by decide, by decide, by decide⟩,
    .cons hpump (.nil ..), hemitted, hspec, fun h => ?_⟩
  exact absurd (hspec.symm.trans h.lba) (by decide)

end Rkboot.Dramstage
