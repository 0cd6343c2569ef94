import Rkboot.Lib.Exec
import Mathlib.Data.List.Induction

/-! # Filling an output buffer

A writer puts whole byte strings at addresses of an output buffer it never
reads. Such a run is blind: where it stores and what it returns is the same
whatever the buffer held. `Yields` is the total-correctness triple for runs
that may give up half-way by returning `none`. -/
namespace Rkboot.Lib
open List

/-! ## Big-endian numbers -/

/-- The low `n` bytes of a number, the most significant first. -/
def beBytes : Nat → Nat → List UInt8
  | 0, _ => []
  | n + 1, v => beBytes n (v / 256) ++ [UInt8.ofNat v]

def beNat (bs : List UInt8) : Nat := bs.foldl (fun v b => v * 256 + b.toNat) 0

/-- The `n`-byte big-endian number at address `a`. -/
def beAt (f : Nat → UInt8) (a n : Nat) : Nat := beNat (bytesAt f a n)

@[simp] theorem beBytes_length (n v : Nat) : (beBytes n v).length = n := by
  induction n generalizing v with
  | zero => rfl
  | succ n ih => simp [beBytes, ih]

theorem beBytes_add (k n v : Nat) : beBytes (k + n) v = beBytes k (v / 256 ^ n) ++ beBytes n v := by
  induction n generalizing v with
  | zero => simp [beBytes]
  | succ n ih =>
    rw [← Nat.add_assoc, beBytes, ih, beBytes, Nat.div_div_eq_div_mul, Nat.pow_succ', append_assoc]

theorem beBytes_zero (n : Nat) : beBytes n 0 = List.replicate n 0 := by
  induction n with
  | zero => rfl
  | succ n ih => rw [beBytes, Nat.zero_div, ih, replicate_succ']; rfl

theorem beNat_concat (bs : List UInt8) (b : UInt8) :
    beNat (bs ++ [b]) = beNat bs * 256 + b.toNat := by
  simp [beNat]

theorem beNat_beBytes (n v : Nat) : beNat (beBytes n v) = v % 256 ^ n := by
  induction n generalizing v with
  | zero => simp [beBytes, beNat, Nat.mod_one]
  | succ n ih =>
    have hbyte : (UInt8.ofNat v).toNat = v % 256 := UInt8.toNat_ofNat'
    rw [beBytes, beNat_concat, ih, hbyte, Nat.pow_succ (n := 256), Nat.mul_comm (256 ^ n),
      Nat.mod_mul]
    omega

theorem beNat_lt (bs : List UInt8) : beNat bs < 256 ^ bs.length := by
  induction bs using List.reverseRecOn with
  | nil => decide
  | append_singleton bs b ih =>
    have hb := b.toNat_lt
    rw [beNat_concat, length_append, length_singleton, Nat.pow_succ]
    omega

theorem beAt_lt (f : Nat → UInt8) (a n : Nat) : beAt f a n < 256 ^ n := by
  simpa [beAt] using beNat_lt (bytesAt f a n)

theorem beNat_eq_zero {bs} (h : beNat bs = 0) : ∀ b ∈ bs, b = 0 := by
  induction bs using List.reverseRecOn with
  | nil => simp
  | append_singleton bs b ih =>
    rw [beNat_concat] at h
    intro c hc
    rcases mem_append.mp hc with hc | hc
    · exact ih (by omega) c hc
    · rw [mem_singleton.mp hc]
      exact UInt8.toNat_inj.mp (by simpa using (show b.toNat = 0 by omega))

theorem beAt_eq_zero {f a n i} (h : beAt f a n = 0) (hi : i < n) : f (a + i) = 0 :=
  beNat_eq_zero h _ (mem_map.mpr ⟨i, mem_range.mpr hi, rfl⟩)

/-! ## Storing a byte string -/

/-- The bytes stored at ascending addresses from `a` on. -/
def Mem.put : Mem → Nat → List UInt8 → Mem
  | m, _, [] => m
  | m, a, b :: bs => (m.store a b).put (a + 1) bs

theorem Mem.put_append (m : Mem) (a : Nat) (bs cs : List UInt8) :
    m.put a (bs ++ cs) = (m.put a bs).put (a + bs.length) cs := by
  induction bs generalizing m a with
  | nil => rfl
  | cons b bs ih =>
    rw [cons_append, put, put, ih, length_cons]
    congr 1
    omega

theorem Mem.put_stored (m : Mem) (bs : List UInt8) {a lo hi} (hlo : lo ≤ a)
    (hhi : a + bs.length ≤ hi) : Stored m (m.put a bs) lo hi := by
  induction bs generalizing m a with
  | nil => exact .refl m lo hi
  | cons b bs ih =>
    rw [length_cons] at hhi
    exact (Stored.store m b hlo (by omega)).trans (ih _ (by omega) (by omega))

theorem Mem.put_byte (m : Mem) (a : Nat) (bs : List UInt8) {i} (h : i < bs.length) :
    (m.put a bs).byte (a + i) = bs.getD i 0 := by
  induction bs generalizing m a i with
  | nil => simp at h
  | cons b bs ih =>
    rw [put]
    cases i with
    | zero =>
      have hs : Stored (m.store a b) ((m.store a b).put (a + 1) bs) (a + 1) (a + 1 + bs.length) :=
        put_stored _ bs le_rfl le_rfl
      rw [hs.frame _ (by omega)]
      simp
    | succ i =>
      rw [show a + (i + 1) = a + 1 + i by omega, ih _ _ (by simpa using h)]
      simp

theorem Mem.put_bytes (m : Mem) (a : Nat) (bs : List UInt8) :
    (m.put a bs).bytes a bs.length = bs := by
  apply ext_getElem? fun i => ?_
  rw [Mem.bytes, bytesAt_getElem?]
  split
  · next h => 
    rw [m.put_byte a bs h, getD_eq_getElem?_getD, List.getElem?_eq_getElem h, Option.getD_some]
  · next h => rw [List.getElem?_eq_none (by omega)]

/-- The log of a string: its addresses, the last one first. -/
theorem Mem.put_log (m : Mem) (a : Nat) (bs : List UInt8) :
    (m.put a bs).stores = (List.range' a bs.length).reverse ++ m.stores := by
  induction bs generalizing m a with
  | nil => rfl
  | cons b bs ih =>
    rw [put, ih, length_cons, List.range'_succ, reverse_cons, append_assoc]
    rfl

/-- The addresses of the string, all of them, are in the log. -/
theorem Mem.put_stores (m : Mem) (a : Nat) (bs : List UInt8) :
    ∃ new, (m.put a bs).stores = new ++ m.stores ∧ ∀ i < bs.length, a + i ∈ new := by
  refine ⟨_, m.put_log a bs, fun i hi => ?_⟩
  rw [mem_reverse, mem_range'_1]
  omega

/-- Several strings, one after the other. -/
def Mem.puts : Mem → List (Nat × List UInt8) → Mem
  | m, [] => m
  | m, w :: ws => (m.put w.1 w.2).puts ws

theorem Mem.puts_append (m : Mem) (ws vs : List (Nat × List UInt8)) :
    m.puts (ws ++ vs) = (m.puts ws).puts vs := by
  induction ws generalizing m with
  | nil => rfl
  | cons w ws ih => exact ih _

theorem Mem.puts_stores (m : Mem) (ws : List (Nat × List UInt8)) :
    ∃ new, (m.puts ws).stores = new ++ m.stores := by
  induction ws generalizing m with
  | nil => exact ⟨[], rfl⟩
  | cons w ws ih =>
    obtain ⟨new, hn, -⟩ := m.put_stores w.1 w.2
    obtain ⟨new', hn'⟩ := ih (m.put w.1 w.2)
    exact ⟨new' ++ new, by rw [puts, hn', hn, append_assoc]⟩

/-- What a run returned, if it did. -/
def Res.value {α : Type} : Res α → Option α
  | .ok a _ => some a
  | .fault _ _ => none

theorem Res.eq_ok_of_value {α : Type} {r : Res α} {a} (h : r.value = some a) :
    ∃ m, r = .ok a m := by
  cases r with
  | ok b m => cases h; exact ⟨m, rfl⟩
  | fault f m => cases h

namespace Exec
variable {α β : Type}

def put (a : Nat) (bs : List UInt8) : Exec Unit := modify (Mem.put · a bs)

@[simp] theorem run_put (a : Nat) (bs : List UInt8) (m : Mem) :
    (put a bs).run m = .ok () (m.put a bs) := rfl

/-- Go on unless the first part gave up. -/
def orFail (x : Exec (Option α)) (f : α → Exec (Option β)) : Exec (Option β) := x >>= fun
  | none => pure none
  | some a => f a

theorem orFail_of_some {x : Exec (Option α)} {a m m'}
    (h : x.run m = .ok (some a) m') (f : α → Exec (Option β)) :
    (x.orFail f).run m = (f a).run m' := run_bind_of_ok h _

/-! ## Blind runs -/

/-- What is stored and what is returned does not depend on the memory. -/
def Blind (x : Exec α) : Prop := ∃ r ws, ∀ m, x.run m = resOf r (m.puts ws)

theorem Blind.pure (a : α) : Blind (Pure.pure a : Exec α) := ⟨.ok a, [], fun _ => rfl⟩

theorem Blind.fault (f : Fault) : Blind (Exec.fault f : Exec α) := ⟨.error f, [], fun _ => rfl⟩

theorem Blind.put (a : Nat) (bs : List UInt8) : Blind (Exec.put a bs) :=
  ⟨.ok (), [(a, bs)], fun _ => rfl⟩

theorem Blind.bind {x} {f : α → Exec β} (hx : Blind x) (hf : ∀ a, Blind (f a)) :
    Blind (x >>= f) := by
  obtain ⟨r, ws, hr⟩ := hx
  cases r with
  | error e => exact ⟨.error e, ws, fun m => by rw [run_bind, hr]; rfl⟩
  | ok a =>
    obtain ⟨r', vs, hr'⟩ := hf a
    refine ⟨r', ws ++ vs, fun m => ?_⟩
    rw [Mem.puts_append, ← hr' (m.puts ws)]
    exact run_bind_of_ok (hr m) f

theorem Blind.orFail {x : Exec (Option α)} {f : α → Exec (Option β)} (hx : Blind x)
    (hf : ∀ a, Blind (f a)) : Blind (x.orFail f) := hx.bind fun r => by
  cases r with
  | none => exact .pure none
  | some a => exact hf a

theorem Blind.ite {p : Prop} [Decidable p] {x y : Exec α} (hx : Blind x) (hy : Blind y) :
    Blind (if p then x else y) := by
  split
  · exact hx
  · exact hy

/-- One run that returns shows what every run returns. -/
theorem Blind.ok {x : Exec α} (hx : Blind x) {a} {m : Mem} {m'} (h : x.run m = .ok a m') :
    ∃ ws, ∀ m, x.run m = .ok a (m.puts ws) := by
  obtain ⟨r, ws, hr⟩ := hx
  rw [hr] at h
  cases r with
  | error e => cases h
  | ok b => cases h; exact ⟨ws, hr⟩

/-- A blind run that stores at `lo` and above; what it returns, if it does not
give up, satisfies `Q`. -/
def Above (lo : Nat) (x : Exec (Option α)) (Q : α → Prop) : Prop :=
  ∃ r ws, (∀ m, x.run m = resOf r (m.puts ws)) ∧ (∀ w ∈ ws, lo ≤ w.1) ∧ ∀ a, r = .ok (some a) → Q a

section
variable {lo : Nat} {x y : Exec (Option α)} {Q : α → Prop} {R : β → Prop}

theorem Above.blind (h : Above lo x Q) : Blind x := by
  obtain ⟨r, ws, hr, -⟩ := h
  exact ⟨r, ws, hr⟩

theorem Above.pure {r : Option α} (h : ∀ a, r = some a → Q a) : Above lo (Pure.pure r) Q :=
  ⟨.ok r, [], fun _ => rfl, nofun, fun a ha => h a (Except.ok.inj ha)⟩

theorem Above.none : Above lo (Pure.pure none) Q := .pure nofun

theorem Above.some {a} (h : Q a) : Above lo (Pure.pure (some a)) Q := .pure (by rintro _ ⟨⟩; exact h)

theorem Above.fault (f : Fault) : Above lo (Exec.fault f) Q := ⟨.error f, [], fun _ => rfl, nofun, nofun⟩

theorem Above.ite {p : Prop} [Decidable p] (hx : Above lo x Q) (hy : Above lo y Q) :
    Above lo (if p then x else y) Q := by
  split
  · exact hx
  · exact hy

theorem Above.orFail {f : α → Exec (Option β)} (hx : Above lo x Q)
    (hf : ∀ a, Q a → Above lo (f a) R) : Above lo (x.orFail f) R := by
  obtain ⟨r, ws, hr, hlo, hq⟩ := hx
  rcases r with e | - | a
  · exact ⟨.error e, ws, fun m => by rw [Exec.orFail, run_bind, hr]; rfl, hlo, nofun⟩
  · exact ⟨.ok Option.none, ws, fun m => run_bind_of_ok (hr m) _, hlo, nofun⟩
  · obtain ⟨r', vs, hr', hlo', hq'⟩ := hf a (hq a rfl)
    refine ⟨r', ws ++ vs, fun m => ?_, forall_mem_append.mpr ⟨hlo, hlo'⟩, hq'⟩
    rw [Mem.puts_append, ← hr', orFail_of_some (hr m)]

end

/-- Whatever the memory, the run stores to some address at or above `b`. -/
def Strays (b : Nat) (x : Exec α) : Prop :=
  ∀ m, ∃ new, (x.run m).mem.stores = new ++ m.stores ∧ ∃ a ∈ new, b ≤ a

theorem Strays.put {a b} {bs : List UInt8} (h : b < a + bs.length) (hbs : bs ≠ []) :
    Strays b (Exec.put a bs) := by
  intro m
  obtain ⟨new, hn, hin⟩ := m.put_stores a bs
  have hpos : 0 < bs.length := length_pos_iff.mpr hbs
  refine ⟨new, hn, a + (bs.length - 1), hin _ (by omega), by omega⟩

theorem Strays.bind_left {b x} {f : α → Exec β} (hx : Strays b x)
    (hf : ∀ a, Blind (f a)) : Strays b (x >>= f) := by
  intro m
  obtain ⟨new, hn, a, ha, hb⟩ := hx m
  rw [run_bind]
  cases hm : x.run m with
  | fault e m' => rw [hm] at hn; exact ⟨new, hn, a, ha, hb⟩
  | ok v m' =>
    obtain ⟨r, ws, hr⟩ := hf v
    obtain ⟨new', hn'⟩ := m'.puts_stores ws
    rw [hm, Res.mem_ok] at hn
    refine ⟨new' ++ new, ?_, a, mem_append_right _ ha, hb⟩
    have hmem : ((f v).run m').mem = m'.puts ws := by
      rw [hr]
      cases r <;> rfl
    rw [hmem, hn', hn, append_assoc]

theorem Strays.bind_right {b} {x : Exec α} {f : α → Exec β} {a ws}
    (hx : ∀ m, x.run m = .ok a (m.puts ws)) (hf : Strays b (f a)) : Strays b (x >>= f) := by
  intro m
  obtain ⟨new, hn, c, hc, hb⟩ := hf (m.puts ws)
  obtain ⟨new', hn'⟩ := m.puts_stores ws
  refine ⟨new ++ new', ?_, c, mem_append_left _ hc, hb⟩
  rw [run_bind_of_ok (hx m), hn, hn', append_assoc]

/-- A run that strays beyond the buffer does not store only inside it. -/
theorem Strays.not_stored {lo hi} {x : Exec α} (hx : Strays hi x) (m : Mem) :
    ¬ Stored m (x.run m).mem lo hi := by
  intro h
  obtain ⟨new, hn, a, ha, hb⟩ := hx m
  obtain ⟨new', hn', hin⟩ := h.log
  rw [hn] at hn'
  have hlt := (hin a (append_cancel_right hn' ▸ ha)).2
  omega

/-! ## Runs that return -/

/-- From every memory the run returns, has stored only to `[lo, hi)`, and what
it returns satisfies `Q`. -/
def Yields (lo hi : Nat) (x : Exec α) (Q : α → Prop) : Prop :=
  ∀ m, ∃ a m', x.run m = .ok a m' ∧ Stored m m' lo hi ∧ Q a

variable {lo hi : Nat} {Q : α → Prop} {R : β → Prop}

theorem Yields.pure {a} (h : Q a) : Yields lo hi (Pure.pure a : Exec α) Q :=
  fun m => ⟨a, m, rfl, .refl m lo hi, h⟩

theorem Yields.put {a} {bs : List UInt8} (hlo : lo ≤ a) (hhi : a + bs.length ≤ hi) :
    Yields lo hi (Exec.put a bs) fun _ => True :=
  fun m => ⟨(), _, rfl, m.put_stored bs hlo hhi, trivial⟩

theorem Yields.assert {p} (hp : p = true) : Yields lo hi (Exec.assert p) fun _ => True :=
  hp ▸ .pure trivial

theorem Yields.bind {x} {f : α → Exec β} (hx : Yields lo hi x Q)
    (hf : ∀ a, Q a → Yields lo hi (f a) R) : Yields lo hi (x >>= f) R := by
  intro m
  obtain ⟨a, m', hm, hs, hq⟩ := hx m
  obtain ⟨b, m'', hm', hs', hr⟩ := hf a hq m'
  exact ⟨b, m'', by rw [run_bind_of_ok hm]; exact hm', hs.trans hs', hr⟩

theorem Yields.ite {p : Prop} [Decidable p] {x y} (hx : p → Yields lo hi x Q)
    (hy : ¬ p → Yields lo hi y Q) : Yields lo hi (if p then x else y) Q := by
  split
  · exact hx ‹_›
  · exact hy ‹_›

theorem Yields.mono {x} {P : α → Prop} (hx : Yields lo hi x P) (h : ∀ a, P a → Q a) :
    Yields lo hi x Q := by
  intro m
  obtain ⟨a, m', hm, hs, hp⟩ := hx m
  exact ⟨a, m', hm, hs, h a hp⟩

/-- The postcondition of a run that may give up: if it did not, `Q`. -/
def IfSome (Q : α → Prop) (r : Option α) : Prop := ∀ a, r = some a → Q a

@[simp] theorem ifSome_none : IfSome Q none := fun _ h => by cases h

@[simp] theorem ifSome_some {a} : IfSome Q (some a) ↔ Q a :=
  ⟨fun h => h a rfl, fun h b hb => by cases hb; exact h⟩

theorem Yields.orFail {x : Exec (Option α)} {f : α → Exec (Option β)}
    (hx : Yields lo hi x (IfSome Q)) (hf : ∀ a, Q a → Yields lo hi (f a) (IfSome R)) :
    Yields lo hi (x.orFail f) (IfSome R) := hx.bind fun r hr => by
  cases r with
  | none => exact .pure ifSome_none
  | some a => exact hf a (hr a rfl)

end Exec
end Rkboot.Lib
