import Rkboot.Lib.Exec

/-! # LZ77 expansion

Tokens append to a history: a literal its byte, a copy one byte after the other
from `dist` positions back, so that a copy longer than its distance repeats what
it wrote itself. The second part says when a piece of memory holds an expansion. -/
namespace Rkboot.Lib.Lz77

inductive Token where
  | lit (b : UInt8)
  | copy (length dist : Nat)
  deriving DecidableEq, Repr

/-- `n` bytes appended, each the byte `dist` positions back. -/
def copyFrom (h : List UInt8) (dist : Nat) : Nat → List UInt8
  | 0 => h
  | n + 1 => copyFrom h dist n ++ [(copyFrom h dist n).getD (h.length + n - dist) 0]

def Token.apply (h : List UInt8) : Token → List UInt8
  | .lit b => h ++ [b]
  | .copy length dist => copyFrom h dist length

/-- The history after all tokens. -/
def expand (h : List UInt8) (ts : List Token) : List UInt8 := ts.foldl Token.apply h

def Token.size : Token → Nat
  | .lit _ => 1
  | .copy length _ => length

/-- How many bytes the tokens append. -/
def size (ts : List Token) : Nat := (ts.map Token.size).sum

/-- With `n` bytes of history, no token reaches before its start. -/
def Reaches : Nat → List Token → Prop
  | _, [] => True
  | n, .lit _ :: ts => Reaches (n + 1) ts
  | n, .copy length dist :: ts => 0 < dist ∧ dist ≤ n ∧ Reaches (n + length) ts

instance instDecidableReaches : ∀ n ts, Decidable (Reaches n ts)
  | _, [] => .isTrue trivial
  | n, .lit _ :: ts => instDecidableReaches (n + 1) ts
  | n, .copy length _ :: ts =>
    @instDecidableAnd _ _ _ (@instDecidableAnd _ _ _ (instDecidableReaches (n + length) ts))

@[simp] theorem copyFrom_length (h : List UInt8) (dist n : Nat) :
    (copyFrom h dist n).length = h.length + n := by
  induction n with
  | zero => rfl
  | succ n ih => simp [copyFrom, ih, Nat.add_assoc]

@[simp] theorem apply_length (h : List UInt8) (t : Token) :
    (t.apply h).length = h.length + t.size := by
  cases t <;> simp [Token.apply, Token.size]

@[simp] theorem size_nil : size [] = 0 := rfl
@[simp] theorem size_cons (t : Token) (ts : List Token) : size (t :: ts) = t.size + size ts := by
  simp [size]
@[simp] theorem size_append (ts us : List Token) : size (ts ++ us) = size ts + size us := by
  simp [size]

@[simp] theorem expand_nil (h : List UInt8) : expand h [] = h := rfl
@[simp] theorem expand_cons (h : List UInt8) (t : Token) (ts : List Token) :
    expand h (t :: ts) = expand (t.apply h) ts := rfl
theorem expand_append (h : List UInt8) (ts us : List Token) :
    expand h (ts ++ us) = expand (expand h ts) us := List.foldl_append ..

@[simp] theorem expand_length (h : List UInt8) (ts : List Token) :
    (expand h ts).length = h.length + size ts := by
  induction ts generalizing h with
  | nil => rfl
  | cons t ts ih => rw [expand_cons, ih, apply_length, size_cons, Nat.add_assoc]

theorem Reaches.append {n ts us} :
    Reaches n (ts ++ us) ↔ Reaches n ts ∧ Reaches (n + size ts) us := by
  induction ts generalizing n with
  | nil => simp [Reaches]
  | cons t ts ih =>
    cases t with
    | lit b => simp [Reaches, ih, Token.size, Nat.add_assoc]
    | copy length dist => simp [Reaches, ih, Token.size, Nat.add_assoc, and_assoc]

/-! ## Literal runs -/

/-- A run of literals as tokens. -/
def lits (l : List UInt8) : List Token := l.map .lit

@[simp] theorem size_lits (l : List UInt8) : size (lits l) = l.length := by
  induction l with
  | nil => rfl
  | cons b l ih => simp_all [lits, Token.size, Nat.add_comm]

@[simp] theorem expand_lits (h l : List UInt8) : expand h (lits l) = h ++ l := by
  induction l generalizing h with
  | nil => simp [lits]
  | cons b l ih =>
    have := ih (h ++ [b])
    simp only [lits] at this
    simp [lits, Token.apply, this]

@[simp] theorem reaches_lits (n : Nat) (l : List UInt8) : Reaches n (lits l) := by
  induction l generalizing n with
  | nil => trivial
  | cons b l ih => exact ih (n + 1)

/-! ## Expansions in memory -/

/-- Bytes written behind a history extend it. -/
theorem bytes_extend {m m' : Mem} {w out hi n} {l : List UInt8} (hw : w ≤ out)
    (hs : Stored m m' out hi) (hn : l.length = n) (hl : m'.bytes out n = l) :
    m'.bytes w (out + n - w) = m.bytes w (out - w) ++ l := by
  rw [show out + n - w = out - w + n by omega, m'.bytes_append, hs.bytes (by omega),
    show w + (out - w) = out by omega, hl]

/-- Bytes each equal to the one `dist` back are a copy. -/
theorem bytes_copyFrom {m m' : Mem} {w out hi dist n} (hw : w ≤ out)
    (hs : Stored m m' out hi) (hd : 0 < dist) (hdist : dist ≤ out - w)
    (h : ∀ i < n, m'.byte (out + i) = m'.byte (out + i - dist)) :
    m'.bytes w (out + n - w) = copyFrom (m.bytes w (out - w)) dist n := by
  induction n with
  | zero => exact hs.bytes (by omega)
  | succ n ih =>
    have hn := ih fun i hi => h i (by omega)
    rw [copyFrom, ← hn, show out + (n + 1) - w = out + n - w + 1 by omega, m'.bytes_append,
      m.bytes_length, Mem.bytes, bytesAt_getD _ (by omega), show w + (out + n - w) = out + n by omega,
      show w + (out - w + n - dist) = out + n - dist by omega]
    simp [Mem.bytes, bytesAt, h n (by omega)]

/-- Equal histories expanded by the same tokens are equal, from any place before the window on. -/
theorem bytes_expand_eq {m m' d d' : Mem} {b w out hi hi' n ts} (hb : b ≤ w)
    (hw : w ≤ out) (hsame : m.bytes b (out - b) = d.bytes b (out - b)) (hs : Stored m m' out hi)
    (hs' : Stored d d' out hi') (hm : m'.bytes w (out + n - w) = expand (m.bytes w (out - w)) ts)
    (hd : d'.bytes w (out + n - w) = expand (d.bytes w (out - w)) ts) :
    m'.bytes b (out + n - b) = d'.bytes b (out + n - b) := by
  rw [show out - b = w - b + (out - w) by omega, m.bytes_append, d.bytes_append] at hsame
  obtain ⟨h1, h2⟩ := List.append_inj hsame (by simp)
  rw [show b + (w - b) = w by omega] at h2
  rw [show out + n - b = w - b + (out + n - w) by omega, m'.bytes_append, d'.bytes_append,
    show b + (w - b) = w by omega, hm, hd, h2, hs.bytes (by omega), hs'.bytes (by omega), h1]

end Rkboot.Lib.Lz77
