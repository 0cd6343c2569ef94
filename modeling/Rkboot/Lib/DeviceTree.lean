import Rkboot.Lib.Buffer

/-! # Flattened device trees

The structure block of a flattened device tree is a sequence of tokens, each
padded with zeros to whole words and the last followed by an end mark; a
property names itself by an offset into the string block. A tree is the
sequence its traversal gives, no-operation tokens left out. What a blob holds
is unique: two trees read from the same bytes are the same. -/
namespace Rkboot.Lib.DeviceTree
open List

/-! ## Tokens -/

inductive Token where
  | beginNode (name : List UInt8)
  | endNode
  | prop (nameOff : Nat) (value : List UInt8)
  | nop
  deriving DecidableEq

/-- Zeros up to the next word. -/
def pad (bs : List UInt8) : List UInt8 := bs ++ List.replicate ((4 - bs.length % 4) % 4) 0

/-- The word a token begins with. -/
def Token.cmd : Token → Nat
  | .beginNode _ => 1
  | .endNode => 2
  | .prop _ _ => 3
  | .nop => 4

/-- What follows that word. -/
def Token.body : Token → List UInt8
  | .beginNode name => pad (name ++ [0])
  | .prop off value => beBytes 4 value.length ++ beBytes 4 off ++ pad value
  | .endNode | .nop => []

def Token.bytes (t : Token) : List UInt8 := beBytes 4 t.cmd ++ t.body

def endMark : List UInt8 := beBytes 4 9

/-- Names hold no NUL, numbers fit a word. -/
def Token.Valid : Token → Prop
  | .beginNode name => 0 ∉ name
  | .prop off value => off < 2 ^ 32 ∧ value.length < 2 ^ 32
  | .endNode | .nop => True

instance (t : Token) : Decidable t.Valid := by
  cases t <;> unfold Token.Valid <;> infer_instance

/-- A sequence of tokens, one behind the other. -/
def encode (toks : List Token) : List UInt8 := toks.flatMap Token.bytes

@[simp] theorem encode_nil : encode [] = [] := rfl

@[simp] theorem encode_cons (t : Token) (ts : List Token) :
    encode (t :: ts) = t.bytes ++ encode ts := rfl

@[simp] theorem encode_append (ts us : List Token) : encode (ts ++ us) = encode ts ++ encode us :=
  flatMap_append

theorem pad_length (bs : List UInt8) : (pad bs).length = 4 * ((bs.length + 3) / 4) := by
  simp [pad]
  omega

theorem Token.bytes_length_dvd (t : Token) : ∃ n, t.bytes.length = 4 * (n + 1) := by
  cases t with
  | beginNode name =>
    exact ⟨(name.length + 4) / 4, by simp [bytes, body, pad_length]; omega⟩
  | endNode => exact ⟨0, rfl⟩
  | prop off value => exact ⟨2 + (value.length + 3) / 4, by simp [bytes, body, pad_length]; omega⟩
  | nop => exact ⟨0, rfl⟩

theorem encode_length_dvd (ts : List Token) : 4 ∣ (encode ts).length := by
  induction ts with
  | nil => exact Nat.dvd_zero 4
  | cons t ts ih =>
    obtain ⟨n, hn⟩ := t.bytes_length_dvd
    rw [encode_cons, length_append, hn]
    exact Nat.dvd_add (Nat.dvd_mul_right 4 _) ih

theorem length_le_encode (ts : List Token) : 4 * ts.length ≤ (encode ts).length := by
  induction ts with
  | nil => exact le_refl 0
  | cons t ts ih =>
    obtain ⟨n, hn⟩ := t.bytes_length_dvd
    rw [encode_cons, length_append, length_cons]
    omega

theorem bytes_length_le_encode {t : Token} {ts} (h : t ∈ ts) :
    t.bytes.length ≤ (encode ts).length := by
  induction ts with
  | nil => cases h
  | cons u ts ih =>
    rw [encode_cons, length_append]
    rcases mem_cons.mp h with rfl | h
    · omega
    · have := ih h
      omega

/-! ## Bytes that stand at an address -/

def Stands (f : Nat → UInt8) (a : Nat) (bs : List UInt8) : Prop := bytesAt f a bs.length = bs

variable {f : Nat → UInt8} {a : Nat}

theorem stands_append {bs : List UInt8} {cs} :
    Stands f a (bs ++ cs) ↔ Stands f a bs ∧ Stands f (a + bs.length) cs := by
  unfold Stands
  rw [length_append, bytesAt_append]
  constructor
  · exact fun h => append_inj h (by simp)
  · rintro ⟨h, h'⟩
    rw [h, h']

theorem Stands.left {bs cs} (h : Stands f a (bs ++ cs)) : Stands f a bs :=
  (stands_append.mp h).1

theorem Stands.right {bs : List UInt8} {cs} (h : Stands f a (bs ++ cs)) :
    Stands f (a + bs.length) cs := (stands_append.mp h).2

theorem Stands.beAt {n v} (h : Stands f a (beBytes n v)) : beAt f a n = v % 256 ^ n := by
  unfold Stands at h
  rw [beBytes_length] at h
  rw [Lib.beAt, h, beNat_beBytes]

theorem Stands.word {v} (h : Stands f a (beBytes 4 v)) (hv : v < 2 ^ 32) : Lib.beAt f a 4 = v := by
  have hlt : v < 256 ^ 4 := by omega
  rw [h.beAt, Nat.mod_eq_of_lt hlt]

theorem Stands.unique {bs cs : List UInt8} (h : Stands f a bs) (h' : Stands f a cs)
    (hlen : bs.length = cs.length) : bs = cs := by
  rw [← h, ← h', hlen]

theorem Stands.head {b bs} (h : Stands f a (b :: bs)) : f a = b ∧ Stands f (a + 1) bs := by
  unfold Stands at h
  rw [length_cons, bytesAt_succ] at h
  exact List.cons.inj h

/-- A string that ends at the first NUL is determined by its address. -/
theorem Stands.cstring {s s'} (hs : 0 ∉ s) (hs' : 0 ∉ s')
    (h : Stands f a (s ++ [0])) (h' : Stands f a (s' ++ [0])) : s = s' := by
  induction s generalizing a s' with
  | nil =>
    cases s' with
    | nil => rfl
    | cons b s' =>
      obtain ⟨h0, -⟩ := h.head
      obtain ⟨hb, -⟩ := Stands.head h'
      rw [h0] at hb
      exact absurd (hb ▸ mem_cons_self) hs'
  | cons b s ih =>
    obtain ⟨hb, ht⟩ := Stands.head h
    cases s' with
    | nil =>
      obtain ⟨h0, -⟩ := h'.head
      rw [hb] at h0
      exact absurd (h0 ▸ mem_cons_self) hs
    | cons c s' =>
      obtain ⟨hc, ht'⟩ := Stands.head h'
      rw [ih (fun hm => hs (mem_cons_of_mem _ hm)) (fun hm => hs' (mem_cons_of_mem _ hm))
        ht ht', ← hb, ← hc]

theorem stands_put (m : Mem) (a : Nat) (bs : List UInt8) : Stands (m.put a bs).byte a bs :=
  m.put_bytes a bs

/-- What stands somewhere else goes on to stand there. -/
theorem Stands.puts {m : Mem} {bs : List UInt8} {ws} (h : Stands m.byte a bs)
    (hd : ∀ w ∈ ws, a + bs.length ≤ w.1 ∨ w.1 + w.2.length ≤ a) : Stands (m.puts ws).byte a bs := by
  induction ws generalizing m with
  | nil => exact h
  | cons w ws ih =>
    refine ih ?_ fun v hv => hd v (mem_cons_of_mem _ hv)
    have hw := hd w mem_cons_self
    have hst : Stored m (m.put w.1 w.2) w.1 (w.1 + w.2.length) :=
      m.put_stored w.2 le_rfl le_rfl
    exact (hst.bytes (by omega)).trans h

/-- What has been stored stands where it was stored, unless a later store hits it. -/
theorem stands_puts {bs : List UInt8} (m : Mem) (ws : List (Nat × List UInt8)) {vs}
    (hd : ∀ w ∈ vs, a + bs.length ≤ w.1 ∨ w.1 + w.2.length ≤ a) :
    Stands (m.puts (ws ++ (a, bs) :: vs)).byte a bs := by
  rw [Mem.puts_append, Mem.puts]
  exact (stands_put _ a bs).puts hd

theorem Token.cmd_lt (t : Token) : t.cmd < 256 ^ 4 := by
  cases t <;> simp [cmd]

theorem Token.beAt_cmd {t : Token} (h : Stands f a t.bytes) : beAt f a 4 = t.cmd := by
  rw [h.left.beAt, Nat.mod_eq_of_lt t.cmd_lt]

theorem Token.unique {t t' : Token} (hv : t.Valid) (hv' : t'.Valid) (h : Stands f a t.bytes)
    (h' : Stands f a t'.bytes) : t = t' := by
  have hcmd : t.cmd = t'.cmd := by rw [← beAt_cmd h, ← beAt_cmd h']
  have hb := h.right
  have hb' := h'.right
  rw [beBytes_length] at hb hb'
  cases t <;> cases t' <;> first | rfl | (simp only [cmd] at hcmd; omega) | skip
  case beginNode.beginNode name name' =>
    rw [Stands.cstring hv hv' hb.left hb'.left]
  case prop.prop off value off' value' =>
    have hlen := hb.left.left.word hv.2
    have hlen' := hb'.left.left.word hv'.2
    have hoff := hb.left.right.word hv.1
    have hoff' := hb'.left.right.word hv'.1
    rw [beBytes_length] at hoff hoff'
    rw [hlen] at hlen'
    rw [hoff] at hoff'
    have hval := hb.right.left
    have hval' := hb'.right.left
    rw [hoff', hval.unique hval' hlen']

/-- The tokens up to the end mark are determined by the address they begin at. -/
theorem encode_unique {ts ts'} (hv : ∀ t ∈ ts, t.Valid) (hv' : ∀ t ∈ ts', t.Valid)
    (h : Stands f a (encode ts ++ endMark)) (h' : Stands f a (encode ts' ++ endMark)) :
    ts = ts' := by
  have hmark : Stands f a endMark → ∀ t : Token, ¬ Stands f a t.bytes := by
    intro hm t ht
    have hcmd := Token.beAt_cmd ht
    rw [Stands.beAt hm] at hcmd
    cases t <;> cases hcmd
  induction ts generalizing a ts' with
  | nil =>
    cases ts' with
    | nil => rfl
    | cons t' ts' => exact absurd h'.left.left (hmark h t')
  | cons t ts ih =>
    cases ts' with
    | nil => exact absurd h.left.left (hmark h' t)
    | cons t' ts' =>
      rw [encode_cons, append_assoc] at h h'
      obtain rfl := Token.unique (hv t mem_cons_self) (hv' t' mem_cons_self) h.left h'.left
      rw [ih (fun u hu => hv u (mem_cons_of_mem _ hu))
        (fun u hu => hv' u (mem_cons_of_mem _ hu)) h.right h'.right]
      intro hm u hu
      have hcmd := Token.beAt_cmd hu
      rw [Stands.beAt hm] at hcmd
      cases u <;> cases hcmd

/-! ## Trees -/

/-- A node; its properties are named by values of `α`. -/
inductive Node (α : Type) where
  | mk (name : List UInt8) (props : List (α × List UInt8)) (children : List (Node α))

namespace Node
variable {α β : Type}

def name : Node α → List UInt8
  | mk name _ _ => name

def props : Node α → List (α × List UInt8)
  | mk _ props _ => props

def children : Node α → List (Node α)
  | mk _ _ children => children

def propTokens (props : List (Nat × List UInt8)) : List Token := props.map fun p => .prop p.1 p.2

mutual

/-- The tokens of a node: its properties in front of its children. -/
def tokens : Node Nat → List Token
  | mk name props children =>
    .beginNode name :: (propTokens props ++ (forest children ++ [.endNode]))

def forest : List (Node Nat) → List Token
  | [] => []
  | n :: ns => n.tokens ++ forest ns

end

mutual

/-- Other names for the properties. -/
def map (g : α → β) : Node α → Node β
  | mk name props children => mk name (props.map fun p => (g p.1, p.2)) (mapForest g children)

def mapForest (g : α → β) : List (Node α) → List (Node β)
  | [] => []
  | n :: ns => n.map g :: mapForest g ns

end

mutual

/-- Every property of the node and below is named by a value that satisfies `P`. -/
def All (P : α → Prop) : Node α → Prop
  | mk _ props children => (∀ p ∈ props, P p.1) ∧ AllForest P children

def AllForest (P : α → Prop) : List (Node α) → Prop
  | [] => True
  | n :: ns => n.All P ∧ AllForest P ns

end

theorem mapForest_eq (g : α → β) (ns : List (Node α)) : mapForest g ns = ns.map (map g) := by
  induction ns with
  | nil => rfl
  | cons n ns ih => rw [mapForest, ih, map_cons]

theorem allForest_iff {P : α → Prop} {ns : List (Node α)} : AllForest P ns ↔ ∀ n ∈ ns, n.All P := by
  induction ns with
  | nil => simp [AllForest]
  | cons n ns ih => simp [AllForest, ih]

@[simp] theorem map_name (g : α → β) (n : Node α) : (n.map g).name = n.name := by
  cases n
  rfl

/-- Properties in front of something that is no property. -/
theorem propTokens_unique {ps ps'} {t t' : Token} {r r'} (ht : t.cmd ≠ 3) (ht' : t'.cmd ≠ 3)
    (h : propTokens ps ++ t :: r = propTokens ps' ++ t' :: r') : ps = ps' ∧ t :: r = t' :: r' := by
  induction ps generalizing ps' with
  | nil =>
    cases ps' with
    | nil => exact ⟨rfl, h⟩
    | cons p ps' => exact absurd (congrArg Token.cmd (List.cons.inj h).1) ht
  | cons p ps ih =>
    cases ps' with
    | nil => exact absurd (congrArg Token.cmd (List.cons.inj h).1).symm ht'
    | cons p' ps' =>
      obtain ⟨hp, hr⟩ := List.cons.inj h
      obtain ⟨h1, h2⟩ := Token.prop.inj hp
      obtain ⟨rfl, hr'⟩ := ih hr
      exact ⟨by rw [Prod.ext h1 h2], hr'⟩

theorem forest_append (ns ms : List (Node Nat)) : forest (ns ++ ms) = forest ns ++ forest ms := by
  induction ns with
  | nil => rfl
  | cons n ns ih => rw [cons_append, forest, forest, ih, append_assoc]

/-- What follows the properties of a node begins or ends one. -/
theorem forest_end_head (ns : List (Node Nat)) (r : List Token) :
    ∃ t r', forest ns ++ [.endNode] ++ r = t :: r' ∧ t.cmd < 3 := by
  cases ns with
  | nil => exact ⟨.endNode, r, rfl, by decide⟩
  | cons n ns =>
    cases n with
    | mk name props children => exact ⟨.beginNode name, _, rfl, by simp [Token.cmd]⟩

mutual

theorem tokens_unique (n n' : Node Nat) {r r'}
    (h : n.tokens ++ r = n'.tokens ++ r') : n = n' ∧ r = r' := by
  cases n with
  | mk name props children =>
    cases n' with
    | mk name' props' children' =>
      obtain ⟨t, u, hu, ht⟩ := forest_end_head children r
      obtain ⟨t', u', hu', ht'⟩ := forest_end_head children' r'
      rw [tokens, tokens, cons_append, cons_append, append_assoc _ _ r,
        append_assoc _ _ r', hu, hu'] at h
      obtain ⟨hname, hprops⟩ := List.cons.inj h
      obtain ⟨rfl, hrest⟩ := propTokens_unique (Nat.ne_of_lt ht) (Nat.ne_of_lt ht') hprops
      rw [← hu, ← hu', append_assoc, append_assoc] at hrest
      obtain ⟨rfl, rfl⟩ := forest_unique children children' hrest
      exact ⟨by rw [Token.beginNode.inj hname], rfl⟩

theorem forest_unique (ns ns' : List (Node Nat)) {r r'}
    (h : forest ns ++ .endNode :: r = forest ns' ++ .endNode :: r') : ns = ns' ∧ r = r' := by
  cases ns with
  | nil =>
    cases ns' with
    | nil => exact ⟨rfl, (List.cons.inj h).2⟩
    | cons n' ns' =>
      cases n' with
      | mk name props children => cases (List.cons.inj h).1
  | cons n ns =>
    cases ns' with
    | nil =>
      cases n with
      | mk name props children => cases (List.cons.inj h).1
    | cons n' ns' =>
      rw [forest, forest, append_assoc, append_assoc] at h
      obtain ⟨rfl, hrest⟩ := tokens_unique n n' h
      obtain ⟨rfl, rfl⟩ := forest_unique ns ns' hrest
      exact ⟨rfl, rfl⟩

end

mutual

/-- The names of a tree's properties are those of its property tokens. -/
theorem all_iff {P : Nat → Prop} (n : Node Nat) :
    n.All P ↔ ∀ off value, .prop off value ∈ n.tokens → P off := by
  cases n with
  | mk name props children =>
    have hprops : (∀ p ∈ props, P p.1) ↔ ∀ off value, .prop off value ∈ propTokens props → P off := by
      simp only [propTokens, mem_map]
      constructor
      · rintro h off value ⟨p, hp, he⟩
        obtain ⟨rfl, -⟩ := Token.prop.inj he
        exact h p hp
      · exact fun h p hp => h p.1 p.2 ⟨p, hp, rfl⟩
    rw [All, hprops, allForest_iff_tokens children, tokens]
    simp only [mem_cons, mem_append, not_mem_nil, reduceCtorEq, false_or, or_false,
      or_imp, forall_and]

theorem allForest_iff_tokens {P : Nat → Prop} (ns : List (Node Nat)) :
    AllForest P ns ↔ ∀ off value, .prop off value ∈ forest ns → P off := by
  cases ns with
  | nil => simp [AllForest, forest]
  | cons n ns =>
    rw [AllForest, all_iff n, allForest_iff_tokens ns, forest]
    simp only [mem_append, or_imp, forall_and]

end

mutual

theorem tokens_filter (n : Node Nat) : n.tokens.filter (· ≠ .nop) = n.tokens := by
  cases n with
  | mk name props children =>
    have hprops : (propTokens props).filter (· ≠ .nop) = propTokens props := by
      refine filter_eq_self.mpr fun t ht => ?_
      obtain ⟨p, -, rfl⟩ := mem_map.mp ht
      simp
    rw [tokens, filter_cons_of_pos (by simp), filter_append, hprops, filter_append,
      forest_filter children]
    rfl

theorem forest_filter (ns : List (Node Nat)) : (forest ns).filter (· ≠ .nop) = forest ns := by
  cases ns with
  | nil => rfl
  | cons n ns => rw [forest, filter_append, tokens_filter n, forest_filter ns]

end

mutual

theorem map_congr {g} {g' : α → β} (n : Node α) (h : n.All fun a => g a = g' a) :
    n.map g = n.map g' := by
  cases n with
  | mk name props children =>
    rw [map, map, mapForest_congr children h.2]
    congr 1
    exact map_congr_left fun p hp => by rw [h.1 p hp]

theorem mapForest_congr {g} {g' : α → β} (ns : List (Node α))
    (h : AllForest (fun a => g a = g' a) ns) : mapForest g ns = mapForest g' ns := by
  cases ns with
  | nil => rfl
  | cons n ns =>
    rw [mapForest, mapForest, map_congr n h.1, mapForest_congr ns h.2]

end

end Node

/-! ## Blobs -/

/-- The string at an offset of a string block, up to its NUL. -/
def nameAt (f : Nat → UInt8) (str size off : Nat) : List UInt8 :=
  (bytesAt f (str + off) (size - off)).takeWhile (· ≠ 0)

/-- The string at the offset ends inside the block. -/
def Terminated (f : Nat → UInt8) (str size off : Nat) : Prop :=
  0 ∈ bytesAt f (str + off) (size - off)

/-- The `i`-th word of a blob's header. -/
def field (f : Nat → UInt8) (i : Nat) : Nat := beAt f (4 * i) 4

/-- The tokens of the structure block, up to the end mark, traverse the tree of
property offsets `raw`. -/
structure Block (f : Nat → UInt8) (toks : List Token) (raw : Node Nat) : Prop where
  valid : ∀ t ∈ toks, t.Valid
  stands : Stands f (field f 2) (encode toks ++ endMark)
  tree : toks.filter (· ≠ .nop) = raw.tokens
  strings : raw.All (Terminated f (field f 3) (field f 8))

/-- The blob at `f` holds the tree `u`. -/
def Holds (f : Nat → UInt8) (u : Node (List UInt8)) : Prop :=
  ∃ toks raw, Block f toks raw ∧ raw.map (nameAt f (field f 3) (field f 8)) = u

theorem Holds.unique {u u'} (h : Holds f u) (h' : Holds f u') : u = u' := by
  obtain ⟨toks, raw, hb, rfl⟩ := h
  obtain ⟨toks', raw', hb', rfl⟩ := h'
  obtain rfl := encode_unique hb.valid hb'.valid hb.stands hb'.stands
  have htree := hb.tree.symm.trans hb'.tree
  rw [(Node.tokens_unique raw raw' (congrArg (· ++ []) htree)).1]

end Rkboot.Lib.DeviceTree
