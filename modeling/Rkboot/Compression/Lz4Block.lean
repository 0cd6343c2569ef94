import Rkboot.Compression.Lz4
import Rkboot.Lib.Lz77

/-! # LZ4 blocks: what `decompress_block` accepts and writes

A block is the encoding of a list of sequences closed by a literal-only one.
`decompress_block` never stops at an assertion, reads control bytes only inside
the block, and accepts exactly the encodings whose distances stay in the window,
whose expansion fits and which end in at least five literals (or are a single
literal-only sequence); then the output is their LZ77 expansion. -/
namespace Rkboot.Compression.Lz4
open Lib Lz77 Lzcommon List Nat Exec

variable {l r r' final' : List UInt8} {n v ptr len n' nib outEnd windowStart out : Nat}

/-! ## The block format -/

/-- Literals followed by a match. -/
structure Sequence where
  literals : List UInt8
  dist : Nat
  length : Nat
  deriving DecidableEq, Repr

/-- The bytes that extend a length field by `v`. -/
def extension (v : Nat) : List UInt8 :=
  List.replicate (v / 255) 255 ++ [UInt8.ofNat (v % 255)]

/-- What follows the token for a length field of value `n`. -/
def lengthBytes (n : Nat) : List UInt8 := if n < 15 then [] else extension (n - 15)

def tokenByte (copy length : Nat) : UInt8 := UInt8.ofNat (16 * min copy 15 + min length 15)

def Sequence.encode (s : Sequence) : List UInt8 :=
  tokenByte s.literals.length (s.length - 4) :: (lengthBytes s.literals.length ++ (s.literals ++
    (UInt8.ofNat s.dist :: UInt8.ofNat (s.dist / 256) :: lengthBytes (s.length - 4))))

/-- The literal-only sequence that closes a block. -/
def encodeFinal (l : List UInt8) : List UInt8 :=
  tokenByte l.length 0 :: (lengthBytes l.length ++ l)

def encodeBlock : List Sequence → List UInt8 → List UInt8
  | [], l => encodeFinal l
  | s :: ss, l => s.encode ++ encodeBlock ss l

def Sequence.tokens (s : Sequence) : List Token := lits s.literals ++ [.copy s.length s.dist]

/-- The LZ77 tokens a block stands for. -/
def blockTokens : List Sequence → List UInt8 → List Token
  | [], l => lits l
  | s :: ss, l => s.tokens ++ blockTokens ss l

/-- Field ranges of a sequence. -/
def Sequence.InRange (s : Sequence) : Prop := 0 < s.dist ∧ s.dist ≤ 65535 ∧ 4 ≤ s.length

/-- The bytes `l` encode the block, whose distances stay in a window of `n` bytes. -/
structure Encodes (l : List UInt8) (n : Nat) (ss : List Sequence) (final : List UInt8) : Prop where
  bytes : l = encodeBlock ss final
  range : ∀ s ∈ ss, s.InRange
  window : Reaches n (blockTokens ss final)

/-! ## Length fields -/

theorem tokenByte_iff {t : UInt8} {c l} :
    t = tokenByte c l ↔ t.toNat >>> 4 = min c 15 ∧ t.toNat &&& 15 = min l 15 := by
  rw [← UInt8.toNat_inj, tokenByte, UInt8.toNat_ofNat', mod_eq_of_lt (by omega),
    shiftRight_eq_div_pow, show 15 = 2 ^ 4 - 1 from rfl, and_two_pow_sub_one_eq_mod]
  omega

theorem extension_cases (v : Nat) : (v < 255 ∧ extension v = [UInt8.ofNat v]) ∨
    ∃ w, v = 255 + w ∧ extension v = 255 :: extension w := by
  by_cases h : v < 255
  · exact .inl ⟨h, by simp [extension, div_eq_of_lt h, mod_eq_of_lt h]⟩
  · obtain ⟨w, rfl⟩ := Nat.exists_eq_add_of_le (Nat.le_of_not_lt h)
    exact .inr ⟨w, rfl, by simp [extension, replicate_succ]⟩

theorem ofNat_eq_iff {b : UInt8} (h : n < 256) : b = UInt8.ofNat n ↔ b.toNat = n := by
  rw [← UInt8.toNat_inj, UInt8.toNat_ofNat', mod_eq_of_lt h]

theorem extension_append_inj {w} (h : extension v ++ r = extension w ++ r') : v = w ∧ r = r' := by
  have hbyte {n : Nat} (hn : n < 255) : 255 ≠ UInt8.ofNat n := by
    rw [Ne, ofNat_eq_iff (by omega)]
    exact ne_of_gt hn
  induction v using Nat.strong_induction_on generalizing w with
  | _ v ih =>
    rcases extension_cases v with ⟨hv, he⟩ | ⟨v', rfl, he⟩ <;>
      rcases extension_cases w with ⟨hw, hf⟩ | ⟨w', rfl, hf⟩ <;> rw [he, hf] at h <;>
      obtain ⟨hb, ht⟩ := List.cons.inj h
    · rw [ofNat_eq_iff (by omega), UInt8.toNat_ofNat', mod_eq_of_lt (by omega)] at hb
      exact ⟨hb, ht⟩
    · exact absurd hb.symm (hbyte hv)
    · exact absurd hb (hbyte hw)
    · obtain ⟨rfl, hr⟩ := ih v' (by omega) ht
      exact ⟨rfl, hr⟩

theorem lengthBytes_of_lt (h : n < 15) : lengthBytes n = [] := if_pos h
theorem lengthBytes_add (v : Nat) : lengthBytes (15 + v) = extension v := by simp [lengthBytes]

theorem lengthBytes_append_inj {k} (hmin : min n 15 = min k 15)
    (h : lengthBytes n ++ r = lengthBytes k ++ r') : n = k ∧ r = r' := by
  by_cases hn : n < 15
  · rw [show n = k by omega] at h ⊢
    exact ⟨rfl, append_cancel_left h⟩
  · obtain ⟨v, rfl⟩ : ∃ v, n = 15 + v := ⟨n - 15, by omega⟩
    obtain ⟨w, rfl⟩ : ∃ w, k = 15 + w := ⟨k - 15, by omega⟩
    rw [lengthBytes_add, lengthBytes_add] at h
    obtain ⟨rfl, hr⟩ := extension_append_inj h
    exact ⟨rfl, hr⟩

section
variable {inp : Nat → UInt8} {start stop : Nat} {ok : Nat → Nat → Bool}

/-- The value and the place the loop must find. -/
def Extends (inp : Nat → UInt8) (ok : Nat → Nat → Bool) (length ptr v : Nat) : Prop :=
  bytesAt inp ptr (extension v).length = extension v ∧
    ok (length + v) (ptr + (extension v).length) = true

theorem extends_iff {length} : Extends inp ok length ptr v ↔
    if inp ptr = 255 then ∃ w, 255 + w = v ∧ Extends inp ok (length + 255) (ptr + 1) w
    else (inp ptr).toNat = v ∧ ok (length + v) (ptr + 1) = true := by
  have h256 := (inp ptr).toNat_lt
  have h255 : inp ptr = 255 ↔ (inp ptr).toNat = 255 := ofNat_eq_iff (by decide)
  rcases extension_cases v with ⟨hv, he⟩ | ⟨w, rfl, he⟩
  · rw [Extends, he, length_singleton, bytesAt_succ, List.cons.injEq, ofNat_eq_iff (by omega)]
    split
    · rename_i hb
      have hbyte := h255.mp hb
      exact ⟨fun h => by omega, fun ⟨w, hw, _⟩ => by omega⟩
    · exact and_congr_left fun _ => and_iff_left rfl
  · have hend : ptr + ((extension w).length + 1) = ptr + 1 + (extension w).length := by omega
    rw [Extends, he, length_cons, bytesAt_succ, List.cons.injEq, and_assoc, ← add_assoc length,
      hend]
    split
    · rename_i hb
      refine ⟨fun h => ⟨w, rfl, h.2⟩, ?_⟩
      rintro ⟨w', hw, h⟩
      obtain rfl : w' = w := by omega
      exact ⟨hb, h⟩
    · rename_i hb
      have hbyte := mt h255.mpr hb
      exact ⟨fun h => absurd h.1 hb, fun h => absurd h.1 (by omega)⟩

/-- A block's extension loop finds the encoded value if the checks let it, and nothing else. -/
theorem extend_spec (ok : Nat → Nat → Bool)
    (hmono : ∀ l p l' p', l ≤ l' → p ≤ p' → ok l' p' = true → ok l p = true)
    (hin : ∀ l p, 0 < l → ok l p = true → p < stop) (m : Mem) (fuel length : Nat)
    (hl : 0 < length) (hlo : start ≤ ptr) (hhi : ptr < stop) (hf : stop - ptr ≤ fuel) :
    ∃ r, (extend inp start stop ok fuel length ptr).run m =
        .ok (r.map fun v => (length + v, ptr + (extension v).length)) m ∧
      ∀ v, r = some v ↔ Extends inp ok length ptr v := by
  induction fuel generalizing length ptr with
  | zero => omega
  | succ fuel ih =>
    rw [extend, fetch_of_mem inp hlo hhi, pure_bind]
    dsimp only
    by_cases hok : ok (length + (inp ptr).toNat) (ptr + 1) = true
    · rw [hok]
      simp only [Bool.not_true, Bool.false_eq_true, if_false]
      by_cases h255 : inp ptr = 255
      · -- the rest of the value follows
        have h255' : (inp ptr).toNat = 255 := by rw [h255]; rfl
        rw [if_pos h255, h255']
        obtain ⟨r, hr, hv⟩ := ih (length + 255) (by omega) (by omega) (hin _ _ (by omega) hok) (by omega)
        refine ⟨r.map (255 + ·), ?_, fun v => ?_⟩
        · rw [hr, Option.map_map]
          congr
          funext w
          simp only [Function.comp_apply, extension, length_append, length_replicate,
            length_singleton, Prod.mk.injEq]
          omega
        · rw [extends_iff, if_pos h255, Option.map_eq_some_iff]
          exact exists_congr fun w => by rw [hv w, and_comm]
      · rw [if_neg h255]
        refine ⟨some (inp ptr).toNat, ?_, fun v => ?_⟩
        · have hlt : (inp ptr).toNat < 255 := by
            have := (inp ptr).toNat_lt
            have := mt (ofNat_eq_iff (by decide : 255 < 256)).mpr h255
            omega
          simp [extension, div_eq_of_lt hlt]
        · rw [extends_iff, if_neg h255, Option.some.injEq]
          exact ⟨fun h => ⟨h, h ▸ hok⟩, And.left⟩
    · rw [Bool.not_eq_true] at hok
      rw [hok]
      refine ⟨none, rfl, fun v => ⟨(fun h => nomatch h), fun hv => ?_⟩⟩
      -- the check is monotone, so it would have failed at the end too
      refine absurd ?_ (Bool.eq_false_iff.mp hok)
      rw [extends_iff] at hv
      split at hv
      · rename_i h255
        obtain ⟨w, rfl, hw⟩ := hv
        rw [h255]
        exact hmono _ _ _ _ (Nat.le_add_right _ w) (Nat.le_add_right _ _) hw.2
      · exact hv.1 ▸ hv.2

end

/-- The field for `n` at `ptr` ends at `p`. -/
def Field (inp : Nat → UInt8) (ptr n p : Nat) : Prop :=
  bytesAt inp ptr (lengthBytes n).length = lengthBytes n ∧ p = ptr + (lengthBytes n).length

section
variable {inp : Nat → UInt8} {start stop ptr n p : Nat}

theorem Field.of_lt (hn : n < 15) : Field inp ptr n p ↔ p = ptr := by
  simp [Field, lengthBytes_of_lt hn]

theorem Field.of_append (h : bytesAt inp ptr len = lengthBytes n ++ r) :
    ∃ p, Field inp ptr n p ∧ p + r.length = ptr + len ∧ bytesAt inp p r.length = r := by
  obtain ⟨hlen, hl, hr⟩ := bytesAt_eq_append h
  exact ⟨_, ⟨hl, rfl⟩, by omega, hr⟩

theorem Field.append {k} (h : Field inp ptr n p) (hp : p ≤ k) :
    bytesAt inp ptr (k - ptr) = lengthBytes n ++ bytesAt inp p (k - p) := by
  obtain ⟨hb, rfl⟩ := h
  rw [show k - ptr = (lengthBytes n).length + (k - (ptr + (lengthBytes n).length)) by omega,
    bytesAt_append, hb]

theorem Field.unique {p'} (h : Field inp ptr n p) (h' : Field inp ptr n' p')
    (hmin : min n 15 = min n' 15) : n = n' ∧ p = p' := by
  have happend := (h.append (le_max_left p p')).symm.trans (h'.append (le_max_right p p'))
  obtain ⟨rfl, -⟩ := lengthBytes_append_inj hmin happend
  exact ⟨rfl, h.2.trans h'.2.symm⟩

/-- A length field behind its four bits in the token; `k` is added to its value. -/
theorem field_spec (inp : Nat → UInt8) (ok : Nat → Nat → Bool)
    (hmono : ∀ l p l' p', l ≤ l' → p ≤ p' → ok l' p' = true → ok l p = true)
    (hin : ∀ l p, 0 < l → ok l p = true → p < stop) (m : Mem) (k : Nat) (hnib : nib ≤ 15)
    (hlo : start ≤ ptr) (hhi : ptr < stop) :
    ∃ r, (if nib = 15 then extend inp start stop ok (stop - ptr) (nib + k) ptr
        else pure (some (nib + k, ptr)) : Exec (Option (Nat × Nat))).run m =
        .ok (r.map (Prod.map (· + k) id)) m ∧ ∀ n p, r = some (n, p) ↔
        nib = min n 15 ∧ Field inp ptr n p ∧ (15 ≤ n → ok (n + k) p = true) := by
  split
  · rename_i h15
    subst h15
    obtain ⟨r, hr, hv⟩ := extend_spec ok hmono hin m (stop - ptr) (15 + k) (by omega) hlo hhi
      le_rfl
    refine ⟨r.map fun v => (15 + v, ptr + (extension v).length), ?_, fun n p => ?_⟩
    · rw [hr, Option.map_map]
      congr
      funext v
      simp only [Function.comp_apply, Prod.map, id, add_right_comm]
    · rw [Option.map_eq_some_iff]
      constructor
      · rintro ⟨v, hrv, heq⟩
        cases heq
        obtain ⟨hb, hok⟩ := (hv v).mp hrv
        rw [add_right_comm] at hok
        exact ⟨by omega, ⟨by rwa [lengthBytes_add], by rw [lengthBytes_add]⟩, fun _ => hok⟩
      · rintro ⟨hn, ⟨hb, rfl⟩, hok⟩
        obtain ⟨v, rfl⟩ := Nat.exists_eq_add_of_le (show 15 ≤ n by omega)
        rw [lengthBytes_add, add_right_comm] at *
        exact ⟨v, (hv v).mpr ⟨hb, hok (by omega)⟩, rfl⟩
  · refine ⟨some (nib, ptr), rfl, fun n p => ?_⟩
    rw [Option.some.injEq, Prod.mk.injEq]
    constructor
    · rintro ⟨rfl, rfl⟩
      exact ⟨by omega, (Field.of_lt (by omega)).mpr rfl, by omega⟩
    · rintro ⟨hn, hf, -⟩
      obtain rfl : nib = n := by omega
      exact ⟨rfl, ((Field.of_lt (by omega)).mp hf).symm⟩

/-- The literal length of a token. -/
theorem literalLength_spec (inp : Nat → UInt8) (m : Mem) (hnib : nib ≤ 15)
    (hlo : start ≤ ptr) (hhi : ptr < stop) :
    ∃ r, (literalLength inp start stop nib ptr).run m = .ok r m ∧
      ∀ c p, r = some (c, p) ↔ nib = min c 15 ∧ Field inp ptr c p ∧ (15 ≤ c → c ≤ stop - p) := by
  obtain ⟨r, hr, hv⟩ := field_spec inp (fun copy ptr => copy ≤ stop - ptr)
    (fun l p l' p' _ _ h => by rw [decide_eq_true_iff] at h ⊢; omega)
    (fun l p _ h => by rw [decide_eq_true_iff] at h; omega) m 0 hnib hlo hhi
  have hid : r.map (Prod.map (· + 0) id) = r := by cases r <;> rfl
  simp only [decide_eq_true_iff] at hv
  exact ⟨r, hid ▸ hr, hv⟩

/-- The match length of a token; `restsize` leaves room for the last five literals. -/
theorem matchLength_spec (inp : Nat → UInt8) (m : Mem) (restsize : Nat) (hnib : nib ≤ 15)
    (hlo : start ≤ ptr) (hhi : ptr + 6 ≤ stop) :
    ∃ r, (matchLength inp start stop restsize (stop - 6) (nib + 4) ptr).run m =
        .ok (r.map (Prod.map (· + 4) id)) m ∧
      ∀ n p, r = some (n, p) ↔ nib = min n 15 ∧ Field inp ptr n p ∧
        (15 ≤ n → n + 4 ≤ restsize ∧ p + 6 ≤ stop) := by
  obtain ⟨r, hr, hv⟩ := field_spec inp (fun length ptr => length ≤ restsize && ptr ≤ stop - 6)
    (fun l p l' p' _ _ h => by rw [Bool.and_eq_true, decide_eq_true_iff, decide_eq_true_iff] at h ⊢; omega)
    (fun l p _ h => by
      rw [Bool.and_eq_true, decide_eq_true_iff, decide_eq_true_iff] at h
      exact (by omega : p < stop))
    m 4 hnib hlo (show ptr < stop by omega)
  have hmax (p : Nat) : p ≤ stop - 6 ↔ p + 6 ≤ stop := by omega
  simp only [Bool.and_eq_true, decide_eq_true_iff, hmax] at hv
  refine ⟨r, ?_, hv⟩
  rw [← hr, matchLength, if_neg (show ¬ stop - 6 < ptr by omega)]
  simp only [Nat.reduceEqDiff]

end

/-! ## Accepted blocks -/

/-- What the loop accepts: at least five final literals, and the expansion fits. -/
structure Accepts (l : List UInt8) (n space : Nat) (ss : List Sequence) (final : List UInt8) : Prop
    extends Encodes l n ss final where
  five : 5 ≤ final.length
  fits : size (blockTokens ss final) ≤ space

theorem encodeBlock_length_ge (ss : List Sequence) {final : List UInt8} (h : 5 ≤ final.length) :
    6 ≤ (encodeBlock ss final).length := by
  induction ss with
  | nil => simp only [encodeBlock, encodeFinal, length_cons, length_append]; omega
  | cons s ss ih => simp only [encodeBlock, length_append]; omega

theorem size_blockTokens_ge (ss : List Sequence) (final : List UInt8) :
    final.length ≤ size (blockTokens ss final) := by
  induction ss with
  | nil => simp [blockTokens]
  | cons s ss ih => simp only [blockTokens, size_append]; omega

/-- The two bytes of a distance. -/
theorem dist_bytes (b0 b1 : UInt8) : b0.toNat ||| b1.toNat <<< 8 = b0.toNat + 256 * b1.toNat := by
  rw [Nat.or_comm, ← shiftLeft_add_eq_or_of_lt b0.toNat_lt, shiftLeft_eq]
  omega

theorem dist_eq_iff {b0 b1 : UInt8} {d : Nat} (hd : d ≤ 65535) :
    (b0 = UInt8.ofNat d ∧ b1 = UInt8.ofNat (d / 256)) ↔ b0.toNat + 256 * b1.toNat = d := by
  have h0 := b0.toNat_lt
  rw [← UInt8.toNat_inj, ← UInt8.toNat_inj, UInt8.toNat_ofNat', UInt8.toNat_ofNat']
  omega

section
variable {inp : Nat → UInt8} {ptr stop n space c p : Nat} {ss : List Sequence} {final : List UInt8}

theorem bytesAt_head (inp : Nat → UInt8) (hlt : ptr < stop) :
    bytesAt inp ptr (stop - ptr) = inp ptr :: bytesAt inp (ptr + 1) (stop - (ptr + 1)) := by
  rw [show stop - ptr = stop - (ptr + 1) + 1 by omega, bytesAt_succ]

/-- A block begins with literals, which are all inside. -/
theorem Accepts.literals (h : Accepts (bytesAt inp ptr (stop - ptr)) n space ss final)
    (hlt : ptr < stop) :
    ∃ c p, (inp ptr).toNat >>> 4 = min c 15 ∧ Field inp (ptr + 1) c p ∧ p + c ≤ stop := by
  obtain ⟨c, l, r, hc, henc⟩ : ∃ c l r, c ≤ List.length r ∧
      encodeBlock ss final = tokenByte c l :: (lengthBytes c ++ r) := by
    cases ss with
    | nil => exact ⟨_, _, _, le_rfl, rfl⟩
    | cons s ss =>
      rw [encodeBlock, Sequence.encode, cons_append, append_assoc, append_assoc]
      exact ⟨_, _, _, by rw [length_append]; omega, rfl⟩
  have hb := h.bytes
  rw [bytesAt_head inp hlt, henc] at hb
  obtain ⟨htok, hrest⟩ := List.cons.inj hb
  obtain ⟨p, hf, hp, -⟩ := Field.of_append hrest
  exact ⟨c, p, (tokenByte_iff.mp htok).1, hf, by omega⟩

variable (hlt : ptr < stop) (hcopy : (inp ptr).toNat >>> 4 = min c 15)
  (hfd : Field inp (ptr + 1) c p)
include hlt hcopy hfd

/-- A block that is one literal-only sequence, behind its literal length. -/
theorem accepts_nil_iff : Accepts (bytesAt inp ptr (stop - ptr)) n space [] final ↔
    bytesAt inp p c = final ∧ p + c = stop ∧ (inp ptr).toNat &&& 15 = 0 ∧ 5 ≤ c ∧ c ≤ space := by
  constructor
  · rintro ⟨⟨hb, -, -⟩, hfive, hfits⟩
    rw [bytesAt_head inp hlt] at hb
    obtain ⟨htok, hrest⟩ := List.cons.inj hb
    obtain ⟨hc, hl⟩ := tokenByte_iff.mp htok
    obtain ⟨p', hf, hp, hbytes⟩ := Field.of_append hrest
    obtain ⟨rfl, rfl⟩ := hfd.unique hf (hcopy.symm.trans hc)
    exact ⟨hbytes, by omega, hl, hfive, by simpa [blockTokens] using hfits⟩
  · rintro ⟨rfl, rfl, hl, hfive, hfits⟩
    refine ⟨⟨?_, by simp, by simp [blockTokens]⟩, by rwa [bytesAt_length], by simpa [blockTokens] using hfits⟩
    rw [bytesAt_head inp hlt, hfd.append (Nat.le_add_right p c), Nat.add_sub_cancel_left, encodeBlock,
      encodeFinal, bytesAt_length]
    exact congrArg (· :: _) (tokenByte_iff.mpr ⟨hcopy, hl⟩)

/-- A block that starts with a match sequence, behind its literal length. -/
theorem accepts_cons_iff {s : Sequence} :
    Accepts (bytesAt inp ptr (stop - ptr)) n space (s :: ss) final ↔
      ∃ q, bytesAt inp p c = s.literals ∧ (inp ptr).toNat &&& 15 = min (s.length - 4) 15 ∧
        (inp (p + c)).toNat + 256 * (inp (p + c + 1)).toNat = s.dist ∧
        Field inp (p + c + 2) (s.length - 4) q ∧ q + 6 ≤ stop ∧ 0 < s.dist ∧ 4 ≤ s.length ∧
        s.dist ≤ n + c ∧ c + s.length + 5 ≤ space ∧
        Accepts (bytesAt inp q (stop - q)) (n + (c + s.length)) (space - (c + s.length)) ss final := by
  have hsize : size s.tokens = s.literals.length + s.length := by
    simp [Sequence.tokens, Token.size]
  have hreach : Reaches n (blockTokens (s :: ss) final) ↔
      (0 < s.dist ∧ s.dist ≤ n + s.literals.length) ∧
        Reaches (n + (s.literals.length + s.length)) (blockTokens ss final) := by
    rw [blockTokens, Reaches.append, Sequence.tokens, Reaches.append, size_append, size_lits]
    simp [Reaches, Token.size]
  constructor
  · rintro ⟨⟨hb, hrange, hwin⟩, hfive, hfits⟩
    obtain ⟨⟨hpos, hmax, h4⟩, htail⟩ := forall_mem_cons.mp hrange
    rw [bytesAt_head inp hlt, encodeBlock, Sequence.encode, cons_append] at hb
    obtain ⟨htok, hrest⟩ := List.cons.inj hb
    simp only [append_assoc, cons_append] at hrest
    obtain ⟨hc, hl⟩ := tokenByte_iff.mp htok
    obtain ⟨p', hf, hp, hbytes⟩ := Field.of_append hrest
    obtain ⟨rfl, rfl⟩ := hfd.unique hf (hcopy.symm.trans hc)
    obtain ⟨hlen, hlits, hdist⟩ := bytesAt_eq_append hbytes
    simp only [length_cons] at hdist hlen
    rw [bytesAt_succ, bytesAt_succ] at hdist
    obtain ⟨hd0, hdist⟩ := List.cons.inj hdist
    obtain ⟨hd1, hdist⟩ := List.cons.inj hdist
    obtain ⟨q, hfq, hq, hbq⟩ := Field.of_append hdist
    rw [hreach] at hwin
    rw [blockTokens, size_append, hsize] at hfits
    have hge := size_blockTokens_ge ss final
    have hsix := encodeBlock_length_ge ss hfive
    refine ⟨q, hlits, hl, (dist_eq_iff hmax).mp ⟨hd0, hd1⟩, hfq, by omega, hpos, h4, hwin.1.2, by omega,
      ⟨?_, htail, hwin.2⟩, hfive, by omega⟩
    rw [show stop - q = (encodeBlock ss final).length by omega, hbq]
  · rintro ⟨q, hlits, hl, hd, hfq, hq, hpos, h4, hdn, hfits, hacc⟩
    have hlen : s.literals.length = c := by rw [← hlits, bytesAt_length]
    have hmax : s.dist ≤ 65535 := by
      have := (inp (p + c)).toNat_lt
      have := (inp (p + c + 1)).toNat_lt
      omega
    rw [hlen] at hsize hreach
    refine ⟨⟨?_, forall_mem_cons.mpr ⟨⟨hpos, hmax, h4⟩, hacc.range⟩,
      hreach.mpr ⟨⟨hpos, hdn⟩, hacc.window⟩⟩, hacc.five, ?_⟩
    · obtain ⟨hd0, hd1⟩ := (dist_eq_iff hmax).mpr hd
      have hqp := hfq.2
      rw [bytesAt_head inp hlt, hfd.append (by omega : p ≤ stop), encodeBlock, Sequence.encode,
        cons_append, append_assoc, append_assoc,
        show stop - p = c + (stop - (p + c + 2) + 1 + 1) by omega, bytesAt_append, hlits, hlen,
        bytesAt_succ, bytesAt_succ, hd0, hd1, hfq.append (by omega), hacc.bytes]
      exact congrArg (· :: _) (tokenByte_iff.mpr ⟨hcopy, hl⟩)
    · have := hacc.fits
      rw [blockTokens, size_append, hsize]
      omega

/-- What the loop checks before it looks at the match length. -/
theorem Accepts.checked (h : Accepts (bytesAt inp ptr (stop - ptr)) n space ss final) :
    c ≤ space ∧ (p + c = stop ∧ (inp ptr).toNat &&& 15 = 0 ∨
      p + c + 8 ≤ stop ∧ 0 < (inp (p + c)).toNat + 256 * (inp (p + c + 1)).toNat ∧
        (inp (p + c)).toNat + 256 * (inp (p + c + 1)).toNat ≤ n + c ∧
        c + ((inp ptr).toNat &&& 15) + 9 ≤ space) := by
  cases ss with
  | nil =>
    obtain ⟨-, hstop, hl, -, hle⟩ := (accepts_nil_iff hlt hcopy hfd).mp h
    exact ⟨hle, .inl ⟨hstop, hl⟩⟩
  | cons s ss =>
    obtain ⟨q, -, hl, hd, hfq, hq, hpos, h4, hdn, hfits, -⟩ := (accepts_cons_iff hlt hcopy hfd).mp h
    have hqp := hfq.2
    exact ⟨by omega, .inr ⟨by omega, by omega, by omega, by omega⟩⟩

end

/-! ## The loop over sequences -/

/-- What a run from `m` to `m'` returns when `A` says which blocks the input is: the end of the
expansion if there is one, and null if not. -/
def Decoded (A : List Sequence → List UInt8 → Prop) (windowStart out : Nat) (m m' : Mem) :
    Option Nat → Prop
  | some o => ∃ ss final, A ss final ∧ o = out + size (blockTokens ss final) ∧
      m'.bytes windowStart (o - windowStart) =
        expand (m.bytes windowStart (out - windowStart)) (blockTokens ss final)
  | none => ∀ ss final, ¬ A ss final

/-- A run of the loop from `ptr` and `out` returns what `Decoded` says; the copies may store up to
eight bytes behind the output. -/
def DecodesFrom (inp : Nat → UInt8) (stop windowStart outEnd ptr out : Nat) (m : Mem)
    (x : Res (Option Nat)) : Prop :=
  ∃ r m', x = .ok r m' ∧ Stored m m' out (outEnd + 8) ∧
    Decoded (Accepts (bytesAt inp ptr (stop - ptr)) (out - windowStart) (outEnd - out)) windowStart out
      m m' r

section
variable {inp : Nat → UInt8} {start stop c p d : Nat} {m m1 : Mem}

/-- A check of the loop that no accepted block fails. -/
theorem DecodesFrom.check {P : Prop} [Decidable P] {x : Exec (Option Nat)}
    (hst : Stored m m1 out (outEnd + 8))
    (hP : P → ∀ ss final, ¬ Accepts (bytesAt inp ptr (stop - ptr)) (out - windowStart) (outEnd - out)
      ss final) (hx : ¬ P → DecodesFrom inp stop windowStart outEnd ptr out m (x.run m1)) :
    DecodesFrom inp stop windowStart outEnd ptr out m
      ((if P then pure none else x : Exec (Option Nat)).run m1) := by
  by_cases h : P
  · rw [if_pos h]
    exact ⟨none, m1, rfl, hst, hP h⟩
  · rw [if_neg h]
    exact hx h

variable (hlt : ptr < stop) (hcopy : (inp ptr).toNat >>> 4 = min c 15)
  (hfd : Field inp (ptr + 1) c p) (hw : windowStart ≤ out) (hs1 : Stored m m1 out (out + c + 8))
  (hlits : m1.bytes out c = bytesAt inp p c)
include hlt hcopy hfd hw hs1 hlits

/-- A literal-only sequence ends the block. -/
theorem decodesFrom_final (h5 : 5 ≤ c) (hc : c ≤ outEnd - out) (hend : p + c = stop)
    (hl : (inp ptr).toNat &&& 15 = 0) :
    DecodesFrom inp stop windowStart outEnd ptr out m (.ok (some (out + c)) m1) := by
  refine ⟨_, m1, rfl, hs1.mono le_rfl (by omega), [], bytesAt inp p c,
    (accepts_nil_iff hlt hcopy hfd).mpr ⟨rfl, hend, hl, h5, hc⟩, by simp [blockTokens], ?_⟩
  rw [bytes_extend hw hs1 (bytesAt_length inp p c) hlits]
  simp [blockTokens]

variable (hd : (inp (p + c)).toNat + 256 * (inp (p + c + 1)).toNat = d) (hd0 : d ≠ 0)
  (hdw : d ≤ out + c - windowStart)
include hd hd0 hdw

/-- A match sequence is the copy of its match, and then what the rest of the block is. -/
theorem decodesFrom_match {n q x} (hnl : (inp ptr).toNat &&& 15 = min n 15)
    (hfq : Field inp (p + c + 2) n q) (hq : q + 6 ≤ stop) (hn : c + (n + 4) + 5 ≤ outEnd - out)
    {m2 : Mem} (hs2 : Stored m1 m2 (out + c) (out + c + (n + 4) + 8))
    (hb2 : ∀ i < n + 4, m2.byte (out + c + i) = m2.byte (out + c + i - d))
    (hx : DecodesFrom inp stop windowStart outEnd q (out + c + (n + 4)) m2 x) :
    DecodesFrom inp stop windowStart outEnd ptr out m x := by
  obtain ⟨r, m', hrun, hst', hdec⟩ := hx
  refine ⟨r, m', hrun, (hs1.mono le_rfl (by omega)).trans ((hs2.mono (by omega) (by omega)).trans
    (hst'.mono (by omega) le_rfl)), ?_⟩
  have hcons {s : Sequence} {ss : List Sequence} {final : List UInt8} :=
    @accepts_cons_iff inp ptr stop (out - windowStart) (outEnd - out) c p ss final hlt hcopy hfd s
  have hwin : out - windowStart + (c + (n + 4)) = out + c + (n + 4) - windowStart := by omega
  have hleft : outEnd - out - (c + (n + 4)) = outEnd - (out + c + (n + 4)) := by omega
  cases r with
  | none =>
    rintro (_ | ⟨s, ss⟩) final h
    · have := (accepts_nil_iff hlt hcopy hfd).mp h
      have := hfq.2
      omega
    · obtain ⟨q', -, hnl', -, hfq', -, -, h4, -, -, hrest⟩ := hcons.mp h
      obtain ⟨hlen, rfl⟩ := hfq.unique hfq' (hnl.symm.trans hnl')
      rw [show s.length = n + 4 by omega, hwin, hleft] at hrest
      exact hdec ss final hrest
  | some o =>
    obtain ⟨ss, final, hacc, ho, hbytes⟩ := hdec
    have hlen := bytesAt_length inp p c
    refine ⟨⟨bytesAt inp p c, d, n + 4⟩ :: ss, final, hcons.mpr ⟨q, rfl, hnl, hd, hfq, hq,
      pos_of_ne_zero hd0, Nat.le_add_left 4 n, by dsimp only; omega, hn, ?_⟩, ?_, ?_⟩
    · rw [hwin, hleft]
      exact hacc
    · simp only [blockTokens, size_append, Sequence.tokens, size_lits, hlen, size_cons, Token.size,
        size_nil]
      omega
    · rw [hbytes, bytes_copyFrom (by omega) hs2 (by omega) (by omega) hb2,
        bytes_extend hw hs1 hlen hlits]
      simp [blockTokens, Sequence.tokens, expand_append, Token.apply]

/-- The match length and the match of a sequence, in front of the rest `x` of the loop. -/
theorem decodesFrom_matchLength {x : Nat → Nat → Exec (Option Nat)} (hstart : start ≤ p + c + 2)
    (hstop : p + c + 8 ≤ stop) (hroom : c + ((inp ptr).toNat &&& 15) + 9 ≤ outEnd - out)
    (hx : ∀ {q o} m2, p + c + 2 ≤ q → q + 6 ≤ stop → o + 5 ≤ outEnd → windowStart ≤ o →
      DecodesFrom inp stop windowStart outEnd q o m2 ((x q o).run m2)) :
    DecodesFrom inp stop windowStart outEnd ptr out m
      ((do
        match ← matchLength inp start stop (outEnd - (out + c) - 5) (stop - 6)
            (((inp ptr).toNat &&& 15) + 4) (p + c + 2) with
        | none => pure none
        | some (length, ptr) => do
          lzcommonMatchCopy inp (out + c) d length
          x ptr (out + c + length) : Exec (Option Nat)).run m1) := by
  obtain ⟨r, hr, hfield⟩ := matchLength_spec inp m1 (outEnd - (out + c) - 5) and_le_right hstart
    (by omega : p + c + 2 + 6 ≤ stop)
  rw [run_bind_of_ok hr]
  cases r with
  | none =>
    refine ⟨none, m1, rfl, hs1.mono le_rfl (by omega), ?_⟩
    rintro (_ | ⟨s, ss⟩) final h
    · have := (accepts_nil_iff hlt hcopy hfd).mp h
      omega
    · obtain ⟨q, -, hnl, -, hfq, hq, -, h4, -, hfits, -⟩ := (accepts_cons_iff hlt hcopy hfd).mp h
      cases (hfield _ q).mpr ⟨hnl, hfq, fun _ => by omega⟩
  | some nq =>
    obtain ⟨n, q⟩ := nq
    obtain ⟨hnl, hfq, hn15⟩ := (hfield n q).mp rfl
    have hq2 : p + c + 2 ≤ q := by rw [hfq.2]; omega
    have hq : q + 6 ≤ stop ∧ n + 4 ≤ outEnd - (out + c) - 5 := by
      by_cases h15 : 15 ≤ n
      · exact (hn15 h15).symm
      · rw [(Field.of_lt (not_le.mp h15)).mp hfq]
        omega
    dsimp only [Option.map_some, Prod.map, id]
    obtain ⟨m2, hm2, hs2, hb2⟩ := matchCopy_ok inp (n + 4) (pos_of_ne_zero hd0)
      (by omega : d ≤ out + c) m1
    rw [run_bind_of_ok hm2]
    exact decodesFrom_match hlt hcopy hfd hw hs1 hlits hd hd0 hdw hnl hfq hq.1 (by omega)
      (hs2.mono le_rfl (by omega)) hb2 (hx m2 hq2 hq.1 (by omega) (by omega))

end

theorem sequences_spec {inp start stop} (fuel : Nat)
    {ptr} (m : Mem) (hlo : start ≤ ptr) (hhi : ptr + 6 ≤ stop) (hout : out + 5 ≤ outEnd)
    (hw : windowStart ≤ out) (hf : stop - ptr ≤ fuel) :
    DecodesFrom inp stop windowStart outEnd ptr out m
      ((sequences inp start stop outEnd windowStart fuel ptr out).run m) := by
  induction fuel generalizing ptr out m with
  | zero => omega
  | succ fuel ih =>
    have hlt : ptr < stop := by omega
    have hnib : (inp ptr).toNat >>> 4 ≤ 15 := by
      have := (inp ptr).toNat_lt
      omega
    obtain ⟨r, hr, hfield⟩ := literalLength_spec inp m hnib (by omega : start ≤ ptr + 1)
      (by omega : ptr + 1 < stop)
    rw [sequences, decide_eq_true (by omega), decide_eq_true (by omega), assert_true,
      pure_bind, pure_bind, fetch_of_mem inp hlo (by omega), pure_bind]
    rw [run_bind_of_ok hr]
    cases r with
    | none =>
      refine ⟨none, m, rfl, .refl m _ _, fun ss final hacc => ?_⟩
      obtain ⟨c, p, hc, hfd, hle⟩ := hacc.literals hlt
      cases (hfield c p).mpr ⟨hc, hfd, fun _ => by omega⟩
    | some cp =>
      obtain ⟨c, p⟩ := cp
      obtain ⟨hcopy, hfd, h15⟩ := (hfield c p).mp rfl
      have hptr : ptr + 1 ≤ p := by rw [hfd.2]; omega
      have hshort : c < 15 → p = ptr + 1 := fun h => (Field.of_lt h).mp hfd
      -- every check is about what an accepted block satisfies
      have hchecked {ss : List Sequence} {final : List UInt8} := @Accepts.checked inp ptr stop
        (out - windowStart) (outEnd - out) c p ss final hlt hcopy hfd
      dsimp only
      refine .check (.refl m _ _) (fun h ss final hacc => by have := hchecked hacc; omega) fun hsp => ?_
      obtain ⟨m1, hm1, hs1, hb1⟩ := literalCopy_ok inp (.inl rfl : Separate .input out p c) m
      replace hs1 : Stored m m1 out (out + c + 8) := hs1.mono le_rfl (by omega)
      have hst : Stored m m1 out (outEnd + 8) := hs1.mono le_rfl (by omega)
      have hlits : m1.bytes out c = bytesAt inp p c :=
        map_congr_left fun i hi => hb1 i (mem_range.mp hi)
      split
      · refine .check (.refl m _ _) (fun h ss final hacc => by have := hchecked hacc; omega) fun heq => ?_
        refine .check (.refl m _ _) (fun h ss final hacc => by have := hchecked hacc; omega) fun hl => ?_
        rw [run_bind_of_ok hm1]
        exact decodesFrom_final hlt hcopy hfd hw hs1 hlits (by omega) (by omega) (by omega) (not_not.mp hl)
      · rename_i hfin
        rw [run_bind_of_ok hm1, fetch_of_mem inp (by omega) (by omega), pure_bind,
          fetch_of_mem inp (by omega) (by omega), pure_bind, dist_bytes]
        refine .check hst (fun h ss final hacc => by have := hchecked hacc; omega) fun hd0 => ?_
        refine .check hst (fun h ss final hacc => by have := hchecked hacc; omega) fun hdw => ?_
        refine .check hst (fun h ss final hacc => by have := hchecked hacc; omega) fun hroom => ?_
        exact decodesFrom_matchLength hlt hcopy hfd hw hs1 hlits rfl hd0 (not_lt.mp hdw) (by omega)
          (by omega) (by omega) fun m2 hq hstop ho hwo => ih m2 (by omega) hstop ho hwo (by omega)

/-! ## Blocks have one reading -/

/-- Token and literals of two readings agree. -/
theorem literals_append_inj (l l' : List UInt8) (a b : Nat) (r r' : List UInt8)
    (h : tokenByte l.length a :: (lengthBytes l.length ++ (l ++ r)) =
      tokenByte l'.length b :: (lengthBytes l'.length ++ (l' ++ r'))) :
    l = l' ∧ min a 15 = min b 15 ∧ r = r' := by
  obtain ⟨ht, hrest⟩ := List.cons.inj h
  obtain ⟨hc, hl⟩ := tokenByte_iff.mp (Eq.refl (tokenByte l.length a))
  obtain ⟨hc', hl'⟩ := tokenByte_iff.mp ht
  obtain ⟨hlen, hr⟩ := lengthBytes_append_inj (hc.symm.trans hc') hrest
  obtain ⟨rfl, rfl⟩ := append_inj hr hlen
  exact ⟨rfl, hl.symm.trans hl', rfl⟩

theorem encodeBlock_inj {ss ss' final} (hr : ∀ s ∈ ss, s.InRange) (hr' : ∀ s ∈ ss', s.InRange)
    (h : encodeBlock ss final = encodeBlock ss' final') : ss = ss' ∧ final = final' := by
  -- a final sequence ends with its literals, a match sequence does not
  have hne : ∀ (l : List UInt8) (s : Sequence) (ss : List Sequence) (l' : List UInt8),
      encodeFinal l ≠ s.encode ++ encodeBlock ss l' := by
    intro l s ss l' he
    have := (literals_append_inj l s.literals 0 _ [] _ (by
      simpa [encodeFinal, Sequence.encode] using he)).2.2
    simp at this
  induction ss generalizing ss' with
  | nil =>
    cases ss' with
    | nil =>
      have := literals_append_inj final final' 0 0 [] [] (by simpa [encodeBlock, encodeFinal] using h)
      exact ⟨rfl, this.1⟩
    | cons s' ss' => exact absurd h (hne _ _ _ _)
  | cons s ss ih =>
    cases ss' with
    | nil => exact absurd h.symm (hne _ _ _ _)
    | cons s' ss' =>
      obtain ⟨hl, hm, hrest⟩ := literals_append_inj s.literals s'.literals _ _ _ _
        (by simpa [encodeBlock, Sequence.encode] using h)
      obtain ⟨hd0, hrest⟩ := List.cons.inj hrest
      obtain ⟨hd1, hrest⟩ := List.cons.inj hrest
      obtain ⟨hlen, hrest⟩ := lengthBytes_append_inj hm hrest
      obtain ⟨rfl, rfl⟩ := ih (fun t ht => hr t (by simp [ht])) (fun t ht => hr' t (by simp [ht]))
        hrest
      have h1 := hr s (by simp)
      have h2 := hr' s' (by simp)
      have hd := ((dist_eq_iff h1.2.1).mp ⟨rfl, rfl⟩).symm.trans
        ((dist_eq_iff h2.2.1).mp ⟨hd0, hd1⟩)
      have hm4 : s.length = s'.length := by
        have := h1.2.2
        have := h2.2.2
        omega
      refine ⟨?_, rfl⟩
      rw [show s = s' by cases s; cases s'; simp_all]

/-! ## Whole blocks -/

/-- The blocks `decompress_block` takes. One of six bytes or more ends in five literals, a shorter
one is a single literal-only sequence. -/
structure ValidBlock (l : List UInt8) (n space : Nat) (ss : List Sequence) (final : List UInt8) :
    Prop extends Encodes l n ss final where
  five : 6 ≤ l.length → 5 ≤ final.length
  short : l.length < 6 → ss = []
  fits : size (blockTokens ss final) ≤ space

theorem ValidBlock.iff_accepts {n space ss final} (h : 6 ≤ l.length) :
    ValidBlock l n space ss final ↔ Accepts l n space ss final :=
  ⟨fun hv => ⟨hv.toEncodes, hv.five h, hv.fits⟩,
    fun ha => ⟨ha.toEncodes, fun _ => ha.five, fun _ => by omega, ha.fits⟩⟩

theorem ValidBlock.unique {n space space' ss ss' final} (h : ValidBlock l n space ss final)
    (h' : ValidBlock l n' space' ss' final') : ss = ss' ∧ final = final' :=
  encodeBlock_inj h.range h'.range (h.bytes.symm.trans h'.bytes)

/-- A short block is one token and the literals it counts. -/
theorem validBlock_short {inp : Nat → UInt8} {start n space ss final} (hlen : len < 5) :
    ValidBlock (bytesAt inp start (len + 1)) n space ss final ↔
      ss = [] ∧ final = bytesAt inp (start + 1) len ∧ len * 16 = (inp start).toNat ∧
        len ≤ space := by
  have htok : ∀ k ≤ 4, (tokenByte k 0).toNat = k * 16 := by decide
  constructor
  · intro h
    obtain rfl := h.short (by rw [bytesAt_length]; omega)
    have hb := h.bytes
    rw [bytesAt_succ] at hb
    obtain ⟨ht, hrest⟩ := List.cons.inj hb
    have hl := congrArg List.length hrest
    rw [bytesAt_length, length_append] at hl
    rw [lengthBytes_of_lt (by omega), nil_append] at hrest
    have hfinal : final.length = len := by rw [← hrest, bytesAt_length]
    refine ⟨rfl, hrest.symm, ?_, ?_⟩
    · rw [ht, hfinal, htok len (by omega)]
    · simpa [blockTokens, hfinal] using h.fits
  · rintro ⟨rfl, rfl, ht, hsp⟩
    refine ⟨⟨?_, by simp, by simp [blockTokens]⟩, fun h => ?_, fun _ => rfl, ?_⟩
    · rw [bytesAt_succ, encodeBlock, encodeFinal, bytesAt_length, lengthBytes_of_lt (by omega)]
      congr 1
      exact UInt8.toNat_inj.mp (by rw [htok len (by omega), ht])
    · rw [bytesAt_length] at h
      omega
    · simpa [blockTokens] using hsp

/-- `decompress_block` under what `decode_block` guarantees: it returns, stores only in the space
given and eight bytes behind it, and decodes. -/
theorem decompressBlock_spec (inp : Nat → UInt8) {start stop} (m : Mem) (hlt : start < stop)
    (hw : windowStart ≤ out) (hsp : stop - start ≤ outEnd - out) (hmax : outEnd - out ≤ 2 ^ 31) :
    ∃ r m', (decompressBlock inp start stop outEnd windowStart out).run m = .ok r m' ∧
      Stored m m' out (outEnd + 8) ∧
      Decoded (ValidBlock (bytesAt inp start (stop - start)) (out - windowStart) (outEnd - out))
        windowStart out m m' r := by
  rw [decompressBlock, decide_eq_true hmax, assert_true, pure_bind, if_neg (by omega)]
  by_cases hlen : stop - start < 6
  · rw [if_pos hlen, fetch_of_mem inp le_rfl hlt, pure_bind]
    obtain ⟨len, rfl⟩ : ∃ len, stop = start + 1 + len := ⟨stop - (start + 1), by omega⟩
    have hsub : start + 1 + len - (start + 1) = len := by omega
    have hlen5 : len < 5 := by omega
    rw [show start + 1 + len - start = len + 1 by omega]
    dsimp only
    rw [hsub]
    by_cases htok : len * 16 = (inp start).toNat
    · have hnib : (inp start).toNat >>> 4 = len := by
        omega
      rw [if_neg (not_not.mpr htok), hnib, if_neg (by omega)]
      have hs := m.memcpy_stored inp .input out (start + 1) len
      have hl : (m.memcpy inp .input out (start + 1) len).bytes out len =
          bytesAt inp (start + 1) len :=
        map_congr_left fun i hi => Mem.memcpy_byte (.inl rfl) (mem_range.mp hi)
      refine ⟨_, _, rfl, hs.mono le_rfl (by omega), [], bytesAt inp (start + 1) len,
        (validBlock_short hlen5).mpr ⟨rfl, rfl, htok, by omega⟩, by simp [blockTokens], ?_⟩
      rw [bytes_extend hw hs (bytesAt_length _ _ _) hl]
      simp [blockTokens]
    · rw [if_pos htok]
      exact ⟨none, m, rfl, .refl m _ _, fun ss final h => htok ((validBlock_short hlen5).mp h).2.2.1⟩
  · rw [if_neg hlen]
    obtain ⟨r, m', hr, hs, hd⟩ := sequences_spec (stop - start) m (le_refl start)
      (by omega : start + 6 ≤ stop) (by omega : out + 5 ≤ outEnd) hw le_rfl
    refine ⟨r, m', hr, hs, ?_⟩
    have hsix : 6 ≤ (bytesAt inp start (stop - start)).length := by rw [bytesAt_length]; omega
    cases r with
    | none => exact fun ss final h => hd ss final ((ValidBlock.iff_accepts hsix).mp h)
    | some o =>
      obtain ⟨ss, final, ha, hrest⟩ := hd
      exact ⟨ss, final, (ValidBlock.iff_accepts hsix).mpr ha, hrest⟩

/-- `decompress_block` returns a pointer exactly for the valid blocks, never stops at an assertion
or reads a control byte outside the block, and what it wrote is the block's expansion. -/
theorem decompressBlock_iff_valid (inp : Nat → UInt8) (start stop windowStart out outEnd : Nat)
    (m : Mem) (hlt : start < stop)
    (hw : windowStart ≤ out) (hsp : stop - start ≤ outEnd - out) (hmax : outEnd - out ≤ 2 ^ 22) :
    ∃ r m', (decompressBlock inp start stop outEnd windowStart out).run m = .ok r m' ∧
      (r.isSome ↔ ∃ ss final, ValidBlock (bytesAt inp start (stop - start)) (out - windowStart)
        (outEnd - out) ss final) ∧
      ∀ ss final, ValidBlock (bytesAt inp start (stop - start)) (out - windowStart)
        (outEnd - out) ss final →
        r = some (out + size (blockTokens ss final)) ∧
        m'.bytes windowStart (out + size (blockTokens ss final) - windowStart) =
          expand (m.bytes windowStart (out - windowStart)) (blockTokens ss final) := by
  obtain ⟨r, m', hr, -, hd⟩ := decompressBlock_spec inp m hlt hw hsp (by omega)
  refine ⟨r, m', hr, ?_⟩
  cases r with
  | none => exact ⟨⟨fun h => by simp at h, fun ⟨ss, final, h⟩ => absurd h (hd ss final)⟩,
      fun ss final h => absurd h (hd ss final)⟩
  | some o =>
    obtain ⟨ss, final, hv, ho, hb⟩ := hd
    refine ⟨⟨fun _ => ⟨ss, final, hv⟩, fun _ => rfl⟩, fun ss' final' h => ?_⟩
    obtain ⟨rfl, rfl⟩ := hv.unique h
    rw [← ho]
    exact ⟨rfl, hb⟩

/-- Five literals and a match of four bytes in front of them, from an empty window. -/
theorem decompressBlock_iff_valid_match :
    let inp := fun a => [0x10, 7, 1, 0, 0x50, 1, 2, 3, 4, 5].getD a 0
    let m : Mem := ⟨fun _ => 0, []⟩
    ∃ r m', (decompressBlock inp 0 10 10 0 0).run m = .ok r m' ∧ r = some 10 ∧
      m'.bytes 0 10 = [7, 7, 7, 7, 7, 1, 2, 3, 4, 5] := by
  intro inp m
  obtain ⟨r, m', hr, -, hv⟩ := decompressBlock_iff_valid inp 0 10 0 0 10 m (by decide)
    (by decide) (by decide) (by decide)
  have := hv [⟨[7], 1, 4⟩] [1, 2, 3, 4, 5]
    ⟨⟨by decide, by simp [Sequence.InRange], by decide⟩, by decide, by decide, by decide⟩
  exact ⟨r, m', hr, this.1, this.2⟩

/-- A match sequence and an empty literal-only one encode a block of four bytes, which is refused. -/
theorem decompressBlock_short_match :
    let inp := fun a => [0, 1, 0, 0].getD a 0
    let m : Mem := ⟨fun _ => 0, []⟩
    Encodes (bytesAt inp 0 4) 1 [⟨[], 1, 4⟩] [] ∧ size (blockTokens [⟨[], 1, 4⟩] []) ≤ 10 ∧
      (decompressBlock inp 0 4 11 0 1).run m = .ok none m :=
  ⟨⟨by decide, by simp [Sequence.InRange], by decide⟩, by decide, rfl⟩

end Rkboot.Compression.Lz4
