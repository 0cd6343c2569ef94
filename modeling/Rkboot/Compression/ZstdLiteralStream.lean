import Rkboot.Compression.ZstdTree
import Rkboot.Compression.ZstdBlock
import Rkboot.Lib.PrefixCode
import Rkboot.Lib.Buffer

/-! # Huffman streams of literals

A stream of literals is the string of their codes, read backwards. The decoder looks the next code
up in the bits it has, with zeros behind them, and fetches bytes only when the entry it finds has a
longer code: as no code begins another one, it finds the code that is there, or none. -/
namespace Rkboot.Compression.Zstd
open Lib List Nat Exec

/-! ## Codes and their table -/

/-- A complete prefix code of at most 11 bits: an entry belongs to the symbol whose code its index
begins with. A symbol of length 0 has no code. -/
structure PrefixTable (table : Nat → UInt8 × Nat) (code len : UInt8 → Nat) : Prop where
  len_le : ∀ s, len s ≤ 11
  code_lt : ∀ s, code s < 2 ^ len s
  entry : ∀ i < 2048, (table i).2 = len (table i).1 ∧ 0 < len (table i).1 ∧
    i >>> (11 - len (table i).1) = code (table i).1
  run : ∀ s, 0 < len s → ∀ i < 2048, i >>> (11 - len s) = code s → (table i).1 = s

/-- The code of a literal, as it is read. -/
def literalBits (code len : UInt8 → Nat) (s : UInt8) : List Bool := highBits (code s) (len s)

section
variable {table : Nat → UInt8 × Nat} {code len : UInt8 → Nat}

theorem PrefixTable.bits_prefix_iff (h : PrefixTable table code len) {s} {bits : List Bool} :
    literalBits code len s <+: bits ↔
      len s ≤ bits.length ∧ bigNat bits >>> (bits.length - len s) = code s := by
  have hcode : bigNat (literalBits code len s) = code s := by
    rw [literalBits, bigNat_highBits, mod_eq_of_lt (h.code_lt s)]
  have hlength : (literalBits code len s).length = len s := highBits_length _ _
  rw [prefix_iff_eq_take, hlength]
  constructor
  · intro heq
    have hle : len s ≤ bits.length := by
      have hmin := congrArg List.length heq
      rw [hlength, length_take] at hmin
      omega
    rw [← bigNat_take, ← heq]
    exact ⟨hle, hcode⟩
  · rintro ⟨hle, heq⟩
    rw [← bigNat_take, ← hcode] at heq
    exact (bigNat_inj (by rw [length_take, hlength]; omega) heq).symm

/-- Two codes that a string begins with are found at one index, that of its first 11 bits. -/
theorem PrefixTable.free (h : PrefixTable table code len) :
    PrefixCode.Free (fun s => 0 < len s) (literalBits code len) := by
  intro s t bits hs ht hbits hbits'
  set first := (bits ++ List.replicate 11 false).take 11 with hfirst
  have hlength : first.length = 11 := by simp [hfirst]
  have hfound {u : UInt8} (hu : 0 < len u) (hbits : literalBits code len u <+: bits) :
      (table (bigNat first)).1 = u := by
    have hle : (literalBits code len u).length ≤ first.length := by
      rw [hlength, literalBits, highBits_length]
      exact h.len_le u
    have hprefix : literalBits code len u <+: first :=
      prefix_of_prefix_length_le (hbits.trans (prefix_append _ _)) (List.take_prefix _ _) hle
    have hindex := (h.bits_prefix_iff.mp hprefix).2
    have hlt := bigNat_lt first
    rw [hlength] at hindex hlt
    exact h.run u hu _ hlt hindex
  rw [← hfound hs hbits, hfound ht hbits']

end

/-! ## Tables of tree descriptions -/

section
variable {weight : Nat → Nat} {maxbits : Nat} {table : Nat → UInt8 × Nat} {order : List (Nat × Nat)}

/-- The length of a literal's code. -/
def treeLen (weight : Nat → Nat) (maxbits : Nat) (s : UInt8) : Nat :=
  if weight s.toNat = 0 then 0 else codeLen maxbits (weight s.toNat)

theorem CanonicalCode.run_entry (h : CanonicalCode weight maxbits table order) {front rest x}
    (horder : order = front ++ x :: rest) {i} (hle : (front.flatMap (codeRun maxbits)).length ≤ i)
    (hlt : i < (front.flatMap (codeRun maxbits)).length + 2 ^ (11 - codeLen maxbits x.1)) :
    i < 2048 ∧ table i = (UInt8.ofNat x.2, codeLen maxbits x.1) := by
  have hx : x.1 ≠ 0 := ((h.mem x.1 x.2).mp (by rw [horder]; simp)).2.2
  have hruns := h.runs
  rw [horder, flatMap_append, flatMap_cons, codeRun, if_neg hx] at hruns
  have hi : i < 2048 := by
    have hlength := congrArg List.length hruns
    rw [length_map, length_range, length_append, length_append, length_replicate] at hlength
    omega
  have hentry := congrArg (·[i]?) hruns
  rw [List.getElem?_append_right hle, List.getElem?_append_left (by rw [length_replicate]; omega),
    List.getElem?_replicate_of_lt (by omega), List.getElem?_map, List.getElem?_range hi] at hentry
  exact ⟨hi, Option.some.inj hentry⟩

theorem exists_run (xs : List (Nat × Nat)) {i} (hi : i < (xs.flatMap (codeRun maxbits)).length) :
    ∃ front x rest, xs = front ++ x :: rest ∧ (front.flatMap (codeRun maxbits)).length ≤ i ∧
      i < (front.flatMap (codeRun maxbits)).length + (codeRun maxbits x).length := by
  induction xs generalizing i with
  | nil => simp at hi
  | cons x xs ih =>
    rw [flatMap_cons, length_append] at hi
    rcases lt_or_ge i (codeRun maxbits x).length with hlt | hge
    · exact ⟨[], x, xs, rfl, Nat.zero_le _, by simpa using hlt⟩
    · obtain ⟨front, y, rest, rfl, hle, hlt⟩ := ih (i := i - (codeRun maxbits x).length) (by omega)
      refine ⟨x :: front, y, rest, rfl, ?_, ?_⟩ <;> rw [flatMap_cons, length_append] <;> omega

/-- Every index lies in the run of a symbol that has a code, and has its entry. -/
theorem CanonicalCode.locate (h : CanonicalCode weight maxbits table order) {i} (hi : i < 2048) :
    ∃ front x rest, order = front ++ x :: rest ∧ (front.flatMap (codeRun maxbits)).length ≤ i ∧
      i < (front.flatMap (codeRun maxbits)).length + 2 ^ (11 - codeLen maxbits x.1) ∧
      table i = (UInt8.ofNat x.2, codeLen maxbits x.1) ∧ (UInt8.ofNat x.2).toNat = x.2 ∧
      x.2 < 256 ∧ x.1 = weight x.2 ∧ x.1 ≠ 0 := by
  have hlength : i < (order.flatMap (codeRun maxbits)).length := by
    rw [← h.runs, length_map, length_range]
    exact hi
  obtain ⟨front, x, rest, horder, hle, hlt⟩ := exists_run order hlength
  have hx := (h.mem x.1 x.2).mp (by rw [horder]; simp)
  rw [codeRun, if_neg hx.2.2, length_replicate] at hlt
  exact ⟨front, x, rest, horder, hle, hlt, (h.run_entry horder hle hlt).2,
    by rw [UInt8.toNat_ofNat', mod_eq_of_lt hx.1], hx⟩

/-- A symbol stands in the order once. -/
theorem CanonicalCode.front_unique (h : CanonicalCode weight maxbits table order)
    {front rest front' rest' x} (horder : order = front ++ x :: rest)
    (horder' : order = front' ++ x :: rest') : front = front' := by
  have hnodup : order.Nodup := h.sorted.imp fun hbefore heq => by simp [heq, Before] at hbefore
  rw [horder, nodup_middle, nodup_cons, mem_append, not_or] at hnodup
  exact ((append_cons_inj_of_notMem hnodup.1.1 hnodup.1.2).mp (horder.symm.trans horder')).1

/-- The indices of a symbol's entries are those that begin with one code. -/
theorem CanonicalCode.exists_code (h : CanonicalCode weight maxbits table order) (hmax : maxbits ≤ 11)
    (s : UInt8) (hs : 0 < treeLen weight maxbits s) :
    ∃ c < 2 ^ treeLen weight maxbits s, ∀ i < 2048,
      (i >>> (11 - treeLen weight maxbits s) = c ↔ (table i).1 = s) := by
  have hw : weight s.toNat ≠ 0 := by
    intro hzero
    rw [treeLen, if_pos hzero] at hs
    exact lt_irrefl 0 hs
  have hlen : treeLen weight maxbits s = codeLen maxbits (weight s.toNat) := if_neg hw
  rw [hlen]
  generalize hl : codeLen maxbits (weight s.toNat) = l
  have hle : l ≤ 11 := by
    rw [← hl, codeLen]
    omega
  obtain ⟨front, rest, horder⟩ := append_of_mem ((h.mem _ _).mpr ⟨s.toNat_lt, rfl, hw⟩)
  obtain ⟨c, hc⟩ := h.aligned front _ rest horder
  rw [hl, mul_comm] at hc
  have hpos := Nat.two_pow_pos (11 - l)
  -- an index begins with the code if it lies in the run
  have hiff (i : Nat) : i >>> (11 - l) = c ↔ (front.flatMap (codeRun maxbits)).length ≤ i ∧
      i < (front.flatMap (codeRun maxbits)).length + 2 ^ (11 - l) := by
    rw [shiftRight_eq_div_pow, Nat.div_eq_iff hpos, hc]
    omega
  have hin (i : Nat) (hi : i >>> (11 - l) = c) : i < 2048 ∧ (table i).1 = s := by
    obtain ⟨hle, hlt⟩ := (hiff i).mp hi
    obtain ⟨hi, hentry⟩ := h.run_entry horder hle (by rwa [hl])
    rw [hentry]
    exact ⟨hi, UInt8.ofNat_toNat⟩
  refine ⟨c, ?_, fun i hi => ⟨fun hi => (hin i hi).2, fun hsym => ?_⟩⟩
  · have hlast := (hin (c * 2 ^ (11 - l)) (by rw [shiftRight_eq_div_pow, Nat.mul_div_cancel _ hpos])).1
    have hpow : 2 ^ l * 2 ^ (11 - l) = 2048 := by
      rw [← Nat.pow_add, Nat.add_sub_cancel' hle]
    exact Nat.lt_of_mul_lt_mul_right (hpow ▸ hlast)
  · obtain ⟨front', x, rest', horder', hle', hlt', hentry, htoNat, -, hx, -⟩ := h.locate hi
    have hx2 : x.2 = s.toNat := by rw [← hsym, hentry, htoNat]
    obtain rfl : x = (weight s.toNat, s.toNat) := Prod.ext (by rw [← hx2, hx]) hx2
    rw [hiff, h.front_unique horder horder', ← hl]
    exact ⟨hle', hlt'⟩

theorem CanonicalCode.prefixTable (h : CanonicalCode weight maxbits table order) (hmax : maxbits ≤ 11)
    (hle : ∀ s < 256, weight s ≤ maxbits) :
    ∃ code, PrefixTable table code (treeLen weight maxbits) := by
  have hcode (s : UInt8) : ∃ c < 2 ^ treeLen weight maxbits s, (0 < treeLen weight maxbits s →
      ∀ i < 2048, (i >>> (11 - treeLen weight maxbits s) = c ↔ (table i).1 = s)) := by
    rcases Nat.eq_zero_or_pos (treeLen weight maxbits s) with hzero | hpos
    · exact ⟨0, Nat.two_pow_pos _, fun hpos => absurd hzero hpos.ne'⟩
    · obtain ⟨c, hlt, hc⟩ := h.exists_code hmax s hpos
      exact ⟨c, hlt, fun _ => hc⟩
  choose code hlt hcode using hcode
  refine ⟨code, fun s => ?_, hlt, fun i hi => ?_, fun s hs i hi hindex => (hcode s hs i hi).mp hindex⟩
  · rw [treeLen, codeLen]
    split <;> omega
  · obtain ⟨front, x, rest, -, -, -, hentry, hsym, hx256, hx, hne⟩ := h.locate hi
    have hlen : treeLen weight maxbits (UInt8.ofNat x.2) = codeLen maxbits x.1 := by
      rw [treeLen, hsym, ← hx, if_neg hne]
    have hpos : 0 < treeLen weight maxbits (UInt8.ofNat x.2) := by
      have hbound := hle x.2 hx256
      rw [hlen, codeLen, hx]
      omega
    have hfst : (table i).1 = UInt8.ofNat x.2 := by rw [hentry]
    rw [hfst, hlen, hentry]
    exact ⟨rfl, hlen ▸ hpos, hlen ▸ (hcode _ hpos i hi).mpr hfst⟩

end

/-- The table of every tree description that is accepted is that of a complete prefix code. -/
theorem treeDescription_prefixTable {inp start stop ptr tables} {tables' : DecTables}
    (h : zstdDecodeTreeDescription inp start stop tables = .ok (some ptr, tables')) :
    ∃ code len, PrefixTable tables'.huffTable code len := by
  obtain ⟨ws, hws⟩ := exists_treeWeights h
  have hsound := hws.sound
  by_cases hlast : ∃ last maxbits, Completes ws.sum last maxbits ∧ maxbits ≤ 11
  · obtain ⟨last, maxbits, hlast, hmax⟩ := hlast
    obtain ⟨table, order, hbuild, hcode⟩ := buildTree_completed hsound hlast hmax tables
    obtain ⟨code, hprefix⟩ := hcode.prefixTable hmax fun s _ => hsound.completed_le hlast s
    rw [hws.decode_eq hbuild] at h
    cases h
    exact ⟨code, _, hprefix⟩
  · have hdeep (last maxbits : Nat) (h : Completes ws.sum last maxbits) : 11 < maxbits := by
      by_contra hmax
      exact hlast ⟨last, maxbits, h, not_lt.mp hmax⟩
    rw [hws.decode_eq (buildTree_rejected hsound hdeep tables)] at h
    cases h

/-- One weight of 1, which another one completes. -/
theorem treeDescription_prefixTable_direct : ∃ tables,
    zstdDecodeTreeDescription (fun i => if i = 0 then 0x80 else 0x10) 0 2 noTables =
      .ok (some 2, tables) ∧ ∃ code len, PrefixTable tables.huffTable code len := by
  have hws : TreeWeights (fun i => if i = 0 then 0x80 else 0x10) 0 2 _ 2 :=
    .direct (by decide) (by decide) (by decide) rfl
  have hlast : Completes 1 1 1 := ⟨by decide, by decide, by decide⟩
  obtain ⟨table, order, hbuild, -⟩ := buildTree_completed hws.sound hlast (by decide) noTables
  exact ⟨_, hws.decode_eq hbuild, treeDescription_prefixTable (hws.decode_eq hbuild)⟩

/-! ## The container -/

/-- The bits held stand at the top of the container. -/
structure LitBits.Holds (b : LitBits) (held : List Bool) : Prop where
  length : held.length + b.shift = 32
  bits : b.bits = bigNat held <<< b.shift

section
variable {table : Nat → UInt8 × Nat} {code len : UInt8 → Nat} {b : LitBits} {held f : List Bool}

theorem LitBits.Holds.lt (h : b.Holds held) : b.bits < 2 ^ 32 := by
  rw [h.bits, shiftLeft_eq, ← h.length, pow_add]
  exact Nat.mul_lt_mul_of_pos_right (bigNat_lt held) (Nat.two_pow_pos _)

theorem LitBits.Holds.index_lt (h : b.Holds held) : b.bits >>> 21 < 2048 := by
  have hlt := h.lt
  omega

/-- The first bits of the index are the first bits held. -/
theorem LitBits.Holds.index_shift (h : b.Holds held) {l} (hl : l ≤ held.length) (hl11 : l ≤ 11) :
    b.bits >>> 21 >>> (11 - l) = bigNat held >>> (held.length - l) := by
  have hlength := h.length
  rw [← shiftRight_add, h.bits, show 21 + (11 - l) = b.shift + (held.length - l) by omega,
    shiftRight_add, shiftLeft_shiftRight]

/-- The entry that is looked up is right as soon as all its code is held. -/
theorem LitBits.Holds.lookup (h : b.Holds held) (ht : PrefixTable table code len)
    (hlen : (table (b.bits >>> 21)).2 ≤ held.length) :
    literalBits code len (table (b.bits >>> 21)).1 <+: held := by
  obtain ⟨heq, hpos, hindex⟩ := ht.entry _ h.index_lt
  rw [heq] at hlen
  rw [ht.bits_prefix_iff, ← h.index_shift hlen (ht.len_le _)]
  exact ⟨hlen, hindex⟩

/-- A code that is held is found. -/
theorem LitBits.Holds.found (h : b.Holds held) (ht : PrefixTable table code len) {s}
    (hs : 0 < len s) (hbits : literalBits code len s <+: held) : table (b.bits >>> 21) = (s, len s) := by
  obtain ⟨hle, heq⟩ := ht.bits_prefix_iff.mp hbits
  rw [← h.index_shift hle (ht.len_le s)] at heq
  have hsym := ht.run s hs _ h.index_lt heq
  refine Prod.ext hsym ?_
  rw [(ht.entry _ h.index_lt).1, hsym]

theorem LitBits.Holds.skip (h : b.Holds (f ++ held)) : (b.skip f.length).Holds held := by
  have hlength := h.length
  rw [length_append] at hlength
  refine ⟨?_, ?_⟩
  · change held.length + (b.shift + f.length) = 32
    omega
  · change (b.bits <<< f.length) % 2 ^ 32 = bigNat held <<< (b.shift + f.length)
    rw [h.bits, ← shiftLeft_add, bigNat_append, shiftLeft_eq, shiftLeft_eq]
    generalize hk : b.shift + f.length = k
    have hpow : 2 ^ 32 = 2 ^ held.length * 2 ^ k := by
      rw [← pow_add]
      congr 1
      omega
    rw [hpow, show (bigNat f * 2 ^ held.length + bigNat held) * 2 ^ k =
      2 ^ held.length * 2 ^ k * bigNat f + bigNat held * 2 ^ k by ring, mul_add_mod,
      mod_eq_of_lt (Nat.mul_lt_mul_of_pos_right (bigNat_lt held) (Nat.two_pow_pos k))]

/-- What is in the container when only the last byte has been read. -/
theorem LitBits.holds_ofLast (stop : Nat) {last} (hlast : last ≠ 0) (hbyte : last < 2 ^ 8) :
    (LitBits.ofLast stop last).Holds (highBits last (Nat.log2 last)) := by
  have hlog : Nat.log2 last < 8 := (log2_lt hlast).mpr hbyte
  refine ⟨?_, ?_⟩
  · rw [highBits_length]
    change Nat.log2 last + (32 - Nat.log2 last) = 32
    omega
  · rw [bigNat_highBits]
    change (if Nat.log2 last ≠ 0 then (last <<< (32 - Nat.log2 last)) % 2 ^ 32 else 0) =
      (last % 2 ^ Nat.log2 last) <<< (32 - Nat.log2 last)
    split
    · rw [shiftLeft_eq, shiftLeft_eq, show 2 ^ 32 = 2 ^ Nat.log2 last * 2 ^ (32 - Nat.log2 last) by
        rw [← pow_add]; congr 1; omega, mul_mod_mul_right]
    · rename_i hzero
      rw [not_not.mp hzero, pow_zero, mod_one, zero_shiftLeft]

end

/-! ## Decoding -/

section
variable {inp : Nat → UInt8} {lo hi start : Nat} {table : Nat → UInt8 × Nat} {code len : UInt8 → Nat}

/-- Bytes are fetched until the container is full or the stream ends. -/
theorem load_spec (hlo : lo ≤ start) {fuel} {b : LitBits} {held} (h : b.Holds held)
    (hstop : start < b.stop) (hhi : b.stop ≤ hi) (hshift : 8 ≤ b.shift) (hfuel : b.shift < 8 * fuel + 8) :
    ∃ b' held', b.load inp lo hi (some start) fuel = .ok b' ∧ b'.Holds held' ∧ start ≤ b'.stop ∧
      b'.stop < b.stop ∧ (b'.shift < 8 ∨ b'.stop = start) ∧
      unread inp start b'.stop held' = unread inp start b.stop held := by
  induction fuel generalizing b held with
  | zero => omega
  | succ fuel ih =>
    have hbyte := (inp (b.stop - 1)).toNat_lt
    have hlength := h.length
    have hpush : LitBits.Holds ⟨b.stop - 1, b.bits ||| (inp (b.stop - 1)).toNat <<< (b.shift - 8),
        b.shift - 8⟩ (held ++ highBits (inp (b.stop - 1)).toNat 8) := by
      refine ⟨?_, ?_⟩
      · rw [length_append, highBits_length]
        dsimp only
        omega
      · rw [h.bits, bigNat_append, bigNat_highBits, highBits_length, mod_eq_of_lt hbyte,
          ← shiftLeft_eq, shiftLeft_add_eq_or_of_lt hbyte, shiftLeft_or_distrib,
          ← shiftLeft_add, show 8 + (b.shift - 8) = b.shift by omega]
    rw [LitBits.load, if_neg (by omega), if_neg (by omega)]
    rw [unread_push hstop]
    by_cases hmore : 8 ≤ b.shift - 8 ∧ below (some start) (b.stop - 1) = true
    · rw [if_pos hmore]
      obtain ⟨b', held', hrun, hholds, hle, hlt, hend, hunread⟩ := ih hpush
        (of_decide_eq_true hmore.2) (show b.stop - 1 ≤ hi by omega) hmore.1
        (show b.shift - 8 < 8 * fuel + 8 by omega)
      exact ⟨b', held', hrun, hholds, hle, lt_of_lt_of_le hlt (sub_le _ _), hend, hunread⟩
    · rw [if_neg hmore]
      refine ⟨_, _, rfl, hpush, show start ≤ b.stop - 1 by omega, show b.stop - 1 < b.stop by omega, ?_,
        rfl⟩
      change b.shift - 8 < 8 ∨ b.stop - 1 = start
      by_contra hend
      exact hmore ⟨by omega, decide_eq_true (by omega)⟩

/-- The next code of the stream, if there is one. -/
inductive NextCode (inp : Nat → UInt8) (start hi : Nat) (code len : UInt8 → Nat) (rest : List Bool) :
    Option ((UInt8 × Nat) × LitBits) → Prop where
  | found {s : UInt8} {b : LitBits} {held : List Bool} : 0 < len s → start ≤ b.stop → b.stop ≤ hi →
      b.Holds (literalBits code len s ++ held) →
      rest = literalBits code len s ++ unread inp start b.stop held →
      NextCode inp start hi code len rest (some ((s, len s), b))
  | missing : (∀ s, 0 < len s → ¬ literalBits code len s <+: rest) →
      NextCode inp start hi code len rest none

/-- An entry whose code is held. -/
theorem nextCode_of_held (ht : PrefixTable table code len) {b : LitBits} {held} (h : b.Holds held)
    (hstop : start ≤ b.stop) (hhi : b.stop ≤ hi) (hlen : (table (b.bits >>> 21)).2 ≤ 32 - b.shift) :
    NextCode inp start hi code len (unread inp start b.stop held) (some (table (b.bits >>> 21), b)) := by
  have hlength := h.length
  obtain ⟨heq, hpos, -⟩ := ht.entry _ h.index_lt
  obtain ⟨held', hheld⟩ := h.lookup ht (by omega)
  obtain ⟨s, l, hentry⟩ : ∃ s l, table (b.bits >>> 21) = (s, l) := ⟨_, _, rfl⟩
  rw [hentry] at heq hpos hheld ⊢
  obtain rfl : l = len s := heq
  subst hheld
  exact .found hpos hstop hhi h (append_assoc _ _ _)

/-- At the end of the stream no other code is there. -/
theorem nextCode_missing (ht : PrefixTable table code len) {b : LitBits} {held}
    (h : b.Holds held) (hend : b.stop = start) (hlen : ¬ (table (b.bits >>> 21)).2 ≤ 32 - b.shift) :
    NextCode inp start hi code len (unread inp start b.stop held) none := by
  refine .missing fun s hs hbits => hlen ?_
  have hlength := h.length
  have hheld : unread inp start b.stop held = held := by
    rw [unread, hend, Nat.sub_self]
    exact append_nil held
  rw [hheld] at hbits
  rw [h.found ht hs hbits]
  have hle := (ht.bits_prefix_iff.mp hbits).1
  omega

theorem entry_spec (ht : PrefixTable table code len) (hlo : lo ≤ start) {b : LitBits}
    {held} (h : b.Holds held) (hstop : start ≤ b.stop) (hhi : b.stop ≤ hi) :
    ∃ r, b.entry inp lo hi (some start) table 6 = .ok r ∧
      NextCode inp start hi code len (unread inp start b.stop held) r := by
  have hlength := h.length
  have hle11 {b : LitBits} {held : List Bool} (h : b.Holds held) : (table (b.bits >>> 21)).2 ≤ 11 :=
    (ht.entry _ h.index_lt).1 ▸ ht.len_le _
  have hle := hle11 h
  rw [LitBits.entry]
  by_cases hlen : (table (b.bits >>> 21)).2 ≤ 32 - b.shift
  · rw [if_pos hlen, if_neg (by omega)]
    exact ⟨_, rfl, nextCode_of_held ht h hstop hhi hlen⟩
  rw [if_neg hlen]
  by_cases hend : b.stop = start
  · rw [if_pos (by simp [below, hend])]
    exact ⟨_, rfl, nextCode_missing ht h hend hlen⟩
  rw [if_neg (by simp [below]; omega)]
  obtain ⟨b', held', hload, h', hstop', hlt, hfull, hunread⟩ := load_spec hlo h
    (lt_of_le_of_ne hstop (Ne.symm hend)) hhi (by omega)
    (show b.shift < 8 * 4 + 8 by omega)
  rw [hload, ← hunread]
  -- with a full container the second look succeeds
  have hle' := hle11 h'
  change ∃ r, b'.entry inp lo hi (some start) table 5 = .ok r ∧ _
  rw [LitBits.entry]
  by_cases hlen' : (table (b'.bits >>> 21)).2 ≤ 32 - b'.shift
  · rw [if_pos hlen', if_neg (by omega)]
    exact ⟨_, rfl, nextCode_of_held ht h' hstop' (by omega) hlen'⟩
  · have hend' : b'.stop = start := hfull.resolve_left (by omega)
    rw [if_neg hlen', if_pos (by simp [below, hend'])]
    exact ⟨_, rfl, nextCode_missing ht h' hend' hlen'⟩

/-- The literals that `literalLoop` finds: `n` of them, or all up to where no code follows. -/
inductive Literals (inp : Nat → UInt8) (start : Nat) (code len : UInt8 → Nat) (n : Nat)
    (rest : List Bool) : List UInt8 → Option LitBits → Prop where
  | all {syms : List UInt8} {b : LitBits} {held : List Bool} : syms.length = n →
      (∀ s ∈ syms, 0 < len s) → start ≤ b.stop → b.Holds held →
      rest = syms.flatMap (literalBits code len) ++ unread inp start b.stop held →
      Literals inp start code len n rest syms (some b)
  | short {syms : List UInt8} {rest' : List Bool} : syms.length < n → (∀ s ∈ syms, 0 < len s) →
      rest = syms.flatMap (literalBits code len) ++ rest' →
      (∀ s, 0 < len s → ¬ literalBits code len s <+: rest') →
      Literals inp start code len n rest syms none

theorem literalLoop_spec (ht : PrefixTable table code len) (hlo : lo ≤ start) (n out : Nat)
    {b : LitBits} {held} (h : b.Holds held) (hstop : start ≤ b.stop) (hhi : b.stop ≤ hi) (m : Mem) :
    ∃ syms r, (literalLoop inp lo hi (some start) table n out b).run m = .ok r (m.put out syms) ∧
      Literals inp start code len n (unread inp start b.stop held) syms r := by
  induction n generalizing out b held m with
  | zero => exact ⟨[], some b, rfl, .all rfl (by simp) hstop h rfl⟩
  | succ n ih =>
    obtain ⟨r, hentry, hnext⟩ : ∃ r, b.entry inp lo hi (some start) table 6 = .ok r ∧
        NextCode inp start hi code len (unread inp start b.stop held) r := entry_spec ht hlo h hstop hhi
    rw [literalLoop, hentry]
    cases hnext with
    | missing hnone => exact ⟨[], none, rfl, .short (succ_pos n) (by simp) rfl hnone⟩
    | @found s b' held' hs hstop' hhi' hholds hrest =>
      have hskip := hholds.skip
      rw [literalBits, highBits_length] at hskip
      obtain ⟨syms, r, hrun, hliterals⟩ := ih (out + 1) hskip hstop' hhi' (m.store out s)
      have hcoded {syms : List UInt8} (h : ∀ t ∈ syms, 0 < len t) : ∀ t ∈ s :: syms, 0 < len t :=
        forall_mem_cons.mpr ⟨hs, h⟩
      refine ⟨s :: syms, r, hrun, ?_⟩
      rw [hrest]
      cases hliterals with
      | all hlength hall hle hb heq =>
        refine .all (by rw [length_cons, hlength]) (hcoded hall) hle hb ?_
        rw [flatMap_cons, append_assoc, ← heq]
        rfl
      | short hlength hall heq hnone =>
        refine .short (succ_lt_succ hlength) (hcoded hall) ?_ hnone
        rw [flatMap_cons, append_assoc, ← heq]
        rfl

/-- A stream that is there and marked, as far as its literals go. -/
theorem stream_spec (ht : PrefixTable table code len) (hlo : lo ≤ start) {stop out outEnd}
    (hhi : stop ≤ hi) (hout : out < outEnd) {bits}
    (hbits : inputBits inp start (stop - start) = sealBits bits) (m : Mem) :
    ∃ syms r, Literals inp start code len (outEnd - out) bits syms r ∧
      (zstdDecompressLiteralStream inp lo hi (some start) table stop out outEnd).run m =
        .ok (r.elim false fun b => start = b.stop ∧ b.shift = 32) (m.put out syms) := by
  obtain ⟨k, hk, hlast, rfl⟩ := inputBits_eq_sealBits_iff.mp hbits
  have hstop : stop - 1 = start + k := by omega
  obtain ⟨syms, r, hrun, hliterals⟩ := literalLoop_spec ht hlo (outEnd - out) out
    (LitBits.holds_ofLast (start + k) hlast (inp (start + k)).toNat_lt) (Nat.le_add_right _ _)
    (show start + k ≤ hi by omega) m
  refine ⟨syms, r, hliterals, ?_⟩
  have hne : inp (start + k) ≠ 0 := fun h => hlast (by rw [h]; rfl)
  rw [zstdDecompressLiteralStream, decide_eq_true hout, assert_true, pure_bind,
    if_neg (by simp [below]; omega), hstop, fetch_of_mem inp (by omega) (by omega), pure_bind,
    if_neg hne, run_bind_of_ok hrun]
  cases r with
  | none => rfl
  | some b => simp

/-- A stream without a set bit in its last byte. -/
theorem stream_unmarked {stop out outEnd} (hlo : lo ≤ start) (hhi : stop ≤ hi) (hout : out < outEnd)
    (hbits : ∀ bits, inputBits inp start (stop - start) ≠ sealBits bits) (m : Mem) :
    (zstdDecompressLiteralStream inp lo hi (some start) table stop out outEnd).run m = .ok false m := by
  rw [zstdDecompressLiteralStream, decide_eq_true hout, assert_true, pure_bind]
  by_cases hstop : start < stop
  · have hzero : inp (stop - 1) = 0 := by
      by_contra hne
      refine hbits _ (inputBits_eq_sealBits_iff.mpr ⟨stop - start - 1, by omega, ?_, rfl⟩)
      rw [show start + (stop - start - 1) = stop - 1 by omega]
      exact fun h => hne (UInt8.toNat_inj.mp h)
    rw [if_neg (by simp [below, hstop]), fetch_of_mem inp (by omega) (by omega), pure_bind,
      if_pos hzero]
    rfl
  · rw [if_pos (by simp [below]; omega)]
    rfl

/-- A stream that begins with the codes of some literals. -/
def Encodes (inp : Nat → UInt8) (start stop : Nat) (code len : UInt8 → Nat) (syms : List UInt8)
    (rest : List Bool) : Prop :=
  (∀ s ∈ syms, 0 < len s) ∧
    inputBits inp start (stop - start) = sealBits (syms.flatMap (literalBits code len) ++ rest)

/-- No two strings of literals begin one stream, unless one of them begins the other. -/
theorem Encodes.prefix_of_le (ht : PrefixTable table code len) {stop} {syms syms' : List UInt8}
    {rest rest'} (h : Encodes inp start stop code len syms rest)
    (h' : Encodes inp start stop code len syms' rest') (hle : syms.length ≤ syms'.length) :
    syms <+: syms' := by
  have heq := sealBits_inj (h.2.symm.trans h'.2)
  rw [← take_append_drop syms.length syms', flatMap_append, append_assoc] at heq
  obtain ⟨htake, -⟩ := ht.free.inj h.1 (fun s hs => h'.1 s (mem_of_mem_take hs))
    (by rw [length_take, min_eq_left hle]) heq
  rw [htake]
  exact take_prefix _ _

/-- What a stream writes: as many of the literals it begins with as are asked for. It succeeds if there
are that many and nothing else. -/
structure StreamWrites (inp : Nat → UInt8) (start stop n : Nat) (code len : UInt8 → Nat)
    (syms : List UInt8) (ok : Bool) : Prop where
  length_le : syms.length ≤ n
  begins : syms ≠ [] → ∃ rest, Encodes inp start stop code len syms rest
  longest : ∀ syms' rest, Encodes inp start stop code len syms' rest → syms'.length ≤ n →
    syms'.length ≤ syms.length
  ok_iff : ok = true ↔ syms.length = n ∧ Encodes inp start stop code len syms []

/-- A stream of as many literals as are asked for gives them. -/
theorem StreamWrites.whole (ht : PrefixTable table code len) {stop n syms} {syms' : List UInt8}
    {ok} (h : StreamWrites inp start stop n code len syms ok) (hn : 0 < n)
    (hlength : syms'.length = n) (hall : Encodes inp start stop code len syms' []) :
    syms = syms' ∧ ok = true := by
  have hle := h.longest syms' [] hall (le_of_eq hlength)
  obtain ⟨rest, hbegins⟩ := h.begins (length_pos_iff.mp (by omega))
  obtain rfl := (hall.prefix_of_le ht hbegins hle).eq_of_length_le (hlength ▸ h.length_le)
  exact ⟨rfl, h.ok_iff.mpr ⟨hlength, hall⟩⟩

theorem stream_writes (ht : PrefixTable table code len) (hlo : lo ≤ start) {stop out outEnd}
    (hhi : stop ≤ hi) (hout : out < outEnd) (m : Mem) :
    ∃ syms ok, (zstdDecompressLiteralStream inp lo hi (some start) table stop out outEnd).run m =
      .ok ok (m.put out syms) ∧ StreamWrites inp start stop (outEnd - out) code len syms ok := by
  by_cases hbits : ∃ bits, inputBits inp start (stop - start) = sealBits bits
  · obtain ⟨bits, hbits⟩ := hbits
    obtain ⟨syms, r, hliterals, hrun⟩ := stream_spec ht hlo hhi hout hbits m
    refine ⟨syms, _, hrun, ?_⟩
    cases hliterals with
    | @all b held hlength hcoded hle hholds heq =>
      refine ⟨le_of_eq hlength, fun _ => ⟨_, hcoded, heq ▸ hbits⟩, fun _ _ _ hle => hlength ▸ hle, ?_⟩
      have hshift := hholds.length
      -- every bit has been used if none is held and no byte is left
      have hused : (start = b.stop ∧ b.shift = 32) ↔ unread inp start b.stop held = [] := by
        rw [eq_nil_iff_length_eq_zero, unread_length]
        omega
      rw [Option.elim_some, decide_eq_true_iff, hused]
      constructor
      · intro hnil
        rw [hnil] at heq
        exact ⟨hlength, hcoded, heq ▸ hbits⟩
      · rintro ⟨-, -, hall⟩
        rw [hbits, heq] at hall
        exact append_cancel_left (sealBits_inj hall)
    | short hlength hcoded heq hnone =>
      refine ⟨le_of_lt hlength, fun _ => ⟨_, hcoded, heq ▸ hbits⟩, fun syms' rest h _ => ?_,
        fun h => absurd h Bool.false_ne_true, fun h => absurd h.1 (Nat.ne_of_lt hlength)⟩
      by_contra hlt
      have heq' := sealBits_inj (hbits.symm.trans h.2)
      obtain ⟨s, hs, hnext⟩ := ht.free.next hcoded h.1 (not_le.mp hlt) (heq.symm.trans heq')
      exact hnone s hs hnext
  · have hnone {syms : List UInt8} {rest : List Bool} : ¬ Encodes inp start stop code len syms rest :=
      fun h => hbits ⟨_, h.2⟩
    refine ⟨[], false, stream_unmarked hlo hhi hout (fun bits h => hbits ⟨bits, h⟩) m, ?_⟩
    exact ⟨Nat.zero_le _, fun h => absurd rfl h, fun _ _ h _ => absurd h hnone,
      fun h => absurd h Bool.false_ne_true, fun h => absurd h.2 hnone⟩

end

/-- A stream decodes to the literals it is the code of, and to nothing if it is not the code of as many
literals as are asked for. -/
theorem literal_stream_roundtrip {inp : Nat → UInt8} {lo hi start stop out : Nat}
    {table : Nat → UInt8 × Nat} {code len : UInt8 → Nat} (ht : PrefixTable table code len)
    (hlo : lo ≤ start) (hhi : stop ≤ hi) (m : Mem) :
    (∀ syms : List UInt8, syms ≠ [] → (∀ s ∈ syms, 0 < len s) →
      inputBits inp start (stop - start) = sealBits (syms.flatMap (literalBits code len)) →
      (zstdDecompressLiteralStream inp lo hi (some start) table stop out (out + syms.length)).run m =
        .ok true (m.put out syms)) ∧
    ∀ outEnd m', (zstdDecompressLiteralStream inp lo hi (some start) table stop out outEnd).run m =
        .ok true m' →
      ∃ syms : List UInt8, syms.length = outEnd - out ∧ (∀ s ∈ syms, 0 < len s) ∧
        inputBits inp start (stop - start) = sealBits (syms.flatMap (literalBits code len)) ∧
        m' = m.put out syms := by
  constructor
  · intro syms hne hcoded hbits
    have hlength := length_pos_iff.mpr hne
    obtain ⟨syms', ok, hrun, hwrites⟩ := stream_writes ht hlo hhi (Nat.lt_add_of_pos_right hlength) m
    rw [Nat.add_sub_cancel_left] at hwrites
    obtain ⟨rfl, rfl⟩ := hwrites.whole ht hlength rfl ⟨hcoded, by rw [hbits, append_nil]⟩
    exact hrun
  · intro outEnd m' hrun
    obtain ⟨syms, ok, hrun', hwrites⟩ := stream_writes ht hlo hhi (stream_produces hrun).1 m
    rw [hrun', Res.ok.injEq] at hrun
    obtain ⟨hlength, hcoded, hbits⟩ := hwrites.ok_iff.mp hrun.1
    exact ⟨syms, hlength, hcoded, by rw [hbits, append_nil], hrun.2.symm⟩

/-- The two codes of one bit. -/
def bitTable (i : Nat) : UInt8 × Nat := if i < 1024 then (0, 1) else (1, 1)

def bitCode (s : UInt8) : Nat := if s = 1 then 1 else 0

def bitLen (s : UInt8) : Nat := if s ≤ 1 then 1 else 0

theorem bitTable_prefixTable : PrefixTable bitTable bitCode bitLen := by
  have hlen (s : UInt8) (hs : 0 < bitLen s) : s = 0 ∨ s = 1 := by
    rw [bitLen] at hs
    split at hs
    · rename_i hle
      rcases le_one_iff_eq_zero_or_eq_one.mp hle with h | h
      · exact .inl (UInt8.toNat_inj.mp h)
      · exact .inr (UInt8.toNat_inj.mp h)
    · cases hs
  refine ⟨fun s => ?_, fun s => ?_, fun i hi => ?_, fun s hs i hi => ?_⟩
  · rw [bitLen]
    split <;> decide
  · rw [bitCode]
    split
    · rename_i hone
      rw [hone]
      decide
    · exact Nat.two_pow_pos _
  · rw [bitTable]
    split
    · exact ⟨rfl, by decide, show i >>> 10 = 0 by rw [shiftRight_eq_div_pow]; omega⟩
    · exact ⟨rfl, by decide, show i >>> 10 = 1 by rw [shiftRight_eq_div_pow]; omega⟩
  · rcases hlen s hs with rfl | rfl
    · intro hindex
      change i >>> 10 = 0 at hindex
      rw [bitTable, if_pos (by omega)]
    · intro hindex
      change i >>> 10 = 1 at hindex
      rw [bitTable, if_neg (by omega)]

/-- Two literals in one byte. -/
theorem literal_stream_byte :
    inputBits (fun _ => 5) 0 1 = sealBits ([0, 1].flatMap (literalBits bitCode bitLen)) ∧
      (zstdDecompressLiteralStream (fun _ => 5) 0 1 (some 0) bitTable 1 0 2).run ⟨fun _ => 0, []⟩ =
        .ok true ((⟨fun _ => 0, []⟩ : Mem).put 0 [0, 1]) := by
  have hbits : inputBits (fun _ => 5) 0 1 = sealBits ([0, 1].flatMap (literalBits bitCode bitLen)) := by
    decide
  refine ⟨hbits, ?_⟩
  exact (literal_stream_roundtrip bitTable_prefixTable (le_refl 0) (le_refl 1) _).1 [0, 1]
    (by simp) (by simp [bitLen]) hbits

end Rkboot.Compression.Zstd
