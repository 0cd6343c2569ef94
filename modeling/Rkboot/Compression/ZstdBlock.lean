import Rkboot.Compression.Zstd
import Rkboot.Lib.Lz77

/-! # Sequence execution in a shared buffer

The literals of a block are decoded to the end of the output space, and its sequences
then write from the start of that space towards them. Here that is compared with an
execution that has the literals in a list of their own: the bytes are the same, no
literal is overwritten before it is used, and whatever the block is, nothing is stored
outside the space and its scratch bytes. -/
namespace Rkboot.Compression.Zstd
open Lib Lz77 Lzcommon Nat Exec List

variable {n out stop outEnd sequence fuel numSeq ptr literalPtr : Nat} {m m' m₁ : Mem}
  {tables tables' : DecTables} {c c' : CopyState} {s s' : SequencesState}
  {probe : LiteralsProbe} {literalStart : Option Nat}

/-! ## Literals -/

/-- Wherever `f` writes, and whatever is there, it returns `a` and leaves `l` behind; at most the
scratch bytes after `l` are stored to as well. -/
def Produces {α : Type} (f : Nat → Exec α) (a : α) (l : List UInt8) : Prop :=
  ∀ out m, ∃ m', (f out).run m = .ok a m' ∧ Stored m m' out (out + l.length + 8) ∧
    m'.bytes out l.length = l

/-- A writer that continues behind what another one wrote. -/
theorem Produces.append {α β : Type} {f} {g : α → Nat → Exec β} {a b}
    {l : List UInt8} {r} (hf : Produces f a l) (hg : Produces (g a) b r) :
    Produces (fun out => f out >>= fun a => g a (out + l.length)) b (l ++ r) := by
  intro out m
  obtain ⟨m₁, hrun, hs, hl⟩ := hf out m
  obtain ⟨m₂, hrun', hs', hr⟩ := hg (out + l.length) m₁
  refine ⟨m₂, ?_, ?_, ?_⟩
  · rw [run_bind_of_ok hrun, hrun']
  · rw [length_append]
    exact (hs.mono le_rfl (by omega)).trans (hs'.mono (by omega) (by omega))
  · rw [length_append, m₂.bytes_append, hr, hs'.bytes (.inl le_rfl), hl]

theorem Produces.congr {α : Type} {f g : Nat → Exec α} {a l}
    (hf : Produces f a l) (h : ∀ out, g out = f out) : Produces g a l := by
  rwa [show g = f from funext h]

section
variable {inp : Nat → UInt8} {lo hi : Nat} {start : Option Nat} {table : Nat → UInt8 × Nat}

/-- One run of the loop shows what every run of it does. -/
theorem literalLoop_produces {b b'}
    (h : (literalLoop inp lo hi start table n out b).run m = .ok (some b') m') : ∃ l, l.length = n ∧
      Produces (fun out => literalLoop inp lo hi start table n out b) (some b') l := by
  induction n generalizing out b m with
  | zero =>
    cases h
    exact ⟨[], rfl, fun out m => ⟨m, rfl, .refl _ _ _, rfl⟩⟩
  | succ n ih =>
    obtain ⟨_ | ⟨⟨sym, len⟩, b₁⟩, he, h⟩ := bind_lift_eq_ok h
    · cases h
    obtain ⟨l, hl, hp⟩ := ih h
    have hstore : Produces (fun out => Exec.store out sym) () [sym] := fun out m =>
      ⟨_, rfl, .store m _ le_rfl (by simp; omega), by simp [Mem.bytes, bytesAt]⟩
    refine ⟨sym :: l, by simp [hl], ?_⟩
    refine (hstore.append (g := fun _ out => literalLoop inp lo hi start table n out (b₁.skip len))
      hp).congr fun out => ?_
    rw [literalLoop, he]
    rfl

theorem stream_produces
    (h : (zstdDecompressLiteralStream inp lo hi start table stop out outEnd).run m = .ok true m') :
    out < outEnd ∧ ∃ l, l.length = outEnd - out ∧
      Produces (fun o => zstdDecompressLiteralStream inp lo hi start table stop o
        (o + (outEnd - out))) true l := by
  obtain ⟨hlt, h⟩ := bind_assert_eq_ok h
  have hlt : out < outEnd := of_decide_eq_true hlt
  refine ⟨hlt, ?_⟩
  split at h
  · cases h
  rename_i hbelow
  obtain ⟨last, m₁, hlast, h⟩ := bind_eq_ok h
  have hfetch := fetch_eq_ok hlast
  split at h
  · cases h
  rename_i hne
  obtain ⟨_ | b, m₂, hloop, h⟩ := bind_eq_ok h
  · cases h
  obtain ⟨l, hl, hp⟩ := literalLoop_produces hloop
  refine ⟨l, hl, fun o m => ?_⟩
  obtain ⟨m', hrun, hs, hbytes⟩ := hp o m
  refine ⟨m', ?_, hs, hbytes⟩
  beta_reduce
  rw [zstdDecompressLiteralStream, decide_eq_true (by omega : o < o + (outEnd - out)),
    assert_true, pure_bind, if_neg hbelow, hfetch, pure_bind, if_neg hne,
    Nat.add_sub_cancel_left, run_bind_of_ok hrun]
  rw [run_pure, Res.ok.injEq] at h
  rw [run_pure, h.1]

/-- `if (!x) {return 0;} return y;` of writers that succeed. -/
theorem Produces.andThen {f g} {l : List UInt8} {r} (hf : Produces f true l)
    (hg : Produces g true r) : Produces (fun out => do
      let ok ← f out
      if !ok then pure false else g (out + l.length)) true (l ++ r) :=
  hf.append (g := fun ok out => if !ok then pure false else g out) hg

theorem huff4_produces
    (h : (zstdDecodeHuff4streams inp lo hi start stop out (out + n) table).run m = .ok true m') :
    ∃ l, l.length = n ∧
      Produces (fun out => zstdDecodeHuff4streams inp lo hi start stop out (out + n) table) true l := by
  unfold zstdDecodeHuff4streams at h
  cases start with
  | none => cases h
  | some start =>
    dsimp only at h
    split at h
    · cases h
    rename_i h10
    split at h
    · cases h
    rename_i hsizes
    rw [Nat.add_sub_cancel_left] at h
    have hstep : ∀ {x : Exec Bool} {y : Exec Bool} {m : Mem},
        (do let ok ← x; if !ok then pure false else y : Exec Bool).run m = .ok true m' →
        ∃ m₁, x.run m = .ok true m₁ ∧ y.run m₁ = .ok true m' := by
      intro x y m h
      obtain ⟨_ | _, m₁, hx, h⟩ := bind_eq_ok h
      · cases h
      · exact ⟨m₁, hx, h⟩
    obtain ⟨m₁, h1, h⟩ := hstep h
    obtain ⟨m₂, h2, h⟩ := hstep h
    obtain ⟨m₃, h3, h⟩ := hstep h
    obtain ⟨-, l₁, hl₁, hp₁⟩ := stream_produces h1
    obtain ⟨-, l₂, hl₂, hp₂⟩ := stream_produces h2
    obtain ⟨-, l₃, hl₃, hp₃⟩ := stream_produces h3
    obtain ⟨hlt, l₄, hl₄, hp₄⟩ := stream_produces h
    rw [Nat.add_sub_cancel_left] at hl₁ hl₂ hl₃ hp₁ hp₂ hp₃
    refine ⟨l₁ ++ (l₂ ++ (l₃ ++ l₄)), by simp [hl₁, hl₂, hl₃, hl₄]; omega, ?_⟩
    refine (hp₁.andThen (hp₂.andThen (hp₃.andThen hp₄))).congr fun o => ?_
    unfold zstdDecodeHuff4streams
    dsimp only
    rw [if_neg h10, if_neg hsizes, Nat.add_sub_cancel_left, hl₁, hl₂, hl₃]
    rw [show o + (n + 3) / 4 + (n + 3) / 4 + (n + 3) / 4 +
      (out + n - (out + (n + 3) / 4 + (n + 3) / 4 + (n + 3) / 4)) = o + n by omega]

variable {stop out n : Nat} {m m' : Mem}

theorem stream_uniform (stop : Nat) {out} :
    (zstdDecompressLiteralStream inp lo hi start table stop out outEnd).Uniform out (max out outEnd) := by
  have hloop : ∀ n out b, (literalLoop inp lo hi start table n out b).Uniform out (out + n) := by
    intro n
    induction n with
    | zero => exact fun out b => .pure _
    | succ n ih =>
      intro out b
      refine (Exec.Uniform.lift _).bind fun e => ?_
      match e with
      | none => exact .pure _
      | some ((sym, len), b) =>
        exact (Exec.Uniform.store _ le_rfl (by omega)).bind fun _ =>
          (ih (out + 1) (b.skip len)).mono (by omega) (by omega)
  refine (Exec.Uniform.assert _).bind fun _ => .ite (fun _ => .pure _) fun _ => ?_
  refine (Exec.Uniform.fetch _ _ _ _).bind fun _ => .ite (fun _ => .pure _) fun _ => ?_
  refine ((hloop _ _ _).mono le_rfl (by omega)).bind fun b => ?_
  cases b <;> exact .pure _

/-- The first three streams may end two bytes behind what they are to fill. -/
theorem huff4_uniform (stop : Nat) {out} (h : out ≤ outEnd) :
    (zstdDecodeHuff4streams inp lo hi start stop out outEnd table).Uniform out (outEnd + 2) := by
  have hstream : ∀ start stop o e, out ≤ o → max o e ≤ outEnd + 2 →
      (zstdDecompressLiteralStream inp lo hi start table stop o e).Uniform out (outEnd + 2) :=
    fun start stop o e ho he => (stream_uniform stop).mono ho he
  cases start with
  | none => exact .fault _
  | some start =>
    refine .ite (fun _ => .pure _) fun _ => .ite (fun _ => .pure _) fun _ => ?_
    refine (hstream _ _ _ _ (by omega) (by omega)).bind fun _ => .ite (fun _ => .pure _) fun _ => ?_
    refine (hstream _ _ _ _ (by omega) (by omega)).bind fun _ => .ite (fun _ => .pure _) fun _ => ?_
    refine (hstream _ _ _ _ (by omega) (by omega)).bind fun _ => .ite (fun _ => .pure _) fun _ => ?_
    exact hstream _ _ _ _ (by omega) (by omega)

theorem raw_produces {start} :
    Produces (fun out => decodeLiterals inp lo hi (some start) stop out (out + n) .raw tables) true
      (bytesAt inp start n) := by
  intro out m
  obtain ⟨m', hrun, hs, hbytes⟩ := literalCopy_ok inp (.inl rfl : Separate .input out start n) m
  refine ⟨m', ?_, hs.mono le_rfl (by rw [bytesAt_length]; omega), ?_⟩
  · show (do lzcommonLiteralCopy inp .input out start (out + n - out); pure true : Exec Bool).run m = _
    rw [Nat.add_sub_cancel_left, run_bind_of_ok hrun]
    rfl
  · rw [bytesAt_length]
    exact bytesAt_eq hbytes

theorem decodeLiterals_produces {kind}
    (h : (decodeLiterals inp lo hi start stop out (out + n) kind tables).run m = .ok true m') :
    ∃ l, l.length = n ∧
      Produces (fun out => decodeLiterals inp lo hi start stop out (out + n) kind tables) true l := by
  match kind, start with
  | .huff _ true, start =>
    obtain ⟨-, l, hl, hp⟩ := stream_produces h
    rw [Nat.add_sub_cancel_left] at hl hp
    exact ⟨l, hl, hp⟩
  | .huff _ false, start => exact huff4_produces h
  | .raw, none => cases h
  | .rle, none => cases h
  | .raw, some start => exact ⟨bytesAt inp start n, by simp, raw_produces⟩
  | .rle, some start =>
    refine ⟨bytesAt (fun _ => inp start) 0 n, by simp, fun out m => ?_⟩
    refine ⟨m.memset out (inp start) n, ?_, ?_, ?_⟩
    · show Res.ok true (m.memset out (inp start) (out + n - out)) = _
      rw [Nat.add_sub_cancel_left]
    · exact (m.memset_stored out (inp start) n).mono le_rfl (by simp)
    · rw [bytesAt_length]
      exact bytesAt_eq fun i hi => Mem.memset_byte hi

theorem decodeLiterals_uniform (stop : Nat) {out} (kind : LiteralsKind) (tables : DecTables)
    (h : out ≤ outEnd) : (decodeLiterals inp lo hi start stop out outEnd kind tables).Uniform out
      (outEnd + 8) := by
  match kind, start with
  | .huff _ true, start => exact (stream_uniform stop).mono le_rfl (by omega)
  | .huff _ false, start => exact (huff4_uniform stop h).mono le_rfl (by omega)
  | .raw, none => exact .fault _
  | .rle, none => exact .fault _
  | .raw, some start =>
    refine Exec.Uniform.bind (.returns (a := ()) fun m => ?_) fun _ => .pure _
    obtain ⟨m', hrun, hs, -⟩ :=
      literalCopy_ok inp (.inl rfl : Separate .input out start (outEnd - out)) m
    exact ⟨m', hrun, hs.mono le_rfl (by omega)⟩
  | .rle, some start =>
    exact (Exec.Uniform.modify fun m => (m.memset_stored out (inp start) _).mono le_rfl
      (by omega)).bind fun _ => .pure _

end

/-! ## Reference execution -/

/-- A sequence: literals to copy, and then a match. -/
structure Sequence where
  copy : Nat
  length : Nat
  dist : Nat
  deriving DecidableEq, Repr

def Sequence.unpack (sequence : Nat) : Sequence :=
  ⟨sequenceCopy sequence, sequenceLength sequence, sequenceDist sequence⟩

/-- How many literals the sequences copy. -/
def copied (ss : List Sequence) : Nat := (ss.map Sequence.copy).sum

/-- What the sequences make of a list of literals, without the literals they leave. -/
def sequenceTokens : List Sequence → List UInt8 → List Token
  | [], _ => []
  | s :: ss, l => lits (l.take s.copy) ++ .copy s.length s.dist :: sequenceTokens ss (l.drop s.copy)

/-- The whole block: the sequences, and then the literals they leave. -/
def execution (ss : List Sequence) (l : List UInt8) : List Token :=
  sequenceTokens ss l ++ lits (l.drop (copied ss))

@[simp] theorem copied_append (ss ss' : List Sequence) :
    copied (ss ++ ss') = copied ss + copied ss' := by simp [copied]

theorem sequenceTokens_append (ss ss' : List Sequence) (l : List UInt8) :
    sequenceTokens (ss ++ ss') l = sequenceTokens ss l ++ sequenceTokens ss' (l.drop (copied ss)) := by
  induction ss generalizing l with
  | nil => simp [sequenceTokens, copied]
  | cons s ss ih => simp [sequenceTokens, ih, copied, drop_drop]

/-! ## One sequence -/

/-- Where the write pointer and the literals are: the rest of the literals has room behind the
write pointer, and ends where the space and its scratch bytes end if it is in the output. -/
structure CopyState.Fits (c : CopyState) (sp : Space) (outEnd : Nat) : Prop where
  room : c.out + c.size ≤ outEnd
  tail : sp = .output → c.literalPtr + c.size = outEnd + 8

/-- The literals that are left. -/
def CopyState.literals (c : CopyState) (inp : Nat → UInt8) (sp : Space) (m : Mem) : List UInt8 :=
  bytesAt (m.src inp sp) c.literalPtr c.size

/-- Literals in the input, or behind everything that was stored to, are still there. -/
theorem bytesAt_src_eq {inp sp} {m m' : Mem} {lo hi a n}
    (hs : Stored m m' lo hi) (h : sp = .output → hi ≤ a) :
    bytesAt (m'.src inp sp) a n = bytesAt (m.src inp sp) a n := by
  refine bytesAt_congr fun i _ => ?_
  cases sp with
  | input => rfl
  | output =>
    have := h rfl
    exact hs.frame _ (by omega)

section
variable {inp : Nat → UInt8} {sp : Space} {outEnd windowStart : Nat}

/-- What the execution of the sequences leaves behind: the output they give on the literals that
were left, and the other literals as they were. -/
structure Executed (inp : Nat → UInt8) (sp : Space) (outEnd windowStart : Nat) (c : CopyState)
    (m : Mem) (ss : List Sequence) (c' : CopyState) (m' : Mem) : Prop where
  fits : c'.Fits sp outEnd
  out_le : c.out ≤ c'.out
  covered : copied ss ≤ c.size
  literals : c'.literals inp sp m' = (c.literals inp sp m).drop (copied ss)
  reaches : Reaches (c.out - windowStart) (sequenceTokens ss (c.literals inp sp m))
  bytes : m'.bytes windowStart (c'.out - windowStart) =
    expand (m.bytes windowStart (c.out - windowStart)) (sequenceTokens ss (c.literals inp sp m))

theorem Executed.refl (m : Mem) (hc : c.Fits sp outEnd) :
    Executed inp sp outEnd windowStart c m [] c m :=
  ⟨hc, le_rfl, Nat.zero_le _, rfl, trivial, rfl⟩

theorem Executed.size {m m' ss}
    (h : Executed inp sp outEnd windowStart c m ss c' m') : c'.size = c.size - copied ss := by
  simpa [CopyState.literals] using congrArg List.length h.literals

theorem Executed.trans {c'' m m' m'' ss ss'} (h : Executed inp sp outEnd windowStart c m ss c' m')
    (h' : Executed inp sp outEnd windowStart c' m' ss' c'' m'') :
    Executed inp sp outEnd windowStart c m (ss ++ ss') c'' m'' where
  fits := h'.fits
  out_le := h.out_le.trans h'.out_le
  covered := by
    have := h.size
    have := h.covered
    have := h'.covered
    rw [copied_append]
    omega
  literals := by rw [h'.literals, h.literals, drop_drop, copied_append]
  reaches := by
    have hlen := congrArg List.length h.bytes
    rw [expand_length, Mem.bytes_length, Mem.bytes_length] at hlen
    rw [sequenceTokens_append, Reaches.append, ← h.literals, ← hlen]
    exact ⟨h.reaches, h'.reaches⟩
  bytes := by rw [h'.bytes, h.bytes, sequenceTokens_append, expand_append, h.literals]

theorem sequenceDist_pos (h : sequence < 2 ^ 64) : 0 < sequenceDist sequence := by
  rw [sequenceDist, mod_eq_of_lt (by omega)]
  omega

/-- A literal copy and a match copy as the copy routines make them. -/
theorem Executed.one (hseq : sequence < 2 ^ 64) {m m₂ : Mem}
    (hc : c.Fits sp outEnd) (hw : windowStart ≤ c.out) (hcopy : sequenceCopy sequence ≤ c.size)
    (hspace : sequenceLength sequence + c.size ≤ outEnd - c.out)
    (hdist : sequenceDist sequence ≤ c.out + sequenceCopy sequence - windowStart)
    (hs₁ : Stored m m₁ c.out (c.out + sequenceCopy sequence + 8))
    (hbytes₁ : ∀ i, i < sequenceCopy sequence →
      m₁.byte (c.out + i) = m.src inp sp (c.literalPtr + i))
    (hs₂ : Stored m₁ m₂ (c.out + sequenceCopy sequence)
      (c.out + sequenceCopy sequence + sequenceLength sequence + 8))
    (hbytes₂ : ∀ i < sequenceLength sequence, m₂.byte (c.out + sequenceCopy sequence + i) =
      m₂.byte (c.out + sequenceCopy sequence + i - sequenceDist sequence)) :
    Executed inp sp outEnd windowStart c m [.unpack sequence]
      ⟨c.out + sequenceCopy sequence + sequenceLength sequence,
        c.literalPtr + sequenceCopy sequence, c.size - sequenceCopy sequence⟩ m₂ := by
  have hlen : 3 ≤ sequenceLength sequence := Nat.le_add_left _ _
  have hpos := sequenceDist_pos hseq
  have hcopied : copied [.unpack sequence] = sequenceCopy sequence := by
    simp [copied, Sequence.unpack]
  have htokens : sequenceTokens [.unpack sequence] (c.literals inp sp m) =
      lits ((c.literals inp sp m).take (sequenceCopy sequence)) ++
        [.copy (sequenceLength sequence) (sequenceDist sequence)] := rfl
  have htake : m₁.bytes c.out (sequenceCopy sequence) =
      (c.literals inp sp m).take (sequenceCopy sequence) := by
    rw [CopyState.literals, bytesAt_take _ hcopy]
    exact bytesAt_eq hbytes₁
  have hsize : ((c.literals inp sp m).take (sequenceCopy sequence)).length =
      sequenceCopy sequence := by
    rw [← htake, Mem.bytes_length]
  refine ⟨⟨by dsimp only; omega, fun h => ?_⟩, by dsimp only; omega, by omega, ?_, ?_, ?_⟩
  · have := hc.tail h
    dsimp only
    omega
  · -- what is left of the literals lies behind all that was stored
    have hlit : sp = .output → c.out + c.size + sequenceLength sequence + 8 ≤ c.literalPtr + c.size :=
      fun h => by
        have := hc.tail h
        omega
    rw [hcopied, CopyState.literals, CopyState.literals, bytesAt_drop _ hcopy]
    dsimp only
    rw [bytesAt_src_eq hs₂ fun h => by have := hlit h; omega,
      bytesAt_src_eq hs₁ fun h => by have := hlit h; omega]
  · rw [htokens, Reaches.append, size_lits, hsize]
    exact ⟨reaches_lits _ _, hpos, by omega, trivial⟩
  · rw [htokens, expand_append, expand_lits]
    have hout := bytes_extend hw hs₁ hsize htake
    have hmatch := bytes_copyFrom (by omega : windowStart ≤ c.out + sequenceCopy sequence) hs₂ hpos hdist
      hbytes₂
    rw [hmatch, hout]
    rfl

/-- What is returned does not depend on the memory. -/
theorem execSequence_spec (inp : Nat → UInt8) (hseq : sequence < 2 ^ 64)
    (hc : c.Fits sp outEnd) (hw : windowStart ≤ c.out) :
    ∃ r, ∀ m, ∃ m', (execSequence inp sp outEnd windowStart sequence c).run m = .ok r m' ∧
      Stored m m' c.out (outEnd + 8) ∧
      ∀ c', r = .ok c' → Executed inp sp outEnd windowStart c m [.unpack sequence] c' m' := by
  have hlen : 3 ≤ sequenceLength sequence := Nat.le_add_left _ _
  unfold execSequence
  dsimp only
  split
  · exact ⟨_, fun m => ⟨m, rfl, .refl _ _ _, by simp⟩⟩
  rename_i hcopy
  split
  · exact ⟨_, fun m => ⟨m, rfl, .refl _ _ _, by simp⟩⟩
  rename_i hspace
  have hsep : Separate sp c.out c.literalPtr (sequenceCopy sequence) := by
    cases sp with
    | input => exact .inl rfl
    | output =>
      have := hc.tail rfl
      exact .inr (.inr (by omega))
  have hcopied (m : Mem) := literalCopy_ok inp hsep m
  split
  · refine ⟨.error .err, fun m => ?_⟩
    obtain ⟨m₁, hrun₁, hs₁, -⟩ := hcopied m
    exact ⟨m₁, by rw [run_bind_of_ok hrun₁]; rfl, hs₁.mono le_rfl (by omega), by simp⟩
  rename_i hdist
  refine ⟨.ok ⟨c.out + sequenceCopy sequence + sequenceLength sequence,
    c.literalPtr + sequenceCopy sequence, c.size - sequenceCopy sequence⟩, fun m => ?_⟩
  obtain ⟨m₁, hrun₁, hs₁, hbytes₁⟩ := hcopied m
  obtain ⟨m₂, hrun₂, hs₂, hbytes₂⟩ := matchCopy_ok inp (sequenceLength sequence)
    (sequenceDist_pos hseq) (by omega : sequenceDist sequence ≤ c.out + sequenceCopy sequence) m₁
  refine ⟨m₂, by rw [run_bind_of_ok hrun₁, run_bind_of_ok hrun₂]; rfl,
    (hs₁.mono le_rfl (by omega)).trans (hs₂.mono (by omega) (by omega)), ?_⟩
  rintro c' ⟨rfl⟩
  exact .one hseq hc hw (by omega) (by omega) (by omega) (hs₁.mono le_rfl (by omega)) hbytes₁
    (hs₂.mono le_rfl (by omega)) hbytes₂

/-! ## Many sequences -/

theorem execSequences_spec (inp : Nat → UInt8) {sequences : List Nat}
    (hseq : ∀ s ∈ sequences, s < 2 ^ 64) (hc : c.Fits sp outEnd) (hw : windowStart ≤ c.out) :
    ∃ r, ∀ m, ∃ m', (execSequences inp sp outEnd windowStart sequences c).run m = .ok r m' ∧
      Stored m m' c.out (outEnd + 8) ∧ ∀ c', r = .ok c' →
        Executed inp sp outEnd windowStart c m (sequences.map .unpack) c' m' := by
  induction sequences generalizing c with
  | nil =>
    refine ⟨.ok c, fun m => ⟨m, rfl, .refl _ _ _, ?_⟩⟩
    rintro c' ⟨rfl⟩
    exact .refl m hc
  | cons sequence rest ih =>
    obtain ⟨hfirst, hrest⟩ := forall_mem_cons.mp hseq
    obtain ⟨r, hr⟩ := execSequence_spec inp hfirst hc hw
    cases r with
    | error e =>
      refine ⟨.error e, fun m => ?_⟩
      obtain ⟨m₁, hrun, hs, -⟩ := hr m
      exact ⟨m₁, by rw [execSequences, run_bind_of_ok hrun]; rfl, hs, by simp⟩
    | ok c₁ =>
      obtain ⟨_, -, -, hfirst₁⟩ := hr ⟨fun _ => 0, []⟩
      obtain ⟨r', hr'⟩ := ih hrest (hfirst₁ c₁ rfl).fits (hw.trans (hfirst₁ c₁ rfl).out_le)
      refine ⟨r', fun m => ?_⟩
      obtain ⟨m₁, hrun, hs, hone⟩ := hr m
      obtain ⟨m₂, hrun', hs', hmore⟩ := hr' m₁
      exact ⟨m₂, by rw [execSequences, run_bind_of_ok hrun]; exact hrun',
        hs.trans (hs'.mono (hone c₁ rfl).out_le le_rfl),
        fun c' h => (hone c₁ rfl).trans (hmore c' h)⟩

end

section
variable {unaligned : Bool} {inp : Nat → UInt8} {lo hi start : Nat} {tables : DecTables}

theorem packSequence_lt {copy length dist}
    (h : packSequence s copy length dist = .ok (some (sequence, s'))) : sequence < 2 ^ 64 := by
  obtain ⟨⟨used, s₁⟩, -, h⟩ := except_bind_eq_ok h
  dsimp only at h
  split at h
  · cases h
  split at h
  · cases h
  · cases h
    exact mod_lt _ (by decide)

theorem decodeSequence_lt
    (h : decodeSequence unaligned inp lo hi start tables s = .ok (some (sequence, s'))) :
    sequence < 2 ^ 64 := by
  obtain ⟨_ | ⟨⟨stateCopy, stateLength, stateDist⟩, b⟩, -, h⟩ := except_bind_eq_ok h
  · cases h
  obtain ⟨_, -, h⟩ := except_bind_eq_ok h
  obtain ⟨_, -, h⟩ := except_bind_eq_ok h
  obtain ⟨_, -, h⟩ := except_bind_eq_ok h
  obtain ⟨_, -, h⟩ := except_bind_eq_ok h
  obtain ⟨_, -, h⟩ := except_bind_eq_ok h
  obtain ⟨_ | ⟨⟨extraDist, extraLength, extraCopy⟩, b⟩, -, h⟩ := except_bind_eq_ok h
  · cases h
  · exact packSequence_lt h

/-- One sequence and the others. -/
theorem decodeSequences_succ {n l}
    (h : decodeSequences unaligned inp lo hi start tables (n + 1) s = .ok (some (l, s'))) :
    ∃ sequence rest s₁, l = sequence :: rest ∧
      decodeSequence unaligned inp lo hi start tables s = .ok (some (sequence, s₁)) ∧
      decodeSequences unaligned inp lo hi start tables n s₁ = .ok (some (rest, s')) := by
  obtain ⟨_ | ⟨sequence, s₁⟩, hr, h⟩ := except_bind_eq_ok h
  · cases h
  obtain ⟨_ | ⟨rest, s₂⟩, hr', h⟩ := except_bind_eq_ok h
  · cases h
  · cases h
    exact ⟨sequence, rest, s₁, rfl, hr, hr'⟩

theorem decodeSequences_lt {n l}
    (h : decodeSequences unaligned inp lo hi start tables n s = .ok (some (l, s'))) :
    ∀ x ∈ l, x < 2 ^ 64 := by
  induction n generalizing s l with
  | zero =>
    cases h
    simp
  | succ n ih =>
    obtain ⟨sequence, rest, s₁, rfl, hr, hrest⟩ := decodeSequences_succ h
    exact forall_mem_cons.mpr ⟨decodeSequence_lt hr, ih hrest⟩

/-- Rounds can be joined. -/
theorem decodeSequences_append {n k s₁ s₂ l r}
    (h : decodeSequences unaligned inp lo hi start tables n s = .ok (some (l, s₁)))
    (h' : decodeSequences unaligned inp lo hi start tables k s₁ = .ok (some (r, s₂))) :
    decodeSequences unaligned inp lo hi start tables (n + k) s = .ok (some (l ++ r, s₂)) := by
  induction n generalizing s l with
  | zero =>
    cases h
    rwa [zero_add, nil_append]
  | succ n ih =>
    obtain ⟨sequence, rest, s', rfl, hr, hrest⟩ := decodeSequences_succ h
    rw [succ_add, decodeSequences, hr]
    dsimp only [bind, Except.bind]
    rw [ih hrest]
    rfl

variable {sp : Space} {outEnd windowStart : Nat}

theorem sequenceRounds_spec (hfuel : numSeq ≤ fuel) (s : SequencesState)
    (hc : c.Fits sp outEnd) (hw : windowStart ≤ c.out) :
    ∃ r, ∀ m, ∃ m', (sequenceRounds inp sp outEnd windowStart unaligned lo hi start tables fuel numSeq s
      c).run m = Exec.resOf r m' ∧ Stored m m' c.out (outEnd + 8) ∧
    ∀ s' c', r = .ok (.ok (s', c')) → ∃ sequences,
      decodeSequences unaligned inp lo hi start tables numSeq s = .ok (some (sequences, s')) ∧
      Executed inp sp outEnd windowStart c m (sequences.map .unpack) c' m' := by
  induction fuel generalizing numSeq s c with
  | zero =>
    obtain rfl : numSeq = 0 := by omega
    refine ⟨.ok (.ok (s, c)), fun m => ⟨m, rfl, .refl _ _ _, ?_⟩⟩
    rintro s' c' ⟨⟩
    exact ⟨[], rfl, .refl m hc⟩
  | succ fuel ih =>
    rw [sequenceRounds]
    split
    · rename_i h0
      refine ⟨.ok (.ok (s, c)), fun m => ⟨m, rfl, .refl _ _ _, ?_⟩⟩
      rintro s' c' ⟨⟩
      exact ⟨[], by rw [h0]; rfl, .refl m hc⟩
    rename_i h0
    dsimp only
    cases hdec : decodeSequences unaligned inp lo hi start tables (min 128 numSeq) s with
    | error f => exact ⟨.error f, fun m => ⟨m, rfl, .refl _ _ _, fun s' c' h => by cases h⟩⟩
    | ok r =>
      match r, hdec with
      | none, _ => exact ⟨.ok _, fun m => ⟨m, rfl, .refl _ _ _, fun s' c' h => by cases h⟩⟩
      | some (sequences, s₁), hdec =>
        obtain ⟨r, hr⟩ := execSequences_spec inp (decodeSequences_lt hdec) hc hw
        cases r with
        | error e =>
          refine ⟨.ok (.error e), fun m => ?_⟩
          obtain ⟨m₁, hrun, hs, -⟩ := hr m
          exact ⟨m₁, run_bind_of_ok hrun _, hs, fun s' c' h => by cases h⟩
        | ok c₁ =>
          obtain ⟨_, -, -, hround₁⟩ := hr ⟨fun _ => 0, []⟩
          obtain ⟨r', hr'⟩ := ih (by omega : numSeq - min 128 numSeq ≤ fuel) s₁
            (hround₁ c₁ rfl).fits (hw.trans (hround₁ c₁ rfl).out_le)
          refine ⟨r', fun m => ?_⟩
          obtain ⟨m₁, hrun, hs, hround⟩ := hr m
          obtain ⟨m₂, hrun', hs', hrest⟩ := hr' m₁
          have hround := hround c₁ rfl
          refine ⟨m₂, (run_bind_of_ok hrun _).trans hrun',
            hs.trans (hs'.mono hround.out_le le_rfl), fun s' c' h => ?_⟩
          obtain ⟨rest, hdec', hexec⟩ := hrest s' c' h
          refine ⟨sequences ++ rest, ?_, by rw [map_append]; exact hround.trans hexec⟩
          have := decodeSequences_append hdec hdec'
          rwa [show min 128 numSeq + (numSeq - min 128 numSeq) = numSeq by omega] at this

theorem sequenceRounds_executed (hfuel : numSeq ≤ fuel)
    (hc : c.Fits sp outEnd) (hw : windowStart ≤ c.out) {m m'}
    (h : (sequenceRounds inp sp outEnd windowStart unaligned lo hi start tables fuel numSeq s
      c).run m = .ok (.ok (s', c')) m') : ∃ sequences,
      decodeSequences unaligned inp lo hi start tables numSeq s = .ok (some (sequences, s')) ∧
      Executed inp sp outEnd windowStart c m (sequences.map .unpack) c' m' := by
  obtain ⟨_ | r, hr⟩ := sequenceRounds_spec hfuel s hc hw
  all_goals
    obtain ⟨m₁, hrun, -, hexec⟩ := hr m
    rw [h] at hrun
    cases hrun
  exact hexec s' c' rfl

end

/-! ## One block -/

section
variable (unaligned : Bool) (inp : Nat → UInt8) (lo hi : Nat)

/-- The literals of a block, decoded to a buffer of their own. -/
def blockLiterals (literalStart : Option Nat) (probe : LiteralsProbe) (tables : DecTables) :
    Option (List UInt8) :=
  match (decodeLiterals inp lo hi literalStart probe.stop 0 (0 + probe.size) probe.kind tables).run
    ⟨fun _ => 0, []⟩ with
  | .ok true m => some (m.bytes 0 probe.size)
  | _ => none

/-- The sequences of a block, decoded all at once. -/
def blockSequences (ptr stop numSeq : Nat) (tables : DecTables) : Option (List Sequence) :=
  if numSeq = 0 then some []
  else match sequenceCount inp ptr stop numSeq with
  | none => none
  | some (numSeq, ptr) =>
    match sequenceTables inp (ptr + 1) stop (inp ptr).toNat tables with
    | .ok (some ptr, tables) =>
      match initSequences unaligned inp lo hi ptr stop tables with
      | .ok (some s) =>
        match decodeSequences unaligned inp lo hi ptr tables numSeq s with
        | .ok (some (sequences, _)) => some (sequences.map .unpack)
        | _ => none
      | _ => none
    | _ => none

/-- The literals and the sequences of a block. -/
def blockContents (start stop : Nat) (tables : DecTables) : Option (List UInt8 × List Sequence) :=
  match zstdProbeLiterals inp start stop with
  | none => none
  | some probe =>
    match literalTables inp probe tables with
    | .ok (some (literalStart, tables)) =>
      match blockLiterals inp lo hi literalStart probe tables,
        blockSequences unaligned inp lo hi (probe.stop + 1) stop (inp probe.stop).toNat tables with
      | some l, some ss => some (l, ss)
      | _, _ => none
    | _ => none

end

/-- `n` bytes behind `out` are the execution of the sequences on the literals. -/
structure Refines (windowStart out n : Nat) (m m' : Mem) (ss : List Sequence) (l : List UInt8) :
    Prop where
  covered : copied ss ≤ l.length
  reaches : Reaches (out - windowStart) (execution ss l)
  size : n = size (execution ss l)
  bytes : m'.bytes windowStart (out + n - windowStart) =
    expand (m.bytes windowStart (out - windowStart)) (execution ss l)

/-- What was stored from `out` on before does not matter. -/
theorem Refines.of_stored {windowStart out n hi m m' ss l}
    (h : Refines windowStart out n m₁ m' ss l) (hw : windowStart ≤ out)
    (hs : Stored m m₁ out hi) : Refines windowStart out n m m' ss l :=
  ⟨h.covered, h.reaches, h.size, by rw [h.bytes, hs.bytes (by omega)]⟩

section
variable {unaligned : Bool} {inp : Nat → UInt8} {lo hi outEnd windowStart out : Nat}

/-- The copy of the remaining literals completes the execution. -/
theorem Executed.finish {sp} {m} {m' : Mem} {ss}
    (h : Executed inp sp outEnd windowStart c m ss c' m') (hw : windowStart ≤ c.out) :
    Refines windowStart c.out (c'.out + c'.size - c.out) m
      (m'.memcpy inp sp c'.out c'.literalPtr c'.size) ss (c.literals inp sp m) := by
  have hle := h.out_le
  have hs := (Mem.memcpy_stored inp sp m' c'.out c'.literalPtr c'.size)
  have hlits : (m'.memcpy inp sp c'.out c'.literalPtr c'.size).bytes c'.out c'.size =
      (c.literals inp sp m).drop (copied ss) := by
    rw [← h.literals]
    refine bytesAt_eq fun i hi => Mem.memcpy_byte ?_ hi
    cases sp with
    | input => exact .inl rfl
    | output =>
      have hroom := h.fits.room
      have htail := h.fits.tail rfl
      exact .inr (.inr (by omega))
  have hlen : (c.literals inp sp m).length = c.size := bytesAt_length _ _ _
  have hsize := congrArg List.length h.bytes
  rw [expand_length, Mem.bytes_length, Mem.bytes_length] at hsize
  refine ⟨hlen ▸ h.covered, ?_, ?_, ?_⟩
  · rw [execution, Reaches.append]
    exact ⟨h.reaches, reaches_lits _ _⟩
  · rw [execution, size_append, size_lits, length_drop, hlen, h.size]
    omega
  · have := bytes_extend (hw.trans hle) hs (by rw [← hlits, Mem.bytes_length]) hlits
    rw [show c.out + (c'.out + c'.size - c.out) - windowStart = c'.out + c'.size - windowStart by omega,
      this, h.bytes, execution, expand_append, expand_lits]

theorem runSequences_uniform {stop size sp} (tables : DecTables)
    (hc : (⟨out, literalPtr, size⟩ : CopyState).Fits sp outEnd) (hw : windowStart ≤ out) :
    (runSequences unaligned inp lo hi outEnd windowStart out ptr stop numSeq sp literalPtr size
      tables).Uniform out (outEnd + 8) := by
  unfold runSequences
  split
  · exact .pure _
  refine .ite (fun _ => .pure _) fun _ => (Exec.Uniform.lift _).bind fun r => ?_
  rcases r with ⟨_ | ptr, tables⟩
  · exact .pure _
  refine (Exec.Uniform.lift _).bind fun s => ?_
  cases s with
  | none => exact .pure _
  | some s =>
    obtain ⟨r, hr⟩ := sequenceRounds_spec le_rfl s hc hw
    refine Exec.Uniform.bind_of ⟨r, fun m => ?_⟩ fun r m m' hrun => ?_
    · obtain ⟨m', hrun, hs, -⟩ := hr m
      exact ⟨m', hrun, hs⟩
    match r with
    | .error e => exact .pure _
    | .ok (s', c') =>
      obtain ⟨ss, -, hexec⟩ := sequenceRounds_executed le_rfl hc hw hrun
      dsimp only
      split
      · exact .pure _
      · exact (Exec.Uniform.modify fun m => ((Mem.memcpy_stored _ _ m _ _ _).mono hexec.out_le (by
          have := hexec.fits.room
          omega))).bind fun _ => .pure _

theorem runSequences_refines {stop size n sp tables} {m : Mem} {m'} (hseq : numSeq ≠ 0)
    (hc : (⟨out, literalPtr, size⟩ : CopyState).Fits sp outEnd) (hw : windowStart ≤ out)
    (h : (runSequences unaligned inp lo hi outEnd windowStart out ptr stop numSeq sp literalPtr size
      tables).run m = .ok (.consumed n, tables') m') :
    ∃ ss, blockSequences unaligned inp lo hi ptr stop numSeq tables = some ss ∧
      Refines windowStart out n m m' ss (bytesAt (m.src inp sp) literalPtr size) ∧
      out + n ≤ outEnd := by
  unfold runSequences at h
  split at h
  · cases h
  rename_i numSeq' ptr' hcount
  dsimp only at h
  split at h
  · cases h
  obtain ⟨⟨_ | p, tables₁⟩, htables, h⟩ := bind_lift_eq_ok h
  · cases h
  obtain ⟨_ | s, hinit, h⟩ := bind_lift_eq_ok h
  · cases h
  obtain ⟨_ | ⟨s', c'⟩, m₁, hrounds, h⟩ := bind_eq_ok h
  · cases h
  obtain ⟨sequences, hdec, hexec⟩ := sequenceRounds_executed le_rfl hc hw hrounds
  dsimp only at h
  split at h
  · cases h
  · cases h
    refine ⟨sequences.map .unpack, ?_, hexec.finish hw, ?_⟩
    · simp only [blockSequences, if_neg hseq, hcount, htables, hinit, hdec]
    · have := hexec.fits.room
      have : out ≤ c'.out := hexec.out_le
      omega

/-- Raw literals are all of their section. -/
theorem zstdProbeLiterals_raw {start stop}
    (h : zstdProbeLiterals inp start stop = some probe) (hraw : probe.kind = .raw) :
    probe.stop = probe.start + probe.size := by
  unfold zstdProbeLiterals at h
  dsimp only at h
  repeat' split at h
  all_goals cases h
  all_goals first | rfl | cases hraw

theorem blockLiterals_eq {tables} {l : List UInt8} (hl : l.length = probe.size)
    (h : Produces (fun out => decodeLiterals inp lo hi literalStart probe.stop out (out + probe.size)
      probe.kind tables) true l) : blockLiterals inp lo hi literalStart probe tables = some l := by
  obtain ⟨m, hrun, -, hbytes⟩ := h 0 ⟨fun _ => 0, []⟩
  rw [blockLiterals, hrun]
  rw [hl] at hbytes
  exact congrArg some hbytes

theorem placeLiterals_uniform
    (tables : DecTables) (hout : out ≤ outEnd) (hsize : probe.size ≤ outEnd - out) :
    (placeLiterals inp lo hi outEnd literalStart probe tables).Uniform out (outEnd + 16) := by
  refine .ite (fun _ => .pure _) fun _ => ?_
  refine ((decodeLiterals_uniform _ _ _ (Nat.le_add_right _ _)).mono ?_ ?_).bind
    fun _ => .ite (fun _ => .pure _) fun _ => .pure _
  · omega
  · simp only [lzcommonBlock]
    omega

/-- The literals are in place, and there is room for them behind the write pointer. -/
theorem placeLiterals_ok {tables sp m} {m' : Mem} (hout : out ≤ outEnd) (hsize : probe.size ≤ outEnd - out)
    (hraw : probe.kind = .raw →
      probe.stop = probe.start + probe.size ∧ literalStart = some probe.start)
    (h : (placeLiterals inp lo hi outEnd literalStart probe tables).run m = .ok (some (sp, ptr)) m') :
    (⟨out, ptr, probe.size⟩ : CopyState).Fits sp outEnd ∧
      blockLiterals inp lo hi literalStart probe tables =
        some (bytesAt (m'.src inp sp) ptr probe.size) ∧ Stored m m' out (outEnd + 16) := by
  have hs : Stored m ((placeLiterals inp lo hi outEnd literalStart probe tables).run m).mem out
      (outEnd + 16) := (placeLiterals_uniform tables hout hsize).within m
  rw [h] at hs
  unfold placeLiterals at h
  split at h
  · rename_i hkind
    obtain ⟨hstop, rfl⟩ := hraw hkind
    cases h
    refine ⟨⟨by dsimp only; omega, fun h => by cases h⟩, ?_, hs⟩
    rw [hstop, Nat.add_sub_cancel]
    refine blockLiterals_eq (bytesAt_length _ _ _) ?_
    rw [hkind]
    exact raw_produces
  · obtain ⟨_ | _, m₁, hrun, h⟩ := bind_eq_ok h
    · cases h
    cases h
    obtain ⟨l, hl, hp⟩ := decodeLiterals_produces hrun
    obtain ⟨m₂, hrun₂, -, hbytes⟩ := hp (outEnd + lzcommonBlock - probe.size) m
    obtain rfl : m₂ = m' := by
      rw [hrun] at hrun₂
      cases hrun₂
      rfl
    refine ⟨⟨by dsimp only; omega, fun _ => ?_⟩, ?_, hs⟩
    · simp only [lzcommonBlock]
      omega
    · rw [hl] at hbytes
      rw [blockLiterals_eq hl hp]
      exact congrArg some hbytes.symm

theorem literalTables_raw {tables} (hraw : probe.kind = .raw)
    (h : literalTables inp probe tables = .ok (some (literalStart, tables'))) :
    literalStart = some probe.start := by
  rw [literalTables, hraw] at h
  cases h
  rfl

/-- Whatever the block is, it is decoded inside the space and the scratch bytes of the literals. -/
theorem decompressBlock_uniform (hw : windowStart ≤ out) (hout : out ≤ outEnd) (start stop : Nat)
    (tables : DecTables) :
    (decompressBlock unaligned inp lo hi outEnd windowStart out start stop tables).Uniform out
      (outEnd + 16) := by
  refine .ite (fun _ => .pure _) fun _ => ?_
  split
  · exact .pure _
  rename_i probe hprobe
  refine Exec.Uniform.bind_of (.lift _) fun r m m' hr => ?_
  obtain ⟨htables, -⟩ := lift_eq_ok hr
  match r, htables with
  | none, _ => exact .pure _
  | some (literalStart, tables), htables =>
    refine .ite (fun _ => .pure _) fun hsize => .ite (fun _ => .pure _) fun _ => .ite (fun _ => ?_)
      fun hseq => ?_
    · refine ((decodeLiterals_uniform _ _ _ (Nat.le_add_right _ _)).mono le_rfl
        (by omega)).bind fun _ => .ite (fun _ => .pure _) fun _ => .pure _
    · refine (placeLiterals_uniform tables hout (by omega)).bind_of fun r m m' hplace => ?_
      match r, hplace with
      | none, _ => exact .pure _
      | some (sp, ptr), hplace =>
        obtain ⟨hfits, -⟩ := placeLiterals_ok hout (by omega)
          (fun h => ⟨zstdProbeLiterals_raw hprobe h, literalTables_raw h htables⟩) hplace
        exact (runSequences_uniform tables hfits hw).mono le_rfl (by omega)

theorem decompressBlock_refines {start stop n tables m m'}
    (hw : windowStart ≤ out) (hout : out ≤ outEnd)
    (h : (decompressBlock unaligned inp lo hi outEnd windowStart out start stop tables).run m =
      .ok (.consumed n, tables') m') :
    ∃ l ss, blockContents unaligned inp lo hi start stop tables = some (l, ss) ∧
      Refines windowStart out n m m' ss l ∧ out + n ≤ outEnd := by
  unfold decompressBlock at h
  split at h
  · cases h
  split at h
  · cases h
  rename_i probe hprobe
  obtain ⟨_ | ⟨literalStart, tables₁⟩, htables, h⟩ := bind_lift_eq_ok h
  · cases h
  dsimp only at h
  split at h
  · cases h
  rename_i hsize
  split at h
  · cases h
  split at h
  · rename_i hseq
    obtain ⟨_ | _, m₁, hrun, h⟩ := bind_eq_ok h
    · cases h
    cases h
    obtain ⟨l, hl, hp⟩ := decodeLiterals_produces hrun
    obtain ⟨m₂, hrun₂, hs, hbytes⟩ := hp out m
    obtain rfl : m₂ = m' := by
      rw [hrun] at hrun₂
      cases hrun₂
      rfl
    rw [hl] at hbytes
    refine ⟨l, [], ?_, ?_, by omega⟩
    · simp only [blockContents, hprobe, htables, hseq, blockLiterals_eq hl hp, blockSequences,
        if_true]
    · refine ⟨Nat.zero_le _, reaches_lits _ _, by rw [← hl]; exact (size_lits l).symm, ?_⟩
      rw [bytes_extend hw hs hl hbytes]
      exact (expand_lits _ l).symm
  · rename_i hseq
    obtain ⟨_ | ⟨sp, ptr⟩, m₁, hplace, h⟩ := bind_eq_ok h
    · cases h
    obtain ⟨hfits, hlits, hs⟩ := placeLiterals_ok hout (by omega)
      (fun h => ⟨zstdProbeLiterals_raw hprobe h, literalTables_raw h htables⟩) hplace
    obtain ⟨ss, hss, href, hle⟩ := runSequences_refines hseq hfits hw h
    exact ⟨bytesAt (m₁.src inp sp) ptr probe.size, ss,
      by simp only [blockContents, hprobe, htables, hlits, hss], href.of_stored hw hs, hle⟩

end

/-- A block that decodes has a list of literals and a list of sequences, and its output is what
the sequences give on the literals. -/
theorem decompressBlock_refines_execution (unaligned : Bool) (inp : Nat → UInt8)
    (lo hi outEnd windowStart out start stop n : Nat) (tables tables' : DecTables) (m m' : Mem)
    (hw : windowStart ≤ out) (hout : out ≤ outEnd)
    (h : (decompressBlock unaligned inp lo hi outEnd windowStart out start stop tables).run m =
      .ok (.consumed n, tables') m') :
    ∃ l ss, blockContents unaligned inp lo hi start stop tables = some (l, ss) ∧
      Refines windowStart out n m m' ss l := by
  obtain ⟨l, ss, hcontents, href, -⟩ := decompressBlock_refines hw hout h
  exact ⟨l, ss, hcontents, href⟩

/-- Five literals `a` in the tail of the space; a sequence copies two of them and repeats the last
byte three times. -/
def tailBlock (a : Nat) : UInt8 := [0x29, 0x61, 1, 0x54, 2, 0, 0, 1].getD a 0

def noTables : DecTables :=
  ⟨0, tableNotAvailable, tableNotAvailable, tableNotAvailable, 1, 4, 8, fun _ => (0, 0),
    fun _ => 0, fun _ => 0, fun _ => 0⟩

theorem decompressBlock_refines_execution_tail : ∃ tables m,
    (decompressBlock false tailBlock 0 8 30 10 10 0 8 noTables).run ⟨fun _ => 7, []⟩ =
      .ok (.consumed 8, tables) m ∧
    ∃ l ss, blockContents false tailBlock 0 8 0 8 noTables = some (l, ss) ∧
      Refines 10 10 8 ⟨fun _ => 7, []⟩ m ss l := by
  have h : (match (decompressBlock false tailBlock 0 8 30 10 10 0 8 noTables).run
    ⟨fun _ => 7, []⟩ with
    | .ok (.consumed 8, _) _ => true
    | _ => false) = true := by decide +kernel
  split at h
  · rename_i tables m hrun
    exact ⟨tables, m, hrun, decompressBlock_refines_execution _ _ _ _ _ _ _ _ _ _ _ _ _ _
      (by decide) (by decide) hrun⟩
  · cases h

end Rkboot.Compression.Zstd
