import Flpdf.Tokenizer.Spans
import Mathlib.Data.List.Chain

/-! # Reading a whole input

`Lexes t calls` is a run of reads up to the first end-of-file token.  Every
run of reads is one, and the spans of its tokens account for the input.
-/

namespace Flpdf

/-- White space and comments, the last comment possibly unterminated. -/
def IsGap (l : Bytes) : Prop := ∃ c, Gap c l

theorem Gap.ne_nil {l : Bytes} (h : Gap true l) : l ≠ [] := by
  cases h <;> simp

/-- A call of `read_token_with_options`: the position before and after it, and its token. -/
structure Call where
  before : ℕ
  token : Token
  after : ℕ
  deriving DecidableEq, Repr

namespace Tokenizer

variable {t t' : Tokenizer} {token : Token}

/-- Repeated reads up to and including the first end-of-file token. -/
def readAll : ℕ → Tokenizer → Option (List Call)
  | 0, _ => none
  | fuel + 1, t =>
    match t.readTokenWithOptions true 0 with
    | (.error _, _) => none
    | (.ok token, t') =>
      if token.tokenType = .eof then some [⟨t.pos, token, t'.pos⟩]
      else (readAll fuel t').map (⟨t.pos, token, t'.pos⟩ :: ·)

inductive Lexes : Tokenizer → List Call → Prop where
  | eof {t t' : Tokenizer} {token : Token} : ReadSpec t token t' → token.tokenType = .eof →
      Lexes t [⟨t.pos, token, t'.pos⟩]
  | cons {t t' : Tokenizer} {token : Token} {calls : List Call} : ReadSpec t token t' →
      token.tokenType ≠ .eof → t.pos < t'.pos → Lexes t' calls →
      Lexes t (⟨t.pos, token, t'.pos⟩ :: calls)

theorem ReadSpec.isGap (h : ReadSpec t token t') : IsGap (slice t.input t.pos token.start) := by
  by_cases hr : token.raw = []
  · obtain ⟨-, c, hc, -⟩ := h.empty hr
    exact ⟨c, hc⟩
  · exact ⟨false, (h.proper hr).2⟩

theorem ReadSpec.eof_raw (h : ReadSpec t token t') (he : token.tokenType = .eof) :
    token.raw = [] := by
  by_contra hr
  exact (h.proper hr).1 he

/-- A token with empty raw bytes other than end-of-file is an unterminated comment. -/
theorem ReadSpec.pos_lt (h : ReadSpec t token t') (ha : t.allowEof = true)
    (hn : token.tokenType ≠ .eof) : t.pos < t'.pos := by
  have hle := h.le
  rw [h.pos, h.endPos]
  by_cases hr : token.raw = []
  · obtain ⟨-, c, hc, ht⟩ := h.empty hr
    cases c with
    | false => exact absurd (by simpa [ha] using ht) hn
    | true =>
      have hlen := List.length_pos_of_ne_nil hc.ne_nil
      rw [slice_length] at hlen
      omega
  · have := List.length_pos_of_ne_nil hr
    omega

/-- Enough calls for one token a byte always reach the end-of-file token. -/
theorem lexes_readAll (n : ℕ) (ha : t.allowEof = true) (hs : t.state ≠ .inlineImage)
    (hp : t.pos ≤ t.input.length) (hn : t.input.length - t.pos < n) :
    ∃ calls, readAll n t = some calls ∧ Lexes t calls := by
  induction n generalizing t with
  | zero => omega
  | succ n ih =>
    obtain ⟨token, t', h, hread⟩ := readTokenWithOptions_spec hs hp true 0
    have hread : t.readTokenWithOptions true 0 = (.ok token, t') := by simpa using hread
    simp only [readAll, hread]
    split_ifs with he
    · exact ⟨_, rfl, .eof h he⟩
    · have ho := h.origin
      simp only [origin, Prod.mk.injEq] at ho
      obtain ⟨hin, ha', -⟩ := ho
      have hlt := h.pos_lt ha he
      obtain ⟨calls, hcalls, hlex⟩ := ih (ha' ▸ ha) (by simp [h.state]) (hin ▸ h.pos_le) (by
        have := h.pos_le
        rw [hin]
        omega)
      exact ⟨_, by rw [hcalls]; rfl, .cons h he hlt hlex⟩

theorem ReadSpec.input_eq (h : ReadSpec t token t') : t'.input = t.input :=
  congrArg Prod.fst h.origin

theorem ReadSpec.ignorable_eq (h : ReadSpec t token t') :
    t'.includeIgnorable = t.includeIgnorable :=
  congrArg (fun o => o.2.2) h.origin

section Runs

variable {calls : List Call}

theorem Lexes.head (h : Lexes t calls) : ∀ c ∈ calls.head?,
    c.before = t.pos ∧ IsGap (slice t.input t.pos c.token.start) := by
  cases h with
  | eof h _ => simpa using h.isGap
  | cons h _ _ _ => simpa using h.isGap

theorem Lexes.split (h : Lexes t calls) : ∃ init last, calls = init ++ [last] ∧
    last.token.tokenType = .eof ∧ ∀ c ∈ init, c.token.tokenType ≠ .eof := by
  induction h with
  | eof _ he => exact ⟨[], _, rfl, he, by simp⟩
  | cons _ hn _ _ ih =>
    obtain ⟨init, last, rfl, hlast, hinit⟩ := ih
    exact ⟨_ :: init, last, rfl, hlast, List.forall_mem_cons.mpr ⟨hn, hinit⟩⟩

/-- The span of each token of a run. -/
theorem Lexes.spans (h : Lexes t calls) : ∀ c ∈ calls, t.pos ≤ c.before ∧
    c.before ≤ c.token.start ∧ c.token.endPos = c.token.start + c.token.raw.length ∧
    c.after = c.token.endPos ∧ slice t.input c.token.start c.token.endPos = c.token.raw ∧
    (c.token.raw = [] ∨ c.token.tokenType = .eof → c.after = t.input.length) ∧
    (c.token.tokenType ≠ .eof → c.before < t.input.length) := by
  induction h with
  | eof h he =>
    simpa [he] using ⟨h.le, h.endPos, h.pos, h.raw, (h.empty (h.eof_raw he)).1⟩
  | cons h hn hlt _ ih =>
    have hpos := hlt.trans_le h.pos_le
    refine List.forall_mem_cons.mpr ⟨⟨le_rfl, h.le, h.endPos, h.pos, h.raw,
      fun hr => (h.empty (hr.elim id h.eof_raw)).1, fun _ => hpos⟩, fun c hc => ?_⟩
    obtain ⟨hbefore, hrest⟩ := ih c hc
    exact ⟨hlt.le.trans hbefore, by rwa [h.input_eq] at hrest⟩

theorem Lexes.pairwise (h : Lexes t calls) : calls.Pairwise fun a b =>
    a.token.endPos ≤ b.token.start ∧
      (b.token.tokenType ≠ .eof → a.token.start < b.token.start) := by
  induction h with
  | eof _ _ => simp
  | @cons t t' token rest h hn hlt hrest ih =>
    refine List.pairwise_cons.mpr ⟨fun c hc => ?_, ih⟩
    obtain ⟨hbefore, hstart, -, -, -, -, hinside⟩ := hrest.spans c hc
    have hpos := h.pos
    have hend := h.endPos
    refine ⟨by dsimp only; omega, fun hne => ?_⟩
    -- an empty token ends at the end of the input, where only end-of-file follows
    have hraw : token.raw ≠ [] := fun hr => by
      have hlen := (h.empty hr).1
      have := hinside hne
      rw [h.input_eq] at this
      omega
    have := List.length_pos_of_ne_nil hraw
    dsimp only
    omega

theorem Lexes.gaps (h : Lexes t calls) : calls.IsChain fun a b =>
    IsGap (slice t.input a.token.endPos b.token.start) := by
  induction h with
  | eof _ _ => exact .singleton _
  | cons h hn hlt hrest ih =>
    rw [h.input_eq] at ih
    refine ih.cons fun c hc => ?_
    have := (hrest.head c hc).2
    rwa [h.input_eq, h.pos] at this

theorem Lexes.flatten (h : Lexes t calls) (hg : t.includeIgnorable = true) :
    (calls.map fun c => c.token.raw).flatten = t.input.drop t.pos := by
  induction h with
  | @eof t t' token h he =>
    have hr := h.eof_raw he
    have hend := (h.empty hr).1
    have : t.input.length ≤ t.pos := by
      rw [h.pos, h.endPos, ← h.ignorable hg, hr] at hend
      simpa using hend.ge
    simp [hr, List.drop_eq_nil_of_le this]
  | cons h hn hlt hrest ih =>
    have hstart := h.ignorable hg
    rw [List.map_cons, List.flatten_cons, ih (h.ignorable_eq ▸ hg), h.input_eq, ← h.raw,
      ← hstart, ← h.pos, slice_append_drop _ hlt.le]

theorem Lexes.adjacent (h : Lexes t calls) (hg : t.includeIgnorable = true) :
    (∀ c ∈ calls, c.token.start = c.before) ∧
      calls.IsChain fun a b => a.token.endPos = b.token.start := by
  induction h with
  | eof h he => simpa using (h.ignorable hg).symm
  | cons h hn hlt hrest ih =>
    obtain ⟨hstart, hchain⟩ := ih (h.ignorable_eq ▸ hg)
    refine ⟨List.forall_mem_cons.mpr ⟨(h.ignorable hg).symm, hstart⟩, hchain.cons fun c hc => ?_⟩
    rw [hstart c (List.mem_of_head? hc), (hrest.head c hc).1, h.pos]

end Runs

/-- A run that returns ignorable text as tokens. -/
structure Lossless (input : Bytes) (calls : List Call) (last : Call) : Prop where
  eof : last.token.tokenType = .eof
  earlier : ∀ c ∈ calls, c.token.tokenType ≠ .eof ∧ c.after = c.before + c.token.raw.length
  span : ∀ c ∈ calls ++ [last], slice input c.token.start c.token.endPos = c.token.raw
  adjacent : (calls ++ [last]).IsChain fun a b => a.token.endPos = b.token.start
  flatten : ((calls ++ [last]).map fun c => c.token.raw).flatten = input

/-- A run that skips ignorable text. -/
structure Separated (input : Bytes) (calls : List Call) (last : Call) : Prop where
  eof : last.token.tokenType = .eof
  earlier : ∀ c ∈ calls, c.token.tokenType ≠ .eof
  span : ∀ c ∈ calls ++ [last], c.token.endPos = c.token.start + c.token.raw.length ∧
    slice input c.token.start c.token.endPos = c.token.raw ∧ c.after = c.token.endPos
  disjoint : (calls ++ [last]).Pairwise fun a b => a.token.endPos ≤ b.token.start
  increasing : calls.Pairwise fun a b => a.token.start < b.token.start
  leading : ∀ c ∈ (calls ++ [last]).head?, IsGap (slice input 0 c.token.start)
  gaps : (calls ++ [last]).IsChain fun a b => IsGap (slice input a.token.endPos b.token.start)
  finish : last.token.endPos = input.length

/-- Every input is read to its end, and the tokens account for every byte of it. -/
theorem readAll_lossless (input : Bytes) :
    (∃ calls last, readAll (input.length + 1)
        { input := input, allowEof := true, includeIgnorable := true } = some (calls ++ [last]) ∧
      Lossless input calls last) ∧
    ∃ calls last, readAll (input.length + 1)
        { input := input, allowEof := true, includeIgnorable := false } = some (calls ++ [last]) ∧
      Separated input calls last := by
  constructor
  · obtain ⟨_, hrun, h⟩ := lexes_readAll (input.length + 1)
      (t := { input := input, allowEof := true, includeIgnorable := true })
      rfl nofun (Nat.zero_le _) (Nat.lt_succ_self _)
    obtain ⟨calls, last, rfl, hlast, hinit⟩ := h.split
    obtain ⟨hstart, hchain⟩ := h.adjacent rfl
    refine ⟨calls, last, hrun, hlast, fun c hc => ⟨hinit c hc, ?_⟩, fun c hc => ?_, hchain, ?_⟩
    · have hmem := List.mem_append_left [last] hc
      obtain ⟨-, -, hend, hafter, -⟩ := h.spans c hmem
      rw [hafter, hend, hstart c hmem]
    · exact (h.spans c hc).2.2.2.2.1
    · simpa using h.flatten rfl
  · obtain ⟨_, hrun, h⟩ := lexes_readAll (input.length + 1)
      (t := { input := input, allowEof := true, includeIgnorable := false })
      rfl nofun (Nat.zero_le _) (Nat.lt_succ_self _)
    obtain ⟨calls, last, rfl, hlast, hinit⟩ := h.split
    have hpair := h.pairwise
    refine ⟨calls, last, hrun, hlast, hinit, fun c hc => ?_, hpair.imp And.left, ?_,
      fun c hc => (h.head c hc).2, h.gaps, ?_⟩
    · obtain ⟨-, -, hend, hafter, hraw, -⟩ := h.spans c hc
      exact ⟨hend, hraw, hafter⟩
    · refine List.Pairwise.imp_of_mem (fun _ hb hab => ?_) (List.pairwise_append.mp hpair).1
      exact hab.2 (hinit _ hb)
    · obtain ⟨-, -, -, hafter, -, hend, -⟩ := h.spans last (by simp)
      exact hafter ▸ hend (.inr hlast)

end Tokenizer

end Flpdf
