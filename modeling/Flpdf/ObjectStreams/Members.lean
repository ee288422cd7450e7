import Flpdf.ObjectStreams.HeaderPairs
import Flpdf.Parser.Windows
import Flpdf.Resolver.Resolve

/-!
# Members of an object stream

The first request for a member resolves its whole object stream: the stream is marked, the
members whose row names it are parsed in ascending order, and an error ends the pass.  The values
carry the identities of their children, so the cache is kept by identity.
-/

namespace Flpdf

open Program
open Resolver (memberOffsets)

namespace LiveParser

theorem isSome_parseBody (input : Bytes) : (start input true).parseBody.isSome := by
  obtain ⟨outcome, hparse, -⟩ := parse_safe input false true
  rw [parse_file, Option.map_eq_some_iff] at hparse
  obtain ⟨body, hbody, -⟩ := hparse
  rw [hbody]
  rfl

/-- The place of an `endobj` instead of an object, where the input is read from. -/
def emptyOffset (input : Bytes) : Option ℕ :=
  match (start input true).nextToken with
  | .ok (token, _) => if token.isWordValue (ascii "endobj") then some token.start else none
  | .error _ => none

end LiveParser

/-- `parse_qpdf_direct_object_handle_with_diagnostics`: the value and the warnings about it. -/
def parseQpdfDirectObjectHandle (input : Bytes) :
    Except ParseError (ObjectValue × List (ℕ × Bytes)) :=
  match LiveParser.emptyOffset input with
  | some offset => .ok (.null, [(offset, ascii "empty object treated as null")])
  | none =>
    ((LiveParser.start input true).parseBody.get (LiveParser.isSome_parseBody input)).map
      fun (value, p) => (value, p.diagnostics)

/-- How far a parse reads: the end of its last token. -/
def readUpTo (input : Bytes) : ℕ :=
  match (LiveParser.start input true).nextToken with
  | .error _ => input.length
  | .ok (token, q) =>
    if token.isWordValue (ascii "endobj") then q.tokens.pos
    else
      match (LiveParser.start input true).parseBody with
      | some (.ok (_, p)) => p.tokens.pos
      | _ => input.length

/-- A parse that does not read up to the end is the same whatever follows. -/
theorem parseQpdfDirectObjectHandle_append {window : Bytes} (back : Bytes)
    (hend : readUpTo window < window.length) :
    parseQpdfDirectObjectHandle (window ++ back) = parseQpdfDirectObjectHandle window := by
  rw [readUpTo] at hend
  cases hnext : (LiveParser.start window true).nextToken with
  | error e =>
    rw [hnext] at hend
    exact absurd hend (lt_irrefl _)
  | ok read =>
    obtain ⟨token, q⟩ := read
    rw [hnext] at hend
    have hmore : q.tokens.pos < window.length →
        (LiveParser.start (window ++ back) true).nextToken =
          .ok (token, q.onInput (window ++ back)) :=
      (LiveParser.nextToken_onInput back (LiveParser.stands_start window true) hnext).2.2
    dsimp only at hend
    cases hobject : token.isWordValue (ascii "endobj") with
    | true =>
      rw [if_pos hobject] at hend
      have hempty : LiveParser.emptyOffset window = some token.start := by
        rw [LiveParser.emptyOffset, hnext]
        exact if_pos hobject
      have hempty' : LiveParser.emptyOffset (window ++ back) = some token.start := by
        rw [LiveParser.emptyOffset, hmore hend]
        exact if_pos hobject
      rw [parseQpdfDirectObjectHandle, parseQpdfDirectObjectHandle, hempty, hempty']
    | false =>
      rw [hobject, if_neg Bool.false_ne_true] at hend
      obtain ⟨body, hbody⟩ := Option.isSome_iff_exists.mp (LiveParser.isSome_parseBody window)
      rw [hbody] at hend
      cases body with
      | error e => exact absurd hend (lt_irrefl _)
      | ok parsed =>
        obtain ⟨value, p⟩ := parsed
        obtain ⟨hle, hbody'⟩ := 
          LiveParser.parseBody_onInput back hnext hobject hbody hend
        have hempty : LiveParser.emptyOffset window = none := by
          rw [LiveParser.emptyOffset, hnext]
          exact if_neg (Bool.not_eq_true _ ▸ hobject)
        have hempty' : LiveParser.emptyOffset (window ++ back) = none := by
          rw [LiveParser.emptyOffset, hmore (hle.trans_lt hend)]
          exact if_neg (Bool.not_eq_true _ ▸ hobject)
        simp only [parseQpdfDirectObjectHandle, hempty, hempty', hbody, hbody', Option.get_some]
        rfl

/-- An object stream with its filters undone; `/First` is read from an `i64`. -/
structure ObjectStream where
  objectCount : ℕ
  first : ℕ
  first_lt : first < 2 ^ 63
  data : Bytes

namespace ObjectStream

/-- The pairs in front of the members, with the conversions of each. -/
def headerPairs : ℕ → Tokenizer → Except ParseError (List (ℕ × ℕ))
  | 0, _ => .ok []
  | n + 1, t =>
    match t.nextObjectStreamHeaderPair with
    | (.error (offset, message), _) => .error (.parse offset message)
    | (.ok (number, offset), t) =>
      if number < 0 ∨ 2 ^ 32 ≤ number then
        .error (.parse 0 (ascii "object stream object number is invalid"))
      else if offset < 0 then .error (.parse 0 (ascii "object stream object offset is invalid"))
      else (headerPairs n t).map ((number.toNat, offset.toNat) :: ·)

/-- `members`: ascending, a repeated number with its last offset. -/
def members (stream : ObjectStream) : Except ParseError (List (ℕ × ℕ)) :=
  (headerPairs stream.objectCount { input := stream.data }).map memberOffsets

/-- The bytes that the parser is given for an offset: all that follow. -/
def memberData (stream : ObjectStream) (offset : ℕ) : Bytes :=
  stream.data.drop (stream.first + offset)

/-- The direct object at an offset of the header. -/
def parseMember (stream : ObjectStream) (offset : ℕ) :
    Except ParseError (ObjectValue × List (ℕ × Bytes)) :=
  parseQpdfDirectObjectHandle (stream.memberData offset)

end ObjectStream

/-- A warning about a member, or about the error that ended a resolution. -/
inductive MemberDiagnostic where
  | member (stream : ℕ) (objectGen : QpdfObjGen) (offset : ℕ) (message : Bytes)
  | caught (objectGen : QpdfObjGen) (error : ParseError)

/-- `ObjectStreamResolutionError`. -/
inductive MemberError where
  | memberWarning (objectGen : QpdfObjGen) (offset : ℕ) (message : Bytes)
  | warningDelivery (error : ParseError)
  | operation (error : ParseError)

/-- What resolution keeps for each identity, with the warnings so far. -/
structure MemberCache where
  xrefEntry : QpdfObjGen → Option XrefEntry
  value : QpdfObjGen → Option ObjectValue
  defaultXrefEntries : Finset QpdfObjGen
  resolvedObjectStreams : Finset ℕ
  warnings : List MemberDiagnostic

namespace MemberCache

/-- The row of the object is a compressed one in this stream. -/
def inStream (s : MemberCache) (streamNumber : ℕ) (g : QpdfObjGen) : Bool :=
  match s.xrefEntry g with
  | some (.compressed stream _) => stream == streamNumber
  | _ => false

def setResolved (s : MemberCache) (g : QpdfObjGen) (value : ObjectValue) : MemberCache :=
  { s with value := Function.update s.value g (some value) }

def nullUnlessResolved (s : MemberCache) (g : QpdfObjGen) : MemberCache :=
  if (s.value g).isSome then s else s.setResolved g .null

def insertDefaultXrefEntry (s : MemberCache) (g : QpdfObjGen) : MemberCache :=
  { s with defaultXrefEntries := insert g s.defaultXrefEntries }

def markObjectStream (s : MemberCache) (streamNumber : ℕ) : MemberCache :=
  { s with resolvedObjectStreams := insert streamNumber s.resolvedObjectStreams }

end MemberCache

/-- The identity of a member. -/
def memberGen (number : ℕ) : QpdfObjGen := ⟨number, 0⟩

section

variable {ε : Type} (deliver : ℕ → Except ParseError Unit)

/-- `push_qpdf_warning`: recorded first, then delivered. -/
def pushMemberDiagnostic (wrap : ParseError → ε) (warning : MemberDiagnostic) :
    Program MemberCache ε Unit := do
  let s ← get
  modify fun s => { s with warnings := s.warnings ++ [warning] }
  ofExcept ((deliver s.warnings.length).mapError wrap)

/-- An object that nothing was assigned to is null. -/
def nullUnlessResolved (g : QpdfObjGen) : Program MemberCache ε Unit :=
  modify fun s => s.nullUnlessResolved g

variable (streamNumber : ℕ) (stream : ObjectStream)

/-- A member that is parsed: its warnings, then its value. -/
def assignMember (g : QpdfObjGen) (offset : ℕ) : Program MemberCache MemberError Unit := do
  -- the data of a stream is no longer than `i64::MAX`
  let memberStart := min (stream.first + offset) stream.data.length
  match stream.parseMember offset with
  | .error (.parse offset message) => fail (.memberWarning g (memberStart + offset) message)
  | .error e => fail (.operation e)
  | .ok (value, diagnostics) => do
    forEach (fun diagnostic => pushMemberDiagnostic deliver .warningDelivery
      (.member streamNumber g (memberStart + diagnostic.1) diagnostic.2)) diagnostics
    -- one that is malformed is null already
    modify fun s => s.setResolved g value

/-- One turn of the loop over the members. -/
def visitMember (member : ℕ × ℕ) : Program MemberCache MemberError Unit := do
  let s ← get
  let g := memberGen member.1
  -- a number outside `int` has neither a row nor a default row
  if 2 ^ 31 ≤ member.1 then pure ()
  else if s.inStream streamNumber g then
    if 2 ^ 64 ≤ stream.first + member.2 then
      fail (.operation (.parse 0 (ascii "object stream member offset overflow")))
    else assignMember deliver streamNumber stream g member.2
  else if (s.xrefEntry g).isNone then modify fun s => s.insertDefaultXrefEntry g
  else pure ()

/-- `resolve_object_stream_with_failure_kind`, of a stream that could be decoded. -/
def resolveMembers : Program MemberCache MemberError Unit := do
  let s ← get
  if streamNumber ∈ s.resolvedObjectStreams then pure ()
  else do
    modify fun s => s.markObjectStream streamNumber
    let members ← ofExcept (stream.members.mapError .operation)
    forEach (visitMember deliver streamNumber stream) members

/-- `resolve_object_stream_or_null`. -/
def resolveMembersOrNull (g : QpdfObjGen) : Program MemberCache ParseError Unit := do
  match ← (resolveMembers deliver streamNumber stream).attempt with
  | .ok () => nullUnlessResolved g
  | .error (.warningDelivery e) => fail e
  | .error (.memberWarning objectGen offset message) => do
    pushMemberDiagnostic deliver id (.member streamNumber objectGen offset message)
    nullUnlessResolved g
  | .error (.operation e) => fail e

/-- `resolve_indirect_inner` of an object whose row names the stream. -/
def resolveCompressed (g : QpdfObjGen) : Program MemberCache ParseError Unit := do
  match ← (resolveMembersOrNull deliver streamNumber stream g).attempt with
  | .ok () => pure ()
  | .error e => do
    pushMemberDiagnostic deliver id (.caught g e)
    nullUnlessResolved g

/-- `try_dereference`: only an unresolved object is resolved. -/
def dereferenceMember (g : QpdfObjGen) : Program MemberCache ParseError Unit := do
  let s ← get
  if (s.value g).isSome then pure () else resolveCompressed deliver streamNumber stream g

/-- Requests for members, each by a caller that goes on after an error. -/
def requestMembers (requests : List QpdfObjGen) : Program MemberCache ParseError Unit :=
  forEach (fun g => do
    let _ ← (dereferenceMember deliver streamNumber stream g).attempt
    pure ()) requests

end

/-! ## One member -/

section

variable {deliver : ℕ → Except ParseError Unit} {streamNumber : ℕ} {stream : ObjectStream}
  {s t u : MemberCache} {g : QpdfObjGen} {m : ℕ × ℕ} {members : List (ℕ × ℕ)} {ε : Type}

/-- Some warning cannot be delivered. -/
def Undelivered (deliver : ℕ → Except ParseError Unit) : Prop := ∃ n e, deliver n = .error e

/-- The states differ in their warnings and default rows only. -/
structure SameValues (s t : MemberCache) : Prop where
  xrefEntry : t.xrefEntry = s.xrefEntry
  value : t.value = s.value
  streams : t.resolvedObjectStreams = s.resolvedObjectStreams

instance : IsPreorder MemberCache SameValues where
  refl _ := ⟨rfl, rfl, rfl⟩
  trans _ _ _ h h' := ⟨h'.xrefEntry.trans h.xrefEntry, h'.value.trans h.value,
    h'.streams.trans h.streams⟩

/-- A warning changes no value, and its delivery decides how it ends. -/
theorem pushMemberDiagnostic_spec (deliver : ℕ → Except ParseError Unit) (wrap : ParseError → ε)
    (warning : MemberDiagnostic) (s : MemberCache) : ∃ result t,
      pushMemberDiagnostic deliver wrap warning s = some (result, t) ∧ SameValues s t ∧
        (result = .ok () ∨ Undelivered deliver) := by
  refine ⟨_, _, rfl, ⟨rfl, rfl, rfl⟩, ?_⟩
  cases hdeliver : deliver s.warnings.length with
  | ok _ => exact .inl rfl
  | error e => exact .inr ⟨_, e, hdeliver⟩

/-- The object belongs to the stream. -/
def MemberCache.owns (s : MemberCache) (streamNumber : ℕ) (m : ℕ × ℕ) : Bool :=
  decide (m.1 < 2 ^ 31) && s.inStream streamNumber (memberGen m.1)

theorem owns_iff : s.owns streamNumber m = true ↔
    m.1 < 2 ^ 31 ∧ s.inStream streamNumber (memberGen m.1) = true := by
  simp [MemberCache.owns]

theorem owns_congr (h : t.xrefEntry = s.xrefEntry) :
    t.owns streamNumber = s.owns streamNumber := by
  funext m
  simp only [MemberCache.owns, MemberCache.inStream, h]

/-- The pass ends at the member. -/
def StopsAt (deliver : ℕ → Except ParseError Unit) (stream : ObjectStream) (offset : ℕ) : Prop :=
  (∃ e, stream.parseMember offset = .error e) ∨ Undelivered deliver

/-- What a turn of the loop does with a member. -/
inductive Visited (deliver : ℕ → Except ParseError Unit) (streamNumber : ℕ)
    (stream : ObjectStream) (s : MemberCache) (m : ℕ × ℕ) :
    Except MemberError Unit → MemberCache → Prop
  | skipped {t : MemberCache} (hnot : s.owns streamNumber m = false) (hsame : SameValues s t) :
      Visited deliver streamNumber stream s m (.ok ()) t
  | assigned {t : MemberCache} {value : ObjectValue} {diagnostics : List (ℕ × Bytes)}
      (howns : s.owns streamNumber m = true)
      (hparse : stream.parseMember m.2 = .ok (value, diagnostics)) (hsame : SameValues s t) :
      Visited deliver streamNumber stream s m (.ok ()) (t.setResolved (memberGen m.1) value)
  | stopped {t : MemberCache} {e : MemberError} (howns : s.owns streamNumber m = true)
      (hstops : StopsAt deliver stream m.2) (hsame : SameValues s t) :
      Visited deliver streamNumber stream s m (.error e) t

theorem pushMemberDiagnostics_spec (deliver : ℕ → Except ParseError Unit)
    (warning : ℕ × Bytes → MemberDiagnostic)
    (diagnostics : List (ℕ × Bytes)) (s : MemberCache) : ∃ result t,
      forEach (fun diagnostic => pushMemberDiagnostic deliver MemberError.warningDelivery
        (warning diagnostic)) diagnostics s = some (result, t) ∧ SameValues s t ∧
        (result = .ok () ∨ Undelivered deliver) := by
  induction diagnostics generalizing s with
  | nil => exact ⟨.ok (), s, rfl, refl s, .inl rfl⟩
  | cons diagnostic diagnostics ih =>
    obtain ⟨result, t, hrun, hsame, hresult⟩ :=
      pushMemberDiagnostic_spec deliver MemberError.warningDelivery
        (warning diagnostic) s
    cases result with
    | error e => exact ⟨.error e, t, run_bind_error hrun, hsame, hresult⟩
    | ok _ =>
      obtain ⟨result', u, hrest, hsame', hresult'⟩ := ih t
      exact ⟨result', u, (run_bind hrun).trans hrest, Trans.trans hsame hsame', hresult'⟩

/-- One turn either passes over the member, or assigns it, or ends the pass. -/
theorem visitMember_visited (deliver : ℕ → Except ParseError Unit) (streamNumber : ℕ)
    (stream : ObjectStream) (s : MemberCache) (hfits : m.2 < 2 ^ 63) : ∃ result t,
    visitMember deliver streamNumber stream m s = some (result, t) ∧
      Visited deliver streamNumber stream s m result t := by
  unfold visitMember
  rw [show ∀ f : MemberCache → Program MemberCache MemberError Unit, (get >>= f) s = f s s from
    fun _ => rfl]
  have hno_overflow : ¬2 ^ 64 ≤ stream.first + m.2 := by
    have := stream.first_lt
    omega
  split_ifs with hint hin hrow
  · refine ⟨.ok (), s, rfl, .skipped ?_ (refl s)⟩
    rw [← Bool.not_eq_true, owns_iff]
    omega
  · have howns : s.owns streamNumber m = true := owns_iff.mpr ⟨Nat.lt_of_not_le hint, hin⟩
    unfold assignMember
    cases hparse : stream.parseMember m.2 with
    | error e =>
      cases e <;> exact ⟨_, s, rfl, .stopped howns (.inl ⟨_, hparse⟩) (refl s)⟩
    | ok parsed =>
      obtain ⟨value, diagnostics⟩ := parsed
      dsimp only
      obtain ⟨result, t, hrun, hsame, hresult⟩ :=
        pushMemberDiagnostics_spec deliver (fun diagnostic =>
          .member streamNumber (memberGen m.1)
            (min (stream.first + m.2) stream.data.length + diagnostic.1) diagnostic.2)
          diagnostics s
      cases result with
      | ok _ => exact ⟨.ok (), _, run_bind hrun, .assigned howns hparse hsame⟩
      | error e =>
        exact ⟨.error e, t, run_bind_error hrun,
          .stopped howns (.inr (hresult.resolve_left nofun)) hsame⟩
  · exact ⟨.ok (), _, rfl, .skipped (by simp [MemberCache.owns, hin]) ⟨rfl, rfl, rfl⟩⟩
  · exact ⟨.ok (), s, rfl, .skipped (by simp [MemberCache.owns, hin]) (refl s)⟩

/-! ## The pass over the members -/

/-- A pass has assigned the members it read, and ended in front of those that are left. -/
structure Passed (deliver : ℕ → Except ParseError Unit) (stream : ObjectStream)
    (read left : List (ℕ × ℕ)) (s t : MemberCache) : Prop where
  xrefEntry : t.xrefEntry = s.xrefEntry
  streams : t.resolvedObjectStreams = s.resolvedObjectStreams
  assigned : ∀ m ∈ read, ∃ value diagnostics,
    stream.parseMember m.2 = .ok (value, diagnostics) ∧ t.value (memberGen m.1) = some value
  kept : ∀ g, (∀ m ∈ read, memberGen m.1 ≠ g) → t.value g = s.value g
  stops : ∀ m ∈ left.head?, StopsAt deliver stream m.2

theorem memberGen_injective : Function.Injective memberGen := by
  intro n n' h
  simpa [memberGen] using h

theorem SameValues.passed {read left : List (ℕ × ℕ)} (hsame : SameValues s t)
    (h : Passed deliver stream read left t u) : Passed deliver stream read left s u where
  xrefEntry := h.xrefEntry.trans hsame.xrefEntry
  streams := h.streams.trans hsame.streams
  assigned := h.assigned
  kept g hg := (h.kept g hg).trans (congrFun hsame.value g)
  stops := h.stops

/-- A member in front of those that a pass reads. -/
theorem Passed.cons {read left : List (ℕ × ℕ)} {value : ObjectValue}
    {diagnostics : List (ℕ × Bytes)} (hsame : SameValues s t)
    (hparse : stream.parseMember m.2 = .ok (value, diagnostics))
    (h : Passed deliver stream read left (t.setResolved (memberGen m.1) value) u)
    (hread : ∀ m' ∈ read, m'.1 ≠ m.1) : Passed deliver stream (m :: read) left s u where
  xrefEntry := h.xrefEntry.trans hsame.xrefEntry
  streams := h.streams.trans hsame.streams
  assigned := by
    intro m' hm'
    rcases List.mem_cons.mp hm' with rfl | hm'
    · refine ⟨value, diagnostics, hparse, ?_⟩
      rw [h.kept _ fun m'' hm'' => memberGen_injective.ne (hread m'' hm'')]
      exact Function.update_self ..
    · exact h.assigned m' hm'
  kept := by
    intro g hg
    have hne : g ≠ memberGen m.1 := (hg m List.mem_cons_self).symm
    rw [h.kept g fun m' hm' => hg m' (List.mem_cons_of_mem m hm'), ← hsame.value]
    exact Function.update_of_ne hne ..
  stops := h.stops

/-- The members the stream owns are read up to one at which the pass ends. -/
theorem forEach_visitMember (deliver : ℕ → Except ParseError Unit) (streamNumber : ℕ)
    (stream : ObjectStream) (hkeys : members.Pairwise fun m m' => m.1 ≠ m'.1)
    (hfits : ∀ m ∈ members, m.2 < 2 ^ 63) (s : MemberCache) : ∃ result t read left,
      forEach (visitMember deliver streamNumber stream) members s = some (result, t) ∧
        members.filter (s.owns streamNumber) = read ++ left ∧
        Passed deliver stream read left s t := by
  induction members generalizing s with
  | nil =>
    exact ⟨.ok (), s, [], [], rfl, rfl, rfl, rfl, nofun, fun _ _ => rfl, nofun⟩
  | cons m members ih =>
    obtain ⟨hdistinct, hkeys⟩ := List.pairwise_cons.mp hkeys
    have hrest : ∀ m' ∈ members, m'.2 < 2 ^ 63 := fun m' hm' =>
      hfits m' (List.mem_cons_of_mem m hm')
    obtain ⟨result, t, hrun, hvisited⟩ := visitMember_visited deliver streamNumber stream s
      (hfits m List.mem_cons_self)
    cases hvisited with
    | skipped hnot hsame =>
      obtain ⟨result', u, read, left, hrun', hsplit, hpassed⟩ := ih hkeys hrest t
      refine ⟨result', u, read, left, (run_bind hrun).trans hrun', ?_, hsame.passed hpassed⟩
      rw [List.filter_cons_of_neg (by simp [hnot]), ← hsplit, owns_congr hsame.xrefEntry]
    | @assigned t value diagnostics howns hparse hsame =>
      obtain ⟨result', u, read, left, hrun', hsplit, hpassed⟩ :=
        ih hkeys hrest (t.setResolved (memberGen m.1) value)
      have hrows : (t.setResolved (memberGen m.1) value).xrefEntry = s.xrefEntry :=
        hsame.xrefEntry
      rw [owns_congr hrows] at hsplit
      refine ⟨result', u, m :: read, left, (run_bind hrun).trans hrun', ?_,
        hpassed.cons hsame hparse ?_⟩
      · rw [List.filter_cons_of_pos howns, hsplit, List.cons_append]
      · intro m' hm'
        have hmem : m' ∈ members.filter (s.owns streamNumber) :=
          hsplit ▸ List.mem_append_left left hm'
        exact (hdistinct m' (List.mem_of_mem_filter hmem)).symm
    | @stopped t e howns hstops hsame =>
      refine ⟨.error e, t, [], (m :: members).filter (s.owns streamNumber), run_bind_error hrun,
        rfl, hsame.xrefEntry, hsame.streams, nofun, fun g _ => congrFun hsame.value g, ?_⟩
      intro m' hm'
      rw [List.filter_cons_of_pos howns] at hm'
      obtain rfl : m = m' := by simpa using hm'
      exact hstops

/-! ## The header -/

theorem parseObjectStreamInteger_lt {token : Token} {n : ℤ}
    (h : Tokenizer.parseObjectStreamInteger token = .ok n) : n < 2 ^ 63 := by
  rw [Tokenizer.parseObjectStreamInteger] at h
  split_ifs at h with hfits
  · cases h
    exact hfits.2.2

theorem headerPair_lt {o o' : Tokenizer} {number offset : ℤ}
    (h : o.nextObjectStreamHeaderPair = (.ok (number, offset), o')) : offset < 2 ^ 63 := by
  rw [Tokenizer.nextObjectStreamHeaderPair] at h
  repeat' split at h
  all_goals cases h
  rename_i hoffset _
  exact parseObjectStreamInteger_lt hoffset

theorem headerPairs_lt {n : ℕ} {o : Tokenizer} {pairs : List (ℕ × ℕ)}
    (h : ObjectStream.headerPairs n o = .ok pairs) : ∀ pair ∈ pairs, pair.2 < 2 ^ 63 := by
  induction n generalizing o pairs with
  | zero =>
    cases h
    exact nofun
  | succ n ih =>
    rw [ObjectStream.headerPairs] at h
    split at h
    · cases h
    · rename_i number offset o' hpair
      split_ifs at h
      have hoffset := headerPair_lt hpair
      obtain ⟨rest, hrest, rfl⟩ : ∃ rest, ObjectStream.headerPairs n o' = .ok rest ∧
          (number.toNat, offset.toNat) :: rest = pairs := by
        cases hrest : ObjectStream.headerPairs n o' with
        | error e => rw [hrest] at h; cases h
        | ok rest => rw [hrest] at h; cases h; exact ⟨rest, rfl, rfl⟩
      intro pair hmem
      rcases List.mem_cons.mp hmem with rfl | hmem
      · dsimp only
        omega
      · exact ih hrest pair hmem

/-- An ordered map built from its pairs has ascending keys and no other entries. -/
theorem memberOffsets_spec (pairs : List (ℕ × ℕ)) :
    Ascending (memberOffsets pairs) ∧ ∀ m ∈ memberOffsets pairs, m ∈ pairs := by
  have hascending : Ascending (memberOffsets pairs) := ascending_foldl_insertSorted pairs .nil
  refine ⟨hascending, fun m hm => ?_⟩
  have hlookup := hascending.lookup_eq_some.mpr hm
  rw [memberOffsets, lookup_foldl_insertSorted, List.append_nil] at hlookup
  exact List.mem_reverse.mp (mem_of_lookup hlookup)

/-- The members have numbers of their own, and offsets that come from an `i64`. -/
theorem members_spec (h : stream.members = .ok members) :
    (members.Pairwise fun m m' => m.1 ≠ m'.1) ∧ ∀ m ∈ members, m.2 < 2 ^ 63 := by
  rw [ObjectStream.members] at h
  cases hpairs : ObjectStream.headerPairs stream.objectCount { input := stream.data } with
  | error e => rw [hpairs] at h; cases h
  | ok pairs =>
    rw [hpairs] at h
    cases h
    obtain ⟨hascending, hmem⟩ := memberOffsets_spec pairs
    refine ⟨hascending.imp ?_, fun m hm => headerPairs_lt hpairs m (hmem m hm)⟩
    intro m m' hlt
    exact (Nat.compare_eq_lt.mp hlt).ne

/-! ## Requests -/

variable {read left : List (ℕ × ℕ)} {requests later : List QpdfObjGen}

theorem value_nullUnlessResolved (s : MemberCache) (g g' : QpdfObjGen) :
    (s.nullUnlessResolved g).value g' =
      if g' = g ∧ s.value g = none then some .null else s.value g' := by
  rw [MemberCache.nullUnlessResolved]
  cases hg : s.value g with
  | some v => simp
  | none =>
    by_cases heq : g' = g
    · subst heq
      simp [MemberCache.setResolved]
    · simp [MemberCache.setResolved, heq]

/-- The members read have their values, and of the others at most those requested are null. -/
structure MembersSettled (stream : ObjectStream) (read : List (ℕ × ℕ)) (requests : List QpdfObjGen)
    (s t : MemberCache) : Prop where
  xrefEntry : t.xrefEntry = s.xrefEntry
  assigned : ∀ m ∈ read, ∃ value diagnostics,
    stream.parseMember m.2 = .ok (value, diagnostics) ∧ t.value (memberGen m.1) = some value
  kept : ∀ g, (∀ m ∈ read, memberGen m.1 ≠ g) →
    t.value g = s.value g ∨ g ∈ requests ∧ s.value g = none ∧ t.value g = some .null

theorem Passed.settled (h : Passed deliver stream read left s t) (hsame : SameValues t u)
    (requests : List QpdfObjGen) : MembersSettled stream read requests s u where
  xrefEntry := hsame.xrefEntry.trans h.xrefEntry
  assigned := by
    rw [hsame.value]
    exact h.assigned
  kept g hg := .inl ((congrFun hsame.value g).trans (h.kept g hg))

theorem MembersSettled.nullUnlessResolved (h : MembersSettled stream read requests s t)
    (hg : g ∈ requests) :
    MembersSettled stream read requests s (t.nullUnlessResolved g) where
  xrefEntry := by
    rw [← h.xrefEntry, MemberCache.nullUnlessResolved]
    split_ifs <;> rfl
  assigned := by
    intro m hm
    obtain ⟨value, diagnostics, hparse, hvalue⟩ := h.assigned m hm
    refine ⟨value, diagnostics, hparse, ?_⟩
    rw [value_nullUnlessResolved, if_neg, hvalue]
    rintro ⟨rfl, hnone⟩
    rw [hvalue] at hnone
    cases hnone
  kept := by
    intro g' hg'
    rw [value_nullUnlessResolved]
    split_ifs with hnull
    · obtain ⟨rfl, hnone⟩ := hnull
      rcases h.kept g' hg' with hkept | ⟨-, -, hvalue⟩
      · exact .inr ⟨hg, hkept ▸ hnone, rfl⟩
      · rw [hvalue] at hnone
        cases hnone
    · exact h.kept g' hg'

/-- An object that had a value has one. -/
theorem MembersSettled.resolved (h : MembersSettled stream read requests s t)
    (hg : s.value g ≠ none) :
    t.value g ≠ none := by
  by_cases hread : ∃ m ∈ read, memberGen m.1 = g
  · obtain ⟨m, hm, rfl⟩ := hread
    obtain ⟨value, -, -, hvalue⟩ := h.assigned m hm
    rw [hvalue]
    exact nofun
  · rcases h.kept g fun m hm heq => hread ⟨m, hm, heq⟩ with hkept | ⟨-, -, hnull⟩
    · rwa [hkept]
    · rw [hnull]
      exact nofun

/-- What follows the pass: its error is a warning, and an object without a value is null. -/
theorem resolveCompressed_after {result : Except MemberError Unit}
    (hrun : resolveMembers deliver streamNumber stream s = some (result, t)) (g : QpdfObjGen) :
    ∃ result' u v, resolveCompressed deliver streamNumber stream g s = some (result', v) ∧
      SameValues t u ∧ (v = u.nullUnlessResolved g ∨ v = u ∧ Undelivered deliver) := by
  -- the error reaches the caller, who warns about it
  have hcaught : ∀ (e : ParseError) (u : MemberCache), SameValues t u →
      resolveMembersOrNull deliver streamNumber stream g s = some (.error e, u) →
      ∃ result' u v, resolveCompressed deliver streamNumber stream g s = some (result', v) ∧
        SameValues t u ∧ (v = u.nullUnlessResolved g ∨ v = u ∧ Undelivered deliver) := by
    intro e u hsame herror
    obtain ⟨result', u', hpush, hsame', hresult⟩ :=
      pushMemberDiagnostic_spec deliver id (.caught g e) u
    have hstart : resolveCompressed deliver streamNumber stream g s =
        (pushMemberDiagnostic deliver id (.caught g e) >>= fun _ => nullUnlessResolved g) u :=
      run_bind (attempt_run herror)
    cases result' with
    | ok _ => exact ⟨_, u', _, hstart.trans (run_bind hpush), Trans.trans hsame hsame', .inl rfl⟩
    | error e' =>
      exact ⟨_, u', _, hstart.trans (run_bind_error hpush), Trans.trans hsame hsame',
        .inr ⟨rfl, hresult.resolve_left nofun⟩⟩
  have hpass : resolveMembersOrNull deliver streamNumber stream g s = _ :=
    run_bind (attempt_run hrun)
  cases result with
  | ok _ =>
    exact ⟨.ok (), t, t.nullUnlessResolved g, run_bind (attempt_run hpass), refl t, .inl rfl⟩
  | error e =>
    cases e with
    | warningDelivery e => exact hcaught e t (refl t) hpass
    | operation e => exact hcaught e t (refl t) hpass
    | memberWarning objectGen offset message =>
      obtain ⟨result', u, hpush, hsame, hresult⟩ :=
        pushMemberDiagnostic_spec deliver id
          (.member streamNumber objectGen offset message) t
      cases result' with
      | ok _ =>
        have hnull := hpass.trans (run_bind hpush)
        exact ⟨.ok (), u, _, run_bind (attempt_run hnull), hsame, .inl rfl⟩
      | error e => exact hcaught e u hsame (hpass.trans (run_bind_error hpush))

theorem dereferenceMember_of_resolved (deliver : ℕ → Except ParseError Unit) (streamNumber : ℕ)
    (stream : ObjectStream) (h : (s.value g).isSome) :
    dereferenceMember deliver streamNumber stream g s = some (.ok (), s) := by
  change (if (s.value g).isSome then pure () else resolveCompressed deliver streamNumber stream g :
    Program MemberCache ParseError Unit) s = _
  rw [if_pos h]
  rfl

theorem dereferenceMember_of_unresolved (h : s.value g = none) :
    dereferenceMember deliver streamNumber stream g s =
      resolveCompressed deliver streamNumber stream g s := by
  change (if (s.value g).isSome then pure () else resolveCompressed deliver streamNumber stream g :
    Program MemberCache ParseError Unit) s = _
  rw [h]
  rfl

/-- In a stream that is marked nothing is parsed any more. -/
theorem dereferenceMember_of_marked (deliver : ℕ → Except ParseError Unit)
    (stream : ObjectStream) (g : QpdfObjGen) (h : streamNumber ∈ s.resolvedObjectStreams) :
    dereferenceMember deliver streamNumber stream g s =
      some (.ok (), s.nullUnlessResolved g) := by
  cases hg : s.value g with
  | some v =>
    have hsome : (s.value g).isSome := by rw [hg]; rfl
    rw [dereferenceMember_of_resolved deliver streamNumber stream hsome,
      MemberCache.nullUnlessResolved, if_pos hsome]
  | none =>
    have hnothing : resolveMembers deliver streamNumber stream s = some (.ok (), s) := by
      change (if streamNumber ∈ s.resolvedObjectStreams then pure () else _ :
        Program MemberCache MemberError Unit) s = _
      rw [if_pos h]
      rfl
    have horNull : resolveMembersOrNull deliver streamNumber stream g s =
        some (.ok (), s.nullUnlessResolved g) := run_bind (attempt_run hnothing)
    rw [dereferenceMember_of_unresolved hg]
    exact run_bind (attempt_run horNull)

/-- The first request makes the pass. -/
theorem dereferenceMember_first (deliver : ℕ → Except ParseError Unit)
    (hfresh : streamNumber ∉ s.resolvedObjectStreams)
    (hmembers : stream.members = .ok members) (hg : s.value g = none) (hrequest : g ∈ requests) :
    ∃ result t read left,
      dereferenceMember deliver streamNumber stream g s = some (result, t) ∧
        members.filter (s.owns streamNumber) = read ++ left ∧
        (∀ m ∈ left.head?, StopsAt deliver stream m.2) ∧
        MembersSettled stream read requests s t ∧ streamNumber ∈ t.resolvedObjectStreams ∧
        (Undelivered deliver ∨ t.value g ≠ none) := by
  obtain ⟨hkeys, hfits⟩ := members_spec hmembers
  obtain ⟨result, t, read, left, hrun, hsplit, hpassed⟩ := forEach_visitMember deliver
    streamNumber stream hkeys hfits (s.markObjectStream streamNumber)
  have hpass : resolveMembers deliver streamNumber stream s = some (result, t) := by
    change (if streamNumber ∈ s.resolvedObjectStreams then pure () else _ :
      Program MemberCache MemberError Unit) s = _
    rw [if_neg hfresh, hmembers]
    exact hrun
  obtain ⟨result', u, v, hresolve, hsame, hnull⟩ := resolveCompressed_after hpass g
  have hsettled : MembersSettled stream read requests s u :=
    have hfrom := hpassed.settled hsame requests
    ⟨hfrom.xrefEntry, hfrom.assigned, hfrom.kept⟩
  have hmarked : streamNumber ∈ u.resolvedObjectStreams := by
    rw [hsame.streams, hpassed.streams]
    exact Finset.mem_insert_self ..
  refine ⟨result', v, read, left, (dereferenceMember_of_unresolved hg).trans hresolve, hsplit,
    hpassed.stops, ?_⟩
  rcases hnull with rfl | ⟨rfl, hundelivered⟩
  · refine ⟨hsettled.nullUnlessResolved hrequest, ?_, .inr ?_⟩
    · rw [MemberCache.nullUnlessResolved]
      split_ifs <;> exact hmarked
    · rw [value_nullUnlessResolved]
      split_ifs with hnone
      · exact nofun
      · exact fun heq => hnone ⟨rfl, heq⟩
  · exact ⟨hsettled, hmarked, .inl hundelivered⟩

/-- Later requests leave the pass as it is. -/
theorem requestMembers_of_marked (deliver : ℕ → Except ParseError Unit)
    (hsubset : ∀ g ∈ later, g ∈ requests)
    (h : MembersSettled stream read requests s t)
    (hmarked : streamNumber ∈ t.resolvedObjectStreams) :
    ∃ u, requestMembers deliver streamNumber stream later t = some (.ok (), u) ∧
      MembersSettled stream read requests s u ∧
      ∀ g, g ∈ later ∨ t.value g ≠ none → u.value g ≠ none := by
  induction later generalizing t with
  | nil => exact ⟨t, rfl, h, fun g hg => hg.resolve_left nofun⟩
  | cons g later ih =>
    have hmarked' : streamNumber ∈ (t.nullUnlessResolved g).resolvedObjectStreams := by
      rw [MemberCache.nullUnlessResolved]
      split_ifs <;> exact hmarked
    obtain ⟨u, hrun, hsettled, hresolved⟩ :=
      ih (fun g' hg' => hsubset g' (List.mem_cons_of_mem g hg'))
        (h.nullUnlessResolved (hsubset g List.mem_cons_self)) hmarked'
    have hstep := run_bind (f := fun _ => requestMembers deliver streamNumber stream later)
      (run_bind (f := fun _ => pure ()) (attempt_run
        (dereferenceMember_of_marked deliver stream g hmarked)))
    refine ⟨u, hstep.trans hrun, hsettled, ?_⟩
    intro g' hg'
    apply hresolved
    rw [value_nullUnlessResolved]
    by_cases hnone : g' = g ∧ t.value g = none
    · rw [if_pos hnone]
      exact .inr nofun
    · rw [if_neg hnone]
      rcases hg' with hmem | hsome
      · rcases List.mem_cons.mp hmem with rfl | hmem
        · exact .inr fun heq => hnone ⟨rfl, heq⟩
        · exact .inl hmem
      · exact .inr hsome

/-- Requests one of which needs the stream. -/
theorem requestMembers_settled (deliver : ℕ → Except ParseError Unit)
    (hfresh : streamNumber ∉ s.resolvedObjectStreams)
    (hmembers : stream.members = .ok members) (hsubset : ∀ g ∈ later, g ∈ requests)
    (hneeded : ∃ g ∈ later, s.value g = none) :
    ∃ t read left, requestMembers deliver streamNumber stream later s = some (.ok (), t) ∧
      members.filter (s.owns streamNumber) = read ++ left ∧
      (∀ m ∈ left.head?, StopsAt deliver stream m.2) ∧ MembersSettled stream read requests s t ∧
      (Undelivered deliver ∨ ∀ g ∈ later, t.value g ≠ none) := by
  induction later with
  | nil =>
    obtain ⟨g, hg, -⟩ := hneeded
    cases hg
  | cons g later ih =>
    have hlater : ∀ g' ∈ later, g' ∈ requests := fun g' hg' =>
      hsubset g' (List.mem_cons_of_mem g hg')
    cases hg : s.value g with
    | some v =>
      have hstep := run_bind (f := fun _ => requestMembers deliver streamNumber stream later)
        (run_bind (f := fun _ => pure ()) (attempt_run (dereferenceMember_of_resolved deliver
          streamNumber stream (Option.isSome_iff_exists.mpr ⟨v, hg⟩))))
      obtain ⟨g', hmem, hnone⟩ := hneeded
      have hmem' : g' ∈ later := by
        rcases List.mem_cons.mp hmem with rfl | hmem
        · rw [hg] at hnone
          cases hnone
        · exact hmem
      obtain ⟨t, read, left, hrun, hsplit, hstops, hsettled, hresolved⟩ :=
        ih hlater ⟨g', hmem', hnone⟩
      refine ⟨t, read, left, hstep.trans hrun, hsplit, hstops, hsettled, hresolved.imp_right ?_⟩
      intro h g'' hg''
      rcases List.mem_cons.mp hg'' with rfl | hg''
      · apply hsettled.resolved
        rw [hg]
        exact nofun
      · exact h g'' hg''
    | none =>
      obtain ⟨result, t, read, left, hrun, hsplit, hstops, hsettled, hmarked, hresolved⟩ :=
        dereferenceMember_first deliver hfresh hmembers hg
          (hsubset g List.mem_cons_self)
      obtain ⟨u, hrun', hsettled', hresolved'⟩ :=
        requestMembers_of_marked deliver hlater hsettled hmarked
      have hstep := run_bind (f := fun _ => requestMembers deliver streamNumber stream later)
        (run_bind (f := fun _ => pure ()) (attempt_run hrun))
      refine ⟨u, read, left, hstep.trans hrun', hsplit, hstops, hsettled', hresolved.imp_right ?_⟩
      intro hne g' hg'
      apply hresolved'
      rcases List.mem_cons.mp hg' with rfl | hmem
      · exact .inr hne
      · exact .inl hmem

/-- The members in front of the first one that cannot be parsed. -/
def readable (stream : ObjectStream) (own : List (ℕ × ℕ)) : List (ℕ × ℕ) :=
  own.takeWhile fun m => (stream.parseMember m.2).isOk

theorem readable_append (left : List (ℕ × ℕ))
    (hread : ∀ m ∈ read, (stream.parseMember m.2).isOk = true) :
    readable stream (read ++ left) = read ++ readable stream left :=
  List.takeWhile_append_of_pos hread

/-- An offset behind the data stands for null. -/
theorem parseMember_of_length_le {offset : ℕ} (h : stream.data.length ≤ stream.first + offset) :
    ∃ diagnostics, stream.parseMember offset = .ok (.null, diagnostics) := by
  rw [ObjectStream.parseMember, ObjectStream.memberData, List.drop_eq_nil_of_le h]
  exact ⟨_, rfl⟩

end

/-- Whichever members of a stream are requested, and in whatever order, once one of them was
needed the members up to the first that cannot be parsed have the values of their bytes.  No
other object is changed, but that a requested one without a value is null. -/
theorem requestMembers_assigns (deliver : ℕ → Except ParseError Unit) (streamNumber : ℕ)
    (stream : ObjectStream) (members : List (ℕ × ℕ)) (hheader : stream.members = .ok members)
    (s : MemberCache) (hfresh : streamNumber ∉ s.resolvedObjectStreams)
    (requests : List QpdfObjGen) (hrow : ∀ g ∈ requests, s.inStream streamNumber g = true)
    (hneeded : ∃ g ∈ requests, s.value g = none) :
    ∃ t read, requestMembers deliver streamNumber stream requests s = some (.ok (), t) ∧
      read <+: readable stream (members.filter (s.owns streamNumber)) ∧
      (¬Undelivered deliver →
        read = readable stream (members.filter (s.owns streamNumber)) ∧
          ∀ g ∈ requests, t.value g ≠ none) ∧
      (∀ m ∈ read, ∃ value diagnostics,
        stream.parseMember m.2 = .ok (value, diagnostics) ∧
          t.value (memberGen m.1) = some value) ∧
      (∀ g, (∀ m ∈ read, memberGen m.1 ≠ g) →
        t.value g = s.value g ∨ g ∈ requests ∧ s.value g = none ∧ t.value g = some .null) ∧
      (∀ g, s.inStream streamNumber g = false → t.value g = s.value g) ∧
      t.xrefEntry = s.xrefEntry ∧
      (∀ offset, stream.data.length ≤ stream.first + offset →
        ∃ diagnostics, stream.parseMember offset = .ok (.null, diagnostics)) ∧
      ∀ offset window back, stream.memberData offset = window ++ back →
        readUpTo window < window.length →
          stream.parseMember offset = parseQpdfDirectObjectHandle window := by
  obtain ⟨t, read, left, hrun, hsplit, hstops, hsettled, hresolved⟩ :=
    requestMembers_settled deliver hfresh hheader (fun _ hg => hg) hneeded
  have hread : ∀ m ∈ read, (stream.parseMember m.2).isOk = true := by
    intro m hm
    obtain ⟨value, diagnostics, hparse, -⟩ := hsettled.assigned m hm
    rw [hparse]
    rfl
  have hreadable := readable_append left hread
  rw [← hsplit] at hreadable
  refine ⟨t, read, hrun, ?_, ?_, hsettled.assigned, hsettled.kept, ?_, hsettled.xrefEntry,
    fun _ => parseMember_of_length_le, ?_⟩
  · rw [hreadable]
    exact List.prefix_append _ _
  · intro hdelivered
    refine ⟨?_, hresolved.resolve_left hdelivered⟩
    rw [hreadable, List.self_eq_append_right]
    cases left with
    | nil => rfl
    | cons m left =>
      obtain ⟨e, hparse⟩ := (hstops m rfl).resolve_right hdelivered
      exact List.takeWhile_cons_of_neg (by simp [hparse, Except.isOk, Except.toBool])
  · intro g hg
    -- a member that was read has a row in the stream
    have hnot : ∀ m ∈ read, memberGen m.1 ≠ g := by
      rintro m hm rfl
      have hmem : m ∈ members.filter (s.owns streamNumber) := hsplit ▸ List.mem_append_left left hm
      have hin := (owns_iff.mp (List.mem_filter.mp hmem).2).2
      rw [hg] at hin
      cases hin
    rcases hsettled.kept g hnot with hkept | ⟨hmem, -, -⟩
    · exact hkept
    · rw [hrow g hmem] at hg
      cases hg
  · intro offset window back hdata hend
    rw [ObjectStream.parseMember, hdata]
    exact parseQpdfDirectObjectHandle_append back hend

theorem eq_ok_of_toOption {ε α : Type} {x : Except ε α} {a : α} (h : x.toOption = some a) :
    x = .ok a := by
  cases x with
  | error e => cases h
  | ok b => exact congrArg Except.ok (Option.some.inj h)

/-- A stream with the members 7 and 8, of which the second begins at the given offset. -/
def twoMemberStream (first : ℕ) (h : first < 2 ^ 63) (data : Bytes) : ObjectStream where
  objectCount := 2
  first := first
  first_lt := h
  data := data

/-- The rows of the members 7 and 8, compressed in the stream 4. -/
def twoRows : MemberCache where
  xrefEntry g := if g = memberGen 7 ∨ g = memberGen 8 then some (.compressed 4 0) else none
  value _ := none
  defaultXrefEntries := ∅
  resolvedObjectStreams := ∅
  warnings := []

theorem requestMembers_assigns_twoMembers :
    ∃ t, requestMembers (fun _ => .ok ()) 4
        (twoMemberStream 9 (by decide) (ascii "7 0 8 19 [ 2147483648 0 R ] 5 ")) [memberGen 8]
          twoRows = some (.ok (), t) ∧ t.value (memberGen 8) ≠ none := by
  obtain ⟨t, read, hrun, -, hdelivered, -⟩ := requestMembers_assigns (fun _ => .ok ()) 4
    (twoMemberStream 9 (by decide) (ascii "7 0 8 19 [ 2147483648 0 R ] 5 ")) [(7, 0), (8, 19)]
    (eq_ok_of_toOption (by decide)) twoRows (by decide) [memberGen 8] (by decide)
    ⟨memberGen 8, List.mem_singleton_self _, rfl⟩
  exact ⟨t, hrun, (hdelivered nofun).2 _ (List.mem_singleton_self _)⟩

/-! ## Damage that spreads -/

def parsesInteger (n : ℤ) : Except ParseError (ObjectValue × List (ℕ × Bytes)) → Bool
  | .ok (.integer value, _) => value == n
  | _ => false

def resolvesToNull : Option ObjectValue → Bool
  | some .null => true
  | _ => false

def endsWithNull (g : QpdfObjGen) : Option (Except ParseError Unit × MemberCache) → Bool
  | some (.ok (), t) => resolvesToNull (t.value g)
  | _ => false

theorem exists_of_parsesInteger {n : ℤ} {r : Except ParseError (ObjectValue × List (ℕ × Bytes))}
    (h : parsesInteger n r = true) : ∃ diagnostics, r = .ok (.integer n, diagnostics) := by
  rcases r with e | ⟨_ | _ | value | _ | _ | _ | _ | _ | _ | _ | _ | _, diagnostics⟩ <;>
    simp [parsesInteger] at h
  exact ⟨diagnostics, h ▸ rfl⟩

theorem eq_of_resolvesToNull {v : Option ObjectValue} (h : resolvesToNull v = true) :
    v = some .null := by
  rw [resolvesToNull.eq_def] at h
  split at h
  · rfl
  · cases h

theorem exists_of_endsWithNull {g : QpdfObjGen}
    {r : Option (Except ParseError Unit × MemberCache)} (h : endsWithNull g r = true) :
    ∃ t, r = some (.ok (), t) ∧ t.value g = some .null := by
  match r, h with
  | some (.ok (), t), h => exact ⟨t, rfl, eq_of_resolvesToNull h⟩

/-- A member behind one that cannot be parsed is null though its own bytes are an integer, and a
member changes with the bytes of the next one when nothing stands between them. -/
theorem requestMembers_damageSpreads :
    (∃ stream : ObjectStream, stream.members.toOption = some [(7, 0), (8, 19)] ∧
      (∃ diagnostics, stream.parseMember 19 = .ok (.integer 5, diagnostics)) ∧
      ∀ requests ∈ [[memberGen 8], [memberGen 7, memberGen 8]],
        ∃ t, requestMembers (fun _ => .ok ()) 4 stream requests twoRows = some (.ok (), t) ∧
          t.value (memberGen 8) = some .null) ∧
    ∃ stream stream' : ObjectStream,
      stream.members.toOption = some [(7, 0), (8, 1)] ∧
        stream'.members.toOption = some [(7, 0), (8, 1)] ∧ stream.first = stream'.first ∧
        stream.data.take 9 = stream'.data.take 9 ∧
        (∃ diagnostics, stream.parseMember 0 = .ok (.integer 12, diagnostics)) ∧
        ∃ diagnostics, stream'.parseMember 0 = .ok (.integer 13, diagnostics) := by
  constructor
  · refine ⟨twoMemberStream 9 (by decide) (ascii "7 0 8 19 [ 2147483648 0 R ] 5 "),
      by decide, exists_of_parsesInteger (by decide), ?_⟩
    intro requests hrequests
    rcases List.mem_pair.mp hrequests with rfl | rfl
    · exact exists_of_endsWithNull (by decide +kernel)
    · exact exists_of_endsWithNull (by decide +kernel)
  · refine ⟨twoMemberStream 8 (by decide) (ascii "7 0 8 1 12"),
      twoMemberStream 8 (by decide) (ascii "7 0 8 1 13"), by decide, by decide,
      ?_, ?_, exists_of_parsesInteger (by decide), exists_of_parsesInteger (by decide)⟩
    · decide
    · decide

end Flpdf
