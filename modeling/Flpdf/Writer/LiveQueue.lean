import Flpdf.Xref.Registration
import Mathlib.Data.Nat.Notation
import Mathlib.Logic.Function.Basic

/-!
# The live queue

The queue of the plain writer. An object gets its output number when a
reference to it is first seen; a member of an object stream sends the search to
its container, and under QDF every stream also reserves a holder for its length.
-/

/-! ## Numbering from a counter

A partial numbering of keys by the values of one counter. Giving the counter's
value to a key keeps the numbers distinct; it keeps them without a gap when the
key had none. -/

namespace Flpdf

variable {κ ν : Type} {name : ℕ → ν} {number : κ → Option ν} {next n : ℕ} {key : κ}

/-- The assigned names are distinct and belong to the values the counter has passed. -/
structure Numbering (name : ℕ → ν) (number : κ → Option ν) (next : ℕ) : Prop where
  pos : 1 ≤ next
  range : ∀ key v, number key = some v → ∃ n, 1 ≤ n ∧ n < next ∧ v = name n
  injective : ∀ key key' v, number key = some v → number key' = some v → key = key'

/-- Every value the counter has passed names a key. -/
def Covers (name : ℕ → ν) (number : κ → Option ν) (next : ℕ) : Prop :=
  ∀ n, 1 ≤ n → n < next → ∃ key, number key = some (name n)

theorem Numbering.start : Numbering name (fun _ : κ => none) 1 where
  pos := Nat.le_refl 1
  range := by simp
  injective := by simp

theorem Covers.start : Covers name (fun _ : κ => none) 1 := by
  intro n hpos hlt
  omega

variable [DecidableEq κ]

/-- The next value is new. -/
theorem Numbering.assign (h : Numbering name number next) (hname : Function.Injective name)
    (key : κ) : Numbering name (Function.update number key (some (name next))) (next + 1) where
  pos := by omega
  range := by
    intro key' v hv
    by_cases hkey : key' = key
    · subst hkey
      rw [Function.update_self] at hv
      exact ⟨next, h.pos, by omega, (Option.some.inj hv).symm⟩
    · rw [Function.update_of_ne hkey] at hv
      obtain ⟨n, hpos, hlt, hn⟩ := h.range key' v hv
      exact ⟨n, hpos, by omega, hn⟩
  injective := by
    have hfresh : ∀ key', number key' ≠ some (name next) := by
      intro key' hkey'
      obtain ⟨n, _, hlt, hn⟩ := h.range key' _ hkey'
      have := hname hn
      omega
    intro a b v ha hb
    by_cases hak : a = key
    · by_cases hbk : b = key
      · rw [hak, hbk]
      · rw [hak, Function.update_self] at ha
        rw [Function.update_of_ne hbk, ← ha] at hb
        exact absurd hb (hfresh b)
    · by_cases hbk : b = key
      · rw [hbk, Function.update_self] at hb
        rw [Function.update_of_ne hak, ← hb] at ha
        exact absurd ha (hfresh a)
      · rw [Function.update_of_ne hak] at ha
        rw [Function.update_of_ne hbk] at hb
        exact h.injective a b v ha hb

/-- A key without a number takes the next value. -/
theorem Covers.assign (h : Covers name number next) (hkey : number key = none) :
    Covers name (Function.update number key (some (name next))) (next + 1) := by
  intro n hpos hlt
  by_cases hn : n = next
  · exact ⟨key, by rw [hn, Function.update_self]⟩
  · obtain ⟨key', hkey'⟩ := h n hpos (by omega)
    have hne : key' ≠ key := by
      intro heq
      rw [heq, hkey] at hkey'
      cases hkey'
    exact ⟨key', by rw [Function.update_of_ne hne, hkey']⟩

end Flpdf

namespace Flpdf

open Std

/-- The failures of the writer; resolving a damaged object is the document's own. -/
inductive WriterError where
  | unsupported (message : String)
  | internal (message : String)
  | document (message : String)
  deriving DecidableEq, Repr

/-- What the queue asks of a handle. -/
structure ObjectHandle where
  owningPdfUniqueId : Option ℕ
  qpdfObjGen : Option QpdfObjGen
  isXrefStream : Except WriterError Bool
  isStream : Bool

def ObjectHandle.objectRef (handle : ObjectHandle) : Option ObjectRef :=
  handle.qpdfObjGen.bind QpdfObjGen.toObjectRef

/-- The raw identity of an indirect handle. -/
def ObjectHandle.indirectObjGen (handle : ObjectHandle) : Option QpdfObjGen :=
  handle.qpdfObjGen.filter QpdfObjGen.isIndirect

/-- What the queue asks of the document; `writerObjectOrder` compares the order
keys of two members when the document carries them. -/
structure Document where
  uniqueId : ℕ
  getObjectHandle : ObjectRef → ObjectHandle
  writerObjectOrder : Option (ObjectRef → ObjectRef → Bool)

inductive ObjectStreamGroup where
  | sourceBacked (source : ObjectRef) (members : List ObjectRef)
  | generated (source : ObjectRef) (members : List ObjectRef)

structure LiveQueue where
  nextObjid : ℕ
  oldToNew : ExtTreeMap ObjectRef ObjectRef
  rawOldToNew : ExtTreeMap QpdfObjGen ObjectRef
  pending : List ObjectHandle
  removedRefs : ExtTreeSet ObjectRef
  memberToContainer : ExtTreeMap ObjectRef ObjectRef
  containerToMembers : ExtTreeMap ObjectRef (List ObjectRef)
  resolvingMembers : ExtTreeSet ObjectRef
  streamLengthHolders : ExtTreeMap ObjectRef ObjectRef
  generatedContainerSources : ExtTreeSet ObjectRef
  qdfIgnoredRefs : ExtTreeSet QpdfObjGen
  qdf : Bool

namespace LiveQueue

def new (removedRefs : ExtTreeSet ObjectRef) (qdf : Bool) : LiveQueue where
  nextObjid := 1
  oldToNew := ∅
  rawOldToNew := ∅
  pending := []
  removedRefs := removedRefs
  memberToContainer := ∅
  containerToMembers := ∅
  resolvingMembers := ∅
  streamLengthHolders := ∅
  generatedContainerSources := ∅
  qdfIgnoredRefs := ∅
  qdf := qdf

/-- The retained members in the document's order, by default by number and generation. -/
def sortMembers (pdf : Document) (members : List ObjectRef) : List ObjectRef :=
  match pdf.writerObjectOrder with
  | some le => members.mergeSort le
  | none => members.mergeSort fun a b => (compare a b).isLE

def registerMembers (q : LiveQueue) (source : ObjectRef) (retained : List ObjectRef) : LiveQueue :=
  if retained.isEmpty then q
  else
    { q with
      memberToContainer := retained.foldl (fun map member => map.insert member source)
        q.memberToContainer
      containerToMembers := q.containerToMembers.insert source retained }

def retainedMembers (pdf : Document) (q : LiveQueue) (members : List ObjectRef) :
    List ObjectRef :=
  sortMembers pdf (members.filter fun member => !q.removedRefs.contains member)

def registerGroup (pdf : Document) (q : LiveQueue) : ObjectStreamGroup → LiveQueue
  | .sourceBacked source members => q.registerMembers source (retainedMembers pdf q members)
  | .generated source members =>
    { q with
      generatedContainerSources := q.generatedContainerSources.insert source }.registerMembers
        source (retainedMembers pdf q members)

def registerObjectStreams (pdf : Document) (groups : List ObjectStreamGroup) (q : LiveQueue) :
    LiveQueue :=
  groups.foldl (registerGroup pdf) q

/-- An output reference. -/
def outputRef (number : ℕ) : ObjectRef := ⟨number, 0⟩

/-- The next number, checked against `u32`; a failure leaves the queue alone. -/
def reserveOutputNumber (q : LiveQueue) : Except WriterError (ObjectRef × LiveQueue) :=
  if q.nextObjid + 1 < 2 ^ 32 then
    .ok (outputRef q.nextObjid, { q with nextObjid := q.nextObjid + 1 })
  else .error (.unsupported "plain live writer object number overflows u32")

/-- What a call returns, and the queue it leaves; a failure keeps what was done before it. -/
abbrev Outcome (α : Type) := Except WriterError α × LiveQueue

/-- The holder of a stream's length. -/
def reserveLengthHolder (q : LiveQueue) (key : ObjectRef) : Outcome Unit :=
  match q.reserveOutputNumber with
  | .error e => (.error e, q)
  | .ok (holder, q) =>
    (.ok (), { q with streamLengthHolders := q.streamLengthHolders.insert key holder })

/-- The eager numbering of a container's members. -/
def numberMembers : List ObjectRef → LiveQueue → Outcome Unit
  | [], q => (.ok (), q)
  | member :: members, q =>
    if member ∈ q.oldToNew then numberMembers members q
    else
      match q.reserveOutputNumber with
      | .error e => (.error e, q)
      | .ok (output, q) =>
        numberMembers members { q with oldToNew := q.oldToNew.insert member output }

/-- The branch for identities without a valid reference. The holder is kept
under the output reference, in the map whose other keys are source references. -/
def enqueueRaw (q : LiveQueue) (handle : ObjectHandle) (rawSource : QpdfObjGen) :
    Outcome (Option ObjectRef) :=
  match q.rawOldToNew[rawSource]? with
  | some output => (.ok (some output), q)
  | none =>
    match q.reserveOutputNumber with
    | .error e => (.error e, q)
    | .ok (output, q) =>
      let q : LiveQueue :=
        { q with
          rawOldToNew := q.rawOldToNew.insert rawSource output
          pending := q.pending ++ [handle] }
      if q.qdf && handle.isStream then
        let outcome := q.reserveLengthHolder (outputRef output.number)
        (outcome.1.map fun _ => some output, outcome.2)
      else (.ok (some output), q)

/-- The branch that numbers a source and queues it, with its members or its holder. -/
def enqueueSource (q : LiveQueue) (handle : ObjectHandle) (source : ObjectRef) :
    Outcome (Option ObjectRef) :=
  match q.reserveOutputNumber with
  | .error e => (.error e, q)
  | .ok (output, q) =>
    let q : LiveQueue :=
      { q with
        oldToNew := q.oldToNew.insert source output
        pending := q.pending ++ [handle] }
    match q.containerToMembers[source]? with
    | some members =>
      let outcome := numberMembers members q
      (outcome.1.map fun _ => some output, outcome.2)
    | none =>
      if q.qdf && handle.isStream then
        let outcome := q.reserveLengthHolder source
        (outcome.1.map fun _ => some output, outcome.2)
      else (.ok (some output), q)

/-- What discovering a member returns once its container has been enqueued. -/
def memberOutcome (source : ObjectRef) (outcome : Outcome (Option ObjectRef)) :
    Outcome (Option ObjectRef) :=
  (outcome.1.map fun _ => outcome.2.oldToNew[source]?, outcome.2)

def foreignHandleMessage : String :=
  "QPDFObjectHandle from different QPDF found while writing.  Use QPDF::copyForeignObject to add objects from another file."

/-- `enqueue_handle`; the fuel bounds the redirections from member to container. -/
def enqueueFuel (pdf : Document) : ℕ → ObjectHandle → LiveQueue →
    Option (Outcome (Option ObjectRef))
  | 0, _, _ => none
  | fuel + 1, handle, q =>
    if handle.owningPdfUniqueId ≠ some pdf.uniqueId then
      some (.error (.internal foreignHandleMessage), q)
    else
      match if q.qdf then handle.isXrefStream else .ok false with
      | .error e => some (.error e, q)
      | .ok true =>
        match handle.indirectObjGen with
        | some source => some (.ok none, { q with qdfIgnoredRefs := q.qdfIgnoredRefs.insert source })
        | none => some (.ok none, q)
      | .ok false =>
        match handle.objectRef with
        | none =>
          match handle.indirectObjGen with
          | none => some (.ok none, q)
          | some rawSource => some (q.enqueueRaw handle rawSource)
        | some source =>
          if source.number = 0 then some (.ok none, q)
          else if source ∈ q.removedRefs ∧ source ∉ q.containerToMembers then some (.ok none, q)
          else
            match q.oldToNew[source]? with
            | some output => some (.ok (some output), q)
            | none =>
              match q.memberToContainer[source]? with
              | none => some (q.enqueueSource handle source)
              | some container =>
                -- Damaged files name containers that are members, possibly in a cycle.
                if source ∈ q.resolvingMembers then some (.ok (some (outputRef 0)), q)
                else
                  (enqueueFuel pdf fuel (pdf.getObjectHandle container)
                    { q with resolvingMembers := q.resolvingMembers.insert source }).map
                      (memberOutcome source)

def enqueueHandle (pdf : Document) (handle : ObjectHandle) (q : LiveQueue) :
    Option (Outcome (Option ObjectRef)) :=
  enqueueFuel pdf (q.memberToContainer.size + 1) handle q

def pop (q : LiveQueue) : Option (ObjectHandle × LiveQueue) :=
  match q.pending with
  | [] => none
  | handle :: pending => some (handle, { q with pending := pending })

end LiveQueue

end Flpdf
