import Flpdf.Collections.SortedMap
import Flpdf.Resolver.Source

/-!
# Resolving an object

Resolution marks the object, dispatches on its row, and leaves a value in the slot:
the object at an offset, the member an object stream assigns, or null. Reading may
ask for other objects, so every function takes the dereferencing it re-enters; it
is closed with a bound on the depth.
-/

namespace Flpdf.Resolver

open Program

/-- Where reading an object failed. -/
inductive ReadObjectAtOffsetError where
  | header (e : Error)
  | body (e : Error)
deriving DecidableEq, Repr

def ReadObjectAtOffsetError.intoError : ReadObjectAtOffsetError → Error
  | .header e => e
  | .body e => e

structure ParsedObjectAtOffset where
  objectGen : QpdfObjGen
  value : ObjectValue
deriving DecidableEq, Repr

/-- How decoding an object stream failed. -/
inductive ObjectStreamResolutionError where
  | memberWarning
  | warningDelivery (e : Error)
  | operation (e : Error)
deriving DecidableEq, Repr

def MemberFailure.toResolutionError : MemberFailure → ObjectStreamResolutionError
  | .memberWarning => .memberWarning
  | .warningDelivery e => .warningDelivery e
  | .operation e => .operation e

/-- A failure under another type of failures. -/
def mapError {ε ε' α : Type} (wrap : ε → ε') (p : Program State ε α) : Program State ε' α := do
  let result ← p.attempt
  ofExcept (result.mapError wrap)

/-- `handle.set_resolved`. -/
def setResolved {ε : Type} (h : ℕ) (v : ObjectValue) : Program State ε Unit :=
  modify fun s => s.setResolved h v

/-- The handle registered under an identity is resolved. -/
def State.registeredIsResolved (s : State) (g : QpdfObjGen) : Bool :=
  (s.objectCache[g]?).any s.isResolved

variable (source : Source) (tryDereference : ℕ → Program State Error Unit)

/-- The header of the object at an offset, checked against the identity asked for
when a mismatch can be recovered from. -/
def checkedHeader (offset : ℕ) (expected : QpdfObjGen) (tryRecovery : Bool) :
    Except Error QpdfObjGen := do
  let found ← source.header offset
  if found.object = 0 then .error .damage
  else if tryRecovery && expected.isIndirect && found != expected then .error .damage
  else .ok found

/-- The object behind a checked header. -/
def readBody (offset : ℕ) (expected found : QpdfObjGen) (initiallyResolved : Bool) :
    Program State Error ParsedObjectAtOffset := do
  let parsed ← (source.parseObject offset).run source tryDereference
  let value ← ofExcept parsed
  onlyIf (expected.isIndirect && found != expected) source.pushWarning
  let finished ← (source.readStream offset value).run source tryDereference
  let value ← ofExcept finished
  let s ← get
  onlyIf (initiallyResolved || !s.registeredIsResolved found)
    (ofExcept (source.objectEndOffsets offset))
  pure ⟨found, value⟩

/-- `read_object_at_offset_with_description`. -/
def readObjectAtOffset (offset : ℕ) (expected : QpdfObjGen) (tryRecovery : Bool) :
    Program State ReadObjectAtOffsetError ParsedObjectAtOffset := do
  let s ← get
  mapError .body (ofExcept (source.seek offset))
  let found ← mapError .header (ofExcept (checkedHeader source offset expected tryRecovery))
  mapError .body
    (readBody source tryDereference offset expected found (s.registeredIsResolved expected))

/-- `cache_parsed_object`: the identity in the header decides the slot. -/
def cacheParsedObject (parsed : ParsedObjectAtOffset) : Program State Error Unit := do
  let h ← getObjectHandle parsed.objectGen
  setResolved h parsed.value

/-- `cache_parsed_object_if_unresolved`. -/
def cacheParsedObjectIfUnresolved (parsed : ParsedObjectAtOffset) : Program State Error Unit := do
  let s ← get
  if s.registeredIsResolved parsed.objectGen then pure () else cacheParsedObject parsed

/-- A parsed object in the cache, and null for the one asked for if it is another. -/
def cacheForRequest (g : QpdfObjGen) (h : ℕ) (parsed : ParsedObjectAtOffset) :
    Program State Error Unit := do
  cacheParsedObjectIfUnresolved parsed
  if parsed.objectGen = g then pure () else setResolved h .null

/-! ## Rebuilding the table -/

def isUncompressed : XrefEntry → Bool
  | .uncompressed _ => true
  | _ => false

/-- `remove_uncompressed_entries`. -/
def State.removeUncompressedEntries (s : State) : State :=
  { s with rawEntries := s.rawEntries.filter fun _ entry => !isUncompressed entry }

/-- The rows of the line scan, each over what was there. -/
def State.insertReconstructedEntries (s : State) (scanned : List (QpdfObjGen × ℕ)) : State :=
  { s with
    rawEntries := scanned.foldl (fun rows row => rows.insert row.1 (.uncompressed row.2))
      s.rawEntries }

/-- `begin_xref_reconstruction`. -/
def State.beginXrefReconstruction (s : State) : State :=
  { s with reconstructedXref := true, fixedDanglingRefs := false, rebuilds := s.rebuilds + 1 }

/-- `reconstruct_xref_on_owner` of a document whose trailer is known. -/
def reconstructXref (trigger : Error) : Program State Error Unit := do
  let s ← get
  if s.reconstructedXref then fail trigger
  else do
    modify State.beginXrefReconstruction
    forEach (fun _ => source.pushWarning) [(), (), ()]
    modify State.removeUncompressedEntries
    modify fun s => s.insertReconstructedEntries source.scannedEntries
    ofExcept source.scanResult

/-- `reconstruct_xref_and_retry`: only damage starts it, and the object is read again
only where the new table has an offset for it. -/
def reconstructXrefAndRetry (trigger : Error) (expected : QpdfObjGen) :
    Program State Error (Option ParsedObjectAtOffset) :=
  if trigger = .damage then do
    reconstructXref source trigger
    let s ← get
    match s.rawEntries[expected]? with
    | some (.uncompressed offset) => do
      let parsed ← mapError ReadObjectAtOffsetError.intoError
        (readObjectAtOffset source tryDereference offset expected false)
      pure (some parsed)
    | _ => pure none
  else fail trigger

/-! ## Object streams -/

/-- The members in ascending order, the last pair of a number deciding its offset. -/
def memberOffsets (pairs : List (ℕ × ℕ)) : List (ℕ × ℕ) :=
  pairs.foldl (fun members pair => insertSorted pair.1 pair.2 members) []

/-- The row puts the object into the object stream. -/
def State.isMemberOf (s : State) (g : QpdfObjGen) (streamNumber : ℕ) : Bool :=
  match s.rawEntries[g]? with
  | some (.compressed stream _) => stream == streamNumber
  | _ => false

def State.insertDefaultXrefEntry (s : State) (g : QpdfObjGen) : State :=
  { s with defaultXrefEntries := s.defaultXrefEntries.insert g }

/-- One member: skipped unless its row names this stream, else assigned. -/
def resolveMember (streamNumber : ℕ) (decoded : DecodedObjectStream) (member : ℕ × ℕ) :
    Program State ObjectStreamResolutionError Unit := do
  let s ← get
  let g : QpdfObjGen := ⟨member.1, 0⟩
  -- a number outside `int` has neither a row nor a default row
  if 2 ^ 31 ≤ member.1 then pure ()
  else if s.isMemberOf g streamNumber then do
    let h ← getObjectHandle g
    let parsed ← (source.parseMember decoded member.2).run source tryDereference
    let value ← mapError MemberFailure.toResolutionError (ofExcept parsed)
    setResolved h value
  else if s.rawEntries[g]?.isNone then modify fun s => s.insertDefaultXrefEntry g
  else pure ()

/-- The members of an object stream that could be read. -/
def decodeMembers (streamNumber : ℕ) (stream : ObjectValue) :
    Program State ObjectStreamResolutionError Unit := do
  modify fun s => { s with decodedStreams := s.decodedStreams ++ [streamNumber] }
  let result ← (source.decodeObjectStream streamNumber stream).run source tryDereference
  match ← mapError .operation (ofExcept result) with
  | none => pure ()
  | some decoded =>
    forEach (resolveMember source tryDereference streamNumber decoded)
      (memberOffsets decoded.pairs)

def State.markObjectStream (s : State) (streamNumber : ℕ) : State :=
  { s with resolvedObjectStreams := insert streamNumber s.resolvedObjectStreams }

/-- `as_stream_dict`: the value when it is a stream. -/
def State.asStream (s : State) (h : ℕ) : Option ObjectValue :=
  match s.value h with
  | some (.stream streamDict offset length) => some (.stream streamDict offset length)
  | _ => none

/-- `resolve_object_stream_with_failure_kind`. -/
def resolveObjectStreamWithFailureKind (streamNumber : ℕ) :
    Program State ObjectStreamResolutionError Unit := do
  let s ← get
  if streamNumber ∈ s.resolvedObjectStreams then pure ()
  else do
    modify fun s => s.markObjectStream streamNumber
    if 2 ^ 31 ≤ streamNumber then fail (.operation .other)
    else do
      let h ← getObjectHandle ⟨streamNumber, 0⟩
      mapError .operation (tryDereference h)
      let s ← get
      match s.asStream h with
      | some stream => decodeMembers source tryDereference streamNumber stream
      | none => mapError .warningDelivery source.pushWarning

/-- An object that nothing was assigned to is null. -/
def nullIfUnresolved (h : ℕ) : Program State Error Unit := do
  let s ← get
  if s.isResolved h then pure () else setResolved h .null

/-- `resolve_object_stream_or_null`. -/
def resolveObjectStreamOrNull (streamNumber h : ℕ) : Program State Error Unit := do
  match ← (resolveObjectStreamWithFailureKind source tryDereference streamNumber).attempt with
  | .ok () => nullIfUnresolved h
  | .error .memberWarning => do
    source.pushWarning
    nullIfUnresolved h
  | .error (.warningDelivery e) => fail e
  | .error (.operation e) => fail e

/-! ## One resolution -/

/-- The type-1 branch. An error of the result is caught by the caller; a failure is
not. -/
def resolveAtOffset (g : QpdfObjGen) (h offset : ℕ) :
    Program State Error (Except Error Unit) := do
  if offset = 0 then do
    source.pushWarning
    setResolved h .null
    pure (.ok ())
  else do
    match ← (readObjectAtOffset source tryDereference offset g source.attemptRecovery).attempt with
    | .ok parsed => do
      cacheForRequest g h parsed
      pure (.ok ())
    | .error (.body e) => pure (.error e)
    | .error (.header e) =>
      if source.attemptRecovery then do
        match ← (reconstructXrefAndRetry source tryDereference e g).attempt with
        | .ok (some parsed) => do
          cacheForRequest g h parsed
          pure (.ok ())
        | .ok none => do
          source.pushWarning
          setResolved h .null
          pure (.ok ())
        | .error e => pure (.error e)
      else pure (.error e)

/-- `warn_default_xref_entry`. -/
def warnDefaultXrefEntry (g : QpdfObjGen) : Program State Error Unit := do
  let s ← get
  if g ∈ s.defaultXrefEntries ∧ g ∉ s.defaultXrefWarnings then do
    source.pushWarning
    modify fun s => { s with defaultXrefWarnings := insert g s.defaultXrefWarnings }
  else pure ()

/-- The dispatch on the row. -/
def dispatch (g : QpdfObjGen) (h : ℕ) (entry : Option XrefEntry) :
    Program State Error (Except Error Unit) :=
  match entry with
  | some (.uncompressed offset) => resolveAtOffset source tryDereference g h offset
  | some (.compressed stream _) =>
    (resolveObjectStreamOrNull source tryDereference stream h).attempt
  | some (.free _) | none => do
    setResolved h .null
    pure (.ok ())

/-- Resolution of a marked object; what the dispatch raises becomes a warning. -/
def resolveMarked (g : QpdfObjGen) (h : ℕ) : Program State Error Unit := do
  let s ← get
  if s.rawEntries[g]?.isNone && g.toObjectRef.isSome && s.defaultXrefEntries.contains g then do
    warnDefaultXrefEntry source g
    setResolved h .null
  else do
    match ← dispatch source tryDereference g h s.rawEntries[g]? with
    | .ok () => pure ()
    | .error _ => do
      source.pushWarning
      nullIfUnresolved h

/-- `handle.set_resolved` of an object that is being resolved. -/
def State.breakLoop (s : State) (g : QpdfObjGen) (h : ℕ) : State :=
  { s.setResolved h .null with loops := s.loops ++ [g] }

/-- `ResolveMark::begin`. -/
def State.mark (s : State) (g : QpdfObjGen) : State :=
  { s with resolving := insert g s.resolving }

/-- `ResolveMark::drop`. -/
def State.unmark (s : State) (g : QpdfObjGen) : State :=
  { s with resolving := s.resolving.erase g }

/-- `resolve_indirect_inner`. -/
def resolveIndirectInner (g : QpdfObjGen) (h : ℕ) : Program State Error Unit := do
  let s ← get
  if g ∈ s.resolving then do
    source.pushWarning
    modify fun s => s.breakLoop g h
  else do
    modify fun s => s.mark g
    let result ← (resolveMarked source tryDereference g h).attempt
    modify fun s => s.unmark g
    ofExcept result

/-- `ObjectHandle::try_dereference`: only an unresolved handle with an identity is
resolved. -/
def tryDereferenceWith (resolve : QpdfObjGen → ℕ → Program State Error Unit) (h : ℕ) :
    Program State Error Unit := do
  let s ← get
  match s.objGen h with
  | none => pure ()
  | some g => if s.isResolved h then pure () else resolve g h

/-- `resolve_qpdf_obj_gen`, with a bound on the depth of the recursion. -/
def resolveQpdfObjGen (source : Source) : ℕ → QpdfObjGen → ℕ → Program State Error Unit
  | 0, _, _ => outOfFuel
  | depth + 1, g, h =>
    resolveIndirectInner source (tryDereferenceWith (resolveQpdfObjGen source depth)) g h

end Flpdf.Resolver
