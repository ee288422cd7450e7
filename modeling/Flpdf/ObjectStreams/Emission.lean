import Flpdf.ObjectStreams.HeaderPairs
import Flpdf.Xref.ObjGen

/-!
# The body of an object stream

The members of an object stream are written one after the other, then the table of their
numbers and offsets is put in front of them. There are two copies of the algorithm, one over a
counted sink and one over a byte vector.
-/

namespace Flpdf

/-- A reference with the width of the source's object number. -/
structure MemberRef extends ObjectRef where
  number_lt : number < 2 ^ 32
  deriving DecidableEq

/-- What a member writer sends to its output, and whether it succeeds. -/
structure MemberCall (ε : Type) where
  chunks : List Bytes
  result : Except ε Unit

/-- A member writer: a closure with a state of its own. -/
def MemberWriter (σ ε τ : Type) : Type := σ → ℕ → MemberRef → τ → MemberCall ε × σ

inductive EmissionError (ε : Type) where
  | unsupported (message : Bytes)
  | member (error : ε)
  /-- The panic of a vector that outgrows its allocation. -/
  | capacityOverflow

structure ObjStmBody where
  bytes : Bytes
  firstOffset : ℕ
  nMembers : ℕ
  deriving DecidableEq, Repr

/-! ## Vectors and sinks -/

/-- The most bytes that a vector holds, `isize::MAX`. -/
def maxVecLength : ℕ := 2 ^ 63 - 1

variable {σ ε τ : Type}

def vecExtend (vec bytes : Bytes) : Except (EmissionError ε) Bytes :=
  if vec.length + bytes.length ≤ maxVecLength then .ok (vec ++ bytes) else .error .capacityOverflow

/-- A counted sink over a vector, or over a target that discards. -/
structure OutputSink where
  target : Bytes := []
  retain : Bool
  position : ℕ := 0

/-- `write_bytes`. -/
def OutputSink.writeBytes (sink : OutputSink) (bytes : Bytes) :
    Except (EmissionError ε) OutputSink :=
  if bytes.isEmpty then .ok sink
  else do
    let target ← if sink.retain then vecExtend sink.target bytes else .ok sink.target
    if sink.position + bytes.length < 2 ^ 64 then
      .ok { sink with target := target, position := sink.position + bytes.length }
    else .error (.unsupported (ascii "writer output position exceeds u64 range"))

/-- The first number that the references have twice. -/
def duplicateMember : List ℕ → List (MemberRef × τ) → Option ℕ
  | _, [] => none
  | seen, member :: members =>
    if member.1.number ∈ seen then some member.1.number
    else duplicateMember (member.1.number :: seen) members

def duplicateMemberMessage (number : ℕ) : Bytes :=
  ascii "duplicate member in ObjStm batch " ++ natDecimal number

def memberIndexMessage : Bytes := ascii "ObjStm member index overflows u32"

/-! ## The table -/

/-- The loop that writes the pair table. -/
def pairTableLoop (qdf : Bool) : ℕ → List (ℕ × ℕ) → Bytes → Bytes
  | _, [], table => table
  | i, pair :: pairs, table =>
    pairTableLoop qdf (i + 1) pairs
      ((if 0 < i then table ++ [if qdf then 0x0a else 0x20] else table) ++ Tokenizer.headerPair pair)

def pairTable (qdf : Bool) (pairs : List (ℕ × ℕ)) : Bytes := pairTableLoop qdf 0 pairs [] ++ [0x0a]

/-- `resize` with zeros. -/
def resize (vec : Bytes) (length : ℕ) : Bytes := vec ++ List.replicate (length - vec.length) 0

/-- `copy_within(0..stop, dest)`. -/
def copyWithin (vec : Bytes) (stop dest : ℕ) : Bytes :=
  vec.take dest ++ vec.take stop ++ vec.drop (dest + stop)

/-- `copy_from_slice` into the front. -/
def copyToFront (vec bytes : Bytes) : Bytes := bytes ++ vec.drop bytes.length

/-- The table in front of the objects. -/
def assembleBody (members : List (MemberRef × τ)) (qdf : Bool) (objectsSection : Bytes)
    (offsets : List ℕ) : Except (EmissionError ε) ObjStmBody :=
  let table := pairTable qdf ((members.zip offsets).map fun entry => (entry.1.1.number, entry.2))
  let firstOffset := table.length
  let objectsLen := objectsSection.length
  if objectsLen + firstOffset ≤ maxVecLength then
    .ok
      { bytes := copyToFront
          (copyWithin (resize objectsSection (objectsLen + firstOffset)) objectsLen firstOffset) table
        firstOffset := firstOffset
        nMembers := members.length }
  else .error .capacityOverflow

/-! ## The two copies -/

variable (write : MemberWriter σ ε τ)

/-- The loop over the members with a vector. -/
def emitMembers : ℕ → List (MemberRef × τ) → Bytes → List ℕ → σ →
    Except (EmissionError ε) (Bytes × List ℕ) × σ
  | _, [], objectsSection, offsets, s => (.ok (objectsSection, offsets), s)
  | index, member :: members, objectsSection, offsets, s =>
    let offsets := offsets ++ [objectsSection.length]
    if index < 2 ^ 32 then
      match write s index member.1 member.2 with
      | (call, s) =>
        match call.chunks.foldlM vecExtend objectsSection with
        | .error e => (.error e, s)
        | .ok objectsSection =>
          match call.result with
          | .error e => (.error (.member e), s)
          | .ok () =>
            match vecExtend objectsSection [0x0a] with
            | .error e => (.error e, s)
            | .ok objectsSection => emitMembers (index + 1) members objectsSection offsets s
    else (.error (.unsupported memberIndexMessage), s)

/-- The loop over the members with a sink. -/
def emitMembersWithSink : ℕ → List (MemberRef × τ) → OutputSink → List ℕ → σ →
    Except (EmissionError ε) (OutputSink × List ℕ) × σ
  | _, [], sink, offsets, s => (.ok (sink, offsets), s)
  | index, member :: members, sink, offsets, s =>
    let offsets := offsets ++ [sink.position]
    if index < 2 ^ 32 then
      match write s index member.1 member.2 with
      | (call, s) =>
        match call.chunks.foldlM OutputSink.writeBytes sink with
        | .error e => (.error e, s)
        | .ok sink =>
          match call.result with
          | .error e => (.error (.member e), s)
          | .ok () =>
            match sink.writeBytes [0x0a] with
            | .error e => (.error e, s)
            | .ok sink => emitMembersWithSink (index + 1) members sink offsets s
    else (.error (.unsupported memberIndexMessage), s)

def emitObjstmBodyFromMembers (members : List (MemberRef × τ)) (qdf : Bool) (s : σ) :
    Except (EmissionError ε) ObjStmBody × σ :=
  if members.isEmpty then (.ok ⟨[], 0, 0⟩, s)
  else
    match duplicateMember [] members with
    | some number => (.error (.unsupported (duplicateMemberMessage number)), s)
    | none =>
      match emitMembers write 0 members [] [] s with
      | (.error e, s) => (.error e, s)
      | (.ok (objectsSection, offsets), s) => (assembleBody members qdf objectsSection offsets, s)

/-- `emit_objstm_body_from_members_with_sink`; a pass that retains nothing only counts. -/
def emitObjstmBodyFromMembersWithSink (members : List (MemberRef × τ)) (qdf retainBody : Bool)
    (s : σ) : Except (EmissionError ε) ObjStmBody × σ :=
  if members.isEmpty then (.ok ⟨[], 0, 0⟩, s)
  else
    match duplicateMember [] members with
    | some number => (.error (.unsupported (duplicateMemberMessage number)), s)
    | none =>
      match emitMembersWithSink write 0 members { retain := retainBody } [] s with
      | (.error e, s) => (.error e, s)
      | (.ok (sink, offsets), s) =>
        if retainBody then (assembleBody members qdf sink.target offsets, s)
        else (.ok ⟨[], 0, members.length⟩, s)

/-! ## Object streams of QDF files -/

/-- The line in front of a member; the writer may have been told to omit the original object. -/
def objectStreamMarker (original : τ → Option ObjectRef) (index : ℕ) (member : MemberRef × τ) :
    Bytes :=
  let originalObjectId := match original member.2 with
    | none => []
    | some ref => ascii "; original object ID: " ++ natDecimal ref.number ++
        if ref.generation ≠ 0 then 0x20 :: natDecimal ref.generation else []
  ascii "%% Object stream: object " ++ natDecimal member.1.number ++ ascii ", index " ++
    natDecimal index ++ originalObjectId ++ [0x0a]

/-- What the body writer keeps; `position` is where its sink stands at the next call. -/
structure QdfMarkers where
  firstPass : Bool := true
  position : ℕ := 0
  markerStarts : List ℕ := []
  markerLengths : List ℕ := []

variable (original : τ → Option ObjectRef)

/-- The body writer; `write` stands for what it writes behind the line. -/
def qdfBodyWriter : MemberWriter (QdfMarkers × σ) ε τ := fun (m, s) index ref member =>
  let marker := objectStreamMarker original index (ref, member)
  let (call, s) := write s index ref member
  let position := m.position + marker.length + call.chunks.flatten.length + 1
  (⟨marker :: call.chunks, call.result⟩,
    if m.firstPass then
      { m with
        position
        markerStarts := m.markerStarts ++ [m.position]
        markerLengths := m.markerLengths ++ [marker.length] }
    else { m with position }, s)

/-- The payload of `emit_live_qdf_object_stream` with its `/First`; there is a first member. -/
def emitLiveQdfObjectStream (members : List (MemberRef × τ)) (s : σ) :
    Except (EmissionError ε) (ObjStmBody × ℕ) :=
  match emitObjstmBodyFromMembersWithSink (qdfBodyWriter write original) members true false
    ({}, s) with
  | (.error e, _) => .error e
  | (.ok _, m, s) =>
    match emitObjstmBodyFromMembersWithSink (qdfBodyWriter write original) members true true
      ({ m with firstPass := false, position := 0 }, s) with
    | (.error e, _) => .error e
    | (.ok body, _) =>
      let firstMarkerLen := m.markerLengths.headD 0
      let offsets := List.zipWith (fun start length => start + length - firstMarkerLen)
        m.markerStarts m.markerLengths
      (assembleBody members true (body.bytes.drop body.firstOffset) offsets).map fun body =>
        (body, body.firstOffset + firstMarkerLen)

end Flpdf
