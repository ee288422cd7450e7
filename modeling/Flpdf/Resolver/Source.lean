import Flpdf.Effects.Program
import Flpdf.Resolver.State

/-!
# The file behind the resolver

Reading a file means asking the resolver for handles: the parser mints one for each
reference it meets, the length and the filters of a stream are looked up through
them, and the warnings go to the resolver. A reading is the tree of these requests; what the file holds at
each place is given as readings.
-/

namespace Flpdf.Resolver

/-- The failures resolution tells apart: damage (`QpdfExc`, `Parse`), which starts the
recovery, and the others. -/
inductive Error where
  | damage
  | other
deriving DecidableEq, Repr

/-- What a reader asks of the resolver before it answers. -/
inductive Reading (α : Type) where
  | done (result : α)
  | warn (next : Except Error Unit → Reading α)
  | indirectHandle (g : QpdfObjGen) (next : ℕ → Reading α)
  | directHandle (v : ObjectValue) (next : ℕ → Reading α)
  | dereference (h : ℕ) (next : Except Error (Option ObjectValue) → Reading α)

/-- The contents of a decoded object stream: the header pairs and the data. -/
structure DecodedObjectStream where
  pairs : List (ℕ × ℕ)
  first : ℕ
  data : Bytes
deriving DecidableEq, Repr

/-- How parsing a member of an object stream fails. -/
inductive MemberFailure where
  | memberWarning
  | warningDelivery (e : Error)
  | operation (e : Error)
deriving DecidableEq, Repr

/-- A file and the options it was opened with. -/
structure Source where
  /-- `attempt_recovery`. -/
  attemptRecovery : Bool
  /-- The outcome of delivering each warning. -/
  deliverWarning : ℕ → Except Error Unit
  seek : ℕ → Except Error Unit
  /-- The identity in the object header at an offset. -/
  header : ℕ → Except Error QpdfObjGen
  /-- The object behind the header, and what follows it up to `endobj`. -/
  parseObject : ℕ → Reading (Except Error ObjectValue)
  readStream : ℕ → ObjectValue → Reading (Except Error ObjectValue)
  objectEndOffsets : ℕ → Except Error Unit
  /-- The pairs and the data of a stream that is an object stream. -/
  decodeObjectStream : ℕ → ObjectValue → Reading (Except Error (Option DecodedObjectStream))
  /-- The member at an offset behind the first one. -/
  parseMember : DecodedObjectStream → ℕ → Reading (Except MemberFailure ObjectValue)
  /-- The rows that a line scan of the file registers, and how it ends. -/
  scannedEntries : List (QpdfObjGen × ℕ)
  scanResult : Except Error Unit

section

variable {ε α : Type}

/-- `push_qpdf_warning`. -/
def Source.pushWarning (source : Source) : Program State Error Unit := do
  let s ← Program.get
  Program.modify fun s => { s with warningCount := s.warningCount + 1 }
  Program.ofExcept (source.deliverWarning s.warningCount)

/-- The canonical handle of an identity. -/
def getObjectHandle (g : QpdfObjGen) : Program State ε ℕ := do
  let s ← Program.get
  Program.modify fun s => s.getObjectHandle g
  pure (s.handleOf g)

/-- A direct handle for a value. -/
def newDirect (v : ObjectValue) : Program State ε ℕ := do
  let s ← Program.get
  Program.modify fun s => s.newSlot ⟨none, some v⟩
  pure s.slotCount

/-- A reading with its requests answered. -/
def Reading.run (source : Source) (tryDereference : ℕ → Program State Error Unit) :
    Reading α → Program State ε α
  | .done result => pure result
  | .warn next => do
    let result ← source.pushWarning.attempt
    (next result).run source tryDereference
  | .indirectHandle g next => do
    let h ← getObjectHandle g
    (next h).run source tryDereference
  | .directHandle v next => do
    let h ← newDirect v
    (next h).run source tryDereference
  | .dereference h next => do
    let result ← (tryDereference h).attempt
    let s ← Program.get
    (next (result.map fun _ => s.value h)).run source tryDereference

end

end Flpdf.Resolver
