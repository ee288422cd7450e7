import Flpdf.Resolver.Resolution

/-!
# Edits and runs of calls

The calls a document answers: fetching a handle, dereferencing one, and the edits
that replace, swap and remove objects. A run is any sequence of them, whatever each
call returns.
-/

namespace Flpdf.Resolver

open Program Std

/-! ## The calls -/

/-- `replace_object` on the state: the replacement is promoted, and the registered slot
takes its shared value or, when there is none, the replacement is registered. -/
def State.replaceObject (s : State) (r : QpdfObjGen) (replacement : ℕ) : State :=
  match s.objectCache[r]? with
  | some target => (s.promoteToIndirect replacement r).assignValueState target replacement
  | none => (s.promoteToIndirect replacement r).cache r replacement

/-- `replace_object`: the replacement must be a direct, initialized handle. -/
def replaceObject (r : QpdfObjGen) (replacement : ℕ) : Program State Error ℕ := do
  let s ← get
  if s.isIndirect replacement || (s.slot replacement).isNone then fail .other
  else do
    modify fun s => s.replaceObject r replacement
    pure ((s.objectCache[r]?).getD replacement)

/-- A handle, or the canonical one when there is none. -/
def handleOrCanonical (g : QpdfObjGen) : Option ℕ → Program State Error ℕ
  | some h => pure h
  | none => getObjectHandle g

/-- `registered_handle`, or the canonical handle when there is none. -/
def canonicalHandle (g : QpdfObjGen) : Program State Error ℕ := do
  let s ← get
  handleOrCanonical g s.objectCache[g]?

/-- The rows of an object leave the table. -/
def State.removeRows (s : State) (r : QpdfObjGen) : State :=
  { s with
    rawEntries := s.rawEntries.erase r
    defaultXrefEntries := s.defaultXrefEntries.erase r
    defaultXrefWarnings := s.defaultXrefWarnings.erase r }

def State.uncache (s : State) (r : QpdfObjGen) : State :=
  { s with objectCache := s.objectCache.erase r }

/-- `remove_object`: the rows go, the handle becomes a floating null, the entry goes. -/
def State.removeObject (s : State) (r : QpdfObjGen) : State :=
  match s.objectCache[r]? with
  | some h => ((s.removeRows r).removeFromDocument h).uncache r
  | none => s.removeRows r

section

variable (source : Source) (depth : ℕ)

/-- `try_dereference` of a document's handle. -/
def dereference (h : ℕ) : Program State Error Unit :=
  tryDereferenceWith (resolveQpdfObjGen source depth) h

/-- Resolution of a handle that is not resolved. -/
def resolveIfUnresolved (g : QpdfObjGen) (h : ℕ) : Program State Error Unit := do
  let s ← get
  if s.isResolved h then pure () else resolveQpdfObjGen source depth g h

/-- The registered handle of an object, resolved. -/
def resolvedHandle (g : QpdfObjGen) : Program State Error ℕ := do
  let h ← canonicalHandle g
  resolveIfUnresolved source depth g h
  pure h

/-- `swap_objects`. -/
def swapObjects (first second : QpdfObjGen) : Program State Error Unit := do
  let h ← resolvedHandle source depth first
  let h' ← resolvedHandle source depth second
  modify fun s => s.swapValueStateWith h h'

end

/-- A call on a document. -/
inductive Op where
  | fetch (g : QpdfObjGen)
  | direct (v : ObjectValue)
  | dereference (h : ℕ)
  | replaceObject (r : QpdfObjGen) (replacement : ℕ)
  | swapObjects (first second : QpdfObjGen)
  | removeObject (r : QpdfObjGen)

def Op.perform (source : Source) (depth : ℕ) : Op → Program State Error Unit
  | .fetch g => do
    let _ ← getObjectHandle g
    pure ()
  | .direct v => do
    let _ ← newDirect v
    pure ()
  | .dereference h => Resolver.dereference source depth h
  | .replaceObject r replacement => do
    let _ ← Resolver.replaceObject r replacement
    pure ()
  | .swapObjects first second => Resolver.swapObjects source depth first second
  | .removeObject r => modify fun s => s.removeObject r

/-- Replacements have no identity of their own, and object number zero is not removed. -/
def Op.Proper (s : State) : Op → Prop
  | .replaceObject _ replacement => s.objGen replacement = none
  | .removeObject r => r.isIndirect = true
  | _ => True

instance : (s : State) → (op : Op) → Decidable (op.Proper s)
  | s, .replaceObject _ replacement => inferInstanceAs (Decidable (s.objGen replacement = none))
  | _, .removeObject r => inferInstanceAs (Decidable (r.isIndirect = true))
  | _, .fetch _ | _, .direct _ | _, .dereference _ | _, .swapObjects _ _ =>
    inferInstanceAs (Decidable True)

/-- The call replaces, swaps or removes the object. -/
def Op.Edits (r : QpdfObjGen) : Op → Prop
  | .replaceObject r' _ => r' = r
  | .swapObjects first second => first = r ∨ second = r
  | .removeObject r' => r' = r
  | _ => False

/-- A sequence of calls, each with any outcome. -/
inductive Runs (source : Source) : State → List Op → State → Prop where
  | nil (s : State) : Runs source s [] s
  | cons {s t s' : State} {op : Op} {ops : List Op} {depth : ℕ} {result : Except Error Unit}
      (hproper : op.Proper s) (hstep : op.perform source depth s = some (result, t))
      (hrest : Runs source t ops s') : Runs source s (op :: ops) s'

/-- The calls one after the other, as long as they are proper and answer. -/
def performAll (source : Source) (depth : ℕ) : List Op → State → Option State
  | [], s => some s
  | op :: ops, s =>
    if op.Proper s then
      (op.perform source depth s).bind fun outcome => performAll source depth ops outcome.2
    else none

theorem runs_performAll {source : Source} {depth : ℕ} {ops : List Op} {s t : State}
    (hrun : performAll source depth ops s = some t) : Runs source s ops t := by
  induction ops generalizing s with
  | nil =>
    cases hrun
    exact .nil t
  | cons op ops ih =>
    rw [performAll] at hrun
    split_ifs at hrun with hproper
    obtain ⟨⟨result, u⟩, hstep, hrest⟩ := Option.bind_eq_some_iff.mp hrun
    exact .cons hproper hstep (ih hrest)

/-- A document just opened: a table, and whether it was rebuilt. -/
def State.opened (rows : ExtTreeMap QpdfObjGen XrefEntry) (reconstructed : Bool) : State where
  slot := fun _ => none
  slotCount := 0
  shared := fun _ => ⟨none, some .null⟩
  sharedCount := 0
  objectCache := ∅
  rawEntries := rows
  defaultXrefEntries := ∅
  defaultXrefWarnings := ∅
  resolvedObjectStreams := ∅
  resolving := ∅
  reconstructedXref := reconstructed
  fixedDanglingRefs := false
  warningCount := 0
  decodedStreams := []
  rebuilds := if reconstructed then 1 else 0
  loops := []

/-- A state that some run of calls leads to. -/
def Reachable (source : Source) (s : State) : Prop :=
  ∃ rows reconstructed ops, Runs source (State.opened rows reconstructed) ops s

end Flpdf.Resolver
