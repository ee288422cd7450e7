import Flpdf.Bytes.Ascii
import Flpdf.Xref.ObjGen
import Mathlib.Data.Finset.Basic
import Mathlib.Logic.Function.Basic
import Std.Data.ExtTreeMap
import Std.Data.ExtTreeSet

/-!
# The state of the resolver

A handle is a slot, a slot points to a shared value, and a shared value carries
the identity it was registered or promoted under. Slots that replacement made
equal point to one shared value. The resolver keeps one slot for each identity it
was asked for, the rows of the cross-reference table, and the guards of
resolution.
-/

namespace Flpdf.Resolver

open Std

/-- `ObjectValue`, with the slots of the children. -/
inductive ObjectValue where
  | null
  | integer (value : ℤ)
  | scalar (text : Bytes)
  | array (items : List ℕ)
  | dictionary (entries : List (Bytes × ℕ))
  | stream (streamDict offset length : ℕ)
deriving DecidableEq, Repr

/-- `SharedValueState`: the identity it currently answers to and the value, none while
it is unresolved. -/
structure SharedValue where
  objGen : Option QpdfObjGen
  value : Option ObjectValue
deriving DecidableEq, Repr

/-- `ResolverCore`, with the slots and the values they share. The last three
fields record what happened: the object streams decoded, the rebuilds of the
table, and the objects found on a resolution loop. -/
structure State where
  slot : ℕ → Option ℕ
  slotCount : ℕ
  shared : ℕ → SharedValue
  sharedCount : ℕ
  objectCache : ExtTreeMap QpdfObjGen ℕ
  rawEntries : ExtTreeMap QpdfObjGen XrefEntry
  defaultXrefEntries : ExtTreeSet QpdfObjGen
  defaultXrefWarnings : Finset QpdfObjGen
  resolvedObjectStreams : Finset ℕ
  resolving : Finset QpdfObjGen
  reconstructedXref : Bool
  fixedDanglingRefs : Bool
  warningCount : ℕ
  decodedStreams : List ℕ
  rebuilds : ℕ
  loops : List QpdfObjGen

namespace State

variable {s : State} {h h' c : ℕ} {g g' : QpdfObjGen} {v : ObjectValue}

/-! ## Observing a handle -/

def objGen (s : State) (h : ℕ) : Option QpdfObjGen := (s.slot h).bind fun c => (s.shared c).objGen

def value (s : State) (h : ℕ) : Option ObjectValue :=
  match s.slot h with
  | none => some .null
  | some c => (s.shared c).value

def isIndirect (s : State) (h : ℕ) : Bool := (s.objGen h).any QpdfObjGen.isIndirect

def isResolved (s : State) (h : ℕ) : Bool := (s.value h).isSome

theorem value_of_slot (hc : s.slot h = some c) : s.value h = (s.shared c).value := by
  rw [value, hc]

theorem objGen_of_slot (hc : s.slot h = some c) : s.objGen h = (s.shared c).objGen := by
  rw [objGen, hc, Option.bind_some]

theorem slot_of_objGen (hg : s.objGen h = some g) : ∃ c, s.slot h = some c ∧
    (s.shared c).objGen = some g := by
  simpa [objGen, Option.bind_eq_some_iff] using hg

theorem isResolved_eq_false : s.isResolved h = false ↔ s.value h = none := by
  simp [isResolved]

/-! ## Shared values -/

def setShared (s : State) (c : ℕ) (shared : SharedValue) : State :=
  { s with shared := Function.update s.shared c shared }

/-- The value behind a handle that has an identity; a direct handle keeps its own. -/
def setResolved (s : State) (h : ℕ) (v : ObjectValue) : State :=
  match s.slot h with
  | none => s
  | some c =>
    if (s.shared c).objGen.isSome then s.setShared c { s.shared c with value := some v } else s

/-- `promote_to_indirect_qpdf_obj_gen`. -/
def promoteToIndirect (s : State) (h : ℕ) (g : QpdfObjGen) : State :=
  match s.slot h with
  | none => s
  | some c => s.setShared c { s.shared c with objGen := some g }

/-- A slot with a shared value of its own. -/
def newSlot (s : State) (shared : SharedValue) : State :=
  { s with
    slot := Function.update s.slot s.slotCount (some s.sharedCount)
    slotCount := s.slotCount + 1
    shared := Function.update s.shared s.sharedCount shared
    sharedCount := s.sharedCount + 1 }

theorem slot_newSlot (s : State) (x : SharedValue) :
    (s.newSlot x).slot = Function.update s.slot s.slotCount (some s.sharedCount) := rfl

theorem shared_newSlot (s : State) (x : SharedValue) :
    (s.newSlot x).shared = Function.update s.shared s.sharedCount x := rfl

/-- `assign_value_state`: the slot now points to the shared value of the other. -/
def assignValueState (s : State) (h source : ℕ) : State :=
  { s with slot := Function.update s.slot h (s.slot source) }

/-- `swap_value_state_with`: the shared values trade places, the identities stay. -/
def swapValueStateWith (s : State) (h h' : ℕ) : State :=
  match s.slot h, s.slot h' with
  | some c, some c' =>
    if h = h' ∨ c = c' then s
    else
      let exchanged :=
        { s with slot := Function.update (Function.update s.slot h (some c')) h' (some c) }
      (exchanged.setShared c' { s.shared c' with objGen := (s.shared c).objGen }).setShared c
        { s.shared c with objGen := (s.shared c').objGen }
  | _, _ => s

/-- `Rc::strong_count(&slot.shared) == 1`. -/
def uniquelyOwned (s : State) (h : ℕ) : Bool :=
  (List.range s.slotCount).all fun h' => h' == h || s.slot h' != s.slot h

/-- `replace_detached_state` to a null without an identity. -/
def removeFromDocument (s : State) (h : ℕ) : State :=
  match s.slot h with
  | none => s
  | some c =>
    if !s.isIndirect h then s
    else if s.uniquelyOwned h then s.setShared c ⟨none, some .null⟩
    else
      { s with
        slot := Function.update s.slot h (some s.sharedCount)
        shared := Function.update s.shared s.sharedCount ⟨none, some .null⟩
        sharedCount := s.sharedCount + 1 }

/-! ## The cache -/

def cache (s : State) (g : QpdfObjGen) (h : ℕ) : State :=
  { s with objectCache := s.objectCache.insert g h }

/-- The slot `get_object_handle_qpdf_obj_gen` returns. -/
def handleOf (s : State) (g : QpdfObjGen) : ℕ := (s.objectCache[g]?).getD s.slotCount

/-- `get_object_handle_qpdf_obj_gen`: the registered slot, or a new unresolved one. -/
def getObjectHandle (s : State) (g : QpdfObjGen) : State :=
  match s.objectCache[g]? with
  | some h => s.promoteToIndirect h g
  | none => (s.newSlot ⟨some g, none⟩).cache g s.slotCount

end State

end Flpdf.Resolver
