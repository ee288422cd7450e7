import Flpdf.Object.Unparse

/-! # Merging resource dictionaries

`merge_resources_with_conflicts`: the categories of another dictionary are merged into those of the
destination one after the other.  A name the destination has already is looked for among the
objects of the category; when its object is not there, the object is entered under a new name. -/

namespace Flpdf

open Program

namespace ResourceMerge

/-! ## Dictionaries -/

/-- `as_dictionary`: the map of the entries. -/
def treeMap (entries : List (Bytes × ObjectValue)) : List (Bytes × ObjectValue) :=
  entries.foldl (fun map entry => insertSorted entry.1 entry.2 map) []

def eraseKey (key : Bytes) (entries : List (Bytes × ObjectValue)) : List (Bytes × ObjectValue) :=
  entries.filter fun entry => entry.1 != key

section Resolved

variable (resolve : QpdfObjGen → Except Bytes ObjectValue)

/-- `try_has_key` of a dictionary. -/
def hasKey (entries : List (Bytes × ObjectValue)) (key : Bytes) : Except Bytes Bool :=
  match entries.lookup key with
  | none => .ok false
  | some child => (tryIsNull resolve child).map (!·)

/-- `try_get_keys` of a dictionary. -/
def visibleKeys : List (Bytes × ObjectValue) → Except Bytes (List Bytes)
  | [] => .ok []
  | (key, child) :: entries => do
    let isNull ← tryIsNull resolve child
    let keys ← visibleKeys entries
    return if isNull then keys else key :: keys

/-- `replace_key`: a direct null removes the key. -/
def replaceKey (key : Bytes) (value : ObjectValue) (entries : List (Bytes × ObjectValue)) :
    Except Bytes (List (Bytes × ObjectValue)) := do
  let isNull ← tryIsNull resolve value
  return if isNull && !value.isIndirect then eraseKey key entries
    else insertSorted key value entries

mutual

/-- The copy of a value goes through its direct children. -/
def copyValue : ObjectValue → Except Bytes ObjectValue
  | .stream _ => .error (ascii "stream objects cannot be cloned")
  | .array items => do
    let items ← copyItems items
    return .array items
  | .dictionary entries => do
    let entries ← copyEntries entries
    return .dictionary entries
  | value => .ok value

def copyItems : List ObjectValue → Except Bytes (List ObjectValue)
  | [] => .ok []
  | item :: items => do
    let item ← copyValue item
    let items ← copyItems items
    return item :: items

def copyEntries : List (Bytes × ObjectValue) → Except Bytes (List (Bytes × ObjectValue))
  | [] => .ok []
  | (key, child) :: entries => do
    let child ← copyValue child
    let entries ← copyEntries entries
    return (key, child) :: entries

end

def shallowCopy (value : ObjectValue) : Except Bytes ObjectValue := do
  copyValue (← dereference resolve value)

/-! ## Names -/

/-- `build_og_to_name`: of several names of one object the last one is kept. -/
def buildOgToName (entries : List (Bytes × ObjectValue)) : List (QpdfObjGen × Bytes) :=
  (entries.filterMap fun entry =>
    match entry.2 with
    | .indirect objectGen => some (objectGen, entry.1)
    | _ => none).reverse

def childNames : ObjectValue → Except Bytes (List Bytes)
  | .dictionary entries => visibleKeys resolve (treeMap entries)
  | _ => .ok []

/-- `get_resource_names`: the keys of the entries that are dictionaries themselves. -/
def resourceNames : List (Bytes × ObjectValue) → Except Bytes (List Bytes)
  | [] => .ok []
  | (_, child) :: entries => do
    let keys ← childNames resolve (← dereference resolve child)
    let names ← resourceNames entries
    return (keys ++ names).dedup

/-- `key_n` -/
def suffixed (key : Bytes) (n : ℕ) : Bytes := key ++ 0x5f :: natDecimal n

/-- The first free name, with its suffix. -/
def uniqueResourceName (key : Bytes) (names : List Bytes) : ℕ → ℕ → Option (Bytes × ℕ)
  | 0, _ => none
  | tries + 1, suffix =>
    if suffixed key suffix ∈ names then uniqueResourceName key names tries (suffix + 1)
    else some (suffixed key suffix, suffix)

end Resolved

/-! ## Merging -/

/-- Resource type, name in the other dictionary, and the name it has been given. -/
abbrev ResourceConflicts := Bytes → Bytes → Option Bytes

/-- What the merge changes: the destination, the table of names, and arrays that are objects. -/
structure MergeState where
  resolve : QpdfObjGen → Except Bytes ObjectValue
  dest : ObjectValue
  conflicts : Option ResourceConflicts

namespace MergeState

variable (s : MergeState)

def destEntries : List (Bytes × ObjectValue) :=
  match s.dest with
  | .dictionary entries => treeMap entries
  | _ => []

/-- The entries of a category that stands in the destination itself. -/
def category (rtype : Bytes) : List (Bytes × ObjectValue) :=
  match s.destEntries.lookup rtype with
  | some (.dictionary entries) => treeMap entries
  | _ => []

def setCategory (rtype : Bytes) (entries : List (Bytes × ObjectValue)) : MergeState :=
  { s with dest := .dictionary (insertSorted rtype (.dictionary entries) s.destEntries) }

def record (rtype key name : Bytes) : MergeState :=
  { s with conflicts := s.conflicts.map fun conflicts =>
      Function.update conflicts rtype (Function.update (conflicts rtype) key (some name)) }

/-- `append_array_item`, in the destination or in the object. -/
def appendItem (rtype : Bytes) (item : ObjectValue) : MergeState :=
  match s.destEntries.lookup rtype with
  | some (.array items) =>
    { s with dest := .dictionary (insertSorted rtype (.array (items ++ [item])) s.destEntries) }
  | some (.indirect objectGen) =>
    match s.resolve objectGen with
    | .ok (.array items) =>
      { s with resolve := Function.update s.resolve objectGen (.ok (.array (items ++ [item]))) }
    | _ => s
  | _ => s

end MergeState

/-- The objects and the names of the category as the first conflict finds them. -/
structure NameCache where
  ogToName : List (QpdfObjGen × Bytes)
  names : List Bytes

def buildCache (resolve : QpdfObjGen → Except Bytes ObjectValue)
    (entries : List (Bytes × ObjectValue)) : Except Bytes NameCache := do
  let names ← resourceNames resolve entries
  return ⟨buildOgToName entries, names⟩

/-- The name under which the category has the object already. -/
def NameCache.reused (cache : NameCache) : ObjectValue → Option Bytes
  | .indirect objectGen => cache.ogToName.lookup objectGen
  | _ => none

structure Locals where
  cache : Option NameCache
  minSuffix : ℕ

def replaceCategoryKey (rtype key : Bytes) (value : ObjectValue) :
    Program MergeState Bytes Unit := do
  let s ← get
  let entries ← ofExcept (replaceKey s.resolve key value (s.category rtype))
  modify fun s => s.setCategory rtype entries

/-- One name of the other category. -/
def mergeEntry (rtype : Bytes) (locals : Locals) (key : Bytes) (rval : ObjectValue) :
    Program MergeState Bytes Locals := do
  let s ← get
  let present ← ofExcept (hasKey s.resolve (s.category rtype) key)
  if !present then
    let installed ← ofExcept (if rval.isIndirect then .ok rval else shallowCopy s.resolve rval)
    replaceCategoryKey rtype key installed
    return locals
  else
    match s.conflicts with
    | none => return locals
    | some _ =>
      let cache ← ofExcept (match locals.cache with
        | some cache => .ok cache
        | none => buildCache s.resolve (s.category rtype))
      match cache.reused rval with
      | some existingKey =>
        onlyIf (existingKey != key) (modify fun s => s.record rtype key existingKey)
        return { locals with cache := some cache }
      | none =>
        match uniqueResourceName key cache.names (cache.names.length + 1) locals.minSuffix with
        | none => fail (ascii "unable to find unconflicting resource name")
        | some (newKey, minSuffix) =>
          modify fun s => s.record rtype key newKey
          replaceCategoryKey rtype newKey rval
          return ⟨some cache, minSuffix⟩

def mergeEntries (rtype : Bytes) : Locals → List (Bytes × ObjectValue) →
    Program MergeState Bytes Unit
  | _, [] => return
  | locals, (key, rval) :: entries => do
    let locals ← mergeEntry rtype locals key rval
    mergeEntries rtype locals entries

def mergeResourceSubdict (rtype : Bytes) (otherEntries : List (Bytes × ObjectValue)) :
    Program MergeState Bytes Unit :=
  mergeEntries rtype ⟨none, 1⟩ otherEntries

/-- The texts of the scalar items. -/
def scalarTexts (resolve : QpdfObjGen → Except Bytes ObjectValue) :
    List ObjectValue → Except Bytes (List Bytes)
  | [] => .ok []
  | item :: items => do
    let value ← dereference resolve item
    let texts ← if value.isScalar then (unparseResolvedValue resolve item).map ([·]) else .ok []
    let rest ← scalarTexts resolve items
    return texts ++ rest

/-- The scalar items that are not there are appended. -/
def appendScalars (rtype : Bytes) : List Bytes → List ObjectValue → Program MergeState Bytes Unit
  | _, [] => return
  | scalars, item :: items => do
    let s ← get
    let texts ← ofExcept (scalarTexts s.resolve [item])
    match texts with
    | [text] =>
      if text ∈ scalars then appendScalars rtype scalars items
      else
        modify fun s => s.appendItem rtype item
        appendScalars rtype (text :: scalars) items
    | _ => appendScalars rtype scalars items

def mergeResourceArray (rtype : Bytes) (thisItems otherItems : List ObjectValue) :
    Program MergeState Bytes Unit := do
  let s ← get
  let scalars ← ofExcept (scalarTexts s.resolve thisItems)
  appendScalars rtype scalars otherItems

/-- One category of the other dictionary. -/
def mergeCategory (entry : Bytes × ObjectValue) : Program MergeState Bytes Unit := do
  let (rtype, otherVal) := entry
  let s ← get
  let present ← ofExcept (hasKey s.resolve s.destEntries rtype)
  if !present then
    let copy ← ofExcept (shallowCopy s.resolve otherVal)
    let entries ← ofExcept (replaceKey s.resolve rtype copy s.destEntries)
    modify fun s => { s with dest := .dictionary entries }
  else
    let thisVal := (s.destEntries.lookup rtype).getD .null
    let thisValue ← ofExcept (dereference s.resolve thisVal)
    let otherValue ← ofExcept (dereference s.resolve otherVal)
    match thisValue, otherValue with
    | .dictionary thisEntries, .dictionary otherEntries =>
      -- a category that is an object of its own becomes the destination's
      if thisVal.isIndirect then
        let privatized ← ofExcept (copyEntries thisEntries)
        modify fun s => s.setCategory rtype privatized
      mergeResourceSubdict rtype (treeMap otherEntries)
    | .array thisItems, .array otherItems => mergeResourceArray rtype thisItems otherItems
    | _, _ => return

def mergeResourcesWithConflicts (other : ObjectValue) : Program MergeState Bytes Unit := do
  let s ← get
  match s.dest with
  | .dictionary _ =>
    match ← ofExcept (dereference s.resolve other) with
    | .dictionary otherEntries => forEach mergeCategory (treeMap otherEntries)
    | _ => return
  | _ => return

end ResourceMerge

end Flpdf
