import Flpdf.Xref.ObjGen
import Mathlib.Data.List.Induction

/-!
# Cross-reference registration

The registration owns a raw table keyed by signed identities, the effective
view keyed by checked references, and the object numbers a free row has
suppressed. Sections are read newest to oldest, so an exact row is decided by
its first registration.
-/

namespace Flpdf

open Std

section Lookup

variable {α β : Type} [Ord α] [TransOrd α] [LawfulEqOrd α] [DecidableEq α]

theorem getElem?_insert_ite (t : ExtTreeMap α β) (k a : α) (v : β) :
    (t.insert k v)[a]? = if k = a then some v else t[a]? := by
  rw [ExtTreeMap.getElem?_insert]
  by_cases h : k = a <;> simp [h]

theorem getElem?_erase_ite (t : ExtTreeMap α β) (k a : α) :
    (t.erase k)[a]? = if k = a then none else t[a]? := by
  rw [ExtTreeMap.getElem?_erase]
  by_cases h : k = a <;> simp [h]

omit [DecidableEq α] in
/-- Inserting an absent key if it is new inserts it. -/
theorem insertIfNew_of_not_mem {t : ExtTreeMap α β} {k : α} (h : k ∉ t) (v : β) :
    t.insertIfNew k v = t.insert k v := by
  apply ExtTreeMap.ext_getElem?
  intro a
  rw [ExtTreeMap.getElem?_insertIfNew, ExtTreeMap.getElem?_insert]
  by_cases hk : k = a
  · subst hk
    simp [h]
  · simp [hk]

end Lookup

/-- The maps behind one registration handle. -/
structure XrefRegistration where
  rawEntries : ExtTreeMap QpdfObjGen XrefEntry
  entries : ExtTreeMap ObjectRef XrefEntry
  deletedObjects : ExtTreeSet ℕ

namespace XrefRegistration

/-- A registration with nothing read yet. -/
def new : XrefRegistration := ⟨∅, ∅, ∅⟩

/-- `u32::try_from` of the object number: negative numbers have no tombstone slot. -/
def objectNumber? (key : QpdfObjGen) : Option ℕ :=
  if 0 ≤ key.object then some key.object.toNat else none

/-- Live row: suppressed by a tombstone of its number, otherwise first wins. -/
def insertXrefEntry (s : XrefRegistration) (key : QpdfObjGen) (entry : XrefEntry) :
    XrefRegistration :=
  match objectNumber? key with
  | none => s
  | some objectNumber =>
    if objectNumber ∈ s.deletedObjects then s
    else if key ∈ s.rawEntries then s
    else
      { s with
        rawEntries := s.rawEntries.insert key entry
        entries := match key.toObjectRef with
          | some ref => s.entries.insertIfNew ref entry
          | none => s.entries }

/-- Free row: a tombstone for the whole number, unless the exact key is live. -/
def insertFreeXrefEntry (s : XrefRegistration) (key : QpdfObjGen) : XrefRegistration :=
  match objectNumber? key with
  | none => s
  | some objectNumber =>
    if key ∈ s.rawEntries then s
    else { s with deletedObjects := s.deletedObjects.insert objectNumber }

/-- Reconstructed row: last wins, still suppressed by a tombstone. -/
def insertReconstructedXrefEntry (s : XrefRegistration) (ref : ObjectRef) (offset : ℕ) :
    XrefRegistration :=
  match QpdfObjGen.tryFromObjectRef ref with
  | .error _ => s
  | .ok key =>
    if ref.number ∈ s.deletedObjects then s
    else
      { s with
        rawEntries := s.rawEntries.insert key (.uncompressed offset)
        entries := s.entries.insert ref (.uncompressed offset) }

/-- Unconditional replacement. -/
def insertOverwriting (s : XrefRegistration) (key : QpdfObjGen) (entry : XrefEntry) :
    XrefRegistration :=
  { s with
    rawEntries := s.rawEntries.insert key entry
    entries := match key.toObjectRef with
      | some ref => s.entries.insert ref entry
      | none => s.entries }

def clearDeletedObjects (s : XrefRegistration) : XrefRegistration :=
  { s with deletedObjects := ∅ }

def removeRawEntry (s : XrefRegistration) (key : QpdfObjGen) : XrefRegistration :=
  { s with
    rawEntries := s.rawEntries.erase key
    entries := match key.toObjectRef with
      | some ref => s.entries.erase ref
      | none => s.entries }

/-- The keys of the type-1 rows. -/
def uncompressedKeys (s : XrefRegistration) : List QpdfObjGen :=
  s.rawEntries.toList.filterMap fun row =>
    match row.2 with
    | .uncompressed _ => some row.1
    | _ => none

/-- Drops every type-1 row, which reconstruction then reads again from the file. -/
def removeUncompressedEntries (s : XrefRegistration) : XrefRegistration :=
  s.uncompressedKeys.foldl removeRawEntry s

/-- One call on the registration. Reconstructed rows come from the line scan,
which only registers references inside the valid range. -/
inductive Op where
  | insert (key : QpdfObjGen) (entry : XrefEntry)
  | insertFree (key : QpdfObjGen)
  | insertReconstructed (ref : {ref : ObjectRef // ref.Valid}) (offset : ℕ)
  | insertOverwriting (key : QpdfObjGen) (entry : XrefEntry)
  | removeRaw (key : QpdfObjGen)
  | removeUncompressed
  | clearDeleted

def step (s : XrefRegistration) : Op → XrefRegistration
  | .insert key entry => s.insertXrefEntry key entry
  | .insertFree key => s.insertFreeXrefEntry key
  | .insertReconstructed ref offset => s.insertReconstructedXrefEntry ref.1 offset
  | .insertOverwriting key entry => s.insertOverwriting key entry
  | .removeRaw key => s.removeRawEntry key
  | .removeUncompressed => s.removeUncompressedEntries
  | .clearDeleted => s.clearDeletedObjects

/-- The registration after a sequence of calls. -/
def run (ops : List Op) : XrefRegistration :=
  ops.foldl step new

/-! ## The effective view -/

/-- `entries` is `rawEntries` restricted to the keys that project to a reference. -/
def IsEffective (rawEntries : ExtTreeMap QpdfObjGen XrefEntry)
    (entries : ExtTreeMap ObjectRef XrefEntry) : Prop :=
  ∀ ref entry, entries[ref]? = some entry ↔
    ∃ key, QpdfObjGen.toObjectRef key = some ref ∧ rawEntries[key]? = some entry

section Effective

variable {rawEntries : ExtTreeMap QpdfObjGen XrefEntry} {entries : ExtTreeMap ObjectRef XrefEntry}

/-- A projecting key is looked up alike on both sides. -/
theorem IsEffective.getElem?_eq (h : IsEffective rawEntries entries) {key : QpdfObjGen}
    {ref : ObjectRef} (hkey : key.toObjectRef = some ref) : entries[ref]? = rawEntries[key]? := by
  ext entry
  rw [h ref entry]
  constructor
  · rintro ⟨key', hkey', hentry⟩
    rwa [QpdfObjGen.toObjectRef_inj hkey hkey']
  · intro hentry
    exact ⟨key, hkey, hentry⟩

theorem isEffective_empty : IsEffective ∅ ∅ := by
  intro ref entry
  simp

/-- Storing under a projecting key on both sides. -/
theorem IsEffective.insert (h : IsEffective rawEntries entries) {key : QpdfObjGen}
    {ref : ObjectRef} (hkey : key.toObjectRef = some ref) (entry : XrefEntry) :
    IsEffective (rawEntries.insert key entry) (entries.insert ref entry) := by
  intro ref' entry'
  rw [getElem?_insert_ite]
  by_cases hr : ref = ref'
  · subst hr
    rw [if_pos rfl]
    constructor
    · intro he
      exact ⟨key, hkey, by rw [ExtTreeMap.getElem?_insert_self]; exact he⟩
    · rintro ⟨key', hkey', he⟩
      rwa [QpdfObjGen.toObjectRef_inj hkey' hkey, ExtTreeMap.getElem?_insert_self] at he
  · rw [if_neg hr, h ref' entry']
    apply exists_congr
    intro key'
    rw [getElem?_insert_ite]
    by_cases hk : key = key'
    · subst hk
      simp [hkey, hr]
    · rw [if_neg hk]

/-- Storing under a key that does not project leaves the view alone. -/
theorem IsEffective.insert_raw (h : IsEffective rawEntries entries) {key : QpdfObjGen}
    (hkey : key.toObjectRef = none) (entry : XrefEntry) :
    IsEffective (rawEntries.insert key entry) entries := by
  intro ref' entry'
  rw [h ref' entry']
  apply exists_congr
  intro key'
  rw [getElem?_insert_ite]
  by_cases hk : key = key'
  · subst hk
    simp [hkey]
  · rw [if_neg hk]

theorem IsEffective.erase (h : IsEffective rawEntries entries) (key : QpdfObjGen) :
    IsEffective (rawEntries.erase key)
      (match key.toObjectRef with
        | some ref => entries.erase ref
        | none => entries) := by
  intro ref' entry'
  cases hkey : key.toObjectRef with
  | none =>
    simp only [h ref' entry', getElem?_erase_ite]
    apply exists_congr
    intro key'
    by_cases hk : key = key'
    · subst hk
      simp [hkey]
    · rw [if_neg hk]
  | some ref =>
    simp only [getElem?_erase_ite]
    by_cases hr : ref = ref'
    · subst hr
      simp only [if_true, reduceCtorEq, false_iff]
      rintro ⟨key', hkey', he⟩
      rw [if_pos (QpdfObjGen.toObjectRef_inj hkey hkey')] at he
      cases he
    · rw [if_neg hr, h ref' entry']
      apply exists_congr
      intro key'
      by_cases hk : key = key'
      · subst hk
        simp [hkey, hr]
      · rw [if_neg hk]

end Effective

theorem insertXrefEntry_isEffective {s : XrefRegistration}
    (h : IsEffective s.rawEntries s.entries) (key : QpdfObjGen) (entry : XrefEntry) :
    IsEffective (s.insertXrefEntry key entry).rawEntries
      (s.insertXrefEntry key entry).entries := by
  unfold insertXrefEntry
  cases objectNumber? key with
  | none => exact h
  | some objectNumber =>
    by_cases hdel : objectNumber ∈ s.deletedObjects
    · simpa only [if_pos hdel] using h
    by_cases hraw : key ∈ s.rawEntries
    · simpa only [if_neg hdel, if_pos hraw] using h
    simp only [if_neg hdel, if_neg hraw]
    cases hkey : key.toObjectRef with
    | none => exact h.insert_raw hkey entry
    | some ref =>
      -- The view has no row yet, so its insert-if-new inserts.
      have hnew : ref ∉ s.entries := by
        rw [ExtTreeMap.mem_iff_isSome_getElem?, h.getElem?_eq hkey,
          ← ExtTreeMap.mem_iff_isSome_getElem?]
        exact hraw
      simp only [insertIfNew_of_not_mem hnew]
      exact h.insert hkey entry

theorem insertFreeXrefEntry_rawEntries (s : XrefRegistration) (key : QpdfObjGen) :
    (s.insertFreeXrefEntry key).rawEntries = s.rawEntries := by
  unfold insertFreeXrefEntry
  cases objectNumber? key with
  | none => rfl
  | some objectNumber => exact apply_ite rawEntries _ _ _ |>.trans (ite_self _)

theorem insertFreeXrefEntry_entries (s : XrefRegistration) (key : QpdfObjGen) :
    (s.insertFreeXrefEntry key).entries = s.entries := by
  unfold insertFreeXrefEntry
  cases objectNumber? key with
  | none => rfl
  | some objectNumber => exact apply_ite entries _ _ _ |>.trans (ite_self _)

theorem insertReconstructedXrefEntry_isEffective {s : XrefRegistration}
    (h : IsEffective s.rawEntries s.entries) {ref : ObjectRef} (hvalid : ref.Valid)
    (offset : ℕ) :
    IsEffective (s.insertReconstructedXrefEntry ref offset).rawEntries
      (s.insertReconstructedXrefEntry ref offset).entries := by
  simp only [insertReconstructedXrefEntry, hvalid.tryFromObjectRef]
  by_cases hdel : ref.number ∈ s.deletedObjects
  · simpa only [if_pos hdel] using h
  · simp only [if_neg hdel]
    exact h.insert hvalid.toObjectRef _

theorem insertOverwriting_isEffective {s : XrefRegistration}
    (h : IsEffective s.rawEntries s.entries) (key : QpdfObjGen) (entry : XrefEntry) :
    IsEffective (s.insertOverwriting key entry).rawEntries
      (s.insertOverwriting key entry).entries := by
  simp only [insertOverwriting]
  cases hkey : key.toObjectRef with
  | none => exact h.insert_raw hkey entry
  | some ref => exact h.insert hkey entry

theorem removeRawEntry_isEffective {s : XrefRegistration}
    (h : IsEffective s.rawEntries s.entries) (key : QpdfObjGen) :
    IsEffective (s.removeRawEntry key).rawEntries (s.removeRawEntry key).entries :=
  h.erase key

theorem foldl_removeRawEntry_isEffective (keys : List QpdfObjGen) {s : XrefRegistration}
    (h : IsEffective s.rawEntries s.entries) :
    IsEffective (keys.foldl removeRawEntry s).rawEntries
      (keys.foldl removeRawEntry s).entries := by
  induction keys generalizing s with
  | nil => exact h
  | cons key keys ih => exact ih (removeRawEntry_isEffective h key)

/-- Every call keeps the view in step with the raw table. -/
theorem step_isEffective {s : XrefRegistration} (h : IsEffective s.rawEntries s.entries)
    (op : Op) : IsEffective (s.step op).rawEntries (s.step op).entries := by
  cases op with
  | insert key entry => exact insertXrefEntry_isEffective h key entry
  | insertFree key =>
    rw [step, insertFreeXrefEntry_rawEntries, insertFreeXrefEntry_entries]
    exact h
  | insertReconstructed ref offset =>
    exact insertReconstructedXrefEntry_isEffective h ref.2 offset
  | insertOverwriting key entry => exact insertOverwriting_isEffective h key entry
  | removeRaw key => exact removeRawEntry_isEffective h key
  | removeUncompressed => exact foldl_removeRawEntry_isEffective _ h
  | clearDeleted => exact h

/-- The view agrees with the raw table after every sequence of calls. -/
theorem run_isEffective (ops : List Op) :
    IsEffective (run ops).rawEntries (run ops).entries := by
  induction ops using List.reverseRecOn with
  | nil => exact isEffective_empty
  | append_singleton ops op ih =>
    rw [run, List.foldl_concat]
    exact step_isEffective ih op

end XrefRegistration

end Flpdf
