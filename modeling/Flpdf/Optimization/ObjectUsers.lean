import Mathlib.Data.List.TakeWhile
import Flpdf.Bytes.Ascii
import Flpdf.Xref.ObjGen
import Std.Data.ExtTreeMap

/-!
# Object users

The users of the objects and the objects of the users, kept as two maps. The
users of one object are a short sorted vector or, behind the threshold, a tree.
-/

namespace Flpdf

open Std

inductive ObjectUser where
  | page (pageNumber : UInt32)
  | thumbnail (pageNumber : UInt32)
  | trailerKey (key : Bytes)
  | rootKey (key : Bytes)
  | root
deriving DecidableEq, Repr

namespace ObjectUser

/-- The place of the variant, and what it carries. -/
def sortKey : ObjectUser → ℕ × UInt32 × Bytes
  | page pageNumber => (0, pageNumber, [])
  | thumbnail pageNumber => (1, pageNumber, [])
  | trailerKey key => (2, 0, key)
  | rootKey key => (3, 0, key)
  | root => (4, 0, [])

theorem sortKey_injective {a b : ObjectUser} (h : a.sortKey = b.sortKey) : a = b := by
  cases a <;> cases b <;> simp_all [sortKey]

/-- The derived order: the variants as they stand, then their contents. -/
instance : Ord ObjectUser where
  compare := compareLex (compareOn fun user => user.sortKey.1)
    (compareLex (compareOn fun user => user.sortKey.2.1) (compareOn fun user => user.sortKey.2.2))

instance : TransOrd ObjectUser :=
  inferInstanceAs (TransCmp (compareLex (compareOn fun user : ObjectUser => user.sortKey.1)
    (compareLex (compareOn fun user : ObjectUser => user.sortKey.2.1)
      (compareOn fun user : ObjectUser => user.sortKey.2.2))))

instance : LawfulEqOrd ObjectUser where
  eq_of_compare {a b} h := by
    obtain ⟨hkind, hrest⟩ := Ordering.then_eq_eq.mp h
    obtain ⟨hnumber, hkey⟩ := Ordering.then_eq_eq.mp hrest
    apply sortKey_injective
    exact Prod.ext (LawfulEqOrd.eq_of_compare hkind)
      (Prod.ext (LawfulEqOrd.eq_of_compare hnumber) (LawfulEqOrd.eq_of_compare hkey))

def pageNumber : ObjectUser → UInt32
  | page pageNumber => pageNumber
  | thumbnail pageNumber => pageNumber
  | trailerKey _ => 0
  | rootKey _ => 0
  | root => 0

end ObjectUser

def sortsBefore {α : Type} [Ord α] (value v : α) : Bool := compare v value == .lt

/-- `[T]::binary_search` on a sorted vector: where the value stands, or where it
belongs. -/
def binarySearch {α : Type} [Ord α] [DecidableEq α] (values : List α) (value : α) : Except ℕ ℕ :=
  if values[(values.takeWhile (sortsBefore value)).length]? = some value then
    .ok (values.takeWhile (sortsBefore value)).length
  else .error (values.takeWhile (sortsBefore value)).length

def compactObjectUserSetTreeThreshold : ℕ := 8

/-- The users in ascending order, or in a tree when there are many. -/
inductive CompactObjectUserSet where
  | small (values : List ObjectUser) (sorted : values.Pairwise fun a b => compare a b = .lt)
  | tree (values : ExtTreeSet ObjectUser)

variable {values : List ObjectUser} {user user' : ObjectUser} {object object' : QpdfObjGen}

private theorem takeWhile_append_sorted (h : values.Pairwise fun a b => compare a b = .lt)
    (hnew : user ∉ values) :
    (values.takeWhile (sortsBefore user) ++ user ::
      values.dropWhile (sortsBefore user)).Pairwise fun a b => compare a b = .lt := by
  induction values with
  | nil => exact List.pairwise_singleton _ _
  | cons v values ih =>
    obtain ⟨hhead, htail⟩ := List.pairwise_cons.mp h
    obtain ⟨hne, hnot⟩ := not_or.mp (mt List.mem_cons.mpr hnew)
    by_cases hlt : sortsBefore user v
    · rw [List.takeWhile_cons_of_pos hlt, List.dropWhile_cons_of_pos hlt, List.cons_append,
        List.pairwise_cons]
      refine ⟨?_, ih htail hnot⟩
      intro b hb
      have hmem : b = user ∨ b ∈ values := by
        rcases List.mem_append.mp hb with hb | hb
        · exact .inr ((List.takeWhile_prefix _).subset hb)
        · rcases List.mem_cons.mp hb with hb | hb
          · exact .inl hb
          · exact .inr ((List.dropWhile_suffix _).subset hb)
      rcases hmem with rfl | hmem
      · exact beq_iff_eq.mp hlt
      · exact hhead b hmem
    · rw [List.takeWhile_cons_of_neg hlt, List.dropWhile_cons_of_neg hlt, List.nil_append,
        List.pairwise_cons]
      have hgt : compare user v = .lt := by
        cases hcompare : compare v user with
        | lt => exact absurd (beq_iff_eq.mpr hcompare) hlt
        | eq => exact absurd (LawfulEqOrd.eq_of_compare hcompare).symm hne
        | gt => exact OrientedCmp.lt_of_gt hcompare
      refine ⟨?_, h⟩
      intro b hb
      rcases List.mem_cons.mp hb with rfl | hb
      · exact hgt
      · exact TransCmp.lt_trans hgt (hhead b hb)

/-- On a sorted vector the search finds what is there. -/
theorem binarySearch_ok_iff (h : values.Pairwise fun a b => compare a b = .lt) :
    (∃ index, binarySearch values user = .ok index) ↔ user ∈ values := by
  have hget : values[(values.takeWhile (sortsBefore user)).length]? = some user ↔
      user ∈ values := by
    constructor
    · exact List.mem_of_getElem?
    · intro hmem
      induction values with
      | nil => cases hmem
      | cons v values ih =>
        obtain ⟨hhead, htail⟩ := List.pairwise_cons.mp h
        rcases List.mem_cons.mp hmem with rfl | hmem
        · rw [List.takeWhile_cons_of_neg (by simp [sortsBefore])]
          rfl
        · have hlt : sortsBefore user v = true := beq_iff_eq.mpr (hhead user hmem)
          rw [List.takeWhile_cons_of_pos hlt]
          exact ih htail hmem
  rw [← hget]
  unfold binarySearch
  by_cases hfound : values[(values.takeWhile (sortsBefore user)).length]? = some user
  · simp [hfound]
  · simp [hfound]

theorem binarySearch_error {index : ℕ} (h : binarySearch values user = .error index) :
    index = (values.takeWhile (sortsBefore user)).length := by
  unfold binarySearch at h
  split at h
  · cases h
  · exact (Except.error.inj h).symm

theorem insertIdx_takeWhile (p : ObjectUser → Bool) :
    values.insertIdx (values.takeWhile p).length user =
      values.takeWhile p ++ user :: values.dropWhile p := by
  induction values with
  | nil => rfl
  | cons v values ih =>
    by_cases hp : p v
    · rw [List.takeWhile_cons_of_pos hp, List.dropWhile_cons_of_pos hp, List.length_cons,
        List.insertIdx_succ_cons, ih, List.cons_append]
    · rw [List.takeWhile_cons_of_neg hp, List.dropWhile_cons_of_neg hp]
      rfl

namespace CompactObjectUserSet

/-- The position that the search gives keeps the vector sorted. -/
theorem sorted_insertIdx {index : ℕ} (sorted : values.Pairwise fun a b => compare a b = .lt)
    (h : binarySearch values user = .error index) :
    (values.insertIdx index user).Pairwise fun a b => compare a b = .lt := by
  rw [binarySearch_error h, insertIdx_takeWhile]
  apply takeWhile_append_sorted sorted
  intro hmem
  obtain ⟨position, hok⟩ := (binarySearch_ok_iff sorted).mpr hmem
  rw [hok] at h
  cases h

def default : CompactObjectUserSet := small [] .nil

/-- The set with the user, and whether it is new. -/
def insert : CompactObjectUserSet → ObjectUser → CompactObjectUserSet × Bool
  | small values sorted, user =>
    match h : binarySearch values user with
    | .ok _ => (small values sorted, false)
    | .error index =>
      if compactObjectUserSetTreeThreshold < (values.insertIdx index user).length then
        (tree (ExtTreeSet.ofList (values.insertIdx index user)), true)
      else (small (values.insertIdx index user) (sorted_insertIdx sorted h), true)
  | tree values, user => (tree (values.insert user), !values.contains user)

def toList : CompactObjectUserSet → List ObjectUser
  | small values _ => values
  | tree values => values.toList

def contains : CompactObjectUserSet → ObjectUser → Bool
  | small values _, user => (binarySearch values user).toOption.isSome
  | tree values, user => values.contains user

theorem contains_small (sorted : values.Pairwise fun a b => compare a b = .lt) :
    (small values sorted).contains user = true ↔ user ∈ values := by
  rw [← binarySearch_ok_iff sorted, contains]
  cases binarySearch values user with
  | ok index => simp [Except.toOption]
  | error index => simp [Except.toOption]

/-- The vector and the tree hold the same users. -/
theorem mem_toList {set : CompactObjectUserSet} : user ∈ set.toList ↔ set.contains user = true := by
  cases set with
  | small values sorted => exact (contains_small sorted).symm
  | tree values => exact ExtTreeSet.mem_toList

@[simp] theorem contains_default : default.contains user = false := by
  rw [Bool.eq_false_iff, Ne, default, contains_small]
  exact List.not_mem_nil

/-- Both representations insert alike. -/
theorem contains_insert {set : CompactObjectUserSet} :
    (set.insert user).1.contains user' = true ↔ user = user' ∨ set.contains user' = true := by
  cases set with
  | small values sorted =>
    rw [contains_small, insert]
    split
    · rename_i index hfound
      rw [contains_small]
      have hmem := (binarySearch_ok_iff sorted).mp ⟨index, hfound⟩
      constructor
      · exact .inr
      · rintro (rfl | h)
        · exact hmem
        · exact h
    · rename_i index hnot
      have hinsert : user' ∈ values.insertIdx index user ↔ user = user' ∨ user' ∈ values := by
        rw [binarySearch_error hnot, insertIdx_takeWhile, List.mem_append, List.mem_cons,
          ← @List.takeWhile_append_dropWhile _ (sortsBefore user) values,
          List.mem_append]
        simp only [List.takeWhile_append_dropWhile]
        rw [eq_comm (a := user)]
        tauto
      split
      · rw [contains, ExtTreeSet.contains_ofList, List.contains_iff_mem]
        exact hinsert
      · rw [contains_small]
        exact hinsert
  | tree values =>
    rw [insert, contains, contains, ExtTreeSet.contains_iff_mem, ExtTreeSet.mem_insert,
      LawfulEqCmp.compare_eq_iff_eq, ExtTreeSet.contains_iff_mem]

end CompactObjectUserSet

/-- The two maps of `Optimization`. -/
structure Optimization where
  rawUserToObjects : ExtTreeMap ObjectUser (ExtTreeSet QpdfObjGen)
  rawObjectToUsers : ExtTreeMap QpdfObjGen CompactObjectUserSet

namespace Optimization

variable {maps : Optimization}

def default : Optimization := ⟨∅, ∅⟩

def rawObjectsFor (maps : Optimization) (user : ObjectUser) : ExtTreeSet QpdfObjGen :=
  maps.rawUserToObjects.getD user ∅

def rawUsersFor (maps : Optimization) (object : QpdfObjGen) : CompactObjectUserSet :=
  maps.rawObjectToUsers.getD object .default

def recordRaw (maps : Optimization) (user : ObjectUser) (object : QpdfObjGen) : Optimization where
  rawUserToObjects :=
    maps.rawUserToObjects.insert user ((maps.rawUserToObjects.getD user ∅).insert object)
  rawObjectToUsers :=
    maps.rawObjectToUsers.insert object ((maps.rawObjectToUsers.getD object .default).insert user).1

@[simp] theorem not_mem_rawObjectsFor_default : object ∉ default.rawObjectsFor user := by
  rw [rawObjectsFor, default, ExtTreeMap.getD_empty]
  exact ExtTreeSet.not_mem_empty

@[simp] theorem contains_rawUsersFor_default :
    (default.rawUsersFor object).contains user = false := by
  rw [rawUsersFor, default, ExtTreeMap.getD_empty]
  exact CompactObjectUserSet.contains_default

theorem mem_rawObjectsFor_recordRaw :
    object' ∈ (maps.recordRaw user object).rawObjectsFor user' ↔
      (user = user' ∧ object = object') ∨ object' ∈ maps.rawObjectsFor user' := by
  simp only [rawObjectsFor, recordRaw, ExtTreeMap.getD_insert]
  by_cases h : user = user'
  · subst h
    rw [if_pos ReflCmp.compare_self, ExtTreeSet.mem_insert, LawfulEqCmp.compare_eq_iff_eq]
    simp
  · rw [if_neg (mt LawfulEqCmp.eq_of_compare h)]
    simp [h]

theorem contains_rawUsersFor_recordRaw :
    ((maps.recordRaw user object).rawUsersFor object').contains user' = true ↔
      (user = user' ∧ object = object') ∨ (maps.rawUsersFor object').contains user' = true := by
  simp only [rawUsersFor, recordRaw, ExtTreeMap.getD_insert]
  by_cases h : object = object'
  · subst h
    rw [if_pos ReflCmp.compare_self, CompactObjectUserSet.contains_insert]
    simp
  · rw [if_neg (mt LawfulEqCmp.eq_of_compare h)]
    simp [h]

/-- An object is in the set of a user exactly when the user is in the set of the
object. -/
def MutuallyInverse (maps : Optimization) : Prop :=
  ∀ user object, object ∈ maps.rawObjectsFor user ↔ (maps.rawUsersFor object).contains user = true

theorem MutuallyInverse.default : default.MutuallyInverse := by
  intro user object
  simp

theorem MutuallyInverse.recordRaw (h : maps.MutuallyInverse) :
    (maps.recordRaw user object).MutuallyInverse := by
  intro user' object'
  rw [mem_rawObjectsFor_recordRaw, contains_rawUsersFor_recordRaw, h user' object']

/-- The maps after a series of records. -/
def recordAll (maps : Optimization) (records : List (ObjectUser × QpdfObjGen)) : Optimization :=
  records.foldl (fun maps record => maps.recordRaw record.1 record.2) maps

theorem recordAll_append (records records' : List (ObjectUser × QpdfObjGen)) :
    maps.recordAll (records ++ records') = (maps.recordAll records).recordAll records' :=
  List.foldl_append

theorem MutuallyInverse.recordAll (h : maps.MutuallyInverse)
    (records : List (ObjectUser × QpdfObjGen)) : (maps.recordAll records).MutuallyInverse := by
  induction records generalizing maps with
  | nil => exact h
  | cons record records ih => exact ih h.recordRaw

theorem mem_rawObjectsFor_recordAll {records : List (ObjectUser × QpdfObjGen)} :
    object ∈ (maps.recordAll records).rawObjectsFor user ↔
      (user, object) ∈ records ∨ object ∈ maps.rawObjectsFor user := by
  induction records generalizing maps with
  | nil => simp [recordAll]
  | cons record records ih =>
    rw [recordAll, List.foldl_cons, ← recordAll, ih, mem_rawObjectsFor_recordRaw, List.mem_cons,
      Prod.ext_iff]
    rw [eq_comm (a := record.1), eq_comm (a := record.2)]
    tauto

/-! ## Members and containers -/

/-- `u32::try_from` of an object number. -/
def memberNumber (object : QpdfObjGen) : Option UInt32 :=
  if 0 ≤ object.object ∧ object.object < 2 ^ 32 then some (UInt32.ofNat object.object.toNat)
  else none

/-- `QpdfObjGen::new(stream as i32, 0)`. -/
def container (stream : UInt32) : QpdfObjGen := ⟨stream.toInt32.toInt, 0⟩

/-- The container of a member, any other object itself. -/
def filterTarget (objectStreamData : ExtTreeMap UInt32 UInt32) (object : QpdfObjGen) : QpdfObjGen :=
  (((memberNumber object).bind fun number => objectStreamData[number]?).map container).getD object

/-- The users with their objects, in the order of the two maps. -/
def rawRecords (maps : Optimization) : List (ObjectUser × QpdfObjGen) :=
  maps.rawUserToObjects.toList.flatMap fun entry => entry.2.toList.map fun object => (entry.1, object)

def filterCompressedObjects (maps : Optimization) (objectStreamData : ExtTreeMap UInt32 UInt32) :
    Optimization :=
  if objectStreamData.isEmpty then maps
  else
    default.recordAll
      (maps.rawRecords.map fun record => (record.1, filterTarget objectStreamData record.2))

theorem mem_rawRecords : (user, object) ∈ maps.rawRecords ↔ object ∈ maps.rawObjectsFor user := by
  simp only [rawRecords, List.mem_flatMap, List.mem_map, Prod.mk.injEq, Prod.exists,
    ExtTreeMap.mem_toList_iff_getElem?_eq_some, ExtTreeSet.mem_toList, rawObjectsFor,
    ExtTreeMap.getD_eq_getD_getElem?]
  constructor
  · rintro ⟨user', objects, hget, object', hmem, rfl, rfl⟩
    rw [hget]
    exact hmem
  · intro h
    cases hget : maps.rawUserToObjects[user]? with
    | none =>
      rw [hget] at h
      exact absurd h ExtTreeSet.not_mem_empty
    | some objects =>
      rw [hget] at h
      exact ⟨user, objects, hget, object, h, rfl, rfl⟩

theorem MutuallyInverse.filterCompressedObjects (h : maps.MutuallyInverse)
    (objectStreamData : ExtTreeMap UInt32 UInt32) :
    (maps.filterCompressedObjects objectStreamData).MutuallyInverse := by
  rw [Optimization.filterCompressedObjects]
  split
  · exact h
  · exact MutuallyInverse.default.recordAll _

theorem filterTarget_empty {objectStreamData : ExtTreeMap UInt32 UInt32}
    (h : objectStreamData.isEmpty = true) : filterTarget objectStreamData object = object := by
  have hnone : ∀ number : UInt32, objectStreamData[number]? = none := by
    intro number
    rw [ExtTreeMap.isEmpty_iff.mp h, ExtTreeMap.getElem?_empty]
  simp [filterTarget, hnone]

/-- Every object hands its users on to its target. -/
theorem mem_rawObjectsFor_filterCompressedObjects {objectStreamData : ExtTreeMap UInt32 UInt32} :
    object' ∈ (maps.filterCompressedObjects objectStreamData).rawObjectsFor user ↔
      ∃ object ∈ maps.rawObjectsFor user, filterTarget objectStreamData object = object' := by
  rw [filterCompressedObjects]
  by_cases hempty : objectStreamData.isEmpty
  · rw [if_pos hempty]
    simp [filterTarget_empty hempty]
  · rw [if_neg hempty, mem_rawObjectsFor_recordAll, List.mem_map]
    simp only [Prod.exists, Prod.mk.injEq, mem_rawRecords, not_mem_rawObjectsFor_default, or_false]
    constructor
    · rintro ⟨user', object, hmem, rfl, rfl⟩
      exact ⟨object, hmem, rfl⟩
    · rintro ⟨object, hmem, rfl⟩
      exact ⟨user, object, hmem, rfl, rfl⟩

end Optimization

end Flpdf
