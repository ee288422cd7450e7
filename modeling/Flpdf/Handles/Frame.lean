import Flpdf.Handles.Copy
import Mathlib.Data.Set.Basic

/-!
# What an update leaves alone

A frame names the dictionary keys, the arrays and the identities that an update may
change. Everything else that was in use reads as before.
-/

namespace Flpdf

open Std

namespace Heap

def isArray (heap : Heap) (a : Handle) : Bool := (heap.arrayItems a).isSome

def integerAt (heap : Heap) (a : Handle) : Option ℤ :=
  match heap.value a with
  | .integer value => some value
  | _ => none

def asInteger : SlotValue → Option ℤ
  | .integer value => some value
  | _ => none

theorem integerAt_def (heap : Heap) (a : Handle) : heap.integerAt a = asInteger (heap.value a) := by
  rw [integerAt]
  cases heap.value a <;> rfl

theorem isArray_iff {heap : Heap} {a : Handle} :
    heap.isArray a = true ↔ ∃ items, heap.value a = .array items := by
  rw [isArray, arrayItems]
  cases heap.value a <;> simp

/-- A key is set to a new direct object. -/
def setKey (heap : Heap) (a : Handle) (key : Bytes) (value : SlotValue) : Heap :=
  (heap.alloc value).2.replaceKey a key (heap.alloc value).1

def setArrayItem (heap : Heap) (a : Handle) (index : ℕ) (item : Handle) : Heap :=
  match heap.value a with
  | .array items => heap.setValue a (.array (items.set index item))
  | _ => heap

def setArrayItems (heap : Heap) (a : Handle) (items : List Handle) : Heap :=
  match heap.value a with
  | .array _ => heap.setValue a (.array items)
  | _ => heap

/-- Only these keys of dictionaries, the items of these arrays and the identities of these
direct objects may have changed. -/
structure Frame (heap heap' : Heap) (keys : Set (Handle × Bytes)) (arrays promoted : Set Handle) :
    Prop where
  size_le : heap.size ≤ heap'.size
  isDictionary_eq : ∀ a, a < heap.size → heap'.isDictionary a = heap.isDictionary a
  isNull_eq : ∀ a, a < heap.size → heap'.isNull a = heap.isNull a
  isArray_eq : ∀ a, a < heap.size → heap'.isArray a = heap.isArray a
  value_eq : ∀ a, a < heap.size → heap.isDictionary a = false →
    (heap.isArray a = true → a ∉ arrays) → heap'.value a = heap.value a
  getKey_eq : ∀ a, a < heap.size → ∀ key, (a, key) ∉ keys → heap'.getKey a key = heap.getKey a key
  identity_eq : ∀ a, a < heap.size → a ∉ promoted → heap'.identity a = heap.identity a
  identity_indirect : ∀ a, a < heap.size → heap.isIndirect a = true →
    heap'.identity a = heap.identity a
  closed : heap'.Closed

variable {heap heap' heap'' : Heap} {a b child : Handle} {key : Bytes} {value : SlotValue}
  {keys keys' : Set (Handle × Bytes)} {arrays arrays' promoted promoted' : Set Handle}

namespace Frame

theorem refl (hclosed : heap.Closed) : Frame heap heap ∅ ∅ ∅ where
  size_le := Nat.le_refl _
  isDictionary_eq _ _ := rfl
  isNull_eq _ _ := rfl
  isArray_eq _ _ := rfl
  value_eq _ _ _ _ := rfl
  getKey_eq _ _ _ _ := rfl
  identity_eq _ _ _ := rfl
  identity_indirect _ _ _ := rfl
  closed := hclosed

theorem mono (h : Frame heap heap' keys arrays promoted) (hkeys : keys ⊆ keys')
    (harrays : arrays ⊆ arrays') (hpromoted : promoted ⊆ promoted') :
    Frame heap heap' keys' arrays' promoted' where
  size_le := h.size_le
  isDictionary_eq := h.isDictionary_eq
  isNull_eq := h.isNull_eq
  isArray_eq := h.isArray_eq
  value_eq a ha hdictionary hnot :=
    h.value_eq a ha hdictionary fun harray hmem => hnot harray (harrays hmem)
  getKey_eq a ha key hnot := h.getKey_eq a ha key fun hmem => hnot (hkeys hmem)
  identity_eq a ha hnot := h.identity_eq a ha fun hmem => hnot (hpromoted hmem)
  identity_indirect := h.identity_indirect
  closed := h.closed

theorem isIndirect_of (h : Frame heap heap' keys arrays promoted) (ha : a < heap.size)
    (hindirect : heap.isIndirect a = true) : heap'.isIndirect a = true := by
  rw [isIndirect, h.identity_indirect a ha hindirect]
  exact hindirect

theorem trans (h : Frame heap heap' keys arrays promoted)
    (h' : Frame heap' heap'' keys' arrays' promoted') :
    Frame heap heap'' (keys ∪ keys') (arrays ∪ arrays') (promoted ∪ promoted') := by
  have hsize : ∀ a, a < heap.size → a < heap'.size := fun a ha => Nat.lt_of_lt_of_le ha h.size_le
  constructor
  · exact h.size_le.trans h'.size_le
  · intro a ha
    rw [h'.isDictionary_eq a (hsize a ha), h.isDictionary_eq a ha]
  · intro a ha
    rw [h'.isNull_eq a (hsize a ha), h.isNull_eq a ha]
  · intro a ha
    rw [h'.isArray_eq a (hsize a ha), h.isArray_eq a ha]
  · intro a ha hdictionary hnot
    have hdictionary' := (h.isDictionary_eq a ha).trans hdictionary
    rw [h'.value_eq a (hsize a ha) hdictionary', h.value_eq a ha hdictionary]
    · exact fun harray hmem => hnot harray (Set.mem_union_left _ hmem)
    · intro harray hmem
      rw [h.isArray_eq a ha] at harray
      exact hnot harray (Set.mem_union_right _ hmem)
  · intro a ha key hnot
    rw [Set.mem_union, not_or] at hnot
    rw [h'.getKey_eq a (hsize a ha) key hnot.2, h.getKey_eq a ha key hnot.1]
  · intro a ha hnot
    rw [Set.mem_union, not_or] at hnot
    rw [h'.identity_eq a (hsize a ha) hnot.2, h.identity_eq a ha hnot.1]
  · intro a ha hindirect
    rw [h'.identity_indirect a (hsize a ha) (h.isIndirect_of ha hindirect),
      h.identity_indirect a ha hindirect]
  · exact h'.closed

end Frame

/-- What stands under a key has a slot. -/
theorem Closed.getKey_lt (hclosed : heap.Closed) (ha : a < heap.size)
    (hget : heap.getKey a key = some child) : child < heap.size := by
  rw [getKey] at hget
  cases hvalue : heap.value a with
  | dictionary entries =>
    simp only [hvalue] at hget
    have hmem := mem_children_of_getElem? hget
    rw [← hvalue] at hmem
    exact hclosed a ha child hmem
  | _ => simp [hvalue] at hget

theorem Closed.arrayItems_lt (hclosed : heap.Closed) (ha : a < heap.size) {items : List Handle}
    (hitems : heap.arrayItems a = some items) : ∀ item ∈ items, item < heap.size := by
  intro item hitem
  rw [arrayItems] at hitems
  cases hvalue : heap.value a with
  | array items' =>
    simp only [hvalue, Option.some.injEq] at hitems
    have hmem : item ∈ (heap.value a).children := by
      rw [hvalue, hitems]
      exact hitem
    exact hclosed a ha item hmem
  | _ => simp [hvalue] at hitems

namespace Frame

theorem visible_eq (h : Frame heap heap' keys arrays promoted) (hclosed : heap.Closed)
    (ha : a < heap.size) (hkey : (a, key) ∉ keys) : heap'.visible a key = heap.visible a key := by
  rw [visible, visible, h.getKey_eq a ha key hkey]
  cases hget : heap.getKey a key with
  | none => rfl
  | some child =>
    rw [Option.filter_some, Option.filter_some, h.isNull_eq child (hclosed.getKey_lt ha hget)]

theorem hasKey_eq (h : Frame heap heap' keys arrays promoted) (hclosed : heap.Closed)
    (ha : a < heap.size) (hkey : (a, key) ∉ keys) : heap'.hasKey a key = heap.hasKey a key := by
  rw [hasKey, hasKey, h.visible_eq hclosed ha hkey]

/-- Values that are neither dictionaries nor arrays stay. -/
theorem value_eq_of_scalar (h : Frame heap heap' keys arrays promoted) (ha : a < heap.size)
    (hdictionary : heap.isDictionary a = false) (harray : heap.isArray a = false) :
    heap'.value a = heap.value a := by
  apply h.value_eq a ha hdictionary
  intro harray'
  rw [harray] at harray'
  cases harray'

/-- A reader that only looks at scalars reads the same. -/
theorem read_eq {β : Type} (h : Frame heap heap' keys arrays promoted) (ha : a < heap.size)
    (read : SlotValue → β)
    (hdictionary : ∀ entries entries', read (.dictionary entries) = read (.dictionary entries'))
    (harray : ∀ items items', read (.array items) = read (.array items')) :
    read (heap'.value a) = read (heap.value a) := by
  cases hd : heap.isDictionary a with
  | true =>
    obtain ⟨entries, hvalue⟩ := isDictionary_iff.mp hd
    obtain ⟨entries', hvalue'⟩ := isDictionary_iff.mp ((h.isDictionary_eq a ha).trans hd)
    rw [hvalue, hvalue']
    exact hdictionary _ _
  | false =>
    cases hi : heap.isArray a with
    | true =>
      obtain ⟨items, hvalue⟩ := isArray_iff.mp hi
      obtain ⟨items', hvalue'⟩ := isArray_iff.mp ((h.isArray_eq a ha).trans hi)
      rw [hvalue, hvalue']
      exact harray _ _
    | false => rw [h.value_eq_of_scalar ha hd hi]

theorem integerAt_eq (h : Frame heap heap' keys arrays promoted) (ha : a < heap.size) :
    heap'.integerAt a = heap.integerAt a := by
  rw [integerAt_def, integerAt_def]
  exact h.read_eq ha asInteger (fun _ _ => rfl) (fun _ _ => rfl)

theorem arrayItems_eq (h : Frame heap heap' keys arrays promoted) (ha : a < heap.size)
    (hnot : a ∉ arrays) : heap'.arrayItems a = heap.arrayItems a := by
  cases hd : heap.isDictionary a with
  | true =>
    obtain ⟨entries, hvalue⟩ := isDictionary_iff.mp hd
    obtain ⟨entries', hvalue'⟩ := isDictionary_iff.mp ((h.isDictionary_eq a ha).trans hd)
    rw [arrayItems, arrayItems, hvalue, hvalue']
  | false => rw [arrayItems, arrayItems, h.value_eq a ha hd fun _ => hnot]

end Frame

/-! ## The updates -/

theorem Extends.frame (h : Extends heap heap') (hclosed : heap'.Closed) :
    Frame heap heap' ∅ ∅ ∅ where
  size_le := h.size_le
  isDictionary_eq a ha := by rw [isDictionary, isDictionary, h.value_eq ha]
  isNull_eq a ha := isNull_congr (h.value_eq ha)
  isArray_eq a ha := by rw [isArray, isArray, arrayItems, arrayItems, h.value_eq ha]
  value_eq a ha _ _ := h.value_eq ha
  getKey_eq a ha _ _ := getKey_congr (h.value_eq ha)
  identity_eq a ha _ := h.identity_eq ha
  identity_indirect a ha _ := h.identity_eq ha
  closed := hclosed

theorem closed_alloc (hclosed : heap.Closed) (hchildren : ∀ child ∈ value.children, child < heap.size) :
    (heap.alloc value).2.Closed := by
  intro b hb child hchild
  apply Nat.lt_succ_of_lt
  rcases Nat.lt_succ_iff_lt_or_eq.mp hb with hold | rfl
  · rw [(extends_alloc value).value_eq hold] at hchild
    exact hclosed b hold child hchild
  · rw [value_alloc_self] at hchild
    exact hchildren child hchild

theorem closed_setValue (hclosed : heap.Closed) (hvalue : ∀ child ∈ value.children, child < heap.size) :
    (heap.setValue a value).Closed := by
  intro b hb child hchild
  rw [value_setValue] at hchild
  by_cases h : b = a
  · rw [if_pos h] at hchild
    exact hvalue child hchild
  · rw [if_neg h] at hchild
    exact hclosed b hb child hchild

theorem frame_setValue_array {items items' : List Handle} (hclosed : heap.Closed)
    (harray : heap.value a = .array items) (hitems : ∀ item ∈ items', item < heap.size) :
    Frame heap (heap.setValue a (.array items')) ∅ {a} ∅ := by
  have hne : ∀ b, b ≠ a → (heap.setValue a (.array items')).value b = heap.value b := by
    intro b hb
    rw [value_setValue, if_neg hb]
  have hself : (heap.setValue a (.array items')).value a = .array items' := by
    rw [value_setValue, if_pos rfl]
  constructor
  · exact Nat.le_refl _
  · intro b _
    by_cases hb : b = a
    · rw [isDictionary, isDictionary, hb, hself, harray]
    · rw [isDictionary, isDictionary, hne b hb]
  · intro b _
    by_cases hb : b = a
    · rw [isNull, isNull, hb, hself, harray]
    · rw [isNull, isNull, hne b hb]
  · intro b _
    by_cases hb : b = a
    · rw [isArray, isArray, arrayItems, arrayItems, hb, hself, harray]
      rfl
    · rw [isArray, isArray, arrayItems, arrayItems, hne b hb]
  · intro b _ _ hnot
    apply hne
    rintro rfl
    apply hnot _ rfl
    rw [isArray, arrayItems, harray]
    rfl
  · intro b _ key _
    by_cases hb : b = a
    · rw [getKey, getKey, hb, hself, harray]
    · exact getKey_congr (hne b hb)
  · exact fun b _ _ => identity_setValue
  · exact fun b _ _ => identity_setValue
  · exact closed_setValue hclosed hitems

theorem frame_replaceKey (hclosed : heap.Closed) (key : Bytes) (hdictionary : heap.isDictionary a = true)
    (hnull : heap.isNull child = false) (hchild : child < heap.size) :
    Frame heap (heap.replaceKey a key child) {(a, key)} ∅ ∅ := by
  obtain ⟨entries, hentries⟩ := isDictionary_iff.mp hdictionary
  have hreplace : heap.replaceKey a key child =
      heap.setValue a (.dictionary (entries.insert key child)) := by
    rw [replaceKey, hnull, Bool.false_and, if_neg Bool.false_ne_true, hentries]
  have hne : ∀ b, b ≠ a → (heap.replaceKey a key child).value b = heap.value b :=
    fun b hb => value_replaceKey_of_ne hb
  have hother : ∀ b, heap.isDictionary b = false → b ≠ a := by
    rintro b hb rfl
    rw [hdictionary] at hb
    cases hb
  constructor
  · rw [hreplace]
    exact Nat.le_refl _
  · exact fun b _ => isDictionary_replaceKey
  · exact fun b _ => isNull_replaceKey
  · intro b _
    by_cases hb : b = a
    · rw [hreplace, isArray, isArray, arrayItems, arrayItems, value_setValue, if_pos hb, hb,
        hentries]
    · rw [isArray, isArray, arrayItems, arrayItems, hne b hb]
  · exact fun b _ hb _ => hne b (hother b hb)
  · intro b _ other hnot
    by_cases hb : b = a
    · subst hb
      rw [getKey_replaceKey hdictionary hnull, if_neg]
      rintro rfl
      exact hnot rfl
    · exact getKey_congr (hne b hb)
  · exact fun b _ _ => identity_replaceKey
  · exact fun b _ _ => identity_replaceKey
  · rw [hreplace]
    intro b hb c hc
    rw [value_setValue] at hc
    by_cases h : b = a
    · rw [if_pos h] at hc
      obtain ⟨⟨key', c'⟩, hmem, rfl⟩ := List.mem_map.mp hc
      rw [ExtTreeMap.mem_toList_iff_getElem?_eq_some, ExtTreeMap.getElem?_insert] at hmem
      by_cases hkey : compare key key' = .eq
      · rw [if_pos hkey] at hmem
        cases hmem
        exact hchild
      · rw [if_neg hkey] at hmem
        apply hclosed b hb
        rw [h, hentries]
        exact mem_children_of_getElem? hmem
    · rw [if_neg h] at hc
      exact hclosed b hb c hc

/-- What setting a key to a new object does. -/
theorem setKey_spec (hclosed : heap.Closed) (ha : a < heap.size)
    (hdictionary : heap.isDictionary a = true) (key : Bytes) (value : SlotValue)
    (hchildren : ∀ child ∈ value.children, child < heap.size) (hvalue : value ≠ .null) :
    Frame heap (heap.setKey a key value) {(a, key)} ∅ ∅ ∧
      (heap.setKey a key value).getKey a key = some heap.size ∧
      (heap.setKey a key value).value heap.size = value ∧
      (heap.setKey a key value).identity heap.size = none ∧
      (heap.setKey a key value).size = heap.size + 1 := by
  have hextends : Extends heap (heap.alloc value).2 := extends_alloc value
  have halloc := hextends.frame (closed_alloc hclosed hchildren)
  have hdictionary' := (halloc.isDictionary_eq a ha).trans hdictionary
  have hnull : (heap.alloc value).2.isNull heap.size = false := by
    rw [isNull, value_alloc_self]
    cases value with
    | null => exact absurd rfl hvalue
    | _ => rfl
  have hframe := frame_replaceKey halloc.closed key hdictionary' hnull (Nat.lt_succ_self heap.size)
  have hne : heap.size ≠ a := Nat.ne_of_gt ha
  refine ⟨?_, ?_, ?_, ?_, ?_⟩
  · have hboth := halloc.trans hframe
    simp only [Set.empty_union, Set.union_empty] at hboth
    exact hboth
  · exact (getKey_replaceKey hdictionary' hnull).trans (if_pos rfl)
  · exact (value_replaceKey_of_ne hne).trans value_alloc_self
  · rw [setKey, identity_replaceKey, identity, slot_alloc, if_pos rfl]
    rfl
  · exact size_replaceKey

theorem setArrayItems_spec (hclosed : heap.Closed) {items items' : List Handle}
    (hitems : heap.arrayItems a = some items) (hlt : ∀ item ∈ items', item < heap.size) :
    Frame heap (heap.setArrayItems a items') ∅ {a} ∅ ∧
      (heap.setArrayItems a items').arrayItems a = some items' ∧
      (heap.setArrayItems a items').size = heap.size := by
  obtain ⟨items'', hvalue⟩ : ∃ items, heap.value a = .array items := by
    rw [← isArray_iff, isArray, hitems]
    rfl
  have hset : heap.setArrayItems a items' = heap.setValue a (.array items') := by
    rw [setArrayItems, hvalue]
  rw [hset]
  refine ⟨frame_setValue_array hclosed hvalue hlt, ?_, rfl⟩
  rw [arrayItems, value_setValue, if_pos rfl]

theorem setArrayItem_spec (index : ℕ) (hclosed : heap.Closed) {items : List Handle} {item : Handle}
    (ha : a < heap.size) (hitems : heap.arrayItems a = some items) (hlt : item < heap.size) :
    Frame heap (heap.setArrayItem a index item) ∅ {a} ∅ ∧
      (heap.setArrayItem a index item).arrayItems a = some (items.set index item) ∧
      (heap.setArrayItem a index item).size = heap.size := by
  have hvalue : heap.value a = .array items := by
    rw [arrayItems] at hitems
    cases hvalue : heap.value a with
    | array items' =>
      simp only [hvalue, Option.some.injEq] at hitems
      rw [hitems]
    | _ => simp [hvalue] at hitems
  have hset : heap.setArrayItem a index item = heap.setValue a (.array (items.set index item)) := by
    rw [setArrayItem, hvalue]
  rw [hset]
  refine ⟨frame_setValue_array hclosed hvalue ?_, ?_, rfl⟩
  · intro child hchild
    rcases List.mem_or_eq_of_mem_set hchild with hold | rfl
    · exact hclosed.arrayItems_lt ha hitems child hold
    · exact hlt
  · rw [arrayItems, value_setValue, if_pos rfl]

theorem frame_makeIndirect (hclosed : heap.Closed) (hdirect : heap.isIndirect a = false) :
    Frame heap (heap.makeIndirect a) ∅ ∅ {a} where
  size_le := Nat.le_refl _
  isDictionary_eq _ _ := isDictionary_makeIndirect
  isNull_eq _ _ := isNull_makeIndirect
  isArray_eq b _ := by rw [isArray, isArray, arrayItems, arrayItems, value_makeIndirect]
  value_eq _ _ _ _ := value_makeIndirect
  getKey_eq _ _ _ _ := getKey_makeIndirect
  identity_eq b _ hnot := by
    rw [identity_makeIndirect]
    exact if_neg hnot
  identity_indirect b _ hindirect := by
    rw [identity_makeIndirect]
    apply if_neg
    rintro rfl
    rw [hdirect] at hindirect
    cases hindirect
  closed b hb c hc := by
    rw [value_makeIndirect] at hc
    exact hclosed b hb c hc

end Heap

end Flpdf
