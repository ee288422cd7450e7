import Flpdf.Pages.SpliceWalk

/-!
# Repeated pages

A page that is already taken is replaced by a new object with copies of what the
page has under its keys. `PageCopy` says so of the final heap, and `Deduped` of a
sequence of pages.
-/

namespace Flpdf

open PageTree

variable {base heap heap' heap'' : Heap} {a p q : Handle} {slots slots' arrays arrays' : Set Handle}
  {n : ℕ}

/-- The entries under `/Type`. -/
def typeKeys : Set (Handle × Bytes) := {entry | entry.2 = ascii "/Type"}

theorem not_typeKeys {key : Bytes} (hkey : key ≠ ascii "/Type") (a : Handle) :
    (a, key) ∉ typeKeys :=
  fun h => hkey h

theorem kids_ne_type : ascii "/Kids" ≠ ascii "/Type" := by
  decide

theorem count_ne_type : ascii "/Count" ≠ ascii "/Type" := by
  decide

namespace Heap

/-- Setting an item to what stands there changes nothing. -/
theorem setArrayItem_self {items : List Handle} {index : ℕ} {item : Handle}
    (hitems : heap.arrayItems a = some items) (hitem : items[index]? = some item) :
    heap.setArrayItem a index item = heap := by
  rw [arrayItems] at hitems
  cases hvalue : heap.value a with
  | array items' =>
    simp only [hvalue, Option.some.injEq] at hitems
    obtain ⟨hlt, hget⟩ := List.getElem?_eq_some_iff.mp hitem
    have hset : items.set index item = items := by
      rw [← hget, List.set_getElem_self]
    have hslot : ({ heap.slot a with value := .array items } : Slot) = heap.slot a := by
      rw [← hitems, ← hvalue]
      rfl
    rw [setArrayItem, hvalue]
    simp only [hitems, hset, setValue, hslot, Function.update_eq_self]
  | _ => simp [hvalue] at hitems

theorem objectRef_makeIndirect : ((heap.makeIndirect a).objectRef a).isSome = true := by
  have href : (⟨heap.objectCount + 1, 0⟩ : QpdfObjGen).toObjectRef =
      some ⟨heap.objectCount + 1, 0⟩ := by
    rw [QpdfObjGen.toObjectRef_eq_some]
    exact ⟨rfl, Nat.le_add_left _ _, Nat.succ_pos _⟩
  rw [objectRef, identity_makeIndirect, if_pos rfl, Option.bind_some, href]
  rfl

theorem slot_setValue_of_ne {value : SlotValue} {b : Handle} (h : b ≠ a) :
    (heap.setValue a value).slot b = heap.slot b := by
  rw [setValue]
  exact Function.update_of_ne h _ _

theorem slot_removeKey_of_ne {key : Bytes} {b : Handle} (h : b ≠ a) :
    (heap.removeKey a key).slot b = heap.slot b := by
  rw [removeKey]
  split
  · exact slot_setValue_of_ne h
  · rfl

theorem slot_replaceKey_of_ne {key : Bytes} {child b : Handle} (h : b ≠ a) :
    (heap.replaceKey a key child).slot b = heap.slot b := by
  rw [replaceKey]
  split
  · exact slot_removeKey_of_ne h
  · split
    · exact slot_setValue_of_ne h
    · rfl

theorem value_eq_of_slot_eq {b : Handle} (h : heap'.slot a = heap.slot b) :
    heap'.value a = heap.value b := by
  rw [value, value, h]

theorem identity_eq_of_slot_eq {b : Handle} (h : heap'.slot a = heap.slot b) :
    heap'.identity a = heap.identity b := by
  rw [identity, identity, h]

/-- A child of a dictionary stands under a key. -/
theorem mem_children_iff (hdictionary : heap.isDictionary a = true) {child : Handle} :
    child ∈ (heap.value a).children ↔ ∃ key, heap.getKey a key = some child := by
  obtain ⟨entries, hvalue⟩ := isDictionary_iff.mp hdictionary
  constructor
  · intro hmem
    rw [hvalue] at hmem
    obtain ⟨⟨key, c⟩, hentry, rfl⟩ := List.mem_map.mp hmem
    refine ⟨key, ?_⟩
    rw [getKey, hvalue]
    exact Std.ExtTreeMap.mem_toList_iff_getElem?_eq_some.mp hentry
  · rintro ⟨key, hget⟩
    rw [getKey, hvalue] at hget
    rw [hvalue]
    exact mem_children_of_getElem? hget

end Heap

/-! ## What the first walk may change -/

/-- Of the old objects only those in the given slots change, and of the arrays only the given
ones. What is added to a container is a name or indirect, and so is proper what becomes indirect. -/
structure Prepared (heap heap' : Heap) (slots arrays : Set Handle) : Prop where
  frame : Heap.Frame heap heap' typeKeys arrays Set.univ
  slot_eq : ∀ x, x < heap.size → x ∉ slots → heap'.slot x = heap.slot x
  children : ∀ x, x < heap.size → ∀ child ∈ (heap'.value x).children,
    heap'.isIndirect child = false →
      child ∈ (heap.value x).children ∨ ∃ name, heap'.value child = .name name
  named : ∀ x, x < heap.size → heap'.identity x = heap.identity x ∨ (heap'.objectRef x).isSome = true

namespace Prepared

theorem refl (hclosed : heap.Closed) : Prepared heap heap slots arrays where
  frame := (Heap.Frame.refl hclosed).mono (Set.empty_subset _) (Set.empty_subset _)
    (Set.empty_subset _)
  slot_eq _ _ _ := rfl
  children _ _ _ hchild _ := .inl hchild
  named _ _ := .inl rfl

theorem mono (h : Prepared heap heap' slots arrays) (hslots : ∀ x, x < heap.size → x ∈ slots → x ∈ slots')
    (harrays : arrays ⊆ arrays') : Prepared heap heap' slots' arrays' where
  frame := h.frame.mono (fun _ hx => hx) harrays (fun _ hx => hx)
  slot_eq x hx hnot := h.slot_eq x hx fun hmem => hnot (hslots x hx hmem)
  children := h.children
  named := h.named

theorem isIndirect_of (h : Prepared heap heap' slots arrays) (ha : a < heap.size)
    (hdirect : heap'.isIndirect a = false) : heap.isIndirect a = false := by
  by_contra hne
  rw [h.frame.isIndirect_of ha (Bool.not_eq_false _ ▸ hne)] at hdirect
  cases hdirect

theorem objectRef_eq (h : Prepared heap heap' slots arrays) (ha : a < heap.size)
    (hnamed : (heap.objectRef a).isSome = true) : heap'.objectRef a = heap.objectRef a := by
  rw [Heap.objectRef, Heap.objectRef,
    h.frame.identity_indirect a ha (Splice.isIndirect_of_objectRef hnamed)]

theorem trans (h : Prepared heap heap' slots arrays) (h' : Prepared heap' heap'' slots arrays) :
    Prepared heap heap'' slots arrays where
  frame := by
    have hboth := h.frame.trans h'.frame
    simp only [Set.union_self] at hboth
    exact hboth
  slot_eq x hx hnot :=
    (h'.slot_eq x (Nat.lt_of_lt_of_le hx h.frame.size_le) hnot).trans (h.slot_eq x hx hnot)
  children x hx child hchild hdirect := by
    have hx' := Nat.lt_of_lt_of_le hx h.frame.size_le
    rcases h'.children x hx' child hchild hdirect with hold | hname
    · have hchild_lt := h.frame.closed x hx' child hold
      rcases h.children x hx child hold (h'.isIndirect_of hchild_lt hdirect) with hold | ⟨name, hname⟩
      · exact .inl hold
      · refine .inr ⟨name, ?_⟩
        rw [h'.frame.value_eq_of_scalar hchild_lt, hname]
        · rw [Heap.isDictionary, hname]
        · rw [Heap.isArray, Heap.arrayItems, hname]
          rfl
    · exact .inr hname
  named x hx := by
    have hx' := Nat.lt_of_lt_of_le hx h.frame.size_le
    rcases h'.named x hx' with hsame | hnamed
    · rcases h.named x hx with hsame' | hnamed
      · exact .inl (hsame.trans hsame')
      · right
        rw [Heap.objectRef, hsame]
        exact hnamed
    · exact .inr hnamed

theorem extends_ (h : Heap.Extends heap heap') (hclosed : heap'.Closed) :
    Prepared heap heap' slots arrays where
  frame := (h.frame hclosed).mono (Set.empty_subset _) (Set.empty_subset _) (Set.empty_subset _)
  slot_eq x hx _ := h.slot_eq x hx
  children x hx child hchild _ := by
    rw [h.value_eq hx] at hchild
    exact .inl hchild
  named x hx := .inl (h.identity_eq hx)

theorem makeIndirect (hclosed : heap.Closed) (hdirect : heap.isIndirect a = false) (ha : a ∈ slots) :
    Prepared heap (heap.makeIndirect a) slots arrays where
  frame := (Heap.frame_makeIndirect hclosed hdirect).mono (Set.empty_subset _) (Set.empty_subset _)
    (Set.subset_univ _)
  slot_eq x _ hnot := by
    have hne : x ≠ a := fun h => hnot (h ▸ ha)
    exact Function.update_of_ne hne _ _
  children x _ child hchild _ := by
    rw [Heap.value_makeIndirect] at hchild
    exact .inl hchild
  named x _ := by
    by_cases hx : x = a
    · right
      rw [hx]
      exact Heap.objectRef_makeIndirect
    · left
      rw [Heap.identity_makeIndirect, if_neg hx]

theorem setArrayItem {items : List Handle} {index : ℕ} {item : Handle} (hclosed : heap.Closed)
    (hlt : a < heap.size) (hitems : heap.arrayItems a = some items) (hitem : item < heap.size)
    (hindirect : heap.isIndirect item = true) (hslot : a ∈ slots) (harray : a ∈ arrays) :
    Prepared heap (heap.setArrayItem a index item) slots arrays := by
  obtain ⟨hframe, hset, -⟩ := Heap.setArrayItem_spec index hclosed hlt hitems hitem
  have hslots : ∀ x, x ≠ a → (heap.setArrayItem a index item).slot x = heap.slot x := by
    intro x hx
    rw [Heap.setArrayItem]
    split
    · exact Heap.slot_setValue_of_ne hx
    · rfl
  constructor
  · apply hframe.mono (Set.empty_subset _) _ (Set.empty_subset _)
    rintro x rfl
    exact harray
  · exact fun x _ hnot => hslots x fun h => hnot (h ▸ hslot)
  · intro x hx child hchild hdirect
    by_cases hxa : x = a
    · subst hxa
      have hchild' : child ∈ items.set index item := by
        rw [Heap.arrayItems] at hset
        cases hvalue : (heap.setArrayItem x index item).value x with
        | array items' =>
          rw [hvalue] at hset hchild
          cases hset
          exact hchild
        | _ => simp [hvalue] at hset
      rcases List.mem_or_eq_of_mem_set hchild' with hold | rfl
      · left
        rw [Heap.arrayItems] at hitems
        cases hvalue : heap.value x with
        | array items' =>
          rw [hvalue] at hitems
          cases hitems
          exact hold
        | _ => simp [hvalue] at hitems
      · rw [hframe.isIndirect_of hitem hindirect] at hdirect
        cases hdirect
    · rw [Heap.value_eq_of_slot_eq (hslots x hxa)] at hchild
      exact .inl hchild
  · exact fun x hx => .inl (hframe.identity_eq x hx (Set.notMem_empty x))

theorem setType (hclosed : heap.Closed) (hlt : a < heap.size)
    (hdictionary : heap.isDictionary a = true) (type : Bytes) (ha : a ∈ slots) :
    Prepared heap (heap.setType a type) slots arrays := by
  rw [Heap.setType]
  split
  · exact .refl hclosed
  · obtain ⟨hframe, hget, hvalue, -, -⟩ := Heap.setKey_spec hclosed hlt hdictionary (ascii "/Type")
      (.name type) (fun _ h => absurd h List.not_mem_nil) (fun h => by cases h)
    have hslots : ∀ x, x < heap.size → x ≠ a →
        (heap.setKey a (ascii "/Type") (.name type)).slot x = heap.slot x := by
      intro x hx hne
      rw [Heap.setKey, Heap.slot_replaceKey_of_ne hne, Heap.slot_alloc, if_neg (Nat.ne_of_lt hx)]
    constructor
    · apply hframe.mono _ (Set.empty_subset _) (Set.empty_subset _)
      rintro entry rfl
      rfl
    · exact fun x hx hnot => hslots x hx fun h => hnot (h ▸ ha)
    · intro x hx child hchild _
      by_cases hxa : x = a
      · subst hxa
        rw [Heap.mem_children_iff ((hframe.isDictionary_eq x hx).trans hdictionary)] at hchild
        obtain ⟨key, hkey⟩ := hchild
        by_cases htype : key = ascii "/Type"
        · rw [htype, hget] at hkey
          cases hkey
          exact .inr ⟨type, hvalue⟩
        · left
          rw [Heap.mem_children_iff hdictionary]
          refine ⟨key, ?_⟩
          rw [← hframe.getKey_eq x hx key fun h => htype (congrArg Prod.snd h)]
          exact hkey
      · rw [Heap.value_eq_of_slot_eq (hslots x hx hxa)] at hchild
        exact .inl hchild
    · exact fun x hx => .inl (hframe.identity_eq x hx (Set.notMem_empty x))

end Prepared

/-! ## What can still be copied -/

namespace Heap

theorem Copyable.succ : ∀ (n : ℕ) (a : Handle), heap.Copyable n a → heap.Copyable (n + 1) a := by
  intro n
  induction n with
  | zero =>
    intro a h
    rw [Copyable] at h
    exact h.elim
  | succ n ih =>
    intro a h
    rw [Copyable] at h ⊢
    cases hvalue : heap.value a with
    | stream streamDict =>
      rw [hvalue] at h
      exact h
    | _ =>
      rw [hvalue] at h
      exact fun child hchild hdirect => ih child (h child hchild hdirect)

theorem Copyable.mono {m : ℕ} (h : heap.Copyable n a) (hle : n ≤ m) : heap.Copyable m a := by
  induction hle with
  | refl => exact h
  | step _ ih => exact ih.succ _ a

theorem copyable_iff (hnot : ∀ streamDict, heap.value a ≠ .stream streamDict) :
    heap.Copyable (n + 1) a ↔
      ∀ child ∈ (heap.value a).children, heap.isIndirect child = false → heap.Copyable n child := by
  rw [Copyable]
  cases hvalue : heap.value a with
  | stream streamDict => exact absurd hvalue (hnot streamDict)
  | _ => exact Iff.rfl

theorem Copyable.not_stream {streamDict : Handle} (h : heap.Copyable n a) :
    heap.value a ≠ .stream streamDict := by
  intro hvalue
  cases n with
  | zero => exact h
  | succ n =>
    rw [Copyable, hvalue] at h
    exact h

end Heap

/-- What could be copied still can, one level deeper. -/
theorem Prepared.copyable (h : Prepared heap heap' slots arrays) (hclosed : heap.Closed) :
    ∀ n a, a < heap.size → heap.Copyable n a → heap'.Copyable (n + 1) a := by
  intro n
  induction n with
  | zero =>
    intro a _ hcopyable
    exact hcopyable.elim
  | succ n ih =>
    intro a ha hcopyable
    have hstream : ∀ streamDict, heap'.value a ≠ .stream streamDict := by
      intro streamDict hvalue
      have hnot : heap.value a ≠ .stream streamDict := hcopyable.not_stream
      apply hnot
      rw [← hvalue]
      symm
      apply h.frame.value_eq_of_scalar ha
      · rw [← h.frame.isDictionary_eq a ha, Heap.isDictionary, hvalue]
      · rw [← h.frame.isArray_eq a ha, Heap.isArray, Heap.arrayItems, hvalue]
        rfl
    rw [Heap.copyable_iff hstream]
    rw [Heap.copyable_iff fun _ => hcopyable.not_stream] at hcopyable
    intro child hchild hdirect
    rcases h.children a ha child hchild hdirect with hold | ⟨name, hname⟩
    · have hlt := hclosed a ha child hold
      exact ih child hlt (hcopyable child hold (h.isIndirect_of hlt hdirect))
    · rw [Heap.Copyable, hname]
      exact fun c hc => absurd hc List.not_mem_nil

/-! ## Copies of pages -/

/-- The second page is a new object with copies of what the first one has under its keys. They
were made when none but the given slots had changed. -/
structure PageCopy (base mid heap : Heap) (slots : Set Handle) (except : Set Bytes) (n : ℕ)
    (p q : Handle) : Prop where
  slot_eq : ∀ x, x < base.size → x ∉ slots → mid.slot x = base.slot x
  new : base.size ≤ q
  copied : ∀ key, key ∉ except → Option.Rel (Heap.CopiedChild (Heap.CopyOf mid heap n) mid heap)
    (base.getKey p key) (heap.getKey q key)

/-- Behind a copy nothing but the copy itself refers to the slots that were made for it. -/
structure FreshPage (base mid heap : Heap) (slots : Set Handle) (except : Set Bytes) (n : ℕ)
    (p q : Handle) : Prop extends PageCopy base mid heap slots except n p q where
  behind : mid.size ≤ q
  lt : q < heap.size
  named : (heap.objectRef q).isSome = true
  direct : ∀ x, mid.size ≤ x → x < q → heap.isIndirect x = false
  below : ∀ x, mid.size ≤ x → x < q → ∀ child ∈ (heap.value x).children,
    heap.isIndirect child = true ∨ mid.size ≤ child ∧ child < q
  keys_below : ∀ key, key ∉ except → ∀ child, heap.getKey q key = some child →
    heap.isIndirect child = true ∨ mid.size ≤ child ∧ child < q
  old : base.size ≤ mid.size

namespace FreshPage

variable {mid : Heap} {except except' : Set Bytes}

/-- A copy stays one while only old objects and the copy's other keys change. -/
theorem later (h : FreshPage base mid heap slots except n p q) (hclosed : heap.Closed)
    (hsize : heap.size ≤ heap'.size)
    (hsame : ∀ x, base.size ≤ x → x < heap.size → heap.isIndirect x = false →
      heap'.value x = heap.value x ∧ heap'.identity x = heap.identity x)
    (hindirect : ∀ x, x < heap.size → heap.isIndirect x = true → heap'.isIndirect x = true)
    (hnamed : (heap'.objectRef q).isSome = true) (hexcept : except ⊆ except')
    (hkeys : ∀ key, key ∉ except' → heap'.getKey q key = heap.getKey q key) :
    FreshPage base mid heap' slots except' n p q := by
  have hslot : ∀ x, mid.size ≤ x → x < q →
      heap'.value x = heap.value x ∧ heap'.identity x = heap.identity x := by
    intro x hle hlt
    exact hsame x (h.old.trans hle) (hlt.trans h.lt) (h.direct x hle hlt)
  have hdirect : ∀ x, mid.size ≤ x → x < q → heap'.isIndirect x = false := by
    intro x hle hlt
    rw [Heap.isIndirect, (hslot x hle hlt).2]
    exact h.direct x hle hlt
  have hstay : ∀ child, child < heap.size →
      heap.isIndirect child = true ∨ mid.size ≤ child ∧ child < q →
      heap'.isIndirect child = true ∨ mid.size ≤ child ∧ child < q :=
    fun child hlt hor => hor.imp (hindirect child hlt) id
  have hkey : ∀ key, key ∉ except' → key ∉ except := fun key hnot hmem => hnot (hexcept hmem)
  constructor
  · constructor
    · exact h.slot_eq
    · exact h.new
    · intro key hnot
      rw [hkeys key hnot]
      refine Heap.rel_option_mono ?_ (h.copied key (hkey key hnot))
      intro x y _ hy hcopied
      rw [Heap.CopiedChild] at hcopied ⊢
      split
      · rename_i hmid
        rwa [if_pos hmid] at hcopied
      · rename_i hmid
        rw [if_neg hmid] at hcopied
        rcases h.keys_below key (hkey key hnot) y hy with hyes | ⟨hle, hlt⟩
        · rw [hcopied.1] at hyes
          cases hyes
        · refine ⟨hdirect y hle hlt, ?_⟩
          apply hcopied.2.congr (fun x => mid.size ≤ x ∧ x < q) _ _ _ _ _ ⟨hle, hlt⟩
          · exact fun x hx => (hslot x hx.1 hx.2).1
          · intro x hx child hchild hchild_direct
            rcases h.below x hx.1 hx.2 child hchild with hyes | hread
            · rw [hchild_direct] at hyes
              cases hyes
            · exact ⟨hread, hdirect child hread.1 hread.2⟩
  · exact h.behind
  · exact Nat.lt_of_lt_of_le h.lt hsize
  · exact hnamed
  · exact hdirect
  · intro x hle hlt child hchild
    rw [(hslot x hle hlt).1] at hchild
    exact hstay child (hclosed x (hlt.trans h.lt) child hchild) (h.below x hle hlt child hchild)
  · intro key hnot child hget
    rw [hkeys key hnot] at hget
    exact hstay child (hclosed.getKey_lt h.lt hget) (h.keys_below key (hkey key hnot) child hget)
  · exact h.old

/-- Nothing that the first walk does later touches a copy. -/
theorem prepared (h : FreshPage base mid heap slots except n p q) (hclosed : heap.Closed)
    (hold : ∀ x ∈ slots', x < base.size) (hprepared : Prepared heap heap' slots' arrays) :
    FreshPage base mid heap' slots except n p q := by
  have hslot : ∀ x, base.size ≤ x → x < heap.size → heap'.slot x = heap.slot x := by
    intro x hle hlt
    apply hprepared.slot_eq x hlt
    exact fun hmem => absurd (hold x hmem) (Nat.not_lt.mpr hle)
  apply h.later hclosed hprepared.frame.size_le
  · intro x hle hlt _
    exact ⟨Heap.value_eq_of_slot_eq (hslot x hle hlt), Heap.identity_eq_of_slot_eq (hslot x hle hlt)⟩
  · exact fun x hlt hyes => hprepared.frame.isIndirect_of hlt hyes
  · rw [hprepared.objectRef_eq h.lt h.named]
    exact h.named
  · exact fun _ hx => hx
  · exact fun key _ => Heap.getKey_congr (Heap.value_eq_of_slot_eq (hslot q h.new h.lt))

/-- The copy of a page that has been made indirect. -/
theorem of_copy (hprepared : Prepared base mid slots arrays) (hp : p < base.size)
    (hdictionary : mid.isDictionary p = true) (hcopy : Heap.CopyRun mid heap (n + 1) p q) :
    FreshPage base mid (heap.makeIndirect q) slots {ascii "/Type"} n p q := by
  obtain ⟨entries, hentries⟩ := Heap.isDictionary_iff.mp hdictionary
  have hcopied := hcopy.copied
  rw [Heap.CopyOf, hentries] at hcopied
  obtain ⟨entries', hentries', hrel⟩ := hcopied
  have hlt : q < heap.size := by
    rw [hcopy.last]
    exact Nat.lt_succ_self q
  have hidentity : ∀ x, x < q → (heap.makeIndirect q).identity x = heap.identity x := by
    intro x hx
    rw [Heap.identity_makeIndirect, if_neg (Nat.ne_of_lt hx)]
  have hdirect : ∀ x, mid.size ≤ x → x < q → (heap.makeIndirect q).isIndirect x = false := by
    intro x hle hx
    rw [Heap.isIndirect, hidentity x hx, hcopy.adds.direct x hle (hx.trans hlt)]
    rfl
  have hchildren : ∀ x, mid.size ≤ x → x ≤ q → ∀ child ∈ (heap.value x).children,
      (heap.makeIndirect q).isIndirect child = true ∨ mid.size ≤ child ∧ child < q := by
    intro x hle hx child hchild
    have hbelow := hcopy.below x hx child hchild
    rw [Heap.isIndirect, hidentity child hbelow]
    have hx_lt : x < heap.size := by
      rw [hcopy.last]
      exact Nat.lt_succ_of_le hx
    exact (hcopy.adds.children x hle hx_lt child hchild).imp id fun hnew => ⟨hnew, hbelow⟩
  constructor
  · constructor
    · exact hprepared.slot_eq
    · exact hprepared.frame.size_le.trans hcopy.new
    · intro key hkey
      have hsource : base.getKey p key = entries[key]? := by
        rw [← hprepared.frame.getKey_eq p hp key fun h => hkey h, Heap.getKey, hentries]
      have hcopy_key : (heap.makeIndirect q).getKey q key = entries'[key]? := by
        rw [Heap.getKey_makeIndirect, Heap.getKey, hentries']
      rw [hsource, hcopy_key]
      refine Heap.rel_option_mono ?_ (hrel key)
      intro x y _ hy hxy
      rw [Heap.CopiedChild] at hxy ⊢
      split
      · rename_i hmid
        rwa [if_pos hmid] at hxy
      · rename_i hmid
        rw [if_neg hmid] at hxy
        have hmem : y ∈ (heap.value q).children := by
          rw [hentries']
          exact Heap.mem_children_of_getElem? hy
        have hbelow := hcopy.below q (Nat.le_refl q) y hmem
        have hnew : mid.size ≤ y := by
          rcases hcopy.adds.children q hcopy.new hlt y hmem with hyes | hnew
          · rw [hxy.1] at hyes
            cases hyes
          · exact hnew
        refine ⟨hdirect y hnew hbelow, ?_⟩
        apply hxy.2.congr (fun x => mid.size ≤ x ∧ x < q) _ _ _ _ _ ⟨hnew, hbelow⟩
        · exact fun x _ => Heap.value_makeIndirect
        · intro x hx child hchild hchild_direct
          have hchild_lt := hcopy.below x (Nat.le_of_lt hx.2) child hchild
          rcases hcopy.adds.children x hx.1 (hx.2.trans hlt) child hchild with hyes | hread
          · rw [hchild_direct] at hyes
            cases hyes
          · exact ⟨⟨hread, hchild_lt⟩, hdirect child hread hchild_lt⟩
  · exact hcopy.new
  · exact hlt
  · exact Heap.objectRef_makeIndirect
  · exact hdirect
  · intro x hle hx child hchild
    rw [Heap.value_makeIndirect] at hchild
    exact hchildren x hle (Nat.le_of_lt hx) child hchild
  · intro key _ child hget
    rw [Heap.getKey_makeIndirect] at hget
    apply hchildren q hcopy.new (Nat.le_refl q)
    rw [Heap.getKey, hentries'] at hget
    rw [hentries']
    exact Heap.mem_children_of_getElem? hget
  · exact hprepared.frame.size_le

end FreshPage

namespace Heap

theorem CopyOf.isNull_eq (h : CopyOf heap heap' n p q) : heap'.isNull q = heap.isNull p := by
  cases n with
  | zero => exact h.elim
  | succ n =>
    rw [CopyOf] at h
    rw [isNull, isNull]
    cases hvalue : heap.value p with
    | array items =>
      rw [hvalue] at h
      obtain ⟨items', hitems', -⟩ := h
      rw [hitems']
    | dictionary entries =>
      rw [hvalue] at h
      obtain ⟨entries', hentries', -⟩ := h
      rw [hentries']
    | stream streamDict =>
      rw [hvalue] at h
      exact h.elim
    | _ =>
      rw [hvalue] at h
      rw [h]

/-- The copy of a dictionary has the same keys. -/
theorem CopyRun.hasKey_eq (hclosed : heap.Closed) (hp : p < heap.size)
    (hdictionary : heap.isDictionary p = true) (h : CopyRun heap heap' n p q) (key : Bytes) :
    heap'.isDictionary q = true ∧ heap'.hasKey q key = heap.hasKey p key := by
  obtain ⟨entries, hentries⟩ := isDictionary_iff.mp hdictionary
  have hcopied := h.copied
  cases n with
  | zero => exact hcopied.elim
  | succ n =>
    rw [CopyOf, hentries] at hcopied
    obtain ⟨entries', hentries', hrel⟩ := hcopied
    refine ⟨isDictionary_iff.mpr ⟨entries', hentries'⟩, ?_⟩
    have hget : heap.getKey p key = entries[key]? := by
      rw [getKey, hentries]
    have hget' : heap'.getKey q key = entries'[key]? := by
      rw [getKey, hentries']
    have hkey := hrel key
    rw [← hget, ← hget'] at hkey
    rw [hasKey, hasKey, visible, visible]
    cases hx : heap.getKey p key with
    | none =>
      cases hy : heap'.getKey q key with
      | none => rfl
      | some y =>
        rw [hx, hy] at hkey
        cases hkey
    | some x =>
      cases hy : heap'.getKey q key with
      | none =>
        rw [hx, hy] at hkey
        cases hkey
      | some y =>
        rw [hx, hy, Option.rel_some_some] at hkey
        have hnull : heap'.isNull y = heap.isNull x := by
          rw [CopiedChild] at hkey
          split at hkey
          · rw [hkey]
            exact isNull_congr (h.adds.extends_.value_eq (hclosed.getKey_lt hp hx))
          · exact hkey.2.isNull_eq
        rw [Option.filter_some, Option.filter_some, hnull]
        split <;> rfl

end Heap

/-! ## Sequences without repetitions -/

/-- A page stays unless it is already taken; then it has been replaced by a copy. -/
def Deduped (copy : Handle → Handle → Prop) : Set Handle → List Handle → List Handle → Prop
  | _, [], [] => True
  | taken, p :: ps, q :: qs =>
    (p ∉ taken ∧ q = p ∨ p ∈ taken ∧ copy p q) ∧ Deduped copy (insert p taken) ps qs
  | _, _, _ => False

namespace Deduped

variable {copy copy' : Handle → Handle → Prop}

theorem mono : ∀ (ps qs : List Handle) {taken : Set Handle},
    (∀ p q, q ∈ qs → copy p q → copy' p q) → Deduped copy taken ps qs →
      Deduped copy' taken ps qs
  | [], [], _, _, h => h
  | p :: ps, q :: qs, taken, hcopy, h => by
    rw [Deduped] at h ⊢
    refine ⟨h.1.imp id ?_, mono ps qs (fun a b hb => hcopy a b (List.mem_cons_of_mem _ hb)) h.2⟩
    exact fun hboth => ⟨hboth.1, hcopy p q List.mem_cons_self hboth.2⟩
  | [], _ :: _, _, _, h => h.elim
  | _ :: _, [], _, _, h => h.elim

theorem append : ∀ (ps qs : List Handle) {taken : Set Handle} {more more' : List Handle},
    Deduped copy taken ps qs → Deduped copy (taken ∪ {p | p ∈ ps}) more more' →
      Deduped copy taken (ps ++ more) (qs ++ more')
  | [], [], taken, more, more', _, h => by
    have hsame : taken ∪ {p | p ∈ ([] : List Handle)} = taken := by
      ext p
      simp
    rwa [hsame] at h
  | p :: ps, q :: qs, taken, more, more', h, h' => by
    rw [Deduped] at h
    rw [List.cons_append, List.cons_append, Deduped]
    refine ⟨h.1, append ps qs h.2 ?_⟩
    have hsame : taken ∪ {a | a ∈ p :: ps} = insert p taken ∪ {a | a ∈ ps} := by
      ext a
      simp only [Set.mem_union, Set.mem_ofPred_eq, List.mem_cons, Set.mem_insert_iff]
      tauto
    rwa [hsame] at h'
  | [], _ :: _, _, _, _, h, _ => h.elim
  | _ :: _, [], _, _, _, h, _ => h.elim

theorem congr_taken {ps : List Handle} : ∀ {qs : List Handle} {taken taken' : Set Handle},
    (∀ p ∈ ps, p ∈ taken ↔ p ∈ taken') → Deduped copy taken ps qs →
      Deduped copy taken' ps qs := by
  induction ps with
  | nil =>
    intro qs taken taken' _ h
    cases qs with
    | nil => exact h
    | cons q qs => exact h.elim
  | cons p ps ih =>
    intro qs taken taken' hsame h
    cases qs with
    | nil => exact h.elim
    | cons q qs =>
      rw [Deduped] at h ⊢
      rw [← hsame p List.mem_cons_self]
      refine ⟨h.1, ih ?_ h.2⟩
      intro a ha
      rw [Set.mem_insert_iff, Set.mem_insert_iff, hsame a (List.mem_cons_of_mem _ ha)]

end Deduped

/-! ## Trees that differ in their pages -/

namespace PageTree

mutual

/-- The same nodes with as many pages in the same places. -/
def SameNodes : PageTree → PageTree → Prop
  | page _, page _ => True
  | pages node kids, pages node' kids' => node = node' ∧ SameNodesAll kids kids'
  | _, _ => False

def SameNodesAll : List PageTree → List PageTree → Prop
  | [], [] => True
  | tree :: trees, tree' :: trees' => SameNodes tree tree' ∧ SameNodesAll trees trees'
  | _, _ => False

end

mutual

theorem SameNodes.nodes_eq : ∀ tree tree' : PageTree, SameNodes tree tree' →
    tree'.nodes = tree.nodes ∧ tree'.leaves.length = tree.leaves.length ∧
      tree'.height = tree.height
  | .page p, .page q, _ => ⟨rfl, rfl, rfl⟩
  | .pages node kids, .pages node' kids', h => by
    rw [SameNodes] at h
    obtain ⟨hnodes, hleaves, hheight⟩ := SameNodesAll.nodes_eq kids kids' h.2
    rw [nodes, nodes, leaves, leaves, height, height, hnodes, hleaves, hheight, h.1]
    exact ⟨rfl, rfl, rfl⟩
  | .page _, .pages _ _, h => h.elim
  | .pages _ _, .page _, h => h.elim

theorem SameNodesAll.nodes_eq : ∀ trees trees' : List PageTree, SameNodesAll trees trees' →
    nodesAll trees' = nodesAll trees ∧ (leavesAll trees').length = (leavesAll trees).length ∧
      heightAll trees' = heightAll trees
  | [], [], _ => ⟨rfl, rfl, rfl⟩
  | tree :: trees, tree' :: trees', h => by
    rw [SameNodesAll] at h
    obtain ⟨hnodes, hleaves, hheight⟩ := SameNodes.nodes_eq tree tree' h.1
    obtain ⟨hnodes', hleaves', hheight'⟩ := SameNodesAll.nodes_eq trees trees' h.2
    simp only [nodesAll, leavesAll, heightAll, List.length_append, hnodes, hleaves, hheight, hnodes',
      hleaves', hheight', and_self]
  | [], _ :: _, h => h.elim
  | _ :: _, [], h => h.elim

end

end PageTree

end Flpdf
