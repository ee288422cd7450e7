import Flpdf.Handles.Heap
import Mathlib.Data.List.Forall2

/-!
# New objects and shallow copies

A new object takes the next slot. A shallow copy is a new direct object with the
same indirect children and with copies of the direct ones.
-/

namespace Flpdf

open Std

/-- How a call on the object graph fails. The last one is the model's own. -/
inductive Failure where
  | unsupported (message : String)
  | missing (message : String)
  | internal (message : String)
  | system (message : String)
  | loopDetected
  | outOfFuel
deriving DecidableEq

/-- A value, or a failure; what was changed before a failure stays changed. -/
inductive Outcome (σ α : Type) where
  | ok (value : α) (state : σ)
  | failed (failure : Failure) (state : σ)

namespace Outcome

variable {σ α β : Type}

def andThen (outcome : Outcome σ α) (next : α → σ → Outcome σ β) : Outcome σ β :=
  match outcome with
  | ok value state => next value state
  | failed failure state => failed failure state

/-- The state after a success. -/
def okState : Outcome σ α → Option σ
  | ok _ state => some state
  | failed _ _ => none

@[simp] theorem andThen_ok (value : α) (state : σ) (next : α → σ → Outcome σ β) :
    (ok value state).andThen next = next value state := rfl

theorem andThen_assoc {γ : Type} (outcome : Outcome σ α) (next : α → σ → Outcome σ β)
    (last : β → σ → Outcome σ γ) : (outcome.andThen next).andThen last =
      outcome.andThen fun value state => (next value state).andThen last := by
  cases outcome <;> rfl

end Outcome

namespace SlotValue

/-- The handles in a container. -/
def children : SlotValue → List Handle
  | array items => items
  | dictionary entries => entries.toList.map Prod.snd
  | stream streamDict => [streamDict]
  | _ => []

end SlotValue

namespace Heap

/-- A new direct object. -/
def alloc (heap : Heap) (value : SlotValue) : Handle × Heap :=
  (heap.size, { heap with
    slot := Function.update heap.slot heap.size ⟨none, value⟩
    size := heap.size + 1 })

def copyChild (copy : Handle → Heap → Outcome Heap Handle) (child : Handle) (heap : Heap) :
    Outcome Heap Handle :=
  if heap.isIndirect child then .ok child heap else copy child heap

def copyItems (copy : Handle → Heap → Outcome Heap Handle) :
    List Handle → Heap → Outcome Heap (List Handle)
  | [], heap => .ok [] heap
  | item :: items, heap =>
    (copyChild copy item heap).andThen fun item heap =>
      (copyItems copy items heap).andThen fun items heap => .ok (item :: items) heap

def copyEntries (copy : Handle → Heap → Outcome Heap Handle) :
    List (Bytes × Handle) → Heap → Outcome Heap (ExtTreeMap Bytes Handle)
  | [], heap => .ok ∅ heap
  | (key, value) :: entries, heap =>
    (copyChild copy value heap).andThen fun value heap =>
      (copyEntries copy entries heap).andThen fun entries heap =>
        .ok (entries.insert key value) heap

/-- `shallow_copy`; the fuel bounds the nesting of direct containers. -/
def shallowCopy : ℕ → Handle → Heap → Outcome Heap Handle
  | 0, _, heap => .failed .outOfFuel heap
  | fuel + 1, a, heap =>
    match heap.value a with
    | .array items =>
      (copyItems (shallowCopy fuel) items heap).andThen fun items heap =>
        .ok (heap.alloc (.array items)).1 (heap.alloc (.array items)).2
    | .dictionary entries =>
      (copyEntries (shallowCopy fuel) entries.toList heap).andThen fun entries heap =>
        .ok (heap.alloc (.dictionary entries)).1 (heap.alloc (.dictionary entries)).2
    | .stream _ => .failed (.system "stream objects cannot be cloned") heap
    | value => .ok (heap.alloc value).1 (heap.alloc value).2

/-! ## What a copy is -/

variable {heap heap' heap'' : Heap} {a b c : Handle} {n : ℕ}

/-- Every handle that is used has a slot. -/
def Closed (heap : Heap) : Prop :=
  ∀ a, a < heap.size → ∀ child ∈ (heap.value a).children, child < heap.size

/-- No slot of the first heap has changed. -/
structure Extends (heap heap' : Heap) : Prop where
  size_le : heap.size ≤ heap'.size
  slot_eq : ∀ a, a < heap.size → heap'.slot a = heap.slot a

/-- No direct stream stands in or below, and the direct containers nest at most this deep. -/
def Copyable (heap : Heap) : ℕ → Handle → Prop
  | 0, _ => False
  | n + 1, a =>
    match heap.value a with
    | .stream _ => False
    | value => ∀ child ∈ value.children, heap.isIndirect child = false → heap.Copyable n child

/-- An indirect child is shared, a direct one is copied. -/
def CopiedChild (copied : Handle → Handle → Prop) (heap heap' : Heap) (x y : Handle) : Prop :=
  if heap.isIndirect x then y = x else heap'.isIndirect y = false ∧ copied x y

/-- The second handle is a copy of the first: the same value with the same indirect children,
and with copies of the direct ones. -/
def CopyOf (heap heap' : Heap) : ℕ → Handle → Handle → Prop
  | 0, _, _ => False
  | n + 1, a, b =>
    match heap.value a with
    | .array items => ∃ items', heap'.value b = .array items' ∧
        List.Forall₂ (CopiedChild (CopyOf heap heap' n) heap heap') items items'
    | .dictionary entries => ∃ entries' : ExtTreeMap Bytes Handle,
        heap'.value b = .dictionary entries' ∧
        ∀ key : Bytes, Option.Rel (CopiedChild (CopyOf heap heap' n) heap heap')
          entries[key]? entries'[key]?
    | .stream _ => False
    | value => heap'.value b = value

@[simp] theorem slot_alloc {value : SlotValue} :
    (heap.alloc value).2.slot a = if a = heap.size then ⟨none, value⟩ else heap.slot a := by
  by_cases h : a = heap.size
  · subst h
    simp [alloc]
  · simp [alloc, h]

theorem Extends.refl (heap : Heap) : Extends heap heap := ⟨Nat.le_refl _, fun _ _ => rfl⟩

theorem Extends.trans (h : Extends heap heap') (h' : Extends heap' heap'') :
    Extends heap heap'' where
  size_le := h.size_le.trans h'.size_le
  slot_eq a ha := (h'.slot_eq a (Nat.lt_of_lt_of_le ha h.size_le)).trans (h.slot_eq a ha)

theorem extends_alloc (value : SlotValue) : Extends heap (heap.alloc value).2 where
  size_le := Nat.le_succ _
  slot_eq a ha := by
    rw [slot_alloc, if_neg (Nat.ne_of_lt ha)]

theorem Extends.value_eq (h : Extends heap heap') (ha : a < heap.size) :
    heap'.value a = heap.value a := by
  rw [value, value, h.slot_eq a ha]

theorem Extends.identity_eq (h : Extends heap heap') (ha : a < heap.size) :
    heap'.identity a = heap.identity a := by
  rw [identity, identity, h.slot_eq a ha]

theorem Extends.isIndirect_eq (h : Extends heap heap') (ha : a < heap.size) :
    heap'.isIndirect a = heap.isIndirect a := by
  rw [isIndirect, isIndirect, h.identity_eq ha]

theorem mem_children_of_getElem? {entries : ExtTreeMap Bytes Handle} {key : Bytes}
    (h : entries[key]? = some c) : c ∈ (SlotValue.dictionary entries).children :=
  List.mem_map.mpr ⟨(key, c), ExtTreeMap.mem_toList_iff_getElem?_eq_some.mpr h, rfl⟩

theorem rel_items_mono {α β : Type} {r r' : α → β → Prop} {xs : List α} {ys : List β}
    (h : ∀ x y, y ∈ ys → r x y → r' x y) (hrel : List.Forall₂ r xs ys) :
    List.Forall₂ r' xs ys := by
  induction hrel with
  | nil => exact .nil
  | cons hxy _ ih =>
    apply List.Forall₂.cons
    · exact h _ _ List.mem_cons_self hxy
    · exact ih fun x y hy => h x y (List.mem_cons_of_mem _ hy)

theorem rel_items_mem {α β : Type} {r : α → β → Prop} {xs : List α} {ys : List β} {y : β}
    (hrel : List.Forall₂ r xs ys) (hy : y ∈ ys) : ∃ x, r x y := by
  induction hrel with
  | nil => cases hy
  | cons hxy _ ih =>
    rcases List.mem_cons.mp hy with rfl | hy
    · exact ⟨_, hxy⟩
    · exact ih hy

theorem rel_option_mono {α β : Type} {r r' : α → β → Prop} {x : Option α} {y : Option β}
    (h : ∀ a b, x = some a → y = some b → r a b → r' a b) (hrel : Option.Rel r x y) :
    Option.Rel r' x y := by
  cases hrel with
  | some hab => exact .some (h _ _ rfl rfl hab)
  | none => exact .none

/-- A copy stays one while the slots that it reads stay. -/
theorem CopyOf.congr {heap' : Heap} (read : Handle → Prop)
    (hvalue : ∀ x, read x → heap''.value x = heap'.value x)
    (hchildren : ∀ x, read x → ∀ child ∈ (heap'.value x).children, heap'.isIndirect child = false →
      read child ∧ heap''.isIndirect child = false) :
    ∀ n a b, read b → CopyOf heap heap' n a b → CopyOf heap heap'' n a b := by
  intro n
  induction n with
  | zero =>
    intro a b _ h
    rw [CopyOf] at h
    exact h.elim
  | succ n ih =>
    intro a b hb h
    have hchild : ∀ x y, y ∈ (heap'.value b).children →
        CopiedChild (CopyOf heap heap' n) heap heap' x y →
        CopiedChild (CopyOf heap heap'' n) heap heap'' x y := by
      intro x y hy hcopied
      rw [CopiedChild] at hcopied ⊢
      split
      · rename_i hindirect
        rwa [if_pos hindirect] at hcopied
      · rename_i hindirect
        rw [if_neg hindirect] at hcopied
        obtain ⟨hread, hdirect⟩ := hchildren b hb y hy hcopied.1
        exact ⟨hdirect, ih x y hread hcopied.2⟩
    rw [CopyOf] at h ⊢
    rw [hvalue b hb]
    cases hvalue_a : heap.value a with
    | array items =>
      rw [hvalue_a] at h
      obtain ⟨items', hitems', hrel⟩ := h
      refine ⟨items', hitems', ?_⟩
      rw [hitems'] at hchild
      exact rel_items_mono hchild hrel
    | dictionary entries =>
      rw [hvalue_a] at h
      obtain ⟨entries', hentries', hrel⟩ := h
      refine ⟨entries', hentries', ?_⟩
      intro key
      rw [hentries'] at hchild
      exact rel_option_mono
        (fun x y _ hy hxy => hchild x y (mem_children_of_getElem? hy) hxy) (hrel key)
    | stream streamDict =>
      rw [hvalue_a] at h
      exact h
    | _ =>
      rw [hvalue_a] at h
      exact h

/-- Nor does it matter what becomes of the first heap outside of what was copied. -/
theorem CopyOf.congr_left {source : Heap} (hclosed : source.Closed)
    (hextends : Extends source heap) :
    ∀ n a b, a < source.size → CopyOf heap heap' n a b → CopyOf source heap' n a b := by
  intro n
  induction n with
  | zero =>
    intro a b _ h
    rw [CopyOf] at h
    exact h.elim
  | succ n ih =>
    intro a b ha h
    have hchild : ∀ x y, x ∈ (source.value a).children →
        CopiedChild (CopyOf heap heap' n) heap heap' x y →
        CopiedChild (CopyOf source heap' n) source heap' x y := by
      intro x y hx hcopied
      have hsize := hclosed a ha x hx
      rw [CopiedChild, hextends.isIndirect_eq hsize] at hcopied
      rw [CopiedChild]
      split
      · rename_i hindirect
        rwa [if_pos hindirect] at hcopied
      · rename_i hindirect
        rw [if_neg hindirect] at hcopied
        exact ⟨hcopied.1, ih x y hsize hcopied.2⟩
    rw [CopyOf, hextends.value_eq ha] at h
    rw [CopyOf]
    cases hvalue : source.value a with
    | array items =>
      rw [hvalue] at h hchild
      obtain ⟨items', hitems', hrel⟩ := h
      exact ⟨items', hitems', (rel_items_mono (fun y x hx hxy => hchild x y hx hxy) hrel.flip).flip⟩
    | dictionary entries =>
      rw [hvalue] at h hchild
      obtain ⟨entries', hentries', hrel⟩ := h
      refine ⟨entries', hentries', ?_⟩
      intro key
      exact rel_option_mono
        (fun x y hx _ hxy => hchild x y (mem_children_of_getElem? hx) hxy) (hrel key)
    | _ =>
      rw [hvalue] at h
      exact h

/-! ## The copy that is made -/

/-- What copying adds: closed direct slots, whose children are indirect or new as well. -/
structure Adds (heap heap' : Heap) : Prop where
  extends_ : Extends heap heap'
  closed : heap'.Closed
  direct : ∀ a, heap.size ≤ a → a < heap'.size → heap'.identity a = none
  children : ∀ a, heap.size ≤ a → a < heap'.size → ∀ child ∈ (heap'.value a).children,
    heap'.isIndirect child = true ∨ heap.size ≤ child

theorem Adds.refl (hclosed : heap.Closed) : Adds heap heap where
  extends_ := .refl heap
  closed := hclosed
  direct _ hle hlt := absurd hlt (Nat.not_lt.mpr hle)
  children _ hle hlt := absurd hlt (Nat.not_lt.mpr hle)

theorem Adds.trans (h : Adds heap heap') (h' : Adds heap' heap'') : Adds heap heap'' where
  extends_ := h.extends_.trans h'.extends_
  closed := h'.closed
  direct a hle hlt := by
    by_cases ha : a < heap'.size
    · rw [h'.extends_.identity_eq ha]
      exact h.direct a hle ha
    · exact h'.direct a (Nat.not_lt.mp ha) hlt
  children a hle hlt child hchild := by
    by_cases ha : a < heap'.size
    · rw [h'.extends_.value_eq ha] at hchild
      rw [h'.extends_.isIndirect_eq (h.closed a ha child hchild)]
      exact h.children a hle ha child hchild
    · rcases h'.children a (Nat.not_lt.mp ha) hlt child hchild with hindirect | hnew
      · exact .inl hindirect
      · exact .inr (h.extends_.size_le.trans hnew)

theorem Adds.alloc {value : SlotValue} (h : Adds heap heap')
    (hchildren : ∀ child ∈ value.children, child < heap'.size ∧
      (heap'.isIndirect child = true ∨ heap.size ≤ child)) :
    Adds heap (heap'.alloc value).2 := by
  have hextends : Extends heap' (heap'.alloc value).2 := extends_alloc value
  have hnew : ∀ a, a < (heap'.alloc value).2.size → a < heap'.size ∨ a = heap'.size := by
    intro a ha
    exact Nat.lt_succ_iff_lt_or_eq.mp ha
  have hvalue : (heap'.alloc value).2.value heap'.size = value := by
    rw [Heap.value, slot_alloc, if_pos rfl]
  constructor
  · exact h.extends_.trans hextends
  · intro a ha child hchild
    apply Nat.lt_succ_of_lt
    rcases hnew a ha with hold | rfl
    · rw [hextends.value_eq hold] at hchild
      exact h.closed a hold child hchild
    · rw [hvalue] at hchild
      exact (hchildren child hchild).1
  · intro a hle ha
    rcases hnew a ha with hold | rfl
    · rw [hextends.identity_eq hold]
      exact h.direct a hle hold
    · rw [identity, slot_alloc, if_pos rfl]
      rfl
  · intro a hle ha child hchild
    rcases hnew a ha with hold | rfl
    · rw [hextends.value_eq hold] at hchild
      rw [hextends.isIndirect_eq (h.closed a hold child hchild)]
      exact h.children a hle hold child hchild
    · rw [hvalue] at hchild
      obtain ⟨hsize, hchild⟩ := hchildren child hchild
      rw [hextends.isIndirect_eq hsize]
      exact hchild

/-- A copy outlives further additions. -/
theorem CopyOf.extends_ {source : Heap} (hadds : Adds source heap) (hextends : Extends heap heap')
    (hle : source.size ≤ b) (hlt : b < heap.size) (h : CopyOf source heap n a b) :
    CopyOf source heap' n a b := by
  apply h.congr (fun x => source.size ≤ x ∧ x < heap.size) _ _ _ _ _ ⟨hle, hlt⟩
  · intro x hx
    exact hextends.value_eq hx.2
  · intro x hx child hchild hdirect
    have hsize := hadds.closed x hx.2 child hchild
    rcases hadds.children x hx.1 hx.2 child hchild with hindirect | hnew
    · rw [hdirect] at hindirect
      cases hindirect
    · exact ⟨⟨hnew, hsize⟩, (hextends.isIndirect_eq hsize).trans hdirect⟩

theorem CopiedChild.extends_ {source : Heap} (hadds : Adds source heap)
    (hextends : Extends heap heap')
    (hb : b < heap.size ∧ (heap.isIndirect b = true ∨ source.size ≤ b))
    (h : CopiedChild (CopyOf source heap n) source heap a b) :
    CopiedChild (CopyOf source heap' n) source heap' a b := by
  rw [CopiedChild] at h ⊢
  split
  · rename_i hindirect
    rwa [if_pos hindirect] at h
  · rename_i hindirect
    rw [if_neg hindirect] at h
    refine ⟨(hextends.isIndirect_eq hb.1).trans h.1, ?_⟩
    rcases hb.2 with hindirect | hnew
    · rw [h.1] at hindirect
      cases hindirect
    · exact h.2.extends_ hadds hextends hnew hb.1

theorem Copyable.extends_ {source : Heap} (hclosed : source.Closed)
    (hextends : Extends source heap) :
    ∀ n a, a < source.size → source.Copyable n a → heap.Copyable n a := by
  intro n
  induction n with
  | zero =>
    intro a _ h
    exact h
  | succ n ih =>
    intro a ha h
    have hchild : ∀ child ∈ (source.value a).children, heap.isIndirect child = false →
        (source.isIndirect child = false → source.Copyable n child) → heap.Copyable n child := by
      intro child hmem hdirect hcopyable
      have hsize := hclosed a ha child hmem
      rw [hextends.isIndirect_eq hsize] at hdirect
      exact ih child hsize (hcopyable hdirect)
    rw [Copyable] at h ⊢
    rw [hextends.value_eq ha]
    cases hvalue : source.value a with
    | stream streamDict =>
      rw [hvalue] at h
      exact h
    | _ =>
      rw [hvalue] at h hchild
      exact fun child hmem hdirect => hchild child hmem hdirect (h child hmem)

/-- What a run of a copying function does; the copy itself comes last. -/
structure CopyRun (heap heap' : Heap) (n : ℕ) (a b : Handle) : Prop where
  adds : Adds heap heap'
  new : heap.size ≤ b
  last : heap'.size = b + 1
  below : ∀ x, x ≤ b → ∀ child ∈ (heap'.value x).children, child < b
  copied : CopyOf heap heap' n a b

/-- What is asked of a copying function. -/
def Copies (n : ℕ) (copy : Handle → Heap → Outcome Heap Handle) : Prop :=
  ∀ a heap, heap.Closed → a < heap.size → heap.Copyable n a →
    ∃ b heap', copy a heap = .ok b heap' ∧ CopyRun heap heap' n a b

/-- A child with its copy in a heap that extends the source. -/
structure ChildCopy (source heap : Heap) (n : ℕ) (x y : Handle) : Prop where
  copied : CopiedChild (CopyOf source heap n) source heap x y
  size_lt : y < heap.size
  indirect_or_new : heap.isIndirect y = true ∨ source.size ≤ y

variable {source : Heap} {copy : Handle → Heap → Outcome Heap Handle}

theorem ChildCopy.extends_ {x y : Handle} (h : ChildCopy source heap n x y)
    (hadds : Adds source heap) (hextends : Extends heap heap') : ChildCopy source heap' n x y where
  copied := h.copied.extends_ hadds hextends ⟨h.size_lt, h.indirect_or_new⟩
  size_lt := Nat.lt_of_lt_of_le h.size_lt hextends.size_le
  indirect_or_new := by
    rw [hextends.isIndirect_eq h.size_lt]
    exact h.indirect_or_new

theorem copyChild_spec (hcopy : Copies n copy) (hsource : source.Closed) (hadds : Adds source heap)
    {x : Handle} (hx : x < source.size)
    (hcopyable : source.isIndirect x = false → source.Copyable n x) :
    ∃ y heap', copyChild copy x heap = .ok y heap' ∧ Adds heap heap' ∧
      ChildCopy source heap' n x y := by
  rw [copyChild]
  have hx' := Nat.lt_of_lt_of_le hx hadds.extends_.size_le
  cases hindirect : source.isIndirect x with
  | true =>
    have hindirect' := (hadds.extends_.isIndirect_eq hx).trans hindirect
    rw [if_pos hindirect']
    refine ⟨x, heap, rfl, .refl hadds.closed, ⟨?_, hx', .inl hindirect'⟩⟩
    rw [CopiedChild, if_pos hindirect]
  | false =>
    have hdirect := (hadds.extends_.isIndirect_eq hx).trans hindirect
    rw [if_neg (Bool.not_eq_true _ ▸ hdirect)]
    obtain ⟨y, heap', hrun, hcopied⟩ := hcopy x heap hadds.closed hx'
      ((hcopyable hindirect).extends_ hsource hadds.extends_ n x hx)
    have hlt : y < heap'.size := by
      rw [hcopied.last]
      exact Nat.lt_succ_self y
    refine ⟨y, heap', hrun, hcopied.adds, ?_, hlt, .inr (hadds.extends_.size_le.trans hcopied.new)⟩
    rw [CopiedChild, if_neg (Bool.not_eq_true _ ▸ hindirect)]
    refine ⟨?_, hcopied.copied.congr_left hsource hadds.extends_ n x y hx⟩
    rw [isIndirect, hcopied.adds.direct y hcopied.new hlt]
    rfl

theorem copyItems_spec (hcopy : Copies n copy) (hsource : source.Closed) (items : List Handle)
    (hitems : ∀ x ∈ items, x < source.size ∧
      (source.isIndirect x = false → source.Copyable n x)) :
    ∀ heap, Adds source heap → ∃ items' heap', copyItems copy items heap = .ok items' heap' ∧
      Adds heap heap' ∧ List.Forall₂ (ChildCopy source heap' n) items items' := by
  induction items with
  | nil => exact fun heap hadds => ⟨[], heap, rfl, .refl hadds.closed, .nil⟩
  | cons item items ih =>
    intro heap hadds
    obtain ⟨hsize, hcopyable⟩ := hitems item List.mem_cons_self
    obtain ⟨y, heap₁, hrun, hadds₁, hchild⟩ := copyChild_spec hcopy hsource hadds hsize hcopyable
    obtain ⟨items', heap₂, hrun', hadds₂, hrest⟩ :=
      ih (fun x hx => hitems x (List.mem_cons_of_mem _ hx)) heap₁ (hadds.trans hadds₁)
    refine ⟨y :: items', heap₂, ?_, hadds₁.trans hadds₂, ?_⟩
    · rw [copyItems, hrun, Outcome.andThen_ok, hrun', Outcome.andThen_ok]
    · exact .cons (hchild.extends_ (hadds.trans hadds₁) hadds₂.extends_) hrest

/-- The copied entries under the same keys. -/
structure EntriesCopy (source heap : Heap) (n : ℕ) (entries : List (Bytes × Handle))
    (entries' : ExtTreeMap Bytes Handle) : Prop where
  present : ∀ key x, (key, x) ∈ entries → ∃ y, entries'[key]? = some y ∧ ChildCopy source heap n x y
  only : ∀ key y, entries'[key]? = some y → ∃ x, (key, x) ∈ entries ∧ ChildCopy source heap n x y

theorem copyEntries_spec (hcopy : Copies n copy) (hsource : source.Closed)
    (entries : List (Bytes × Handle))
    (hentries : ∀ entry ∈ entries, entry.2 < source.size ∧
      (source.isIndirect entry.2 = false → source.Copyable n entry.2))
    (hdistinct : entries.Pairwise fun e e' => e.1 ≠ e'.1) :
    ∀ heap, Adds source heap → ∃ entries' heap',
      copyEntries copy entries heap = .ok entries' heap' ∧ Adds heap heap' ∧
        EntriesCopy source heap' n entries entries' := by
  induction entries with
  | nil =>
    intro heap hadds
    refine ⟨∅, heap, rfl, .refl hadds.closed, ?_, ?_⟩
    · exact fun key x h => absurd h List.not_mem_nil
    · intro key y h
      rw [ExtTreeMap.getElem?_empty] at h
      cases h
  | cons entry entries ih =>
    intro heap hadds
    obtain ⟨key, x⟩ := entry
    obtain ⟨hfirst, hrest⟩ := List.pairwise_cons.mp hdistinct
    obtain ⟨hsize, hcopyable⟩ := hentries (key, x) List.mem_cons_self
    obtain ⟨y, heap₁, hrun, hadds₁, hchild⟩ := copyChild_spec hcopy hsource hadds hsize hcopyable
    obtain ⟨entries', heap₂, hrun', hadds₂, hcopied⟩ :=
      ih (fun e he => hentries e (List.mem_cons_of_mem _ he)) hrest heap₁ (hadds.trans hadds₁)
    have hchild' := hchild.extends_ (hadds.trans hadds₁) hadds₂.extends_
    refine ⟨entries'.insert key y, heap₂, ?_, hadds₁.trans hadds₂, ?_, ?_⟩
    · rw [copyEntries, hrun, Outcome.andThen_ok, hrun', Outcome.andThen_ok]
    · intro other z hz
      rw [ExtTreeMap.getElem?_insert]
      simp only [LawfulEqCmp.compare_eq_iff_eq]
      rcases List.mem_cons.mp hz with hz | hz
      · cases hz
        exact ⟨y, if_pos rfl, hchild'⟩
      · obtain ⟨w, hget, hcopy⟩ := hcopied.present other z hz
        exact ⟨w, (if_neg (hfirst (other, z) hz)).trans hget, hcopy⟩
    · intro other w hw
      rw [ExtTreeMap.getElem?_insert] at hw
      simp only [LawfulEqCmp.compare_eq_iff_eq] at hw
      by_cases heq : key = other
      · rw [if_pos heq] at hw
        cases hw
        exact ⟨x, heq ▸ List.mem_cons_self, hchild'⟩
      · rw [if_neg heq] at hw
        obtain ⟨z, hz, hcopy⟩ := hcopied.only other w hw
        exact ⟨z, List.mem_cons_of_mem _ hz, hcopy⟩

theorem value_alloc_self {value : SlotValue} : (heap.alloc value).2.value heap.size = value := by
  rw [Heap.value, slot_alloc, if_pos rfl]

theorem CopyRun.alloc {value : SlotValue} (hadds : Adds heap heap')
    (hchildren : ∀ child ∈ value.children, child < heap'.size ∧
      (heap'.isIndirect child = true ∨ heap.size ≤ child))
    (hcopied : CopyOf heap (heap'.alloc value).2 n a heap'.size) :
    CopyRun heap (heap'.alloc value).2 n a heap'.size where
  adds := hadds.alloc hchildren
  new := hadds.extends_.size_le
  last := rfl
  below x hx child hchild := by
    rcases Nat.lt_or_eq_of_le hx with hlt | rfl
    · rw [(extends_alloc value).value_eq hlt] at hchild
      exact hadds.closed x hlt child hchild
    · rw [value_alloc_self] at hchild
      exact (hchildren child hchild).1
  copied := hcopied

/-- A shallow copy is made of everything that can be copied. -/
theorem shallowCopy_copies : ∀ n, Copies n (shallowCopy n) := by
  intro n
  induction n with
  | zero =>
    intro a heap _ _ h
    rw [Copyable] at h
    exact h.elim
  | succ n ih =>
    intro a heap hclosed ha hcopyable
    rw [shallowCopy]
    rw [Copyable] at hcopyable
    have hbelow : ∀ child ∈ (heap.value a).children, child < heap.size :=
      fun child hmem => hclosed a ha child hmem
    have hscalar : ∀ value, value.children = [] → (∀ heap', heap'.value heap.size = value →
        CopyOf heap heap' (n + 1) a heap.size) →
        ∃ b heap', Outcome.ok (heap.alloc value).1 (heap.alloc value).2 = .ok b heap' ∧
          CopyRun heap heap' (n + 1) a b := by
      intro value hnil hcopied
      refine ⟨_, _, rfl, .alloc (.refl hclosed) ?_ (hcopied _ value_alloc_self)⟩
      rw [hnil]
      exact fun child h => absurd h List.not_mem_nil
    cases hvalue : heap.value a with
    | array items =>
      rw [hvalue] at hcopyable hbelow
      obtain ⟨items', heap', hrun, hadds, hcopied⟩ := copyItems_spec ih hclosed items
        (fun x hx => ⟨hbelow x hx, hcopyable x hx⟩) heap (.refl hclosed)
      simp only [hrun, Outcome.andThen_ok]
      refine ⟨_, _, rfl, .alloc hadds ?_ ?_⟩
      · intro y hy
        obtain ⟨x, hxy⟩ := rel_items_mem hcopied hy
        exact ⟨hxy.size_lt, hxy.indirect_or_new⟩
      · rw [CopyOf, hvalue]
        refine ⟨items', value_alloc_self, hcopied.imp ?_⟩
        exact fun x y hxy => (hxy.extends_ hadds (extends_alloc _)).copied
    | dictionary entries =>
      rw [hvalue] at hcopyable hbelow
      have hdistinct : entries.toList.Pairwise fun e e' => e.1 ≠ e'.1 := by
        apply ExtTreeMap.distinct_keys_toList.imp
        intro e e' hne heq
        exact hne (by rw [heq]; exact ReflCmp.compare_self)
      have hchildren : ∀ entry ∈ entries.toList, entry.2 < heap.size ∧
          (heap.isIndirect entry.2 = false → heap.Copyable n entry.2) := by
        intro entry hentry
        have hmem : entry.2 ∈ (SlotValue.dictionary entries).children :=
          List.mem_map.mpr ⟨entry, hentry, rfl⟩
        exact ⟨hbelow _ hmem, hcopyable _ hmem⟩
      obtain ⟨entries', heap', hrun, hadds, hcopied⟩ :=
        copyEntries_spec ih hclosed entries.toList hchildren hdistinct heap (.refl hclosed)
      simp only [hrun, Outcome.andThen_ok]
      refine ⟨_, _, rfl, .alloc hadds ?_ ?_⟩
      · intro y hy
        obtain ⟨⟨key, w⟩, hmem, rfl⟩ := List.mem_map.mp hy
        obtain ⟨x, -, hxy⟩ :=
          hcopied.only key w (ExtTreeMap.mem_toList_iff_getElem?_eq_some.mp hmem)
        exact ⟨hxy.size_lt, hxy.indirect_or_new⟩
      rw [CopyOf, hvalue]
      refine ⟨entries', value_alloc_self, ?_⟩
      intro key
      cases hget : entries[key]? with
      | some x =>
        obtain ⟨y, hget', hxy⟩ :=
          hcopied.present key x (ExtTreeMap.mem_toList_iff_getElem?_eq_some.mpr hget)
        rw [hget']
        exact .some (hxy.extends_ hadds (extends_alloc _)).copied
      | none =>
        cases hget' : entries'[key]? with
        | none => exact .none
        | some y =>
          obtain ⟨x, hmem, -⟩ := hcopied.only key y hget'
          rw [ExtTreeMap.mem_toList_iff_getElem?_eq_some.mp hmem] at hget
          cases hget
    | stream streamDict =>
      rw [hvalue] at hcopyable
      exact hcopyable.elim
    | _ =>
      apply hscalar _ rfl
      intro heap' hvalue'
      rw [CopyOf, hvalue]
      exact hvalue'

end Heap

end Flpdf
