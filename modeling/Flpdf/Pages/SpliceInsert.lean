import Flpdf.Pages.SpliceCollect

/-!
# The inserted pages

An inserted page that stays in the tree or is inserted twice is replaced by a copy.
An inserted object that is no dictionary stops the splice before any node is changed.
-/

namespace Flpdf

open PageTree CollectState

variable {base mid heap heap' : Heap} {slots : Set Handle} {copyFuel n : ℕ} {a p q : Handle}
  {except : Set Bytes} {nodes pages arrays : List Handle}

namespace Heap

theorem Frame.value_eq_of_keys {keys : Set (Handle × Bytes)} {arrays promoted : Set Handle}
    (h : Frame heap heap' keys arrays promoted) (ha : a < heap.size)
    (hkeys : ∀ key, (a, key) ∉ keys) (harray : a ∉ arrays) : heap'.value a = heap.value a := by
  cases hdictionary : heap.isDictionary a with
  | false => exact h.value_eq a ha hdictionary fun _ => harray
  | true =>
    obtain ⟨entries, hentries⟩ := isDictionary_iff.mp hdictionary
    obtain ⟨entries', hentries'⟩ := isDictionary_iff.mp ((h.isDictionary_eq a ha).trans hdictionary)
    have hsame : entries' = entries := by
      apply Std.ExtTreeMap.ext_getElem?
      intro key
      have hget := h.getKey_eq a ha key (hkeys key)
      rw [getKey, getKey, hentries, hentries'] at hget
      exact hget
    rw [hentries, hentries', hsame]

theorem Closed.makeIndirect (hclosed : heap.Closed) : (heap.makeIndirect a).Closed := by
  intro b hb child hchild
  rw [value_makeIndirect] at hchild
  exact hclosed b hb child hchild

theorem extends_makeIndirect (h : Extends heap heap') (ha : heap.size ≤ a) :
    Extends heap (heap'.makeIndirect a) where
  size_le := h.size_le
  slot_eq b hb := by
    have hne : b ≠ a := Nat.ne_of_lt (Nat.lt_of_lt_of_le hb ha)
    exact (Function.update_of_ne hne _ _).trans (h.slot_eq b hb)

end Heap

/-- The splicing walk leaves the copies alone, apart from the `/Parent` of those that it inserts. -/
theorem FreshPage.spliced (except' : Set Bytes) (h : FreshPage base mid heap slots except n p q) (hclosed : heap.Closed)
    (hframe : Heap.Frame heap heap' (spliceKeys nodes pages) {a | a ∈ arrays} ∅)
    (hnodes : ∀ a ∈ nodes, a < base.size) (harrays : ∀ a ∈ arrays, a < base.size)
    (hpages : ∀ a ∈ pages, heap.isIndirect a = true) (hexcept : except ⊆ except')
    (hparent : q ∈ pages → ascii "/Parent" ∉ except' →
      heap'.getKey q (ascii "/Parent") = heap.getKey q (ascii "/Parent")) :
    FreshPage base mid heap' slots except' n p q := by
  have hold : ∀ x, base.size ≤ x → ¬x < base.size := fun x hle => Nat.not_lt.mpr hle
  apply h.later hclosed hframe.size_le
  · intro x hle hlt hdirect
    refine ⟨?_, hframe.identity_eq x hlt (Set.notMem_empty x)⟩
    apply hframe.value_eq_of_keys hlt
    · rintro key (⟨-, hmem⟩ | ⟨-, hmem⟩)
      · exact hold x hle (hnodes x hmem)
      · have hyes := hpages x hmem
        rw [hdirect] at hyes
        cases hyes
    · exact fun hmem => hold x hle (harrays x hmem)
  · exact fun x hlt hyes => hframe.isIndirect_of hlt hyes
  · rw [Splice.objectRef_frame hframe h.lt]
    exact h.named
  · exact hexcept
  · intro key hkey
    by_cases hboth : key = ascii "/Parent" ∧ q ∈ pages
    · rw [hboth.1] at hkey ⊢
      exact hparent hboth.2 hkey
    · apply hframe.getKey_eq q h.lt
      rintro (⟨-, hmem⟩ | hmem)
      · exact hold q h.new (hnodes q hmem)
      · exact hboth hmem

/-! ## Replacing the repeated ones -/

/-- A page dictionary that can be inserted. -/
structure Insertable (copyFuel : ℕ) (heap : Heap) (p : Handle) : Prop where
  lt : p < heap.size
  named : (heap.objectRef p).isSome = true
  dictionary : heap.isDictionary p = true
  no_kids : heap.hasKey p (ascii "/Kids") = false
  copyable : ∃ n, n < copyFuel ∧ heap.Copyable n p

/-- What can be done with an inserted page. -/
structure Inserted (heap : Heap) (p : Handle) : Prop where
  holds : (PageTree.page p).Holds heap
  named : (heap.objectRef p).isSome = true

theorem Insertable.inserted (h : Insertable copyFuel base p) (hclosed : base.Closed)
    (hprepared : Prepared base heap slots Set.univ) : Inserted heap p where
  holds := by
    rw [Holds]
    refine ⟨Nat.lt_of_lt_of_le h.lt hprepared.frame.size_le, ?_, ?_⟩
    · rw [hprepared.frame.isDictionary_eq p h.lt, h.dictionary]
    · rw [hprepared.frame.hasKey_eq hclosed h.lt (not_typeKeys kids_ne_type p), h.no_kids]
  named := by
    rw [hprepared.objectRef_eq h.lt h.named]
    exact h.named

theorem Inserted.extends_ (h : Inserted heap p) (hclosed : heap.Closed)
    (hextends : Heap.Extends heap heap') (hclosed' : heap'.Closed) : Inserted heap' p where
  holds := Holds.frame (hextends.frame hclosed') hclosed _
    ⟨fun _ => Set.notMem_empty _, fun _ _ => Set.notMem_empty _, fun _ _ => Set.notMem_empty _⟩ h.holds
  named := by
    have hlt := h.holds
    rw [Holds] at hlt
    rw [Heap.objectRef, hextends.identity_eq hlt.1]
    exact h.named

/-- What normalizing leaves. -/
structure Normalized (base : Heap) (slots : Set Handle) (heap heap' : Heap)
    (occupied pages pages' : List Handle) : Prop where
  extends_ : Heap.Extends heap heap'
  closed : heap'.Closed
  deduped : Deduped (FreshCopy base heap' slots) {p | p ∈ occupied} pages pages'
  nodup : pages'.Nodup
  unoccupied : ∀ q ∈ pages', q ∉ occupied
  new : ∀ q ∈ pages', q ∈ pages ∨ heap.size ≤ q
  inserted : ∀ q ∈ pages', Inserted heap' q
  length_eq : pages'.length = pages.length

theorem Normalized.nil (hclosed : heap.Closed) (occupied : List Handle) :
    Normalized base slots heap heap occupied [] [] where
  extends_ := .refl heap
  closed := hclosed
  deduped := trivial
  nodup := List.nodup_nil
  unoccupied _ hq := absurd hq List.not_mem_nil
  new _ hq := absurd hq List.not_mem_nil
  inserted _ hq := absurd hq List.not_mem_nil
  length_eq := rfl

/-- A page that is not occupied stays. -/
theorem Normalized.keep {occupied pages' : List Handle} (hp : Inserted heap p)
    (hclosed : heap.Closed) (hfree : p ∉ occupied)
    (h : Normalized base slots heap heap' (p :: occupied) pages pages') :
    Normalized base slots heap heap' occupied (p :: pages) (p :: pages') where
  extends_ := h.extends_
  closed := h.closed
  deduped := by
    rw [Deduped]
    refine ⟨.inl ⟨hfree, rfl⟩, h.deduped.congr_taken ?_⟩
    intro a _
    simp only [Set.mem_ofPred_eq, List.mem_cons, Set.mem_insert_iff]
  nodup := List.nodup_cons.mpr ⟨fun hmem => h.unoccupied p hmem List.mem_cons_self, h.nodup⟩
  unoccupied q hq := by
    rcases List.mem_cons.mp hq with rfl | hq
    · exact hfree
    · exact fun hmem => h.unoccupied q hq (List.mem_cons_of_mem p hmem)
  new q hq := by
    rcases List.mem_cons.mp hq with rfl | hq
    · exact .inl List.mem_cons_self
    · exact (h.new q hq).imp (List.mem_cons_of_mem p) id
  inserted q hq := by
    rcases List.mem_cons.mp hq with rfl | hq
    · exact hp.extends_ hclosed h.extends_ h.closed
    · exact h.inserted q hq
  length_eq := by rw [List.length_cons, List.length_cons, h.length_eq]

/-- A page that is occupied is replaced by a copy. -/
theorem Normalized.copy {heap₁ : Heap} {occupied pages' : List Handle}
    (hprepared : Prepared base heap slots Set.univ) (hclosed : heap.Closed) (hp : p < base.size)
    (hpages : ∀ a ∈ pages, a < heap.size) (hold : ∀ a ∈ occupied, a < heap.size)
    (hholds : (PageTree.page p).Holds heap) (hoccupied : p ∈ occupied)
    (hcopy : Heap.CopyRun heap heap₁ (n + 1) p q)
    (h : Normalized base slots (heap₁.makeIndirect q) heap' (q :: occupied) pages pages') :
    Normalized base slots heap heap' occupied (p :: pages) (q :: pages') := by
  have hq_lt : q < heap₁.size := by
    rw [hcopy.last]
    exact Nat.lt_succ_self q
  have hextends := Heap.extends_makeIndirect hcopy.adds.extends_ hcopy.new
  have hclosed₂ : (heap₁.makeIndirect q).Closed := hcopy.adds.closed.makeIndirect
  rw [Holds] at hholds
  obtain ⟨hdictionary, hkids⟩ := hcopy.hasKey_eq hclosed hholds.1 hholds.2.1 (ascii "/Kids")
  have hfresh := FreshPage.of_copy hprepared hp hholds.2.1 hcopy
  have hinserted : Inserted (heap₁.makeIndirect q) q := by
    constructor
    · rw [Holds, Heap.isDictionary_makeIndirect]
      refine ⟨hq_lt, hdictionary, ?_⟩
      rw [Heap.hasKey, Heap.visible, Heap.getKey_makeIndirect]
      simp only [Heap.isNull_makeIndirect]
      rw [← hholds.2.2, ← hkids]
      rfl
    · exact Heap.objectRef_makeIndirect
  constructor
  · exact hextends.trans h.extends_
  · exact h.closed
  · have hlater : Prepared (heap₁.makeIndirect q) heap' ∅ ∅ := .extends_ h.extends_ h.closed
    rw [Deduped]
    refine ⟨.inr ⟨hoccupied, heap, n, ?_⟩, h.deduped.congr_taken ?_⟩
    · exact hfresh.prepared hclosed₂ (fun _ hx => absurd hx (Set.notMem_empty _))
        hlater
    · intro a ha
      simp only [Set.mem_ofPred_eq, List.mem_cons, Set.mem_insert_iff]
      have ha_ne : a ≠ q := by
        rintro rfl
        exact Nat.lt_irrefl _ (Nat.lt_of_lt_of_le (hpages a ha) hcopy.new)
      constructor
      · rintro (rfl | hmem)
        · exact absurd rfl ha_ne
        · exact .inr hmem
      · rintro (rfl | hmem)
        · exact .inr hoccupied
        · exact .inr hmem
  · exact List.nodup_cons.mpr ⟨fun hmem => h.unoccupied q hmem List.mem_cons_self, h.nodup⟩
  · intro b hb
    rcases List.mem_cons.mp hb with rfl | hb
    · exact fun hmem => Nat.lt_irrefl _ (Nat.lt_of_lt_of_le (hold b hmem) hcopy.new)
    · exact fun hmem => h.unoccupied b hb (List.mem_cons_of_mem q hmem)
  · intro b hb
    rcases List.mem_cons.mp hb with rfl | hb
    · exact .inr hcopy.new
    · exact (h.new b hb).imp (List.mem_cons_of_mem p) fun hle => hextends.size_le.trans hle
  · intro b hb
    rcases List.mem_cons.mp hb with rfl | hb
    · exact hinserted.extends_ hclosed₂ h.extends_ h.closed
    · exact h.inserted b hb
  · rw [List.length_cons, List.length_cons, h.length_eq]

theorem normalizeInsertPages_run (hbase : base.Closed) : ∀ (pages occupied : List Handle)
    (heap : Heap), Prepared base heap slots Set.univ → (∀ p ∈ pages, Insertable copyFuel base p) →
      (∀ a ∈ occupied, a < heap.size) →
      ∃ pages' heap', normalizeInsertPages copyFuel pages occupied heap = .ok pages' heap' ∧
        Normalized base slots heap heap' occupied pages pages' := by
  intro pages
  induction pages with
  | nil =>
    intro occupied heap hprepared _ _
    exact ⟨[], heap, rfl, .nil hprepared.frame.closed occupied⟩
  | cons p pages ih =>
    intro occupied heap hprepared hpages hold
    have hp := hpages p List.mem_cons_self
    have hrest : ∀ a ∈ pages, Insertable copyFuel base a :=
      fun a ha => hpages a (List.mem_cons_of_mem p ha)
    have hinserted := hp.inserted hbase hprepared
    have hclosed := hprepared.frame.closed
    have hp_lt := Nat.lt_of_lt_of_le hp.lt hprepared.frame.size_le
    rw [normalizeInsertPages]
    by_cases hfree : p ∈ occupied
    · obtain ⟨n, hn, hcopyable⟩ := hp.copyable
      obtain ⟨m, rfl⟩ : ∃ m, copyFuel = m + 1 := ⟨copyFuel - 1, by omega⟩
      obtain ⟨q, heap₁, hrun, hcopy⟩ := Heap.shallowCopy_copies (m + 1) p heap hclosed hp_lt
        ((hprepared.copyable hbase n p hp.lt hcopyable).mono (by omega))
      have hextends := Heap.extends_makeIndirect hcopy.adds.extends_ hcopy.new
      have hprepared₂ : Prepared base (heap₁.makeIndirect q) slots Set.univ :=
        hprepared.trans (.extends_ hextends hcopy.adds.closed.makeIndirect)
      have hq_lt : q < (heap₁.makeIndirect q).size := by
        change q < heap₁.size
        rw [hcopy.last]
        exact Nat.lt_succ_self q
      obtain ⟨pages', heap', hrun', hnormalized⟩ := ih (q :: occupied) (heap₁.makeIndirect q)
        hprepared₂ hrest (by
          intro a ha
          rcases List.mem_cons.mp ha with rfl | ha
          · exact hq_lt
          · exact Nat.lt_of_lt_of_le (hold a ha) hextends.size_le)
      refine ⟨q :: pages', heap', ?_, ?_⟩
      · rw [if_neg (not_not_intro hfree), hrun, Outcome.andThen_ok, hrun', Outcome.andThen_ok]
      · exact .copy hprepared hclosed hp.lt
          (fun a ha => Nat.lt_of_lt_of_le (hrest a ha).lt hprepared.frame.size_le) hold
          hinserted.holds hfree hcopy hnormalized
    · obtain ⟨pages', heap', hrun, hnormalized⟩ := ih (p :: occupied) heap hprepared hrest (by
        intro a ha
        rcases List.mem_cons.mp ha with rfl | ha
        · exact hp_lt
        · exact hold a ha)
      refine ⟨p :: pages', heap', ?_, .keep hinserted hclosed hfree hnormalized⟩
      rw [if_pos hfree, hrun, Outcome.andThen_ok]

end Flpdf
