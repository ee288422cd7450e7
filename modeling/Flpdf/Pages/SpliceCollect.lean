import Flpdf.Pages.Duplicates

/-!
# The walk that collects the pages

Over a stored page tree the first walk returns the pages in document order. It sets
the `/Type` of what it meets, makes direct pages indirect and replaces repeated ones
by copies.
-/

namespace Flpdf

open PageTree

namespace CollectState

variable {base heap heap' : Heap} {slots : Set Handle} {copyFuel maxDepth depth k index : ℕ}
  {st st' st₁ : CollectState} {tree tree' : PageTree} {kids trees trees' : List PageTree}
  {arrays arrays' items : List Handle} {p q : Handle}

/-- A page may be direct; an indirect one has a proper reference. -/
def Nameable (heap : Heap) (p : Handle) : Prop :=
  heap.isIndirect p = false ∨ (heap.objectRef p).isSome = true

/-- What the first walk needs of the trees that are still to come. -/
structure CollectReady (base : Heap) (slots : Set Handle) (copyFuel : ℕ) (st : CollectState)
    (trees : List PageTree) : Prop where
  base_closed : base.Closed
  old : ∀ x ∈ slots, x < base.size
  prepared : Prepared base st.heap slots Set.univ
  holds : HoldsAll st.heap trees
  nameable : ∀ p ∈ leavesAll trees, Nameable st.heap p
  copyable : ∀ p ∈ leavesAll trees, ∃ n, n < copyFuel ∧ base.Copyable n p
  nodes_sub : ∀ a ∈ nodesAll trees, a ∈ slots
  leaves_sub : ∀ p ∈ leavesAll trees, p ∈ slots
  arrays_sub : ∀ array ∈ kidsArrays base (nodesAll trees), array ∈ slots
  nodes_nodup : (nodesAll trees).Nodup
  arrays_nodup : (kidsArrays base (nodesAll trees)).Nodup
  unvisited : ∀ a ∈ nodesAll trees, a ∉ st.visited

/-- A copy that the first walk has made. -/
def FreshCopy (base heap : Heap) (slots : Set Handle) (p q : Handle) : Prop :=
  ∃ mid n, FreshPage base mid heap slots {ascii "/Type"} n p q

/-- What a part of the first walk does to these trees. -/
structure Collected (base : Heap) (slots : Set Handle) (st st' : CollectState) (arrays : List Handle)
    (trees trees' : List PageTree) : Prop where
  prepared : Prepared st.heap st'.heap slots {a | a ∈ arrays}
  same : SameNodesAll trees trees'
  holds : HoldsAll st'.heap trees'
  pages_eq : st'.pages = st.pages ++ leavesAll trees'
  named : ∀ p ∈ leavesAll trees', (st'.heap.objectRef p).isSome = true
  deduped : Deduped (FreshCopy base st'.heap slots) {p | p ∈ st.seen} (leavesAll trees)
    (leavesAll trees')
  seen : ∀ p, p ∈ st'.seen ↔ p ∈ st.seen ∨ p ∈ leavesAll trees
  visited : ∀ a ∈ st'.visited, a ∈ st.visited ∨ a ∈ nodesAll trees
  nodup : (leavesAll trees').Nodup
  new : ∀ p ∈ leavesAll trees', p ∈ leavesAll trees ∧ p ∉ st.seen ∨ st.heap.size ≤ p

theorem CollectReady.kidsArrays_eq (h : CollectReady base slots copyFuel st trees) :
    kidsArrays st.heap (nodesAll trees) = kidsArrays base (nodesAll trees) :=
  kidsArrays_frame h.prepared.frame (not_typeKeys kids_ne_type) fun a ha => h.old a (h.nodes_sub a ha)

theorem Nameable.prepared {arrays : Set Handle} (h : Nameable heap p)
    (hprepared : Prepared heap heap' slots arrays) (hp : p < heap.size) : Nameable heap' p := by
  rcases hprepared.named p hp with hsame | hnamed
  · rw [Nameable, Heap.isIndirect, Heap.objectRef, hsame]
    exact h
  · exact .inr hnamed

theorem CollectReady.head (h : CollectReady base slots copyFuel st (tree :: trees)) :
    CollectReady base slots copyFuel st [tree] := by
  obtain ⟨hclosed, hold, hprepared, hholds, hnameable, hcopyable, hnodes, hleaves, harrays, hnodup,
    hnodup', hunvisited⟩ := h
  rw [HoldsAll] at hholds
  rw [leavesAll] at hnameable hcopyable hleaves
  rw [nodesAll] at hnodes harrays hnodup hnodup' hunvisited
  rw [kidsArrays_append] at harrays hnodup'
  rw [List.nodup_append] at hnodup hnodup'
  refine ⟨hclosed, hold, hprepared, ⟨hholds.1, trivial⟩, ?_, ?_, ?_, ?_, ?_, ?_, ?_, ?_⟩
  all_goals simp only [leavesAll_singleton, nodesAll_singleton]
  · exact fun p hp => hnameable p (List.mem_append_left _ hp)
  · exact fun p hp => hcopyable p (List.mem_append_left _ hp)
  · exact fun a ha => hnodes a (List.mem_append_left _ ha)
  · exact fun p hp => hleaves p (List.mem_append_left _ hp)
  · exact fun a ha => harrays a (List.mem_append_left _ ha)
  · exact hnodup.1
  · exact hnodup'.1
  · exact fun a ha => hunvisited a (List.mem_append_left _ ha)

theorem CollectReady.tail (h : CollectReady base slots copyFuel st (tree :: trees))
    (hhead : Collected base slots st st₁ arrays [tree] [tree'])
    (hdisjoint : ∀ a ∈ kidsArrays base (nodesAll trees), a ∉ arrays) :
    CollectReady base slots copyFuel st₁ trees := by
  have hkidsArrays := h.kidsArrays_eq
  obtain ⟨hclosed, hold, hprepared, hholds, hnameable, hcopyable, hnodes, hleaves, harrays, hnodup,
    hnodup', hunvisited⟩ := h
  rw [HoldsAll] at hholds
  rw [leavesAll] at hnameable hcopyable hleaves
  rw [nodesAll, kidsArrays_append, kidsArrays_append] at hkidsArrays
  rw [nodesAll] at hnodes harrays hnodup hnodup' hunvisited
  rw [kidsArrays_append] at harrays hnodup'
  rw [List.nodup_append] at hnodup hnodup'
  have hstep := hhead.prepared
  have hvisited := hhead.visited
  simp only [nodesAll_singleton] at hvisited
  have hkids : kidsArrays st.heap (nodesAll trees) = kidsArrays base (nodesAll trees) :=
    kidsArrays_frame hprepared.frame (not_typeKeys kids_ne_type)
      fun a ha => hold a (hnodes a (List.mem_append_right _ ha))
  constructor
  · exact hclosed
  · exact hold
  · exact hprepared.trans (hstep.mono (fun _ _ hx => hx) (Set.subset_univ _))
  · apply HoldsAll.frame hstep.frame hprepared.frame.closed trees _ hholds.2
    refine ⟨not_typeKeys kids_ne_type, fun a _ => not_typeKeys count_ne_type a, ?_⟩
    rw [hkids]
    exact hdisjoint
  · intro p hp
    exact (hnameable p (List.mem_append_right _ hp)).prepared hstep
      (HoldsAll.leaf_lt trees hholds.2 p hp)
  · exact fun p hp => hcopyable p (List.mem_append_right _ hp)
  · exact fun a ha => hnodes a (List.mem_append_right _ ha)
  · exact fun p hp => hleaves p (List.mem_append_right _ hp)
  · exact fun a ha => harrays a (List.mem_append_right _ ha)
  · exact hnodup.2.1
  · exact hnodup'.2.1
  · intro a ha hmem
    rcases hvisited a hmem with hseen | hnew
    · exact hunvisited a (List.mem_append_right _ ha) hseen
    · exact hnodup.2.2 a hnew a ha rfl

theorem Collected.mono (h : Collected base slots st st' arrays trees trees')
    (harrays : ∀ a ∈ arrays, a ∈ arrays') : Collected base slots st st' arrays' trees trees' where
  prepared := h.prepared.mono (fun _ _ hx => hx) harrays
  same := h.same
  holds := h.holds
  pages_eq := h.pages_eq
  named := h.named
  deduped := h.deduped
  seen := h.seen
  visited := h.visited
  nodup := h.nodup
  new := h.new

theorem Collected.cons (h : CollectReady base slots copyFuel st (tree :: trees))
    (hhead : Collected base slots st st₁ arrays [tree] [tree'])
    (htail : Collected base slots st₁ st' arrays' trees trees')
    (hdisjoint : ∀ a ∈ kidsArrays base tree.nodes, a ∉ arrays') :
    Collected base slots st st' (arrays ++ arrays') (tree :: trees) (tree' :: trees') := by
  have hholds := h.holds
  rw [HoldsAll] at hholds
  obtain ⟨hprepared, hsame, hholds₁, hpages, hnamed, hdeduped, hseen, hvisited, hnodup, hnew⟩ := hhead
  rw [SameNodesAll] at hsame
  rw [HoldsAll] at hholds₁
  simp only [leavesAll_singleton, nodesAll_singleton] at hpages hnamed hdeduped hseen hvisited hnodup hnew
  have hle := hprepared.frame.size_le
  have hclosed₁ := hprepared.frame.closed
  have hnodes : tree'.nodes = tree.nodes := (SameNodes.nodes_eq tree tree' hsame.1).1
  have hkids : kidsArrays st₁.heap tree'.nodes = kidsArrays base tree.nodes := by
    rw [hnodes]
    have hlt : ∀ a ∈ tree.nodes, a < base.size := by
      intro a ha
      apply h.old a (h.nodes_sub a _)
      rw [nodesAll]
      exact List.mem_append_left _ ha
    rw [kidsArrays_frame hprepared.frame (not_typeKeys kids_ne_type)
      fun a ha => Nat.lt_of_lt_of_le (hlt a ha) h.prepared.frame.size_le]
    exact kidsArrays_frame h.prepared.frame (not_typeKeys kids_ne_type) hlt
  constructor
  · apply (hprepared.mono (fun _ _ hx => hx) _).trans (htail.prepared.mono (fun _ _ hx => hx) _)
    · exact fun a ha => List.mem_append_left _ ha
    · exact fun a ha => List.mem_append_right _ ha
  · rw [SameNodesAll]
    exact ⟨hsame.1, htail.same⟩
  · rw [HoldsAll]
    refine ⟨?_, htail.holds⟩
    apply Holds.frame htail.prepared.frame hclosed₁ tree' _ hholds₁.1
    refine ⟨not_typeKeys kids_ne_type, fun a _ => not_typeKeys count_ne_type a, ?_⟩
    rw [hkids]
    exact hdisjoint
  · rw [htail.pages_eq, hpages, leavesAll, List.append_assoc]
  · intro p hp
    rw [leavesAll, List.mem_append] at hp
    rcases hp with hp | hp
    · rw [htail.prepared.objectRef_eq (Holds.leaf_lt tree' hholds₁.1 p hp) (hnamed p hp)]
      exact hnamed p hp
    · exact htail.named p hp
  · rw [leavesAll, leavesAll]
    apply Deduped.append
    · refine hdeduped.mono _ _ ?_
      rintro p q _ ⟨mid, n, hfresh⟩
      exact ⟨mid, n, hfresh.prepared hclosed₁ h.old htail.prepared⟩
    · refine htail.deduped.congr_taken ?_
      intro p _
      simp only [Set.mem_union, Set.mem_ofPred_eq, hseen]
  · intro p
    rw [htail.seen, hseen, leavesAll, List.mem_append, or_assoc]
  · intro a ha
    rw [nodesAll, List.mem_append]
    rcases htail.visited a ha with hold | hnew'
    · exact (hvisited a hold).imp id .inl
    · exact .inr (.inr hnew')
  · rw [leavesAll, List.nodup_append]
    refine ⟨hnodup, htail.nodup, ?_⟩
    rintro p hp q hq rfl
    have hp_lt := Holds.leaf_lt tree' hholds₁.1 p hp
    rcases htail.new p hq with ⟨hlater, hunseen⟩ | hfresh
    · rcases hnew p hp with ⟨hearlier, -⟩ | hfresh
      · exact hunseen ((hseen p).mpr (.inr hearlier))
      · exact Nat.lt_irrefl _ (Nat.lt_of_lt_of_le (HoldsAll.leaf_lt trees hholds.2 p hlater) hfresh)
    · exact Nat.lt_irrefl _ (Nat.lt_of_lt_of_le hp_lt hfresh)
  · intro p hp
    rw [leavesAll, List.mem_append] at hp
    rw [leavesAll, List.mem_append]
    rcases hp with hp | hp
    · exact (hnew p hp).imp (fun hboth => ⟨.inl hboth.1, hboth.2⟩) id
    · rcases htail.new p hp with ⟨hlater, hunseen⟩ | hfresh
      · exact .inl ⟨.inr hlater, fun hmem => hunseen ((hseen p).mpr (.inl hmem))⟩
      · exact .inr (hle.trans hfresh)

/-! ## A page -/

/-- A direct page becomes indirect in its place. -/
theorem promote_run (h : CollectReady base slots copyFuel st [.page p])
    (hitems : st.heap.arrayItems k = some items) (hitem : items[index]? = some p) :
    ∃ heap, (if st.heap.isIndirect p then st
        else { st with heap := (st.heap.makeIndirect p).setArrayItem k index p }) =
          { st with heap := heap } ∧
      Prepared st.heap heap slots ∅ ∧ (heap.objectRef p).isSome = true ∧
      heap.arrayItems k = some items := by
  have hmem : p ∈ leavesAll [.page p] := by
    rw [leavesAll_singleton, leaves]
    exact List.mem_cons_self
  have hclosed := h.prepared.frame.closed
  cases hindirect : st.heap.isIndirect p with
  | true =>
    refine ⟨st.heap, rfl, .refl hclosed, ?_, hitems⟩
    rcases h.nameable p hmem with hdirect | hnamed
    · rw [hindirect] at hdirect
      cases hdirect
    · exact hnamed
  | false =>
    have hitems' : (st.heap.makeIndirect p).arrayItems k = some items := by
      rw [Heap.arrayItems, Heap.value_makeIndirect]
      exact hitems
    have hself := Heap.setArrayItem_self hitems' hitem
    refine ⟨st.heap.makeIndirect p, ?_, ?_, Heap.objectRef_makeIndirect, hitems'⟩
    · rw [if_neg Bool.false_ne_true, hself]
    · exact .makeIndirect hclosed hindirect (h.leaves_sub p hmem)

/-- A page that has its identity is collected. -/
theorem collectLeaf_run (hq : (PageTree.page q).Holds st.heap)
    (hclosed : st.heap.Closed) (hnamed : (st.heap.objectRef q).isSome = true) :
    collectPageRefs copyFuel maxDepth (depth + 1) false q st =
      .ok 1 { st with heap := st.heap.setType q (ascii "Page"), pages := st.pages ++ [q] } := by
  rw [Holds] at hq
  obtain ⟨hlt, hdictionary, hkids⟩ := hq
  have hstep : Prepared st.heap (st.heap.setType q (ascii "Page")) {q} ∅ :=
    .setType hclosed hlt hdictionary (ascii "Page") rfl
  have hnamed' : ((st.heap.setType q (ascii "Page")).objectRef q).isNone = false := by
    rw [hstep.objectRef_eq hlt hnamed, Option.isNone_eq_false_iff]
    exact hnamed
  rw [collectPageRefs]
  simp only [hdictionary, Bool.not_true, Bool.false_eq_true, if_false, hkids, Bool.or_self,
    Bool.not_false, if_true, hnamed']

/-- The leaf of a single page. -/
theorem mem_leaves_page : p ∈ leavesAll [.page p] := by
  rw [leavesAll_singleton, leaves]
  exact List.mem_cons_self

theorem Collected.page {seen : List Handle} (hprepared : Prepared st.heap heap slots {a | a ∈ arrays})
    (hq : (PageTree.page q).Holds heap) (hnamed : (heap.objectRef q).isSome = true)
    (hor : p ∉ st.seen ∧ q = p ∨ p ∈ st.seen ∧ st.heap.size ≤ q ∧ FreshCopy base heap slots p q)
    (hseen : ∀ x, x ∈ seen ↔ x ∈ st.seen ∨ x = p) :
    Collected base slots st ⟨heap, st.pages ++ [q], seen, st.visited⟩ arrays [.page p] [.page q] := by
  have hleaves : ∀ x, leavesAll [PageTree.page x] = [x] := by
    intro x
    rw [leavesAll_singleton, leaves]
  constructor
  · exact hprepared
  · rw [SameNodesAll, SameNodes]
    exact ⟨trivial, trivial⟩
  · exact ⟨hq, trivial⟩
  · rw [hleaves]
  · rw [hleaves]
    intro x hx
    rw [List.mem_singleton.mp hx]
    exact hnamed
  · rw [hleaves, hleaves, Deduped]
    refine ⟨hor.imp id fun hboth => ⟨hboth.1, hboth.2.2⟩, trivial⟩
  · intro x
    rw [hleaves, List.mem_singleton]
    exact hseen x
  · exact fun a ha => .inl ha
  · rw [hleaves]
    exact List.nodup_singleton q
  · rw [hleaves, hleaves]
    intro x hx
    rw [List.mem_singleton.mp hx]
    rcases hor with ⟨hnot, rfl⟩ | ⟨-, hnew, -⟩
    · exact .inl ⟨List.mem_cons_self, hnot⟩
    · exact .inr hnew

/-- A page that has not been seen stays. -/
theorem keepPage_run (maxDepth depth : ℕ) (arrays : List Handle) (h : CollectReady base slots copyFuel st [.page p])
    (hprepared : Prepared st.heap heap slots ∅) (hnamed : (heap.objectRef p).isSome = true)
    (hpage : (PageTree.page p).Holds heap) (hunseen : p ∉ st.seen) :
    ∃ heap', collectPageRefs copyFuel maxDepth (depth + 1) false p
        { st with heap := heap, seen := p :: st.seen } =
          .ok 1 ⟨heap', st.pages ++ [p], p :: st.seen, st.visited⟩ ∧
      Prepared heap heap' slots ∅ ∧
      Collected base slots st ⟨heap', st.pages ++ [p], p :: st.seen, st.visited⟩ arrays [.page p]
        [.page p] := by
  have hclosed := hprepared.frame.closed
  have hpage' := hpage
  rw [Holds] at hpage
  have hstep : Prepared heap (heap.setType p (ascii "Page")) slots ∅ :=
    .setType hclosed hpage.1 hpage.2.1 (ascii "Page") (h.leaves_sub p mem_leaves_page)
  refine ⟨heap.setType p (ascii "Page"), collectLeaf_run hpage' hclosed hnamed, hstep, ?_⟩
  apply Collected.page
  · exact (hprepared.trans hstep).mono (fun _ _ hx => hx) (Set.empty_subset _)
  · exact Holds.frame hstep.frame hclosed _
      ⟨not_typeKeys kids_ne_type, fun a _ => not_typeKeys count_ne_type a,
        fun a _ => Set.notMem_empty a⟩ hpage'
  · rw [hstep.objectRef_eq hpage.1 hnamed]
    exact hnamed
  · exact .inl ⟨hunseen, rfl⟩
  · intro x
    rw [List.mem_cons, or_comm]

/-- A page that has been seen is replaced by a copy. -/
theorem copyPage_run (maxDepth depth index : ℕ) (h : CollectReady base slots copyFuel st [.page p])
    (hprepared : Prepared st.heap heap slots ∅) (hpage : (PageTree.page p).Holds heap)
    (hseen : p ∈ st.seen) (hk : k ∈ slots) (hitems : heap.arrayItems k = some items) :
    ∃ q heap₁ heap', heap.shallowCopy copyFuel p = .ok q heap₁ ∧
      collectPageRefs copyFuel maxDepth (depth + 1) false q
          { st with heap := (heap₁.makeIndirect q).setArrayItem k index q } =
        .ok 1 ⟨heap', st.pages ++ [q], st.seen, st.visited⟩ ∧
      Collected base slots st ⟨heap', st.pages ++ [q], st.seen, st.visited⟩ [k] [.page p] [.page q] ∧
      heap'.arrayItems k = some (items.set index q) := by
  have hclosed := hprepared.frame.closed
  have hbase : Prepared base heap slots Set.univ :=
    h.prepared.trans (hprepared.mono (fun _ _ hx => hx) (Set.empty_subset _))
  have hp := h.old p (h.leaves_sub p mem_leaves_page)
  rw [Holds] at hpage
  obtain ⟨n, hn, hcopyable⟩ := h.copyable p mem_leaves_page
  obtain ⟨m, hm⟩ : ∃ m, copyFuel = m + 1 := ⟨copyFuel - 1, by omega⟩
  have hcopyable' : heap.Copyable copyFuel p :=
    (hbase.copyable h.base_closed n p hp hcopyable).mono (by omega)
  obtain ⟨q, heap₁, hrun, hcopy⟩ :=
    Heap.shallowCopy_copies copyFuel p heap hclosed hpage.1 hcopyable'
  have hq_lt : q < heap₁.size := by
    rw [hcopy.last]
    exact Nat.lt_succ_self q
  obtain ⟨hdictionary, hkids⟩ := hcopy.hasKey_eq hclosed hpage.1 hpage.2.1 (ascii "/Kids")
  have hextends : Prepared heap heap₁ (insert q slots) {a | a ∈ [k]} :=
    .extends_ hcopy.adds.extends_ hcopy.adds.closed
  have hdirect : heap₁.isIndirect q = false := by
    rw [Heap.isIndirect, hcopy.adds.direct q hcopy.new hq_lt]
    rfl
  have hindirect : Prepared heap₁ (heap₁.makeIndirect q) (insert q slots) {a | a ∈ [k]} :=
    .makeIndirect hcopy.adds.closed hdirect (Set.mem_insert q slots)
  have hclosed₂ := hindirect.frame.closed
  have hnamed₂ : ((heap₁.makeIndirect q).objectRef q).isSome = true := Heap.objectRef_makeIndirect
  have hk_lt : k < heap.size := Nat.lt_of_lt_of_le (h.old k hk) hbase.frame.size_le
  have hk_lt₁ := Nat.lt_of_lt_of_le hk_lt hextends.frame.size_le
  have hitems₂ : (heap₁.makeIndirect q).arrayItems k = some items := by
    rw [Heap.arrayItems, Heap.value_makeIndirect, hcopy.adds.extends_.value_eq hk_lt]
    exact hitems
  have hreplace : Prepared (heap₁.makeIndirect q) ((heap₁.makeIndirect q).setArrayItem k index q)
      (insert q slots) {a | a ∈ [k]} :=
    .setArrayItem hclosed₂ hk_lt₁ hitems₂ hq_lt (Splice.isIndirect_of_objectRef hnamed₂)
      (Set.mem_insert_of_mem q hk) List.mem_cons_self
  obtain ⟨-, hset, -⟩ := Heap.setArrayItem_spec index hclosed₂ hk_lt₁ hitems₂ hq_lt
  have hpage₂ : (PageTree.page q).Holds (heap₁.makeIndirect q) := by
    rw [Holds, Heap.isDictionary_makeIndirect]
    refine ⟨hq_lt, hdictionary, ?_⟩
    rw [(Heap.frame_makeIndirect hcopy.adds.closed hdirect).hasKey_eq hcopy.adds.closed hq_lt
      (Set.notMem_empty _), hkids, hpage.2.2]
  have hpage₃ : (PageTree.page q).Holds ((heap₁.makeIndirect q).setArrayItem k index q) :=
    Holds.frame hreplace.frame hclosed₂ _
      ⟨not_typeKeys kids_ne_type, fun a _ => not_typeKeys count_ne_type a,
        fun a ha => absurd ha List.not_mem_nil⟩ hpage₂
  have hnamed₃ : (((heap₁.makeIndirect q).setArrayItem k index q).objectRef q).isSome = true := by
    rw [hreplace.objectRef_eq hq_lt hnamed₂]
    exact hnamed₂
  have hpage₃' := hpage₃
  rw [Holds] at hpage₃'
  have htype : Prepared ((heap₁.makeIndirect q).setArrayItem k index q)
      (((heap₁.makeIndirect q).setArrayItem k index q).setType q (ascii "Page")) (insert q slots) ∅ :=
    .setType hreplace.frame.closed hpage₃'.1 hpage₃'.2.1 (ascii "Page") (Set.mem_insert q slots)
  have hlast := hreplace.trans (htype.mono (fun _ _ hx => hx) (Set.empty_subset _))
  refine ⟨q, heap₁, _, hrun, collectLeaf_run hpage₃ hreplace.frame.closed hnamed₃, ?_, ?_⟩
  · apply Collected.page
    · have hbefore : Prepared st.heap heap (insert q slots) {a | a ∈ [k]} :=
        hprepared.mono (fun _ _ hx => Set.mem_insert_of_mem q hx) (Set.empty_subset _)
      apply (hbefore.trans (hextends.trans (hindirect.trans hlast))).mono
      · intro x hx hmem
        rcases Set.mem_insert_iff.mp hmem with rfl | hmem
        · exact absurd hx (Nat.not_lt.mpr (hprepared.frame.size_le.trans hcopy.new))
        · exact hmem
      · exact fun _ ha => ha
    · exact Holds.frame htype.frame hreplace.frame.closed _
        ⟨not_typeKeys kids_ne_type, fun a _ => not_typeKeys count_ne_type a,
          fun a _ => Set.notMem_empty a⟩ hpage₃
    · rw [htype.objectRef_eq hpage₃'.1 hnamed₃]
      exact hnamed₃
    · refine .inr ⟨hseen, hprepared.frame.size_le.trans hcopy.new, heap, m, ?_⟩
      rw [hm] at hcopy
      have hfresh := FreshPage.of_copy hbase hp hpage.2.1 hcopy
      apply hfresh.later hclosed₂ hlast.frame.size_le
      · intro x hle hlt hx
        have hslot := hlast.slot_eq x hlt (by
          intro hmem
          rcases Set.mem_insert_iff.mp hmem with rfl | hmem
          · rw [Splice.isIndirect_of_objectRef hnamed₂] at hx
            cases hx
          · exact Nat.lt_irrefl _ (Nat.lt_of_lt_of_le (h.old x hmem) hle))
        exact ⟨Heap.value_eq_of_slot_eq hslot, Heap.identity_eq_of_slot_eq hslot⟩
      · exact fun x hlt hx => hlast.frame.isIndirect_of hlt hx
      · rw [hlast.objectRef_eq hq_lt hnamed₂]
        exact hnamed₂
      · exact fun _ hx => hx
      · exact fun key hkey => hlast.frame.getKey_eq q hq_lt key fun hmem => hkey hmem
    · intro x
      refine ⟨.inl, ?_⟩
      rintro (hx | rfl)
      · exact hx
      · exact hseen
  · have hk_lt₃ := Nat.lt_of_lt_of_le hk_lt₁ hreplace.frame.size_le
    exact (htype.frame.arrayItems_eq hk_lt₃ (Set.notMem_empty k)).trans hset

/-- A page of the tree, in its place in the `/Kids` array. -/
theorem collectPage_run (maxDepth depth index : ℕ) (h : CollectReady base slots copyFuel st [.page p]) (hk : k ∈ slots)
    (hitems : st.heap.arrayItems k = some items) (hitem : items[index]? = some p) :
    ∃ st' q, (prepareKid copyFuel k index p st).andThen
        (collectPageRefs copyFuel maxDepth (depth + 1) false) = .ok 1 st' ∧
      Collected base slots st st' [k] [.page p] [.page q] ∧
      st'.heap.arrayItems k = some (items.set index q) := by
  obtain ⟨heap, hpromote, hprepared, hnamed, hitems'⟩ := promote_run h hitems hitem
  have hholds := h.holds
  rw [HoldsAll] at hholds
  have hclosed := h.prepared.frame.closed
  have hk_lt := Nat.lt_of_lt_of_le (h.old k hk) (h.prepared.frame.size_le.trans hprepared.frame.size_le)
  have hpage : (PageTree.page p).Holds heap :=
    Holds.frame hprepared.frame hclosed _
      ⟨not_typeKeys kids_ne_type, fun a _ => not_typeKeys count_ne_type a,
        fun a _ => Set.notMem_empty a⟩ hholds.1
  rw [prepareKid, Splice.hasKids_page hholds.1, if_neg Bool.false_ne_true]
  simp only [hpromote, Option.isNone_eq_false_iff.mpr hnamed, Bool.false_eq_true, if_false]
  by_cases hseen : p ∈ st.seen
  · obtain ⟨q, heap₁, heap', hrun, hrun', hcollected, hset⟩ :=
      copyPage_run maxDepth depth index h hprepared hpage hseen
        hk hitems'
    refine ⟨⟨heap', st.pages ++ [q], st.seen, st.visited⟩, q, ?_, hcollected, hset⟩
    rw [if_neg (not_not_intro hseen), hrun]
    exact hrun'
  · obtain ⟨heap', hrun, hstep, hcollected⟩ :=
      keepPage_run maxDepth depth [k] h hprepared hnamed hpage
        hseen
    refine ⟨_, p, ?_, hcollected, ?_⟩
    · rw [if_pos hseen]
      exact hrun
    · obtain ⟨hlt, hget⟩ := List.getElem?_eq_some_iff.mp hitem
      have hset : items.set index p = items := by
        rw [← hget, List.set_getElem_self]
      rw [hset]
      exact (hstep.frame.arrayItems_eq hk_lt (Set.notMem_empty k)).trans hitems'

/-! ## The walk -/

/-- The first walk gets through a node. -/
def Runs (base : Heap) (slots : Set Handle) (copyFuel maxDepth depth : ℕ) (node : Handle)
    (kids : List PageTree) : Prop :=
  ∀ isRoot st, CollectReady base slots copyFuel st [.pages node kids] →
    ∃ st' kids', collectPageRefs copyFuel maxDepth depth isRoot node st =
        .ok (leavesAll kids).length st' ∧
      Collected base slots st st' (kidsArrays base (node :: nodesAll kids)) [.pages node kids]
        [.pages node kids']

theorem collectKid_run {done rest : List Handle} (tree : PageTree) (hheight : tree.height ≤ depth)
    (hruns : ∀ node kids, tree = .pages node kids →
      Runs base slots copyFuel maxDepth depth node kids)
    (h : CollectReady base slots copyFuel st [tree]) (hk : k ∈ slots)
    (hfresh : k ∉ kidsArrays base tree.nodes)
    (hitems : st.heap.arrayItems k = some (done ++ tree.handle :: rest)) :
    ∃ st₁ tree', (prepareKid copyFuel k done.length tree.handle st).andThen
        (collectPageRefs copyFuel maxDepth depth false) = .ok tree.leaves.length st₁ ∧
      Collected base slots st st₁ (k :: kidsArrays base tree.nodes) [tree] [tree'] ∧
      st₁.heap.arrayItems k = some (done ++ tree'.handle :: rest) := by
  cases tree with
  | page p =>
    rw [height] at hheight
    obtain ⟨depth, rfl⟩ : ∃ m, depth = m + 1 := ⟨depth - 1, by omega⟩
    obtain ⟨st', q, hrun, hcollected, hset⟩ := collectPage_run maxDepth depth done.length h hk hitems
      (by simp [handle])
    refine ⟨st', .page q, hrun, hcollected.mono ?_, ?_⟩
    · intro a ha
      rw [List.mem_singleton.mp ha]
      exact List.mem_cons_self
    · rw [hset, List.set_append_right _ _ (Nat.le_refl _), Nat.sub_self, List.set_cons_zero, handle]
  | pages node kids =>
    obtain ⟨st', kids', hrun, hcollected⟩ := hruns node kids rfl false st h
    have hholds := h.holds
    rw [HoldsAll] at hholds
    have hk_lt := Nat.lt_of_lt_of_le (h.old k hk) h.prepared.frame.size_le
    refine ⟨st', .pages node kids', ?_, hcollected.mono fun a ha => List.mem_cons_of_mem k ha, ?_⟩
    · rw [handle, prepareKid, Splice.hasKids_pages hholds.1, if_pos rfl, Outcome.andThen_ok]
      exact hrun
    · exact (hcollected.prepared.frame.arrayItems_eq hk_lt hfresh).trans hitems

theorem collectKids_run (maxDepth : ℕ) : ∀ (trees : List PageTree), (∀ tree ∈ trees, tree.height ≤ depth) →
    (∀ tree ∈ trees, ∀ node kids, tree = .pages node kids →
      Runs base slots copyFuel maxDepth depth node kids) →
    ∀ st (done : List Handle) count, CollectReady base slots copyFuel st trees → k ∈ slots →
      k ∉ kidsArrays base (nodesAll trees) →
      st.heap.arrayItems k = some (done ++ trees.map handle) →
      ∃ st' trees', collectKids (collectPageRefs copyFuel maxDepth depth false) copyFuel k
          ((trees.map handle).zipIdx done.length) count st =
            .ok (count + (leavesAll trees).length) st' ∧
        Collected base slots st st' (k :: kidsArrays base (nodesAll trees)) trees trees' ∧
        st'.heap.arrayItems k = some (done ++ trees'.map handle) := by
  intro trees
  induction trees with
  | nil =>
    intro _ _ st done count h _ _ hitems
    refine ⟨st, [], rfl, ?_, hitems⟩
    constructor
    · exact .refl h.prepared.frame.closed
    · trivial
    · trivial
    · rw [leavesAll, List.append_nil]
    · exact fun p hp => absurd hp List.not_mem_nil
    · trivial
    · exact fun p => ⟨.inl, fun hor => hor.resolve_right List.not_mem_nil⟩
    · exact fun a ha => .inl ha
    · exact List.nodup_nil
    · exact fun p hp => absurd hp List.not_mem_nil
  | cons tree trees ih =>
    intro hheight hruns st done count h hk hfresh hitems
    have harrays := h.arrays_nodup
    rw [nodesAll, kidsArrays_append] at harrays hfresh
    rw [List.nodup_append] at harrays
    rw [List.mem_append, not_or] at hfresh
    obtain ⟨st₁, tree', hrun, hhead, hitems₁⟩ := collectKid_run tree (hheight tree List.mem_cons_self)
      (hruns tree List.mem_cons_self) h.head hk hfresh.1 hitems
    have htail : CollectReady base slots copyFuel st₁ trees := by
      apply h.tail hhead
      intro a ha hmem
      rcases List.mem_cons.mp hmem with rfl | hmem
      · exact hfresh.2 ha
      · exact harrays.2.2 a hmem a ha rfl
    have hitems₁' : st₁.heap.arrayItems k = some ((done ++ [tree'.handle]) ++ trees.map handle) := by
      rw [hitems₁, List.append_assoc, List.singleton_append]
    obtain ⟨st', trees', hrun', hrest, hitems'⟩ := ih
      (fun t ht => hheight t (List.mem_cons_of_mem _ ht))
      (fun t ht => hruns t (List.mem_cons_of_mem _ ht)) st₁ (done ++ [tree'.handle])
      (count + tree.leaves.length) htail hk hfresh.2 hitems₁'
    have hboth := Collected.cons h hhead hrest (by
      intro a ha hmem
      rcases List.mem_cons.mp hmem with rfl | hmem
      · exact hfresh.1 ha
      · exact harrays.2.2 a ha a hmem rfl)
    refine ⟨st', tree' :: trees', ?_, hboth.mono ?_, ?_⟩
    · rw [List.map_cons, List.zipIdx_cons, collectKids, ← Outcome.andThen_assoc, hrun,
        Outcome.andThen_ok, leavesAll, List.length_append, ← Nat.add_assoc, ← hrun',
        List.length_append, List.length_singleton]
    · intro a ha
      rw [nodesAll, kidsArrays_append]
      simp only [List.mem_append, List.mem_cons] at ha ⊢
      tauto
    · rw [hitems', List.append_assoc, List.map_cons, List.singleton_append]

/-- Below a node that has been given its type the walk is ready for the kids. -/
theorem CollectReady.below {node : Handle}
    (h : CollectReady base slots copyFuel st [.pages node kids])
    (hstep : Prepared st.heap heap slots ∅) (hk : st.heap.getKey node (ascii "/Kids") = some k) :
    CollectReady base slots copyFuel { st with heap := heap, visited := node :: st.visited } kids ∧
      k ∈ slots ∧ k ∉ kidsArrays base (nodesAll kids) := by
  obtain ⟨hclosed, hold, hprepared, hholds, hnameable, hcopyable, hnodes, hleaves, harrays, hnodup,
    hnodup', hunvisited⟩ := h
  simp only [HoldsAll, Holds, and_true] at hholds
  simp only [leavesAll_singleton, leaves] at hnameable hcopyable hleaves
  simp only [nodesAll_singleton, nodes] at hnodes harrays hnodup hnodup' hunvisited
  have hnode := hold node (hnodes node List.mem_cons_self)
  have hk' : base.getKey node (ascii "/Kids") = some k := by
    rw [← hprepared.frame.getKey_eq node hnode _ (not_typeKeys kids_ne_type node)]
    exact hk
  simp only [kidsArrays, List.filterMap_cons, hk', List.nodup_cons] at harrays hnodup'
  rw [List.nodup_cons] at hnodup
  refine ⟨⟨hclosed, hold, ?_, ?_, ?_, hcopyable, ?_, hleaves, ?_, hnodup.2, hnodup'.2, ?_⟩, ?_, hnodup'.1⟩
  · exact hprepared.trans (hstep.mono (fun _ _ hx => hx) (Set.empty_subset _))
  · exact HoldsAll.frame hstep.frame hprepared.frame.closed kids
      ⟨not_typeKeys kids_ne_type, fun a _ => not_typeKeys count_ne_type a,
        fun a _ => Set.notMem_empty a⟩ hholds.2.2.2.2
  · intro p hp
    exact (hnameable p hp).prepared hstep (HoldsAll.leaf_lt kids hholds.2.2.2.2 p hp)
  · exact fun a ha => hnodes a (List.mem_cons_of_mem _ ha)
  · exact fun a ha => harrays a (List.mem_cons_of_mem _ ha)
  · intro a ha hmem
    rcases List.mem_cons.mp hmem with rfl | hmem
    · exact hnodup.1 ha
    · exact hunvisited a (List.mem_cons_of_mem _ ha) hmem
  · exact harrays k List.mem_cons_self

/-- A node whose kids have been collected. -/
theorem Collected.node {node : Handle} {kids' : List PageTree}
    (h : CollectReady base slots copyFuel st [.pages node kids])
    (hstep : Prepared st.heap heap slots ∅) (hk : st.heap.getKey node (ascii "/Kids") = some k)
    (hcollected : Collected base slots { st with heap := heap, visited := node :: st.visited } st'
      (k :: kidsArrays base (nodesAll kids)) kids kids')
    (hitems : st'.heap.arrayItems k = some (kids'.map handle)) :
    Collected base slots st st' (kidsArrays base (node :: nodesAll kids)) [.pages node kids]
      [.pages node kids'] := by
  have hholds := h.holds
  simp only [HoldsAll, Holds, and_true] at hholds
  obtain ⟨hlt, hdictionary, -, hcount, -⟩ := hholds
  have hclosed := h.prepared.frame.closed
  have hnode := h.old node (h.nodes_sub node (by rw [nodesAll_singleton, nodes]; exact List.mem_cons_self))
  have hk' : base.getKey node (ascii "/Kids") = some k := by
    rw [← h.prepared.frame.getKey_eq node hnode _ (not_typeKeys kids_ne_type node)]
    exact hk
  have harrays : kidsArrays base (node :: nodesAll kids) = k :: kidsArrays base (nodesAll kids) := by
    rw [kidsArrays, List.filterMap_cons, hk']
    rfl
  have hlt₁ := Nat.lt_of_lt_of_le hlt hstep.frame.size_le
  have hframe := hcollected.prepared.frame
  obtain ⟨-, hlength, -⟩ := SameNodesAll.nodes_eq kids kids' hcollected.same
  have hall : Prepared st.heap st'.heap slots {a | a ∈ k :: kidsArrays base (nodesAll kids)} :=
    (hstep.mono (fun _ _ hx => hx) (Set.empty_subset _)).trans hcollected.prepared
  rw [harrays]
  constructor
  · exact hall
  · rw [SameNodesAll, SameNodes]
    exact ⟨⟨rfl, hcollected.same⟩, trivial⟩
  · rw [HoldsAll, Holds]
    refine ⟨⟨Nat.lt_of_lt_of_le hlt hall.frame.size_le, ?_, ?_, ?_, hcollected.holds⟩, trivial⟩
    · rw [hall.frame.isDictionary_eq node hlt, hdictionary]
    · rw [Heap.arrayAt, hall.frame.getKey_eq node hlt _ (not_typeKeys kids_ne_type node), hk,
        Option.bind_some, hitems]
    · rw [hall.frame.countOf_eq hclosed hlt (not_typeKeys count_ne_type node), hcount, hlength]
  · rw [leavesAll_singleton, leaves]
    exact hcollected.pages_eq
  · rw [leavesAll_singleton, leaves]
    exact hcollected.named
  · rw [leavesAll_singleton, leavesAll_singleton, leaves, leaves]
    exact hcollected.deduped
  · rw [leavesAll_singleton, leaves]
    exact hcollected.seen
  · rw [nodesAll_singleton, nodes]
    intro a ha
    rw [List.mem_cons]
    rcases hcollected.visited a ha with hold | hnew
    · rcases List.mem_cons.mp hold with rfl | hold
      · exact .inr (.inl rfl)
      · exact .inl hold
    · exact .inr (.inr hnew)
  · rw [leavesAll_singleton, leaves]
    exact hcollected.nodup
  · rw [leavesAll_singleton, leavesAll_singleton, leaves, leaves]
    intro p hp
    exact (hcollected.new p hp).imp id fun hle => hstep.frame.size_le.trans hle

/-- The first walk gets through every node whose tree is not too high. -/
theorem collectPageRefs_run : ∀ (depth : ℕ) (node : Handle) (kids : List PageTree),
    heightAll kids < depth → Runs base slots copyFuel maxDepth depth node kids := by
  intro depth
  induction depth with
  | zero => exact fun node kids h => absurd h (Nat.not_lt_zero _)
  | succ depth ih =>
    intro node kids hheight isRoot st h
    have hholds := h.holds
    have hunvisited := h.unvisited node (by rw [nodesAll_singleton, nodes]; exact List.mem_cons_self)
    simp only [HoldsAll, Holds, and_true] at hholds
    obtain ⟨hlt, hdictionary, hitems, hcount, -⟩ := hholds
    obtain ⟨k, hk, hitems'⟩ : ∃ k, st.heap.getKey node (ascii "/Kids") = some k ∧
        st.heap.arrayItems k = some (kids.map handle) := by
      rw [Heap.arrayAt, Option.bind_eq_some_iff] at hitems
      exact hitems
    have hclosed := h.prepared.frame.closed
    have hstep : Prepared st.heap (st.heap.setType node (ascii "Pages")) slots ∅ :=
      .setType hclosed hlt hdictionary (ascii "Pages")
        (h.nodes_sub node (by rw [nodesAll_singleton, nodes]; exact List.mem_cons_self))
    obtain ⟨hready, hk_mem, hk_fresh⟩ := h.below hstep hk
    have hk_lt := hclosed.getKey_lt hlt hk
    have hlt₁ := Nat.lt_of_lt_of_le hlt hstep.frame.size_le
    have hk₁ := (hstep.frame.getKey_eq node hlt _ (not_typeKeys kids_ne_type node)).trans hk
    have hitems₁ := (hstep.frame.arrayItems_eq hk_lt (Set.notMem_empty k)).trans hitems'
    have hruns : ∀ tree ∈ kids, ∀ node kids, tree = .pages node kids →
        Runs base slots copyFuel maxDepth depth node kids := by
      rintro tree htree node' kids' rfl
      apply ih
      have hle := height_le_heightAll htree
      rw [height] at hle
      omega
    obtain ⟨st', kids', hrun, hcollected, hitems₂⟩ := collectKids_run maxDepth kids
      (fun tree htree => (height_le_heightAll htree).trans (Nat.le_of_lt_succ hheight)) hruns
      { st with heap := st.heap.setType node (ascii "Pages"), visited := node :: st.visited } []
      0 hready hk_mem hk_fresh hitems₁
    have hframe := hcollected.prepared.frame
    have hcount₂ : st'.heap.countOf node = some ((leavesAll kids).length : ℤ) := by
      rw [hframe.countOf_eq hstep.frame.closed hlt₁ (not_typeKeys count_ne_type node),
        hstep.frame.countOf_eq hclosed hlt (not_typeKeys count_ne_type node)]
      exact hcount
    have hdeclared : st'.heap.declaredCount node = .ok (leavesAll kids).length := by
      rw [Heap.declaredCount, hcount₂]
      simp
    refine ⟨st', kids', ?_, ?_⟩
    · rw [collectPageRefs]
      simp only [hdictionary, Bool.not_true, Bool.false_eq_true, if_false,
        Heap.hasKey_of_arrayAt hitems, Bool.or_true, hunvisited, Heap.arrayAt, hk₁,
        Option.bind_some, hitems₁, Option.getD_some]
      rw [List.length_nil] at hrun
      simp only [hrun, Outcome.andThen_ok, hdeclared, Nat.zero_add, ne_eq, not_true_eq_false, if_false]
    · exact hcollected.node h hstep hk hitems₂

end CollectState

end Flpdf
