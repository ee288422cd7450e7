import Flpdf.Pages.SpliceTree

/-!
# The splicing walk over a stored tree

The walk turns the heap that holds a page tree into one that holds the spliced tree.
It changes the `/Count` and the `/Kids` items of the nodes and the `/Parent` of the
inserted pages.
-/

namespace Flpdf

open PageTree

variable {heap heap' : Heap} {node : Handle} {kids new new' trees : List PageTree}
  {keys : Set (Handle × Bytes)} {arrays promoted : Set Handle}

namespace PageTree

mutual

/-- The heap holds this tree: pages without `/Kids`, and nodes with their `/Kids` and with the
number of their pages as `/Count`. -/
def Holds (heap : Heap) : PageTree → Prop
  | page p => p < heap.size ∧ heap.isDictionary p = true ∧
      heap.hasKey p (ascii "/Kids") = false
  | pages node kids => node < heap.size ∧ heap.isDictionary node = true ∧
      heap.arrayAt node (ascii "/Kids") = some (kids.map handle) ∧
      heap.countOf node = some ((leavesAll kids).length : ℤ) ∧ HoldsAll heap kids

def HoldsAll (heap : Heap) : List PageTree → Prop
  | [] => True
  | tree :: trees => tree.Holds heap ∧ HoldsAll heap trees

end

/-- The `/Kids` arrays of the nodes. -/
def kidsArrays (heap : Heap) (nodes : List Handle) : List Handle :=
  nodes.filterMap fun node => heap.getKey node (ascii "/Kids")

theorem holdsAll_append : HoldsAll heap (new ++ new') ↔ HoldsAll heap new ∧ HoldsAll heap new' := by
  induction new with
  | nil => simp [HoldsAll]
  | cons tree trees ih => rw [List.cons_append, HoldsAll, HoldsAll, ih, and_assoc]

theorem kidsArrays_append (nodes nodes' : List Handle) :
    kidsArrays heap (nodes ++ nodes') = kidsArrays heap nodes ++ kidsArrays heap nodes' :=
  List.filterMap_append

mutual

theorem Holds.node_lt : ∀ tree : PageTree, tree.Holds heap → ∀ a ∈ tree.nodes, a < heap.size
  | .page p, _, a, ha => by
    rw [nodes] at ha
    cases ha
  | .pages node kids, h, a, ha => by
    rw [Holds] at h
    rw [nodes, List.mem_cons] at ha
    rcases ha with rfl | ha
    · exact h.1
    · exact HoldsAll.node_lt kids h.2.2.2.2 a ha

theorem HoldsAll.node_lt : ∀ trees : List PageTree, HoldsAll heap trees →
    ∀ a ∈ nodesAll trees, a < heap.size
  | [], _, a, ha => by
    rw [nodesAll] at ha
    cases ha
  | tree :: trees, h, a, ha => by
    rw [HoldsAll] at h
    rw [nodesAll, List.mem_append] at ha
    rcases ha with ha | ha
    · exact Holds.node_lt tree h.1 a ha
    · exact HoldsAll.node_lt trees h.2 a ha

end

mutual

theorem Holds.leaf_lt : ∀ tree : PageTree, tree.Holds heap → ∀ p ∈ tree.leaves, p < heap.size
  | .page p, h, q, hq => by
    rw [Holds] at h
    rw [leaves, List.mem_singleton] at hq
    rw [hq]
    exact h.1
  | .pages node kids, h, p, hp => by
    rw [Holds] at h
    rw [leaves] at hp
    exact HoldsAll.leaf_lt kids h.2.2.2.2 p hp

theorem HoldsAll.leaf_lt : ∀ trees : List PageTree, HoldsAll heap trees →
    ∀ p ∈ leavesAll trees, p < heap.size
  | [], _, p, hp => by
    rw [leavesAll] at hp
    cases hp
  | tree :: trees, h, p, hp => by
    rw [HoldsAll] at h
    rw [leavesAll, List.mem_append] at hp
    rcases hp with hp | hp
    · exact Holds.leaf_lt tree h.1 p hp
    · exact HoldsAll.leaf_lt trees h.2 p hp

end

end PageTree

namespace Heap

theorem Frame.arrayAt_eq {key : Bytes} {a : Handle} (h : Frame heap heap' keys arrays promoted)
    (hclosed : heap.Closed) (ha : a < heap.size) (hkey : (a, key) ∉ keys)
    (harray : ∀ array, heap.getKey a key = some array → array ∉ arrays) :
    heap'.arrayAt a key = heap.arrayAt a key := by
  rw [arrayAt, arrayAt, h.getKey_eq a ha key hkey]
  cases hget : heap.getKey a key with
  | none => rfl
  | some array => exact h.arrayItems_eq (hclosed.getKey_lt ha hget) (harray array hget)

theorem Frame.countOf_eq {a : Handle} (h : Frame heap heap' keys arrays promoted)
    (hclosed : heap.Closed) (ha : a < heap.size) (hkey : (a, ascii "/Count") ∉ keys) :
    heap'.countOf a = heap.countOf a := by
  rw [countOf, countOf, h.getKey_eq a ha _ hkey]
  cases hget : heap.getKey a (ascii "/Count") with
  | none => rfl
  | some count => exact h.integerAt_eq (hclosed.getKey_lt ha hget)

end Heap

/-- The keys that a splice changes. -/
def spliceKeys (nodes pages : List Handle) : Set (Handle × Bytes) :=
  {entry | entry.2 = ascii "/Count" ∧ entry.1 ∈ nodes ∨ entry.2 = ascii "/Parent" ∧ entry.1 ∈ pages}

/-- A change that leaves the `/Kids` of all dictionaries and the rest of this tree alone. -/
structure Spares (heap : Heap) (keys : Set (Handle × Bytes)) (arrays : Set Handle)
    (nodes : List Handle) : Prop where
  kids : ∀ a, (a, ascii "/Kids") ∉ keys
  count : ∀ a ∈ nodes, (a, ascii "/Count") ∉ keys
  array : ∀ array ∈ PageTree.kidsArrays heap nodes, array ∉ arrays

mutual

theorem PageTree.Holds.frame (hframe : Heap.Frame heap heap' keys arrays promoted)
    (hclosed : heap.Closed) : ∀ tree : PageTree, Spares heap keys arrays tree.nodes →
    tree.Holds heap → tree.Holds heap'
  | .page p, hspares, h => by
    rw [Holds] at h ⊢
    rw [hframe.isDictionary_eq p h.1, hframe.hasKey_eq hclosed h.1 (hspares.kids p)]
    exact ⟨Nat.lt_of_lt_of_le h.1 hframe.size_le, h.2⟩
  | .pages node kids, hspares, h => by
    rw [Holds] at h ⊢
    rw [nodes] at hspares
    have hnode : node ∈ node :: nodesAll kids := List.mem_cons_self
    have harray : ∀ array, heap.getKey node (ascii "/Kids") = some array → array ∉ arrays :=
      fun array hget => hspares.array array (List.mem_filterMap.mpr ⟨node, hnode, hget⟩)
    rw [hframe.isDictionary_eq node h.1, hframe.countOf_eq hclosed h.1 (hspares.count node hnode),
      hframe.arrayAt_eq hclosed h.1 (hspares.kids node) harray]
    refine ⟨Nat.lt_of_lt_of_le h.1 hframe.size_le, h.2.1, h.2.2.1, h.2.2.2.1, ?_⟩
    apply HoldsAll.frame hframe hclosed kids _ h.2.2.2.2
    refine ⟨hspares.kids, fun a ha => hspares.count a (List.mem_cons_of_mem _ ha), ?_⟩
    intro array hmem
    obtain ⟨a, ha, hget⟩ := List.mem_filterMap.mp hmem
    exact hspares.array array (List.mem_filterMap.mpr ⟨a, List.mem_cons_of_mem _ ha, hget⟩)

theorem PageTree.HoldsAll.frame (hframe : Heap.Frame heap heap' keys arrays promoted)
    (hclosed : heap.Closed) : ∀ trees : List PageTree, Spares heap keys arrays (nodesAll trees) →
    HoldsAll heap trees → HoldsAll heap' trees
  | [], _, h => h
  | tree :: trees, hspares, h => by
    rw [HoldsAll] at h ⊢
    rw [nodesAll] at hspares
    have hpart : ∀ part, (∀ a ∈ part, a ∈ tree.nodes ++ nodesAll trees) →
        Spares heap keys arrays part := by
      intro part hsub
      refine ⟨hspares.kids, fun a ha => hspares.count a (hsub a ha), ?_⟩
      intro array hmem
      obtain ⟨a, ha, hget⟩ := List.mem_filterMap.mp hmem
      exact hspares.array array (List.mem_filterMap.mpr ⟨a, hsub a ha, hget⟩)
    exact ⟨Holds.frame hframe hclosed tree (hpart _ fun a ha => List.mem_append_left _ ha) h.1,
      HoldsAll.frame hframe hclosed trees (hpart _ fun a ha => List.mem_append_right _ ha) h.2⟩

end

theorem kids_ne_count : ascii "/Kids" ≠ ascii "/Count" := by
  decide

theorem kids_ne_parent : ascii "/Kids" ≠ ascii "/Parent" := by
  decide

theorem count_ne_parent : ascii "/Count" ≠ ascii "/Parent" := by
  decide

theorem kids_not_spliceKeys (nodes pages : List Handle) (a : Handle) :
    (a, ascii "/Kids") ∉ spliceKeys nodes pages := by
  rintro (⟨h, -⟩ | ⟨h, -⟩)
  · exact kids_ne_count h
  · exact kids_ne_parent h

theorem count_not_spliceKeys {nodes : List Handle} (pages : List Handle) {a : Handle}
    (ha : a ∉ nodes) : (a, ascii "/Count") ∉ spliceKeys nodes pages := by
  rintro (⟨-, h⟩ | ⟨h, -⟩)
  · exact ha h
  · exact count_ne_parent h

theorem parent_not_spliceKeys (nodes : List Handle) {pages : List Handle} {a : Handle}
    (ha : a ∉ pages) : (a, ascii "/Parent") ∉ spliceKeys nodes pages := by
  rintro (⟨h, -⟩ | ⟨-, h⟩)
  · exact count_ne_parent h.symm
  · exact ha h

theorem spliceKeys_union (nodes nodes' pages pages' : List Handle) :
    spliceKeys nodes pages ∪ spliceKeys nodes' pages' =
      spliceKeys (nodes ++ nodes') (pages ++ pages') := by
  ext entry
  simp only [spliceKeys, Set.mem_union, Set.mem_ofPred_eq, List.mem_append]
  tauto

/-- A splice elsewhere spares these nodes. -/
theorem spares_of_disjoint {nodes nodes' pages arrays : List Handle}
    (hnodes : ∀ a ∈ nodes, a ∉ nodes')
    (harrays : ∀ array ∈ PageTree.kidsArrays heap nodes, array ∉ arrays) :
    Spares heap (spliceKeys nodes' pages) {a | a ∈ arrays} nodes where
  kids := kids_not_spliceKeys nodes' pages
  count a ha := count_not_spliceKeys pages (hnodes a ha)
  array := harrays

theorem kidsArrays_frame {nodes : List Handle} (hframe : Heap.Frame heap heap' keys arrays promoted)
    (hkids : ∀ a, (a, ascii "/Kids") ∉ keys) (hlt : ∀ a ∈ nodes, a < heap.size) :
    PageTree.kidsArrays heap' nodes = PageTree.kidsArrays heap nodes := by
  apply List.filterMap_congr
  intro a ha
  exact hframe.getKey_eq a (hlt a ha) _ (hkids a)

namespace Splice

variable {splice : Splice} {st st₁ st₂ : SpliceState} {placed placed₁ placed₂ : Option Handle}
  {nodes nodes' arrays arrays' : List Handle}

/-- What the walk needs of the inserted pages. -/
structure InsertReady (splice : Splice) (heap : Heap) : Prop where
  lt : ∀ p ∈ splice.insert, p < heap.size
  dictionary : ∀ p ∈ splice.insert, heap.isDictionary p = true
  no_kids : ∀ p ∈ splice.insert, heap.hasKey p (ascii "/Kids") = false
  named : ∀ p ∈ splice.insert, (heap.objectRef p).isSome = true

/-- What a part of the walk does to the heap; it has placed the inserted pages when it is the
first to have a node for them. -/
structure Spliced (splice : Splice) (st st' : SpliceState) (placed placed' : Option Handle)
    (nodes arrays : List Handle) (new : List PageTree) : Prop where
  done : st'.insertDone = placed'.isSome
  frame : Heap.Frame st.heap st'.heap (spliceKeys nodes (splice.placedHere placed placed'))
    {a | a ∈ arrays} ∅
  holds : HoldsAll st'.heap new
  named : ∀ p ∈ leavesAll new, (st'.heap.objectRef p).isSome = true
  nodes_sub : ∀ a ∈ nodesAll new, a ∈ nodes
  arrays_sub : ∀ array ∈ kidsArrays st'.heap (nodesAll new), array ∈ arrays
  keep : placed ≠ none → placed' = placed
  parents : ∀ node, placed = none → placed' = some node → node < st'.heap.size ∧
    ∀ p ∈ splice.insert, st'.heap.getKey p (ascii "/Parent") =
      if (st'.heap.objectRef node).isSome then some node else st.heap.getKey p (ascii "/Parent")

theorem objectRef_frame {a : Handle} {keys : Set (Handle × Bytes)} {arrays : Set Handle}
    (hframe : Heap.Frame heap heap' keys arrays ∅) (ha : a < heap.size) :
    heap'.objectRef a = heap.objectRef a := by
  rw [Heap.objectRef, Heap.objectRef, hframe.identity_eq a ha (Set.notMem_empty a)]

theorem InsertReady.frame {keys : Set (Handle × Bytes)} {arrays : Set Handle}
    (h : splice.InsertReady heap) (hclosed : heap.Closed)
    (hframe : Heap.Frame heap heap' keys arrays ∅) (hkids : ∀ a, (a, ascii "/Kids") ∉ keys) :
    splice.InsertReady heap' where
  lt p hp := Nat.lt_of_lt_of_le (h.lt p hp) hframe.size_le
  dictionary p hp := (hframe.isDictionary_eq p (h.lt p hp)).trans (h.dictionary p hp)
  no_kids p hp := (hframe.hasKey_eq hclosed (h.lt p hp) (hkids p)).trans (h.no_kids p hp)
  named p hp := by
    rw [objectRef_frame hframe (h.lt p hp)]
    exact h.named p hp

theorem InsertReady.holdsAll (h : splice.InsertReady heap) :
    HoldsAll heap (splice.insert.map page) := by
  have hpages : ∀ pages : List Handle, (∀ p ∈ pages, p ∈ splice.insert) →
      HoldsAll heap (pages.map page) := by
    intro pages
    induction pages with
    | nil => exact fun _ => trivial
    | cons p pages ih =>
      intro hsub
      have hp := hsub p List.mem_cons_self
      rw [List.map_cons, HoldsAll, Holds]
      exact ⟨⟨h.lt p hp, h.dictionary p hp, h.no_kids p hp⟩,
        ih fun q hq => hsub q (List.mem_cons_of_mem _ hq)⟩
  exact hpages splice.insert fun _ hp => hp

theorem Spliced.append (hinsert : splice.InsertReady st.heap)
    (h : splice.Spliced st st₁ placed placed₁ nodes arrays new)
    (h' : splice.Spliced st₁ st₂ placed₁ placed₂ nodes' arrays' new')
    (hnodes : ∀ a ∈ nodes, a ∉ nodes') (harrays : ∀ a ∈ arrays, a ∉ arrays') :
    splice.Spliced st st₂ placed placed₂ (nodes ++ nodes') (arrays ++ arrays') (new ++ new') := by
  have hspares : Spares st₁.heap (spliceKeys nodes' (splice.placedHere placed₁ placed₂))
      {a | a ∈ arrays'} (nodesAll new) :=
    spares_of_disjoint (fun a ha => hnodes a (h.nodes_sub a ha))
      (fun array harray => harrays array (h.arrays_sub array harray))
  have hnew := HoldsAll.frame h'.frame h.frame.closed new hspares h.holds
  have hpages : splice.placedHere placed placed₁ ++ splice.placedHere placed₁ placed₂ =
      splice.placedHere placed placed₂ := by
    rw [placedHere, placedHere, placedHere]
    by_cases h₁ : placed₁ = none
    · have h₀ : placed = none := by
        by_contra hne
        exact hne ((h.keep hne).symm.trans h₁)
      simp only [h₁, h₀, ne_eq, not_true_eq_false, and_false, if_false, List.nil_append]
    · have h₂ := h'.keep h₁
      simp only [h₂, h₁, ne_eq, not_false_eq_true, and_true, if_false, List.append_nil]
  constructor
  · exact h'.done
  · have hboth := h.frame.trans h'.frame
    rw [spliceKeys_union, hpages, Set.union_empty] at hboth
    apply hboth.mono (fun _ hx => hx) _ (fun _ hx => hx)
    intro a ha
    exact List.mem_append.mpr ha
  · exact holdsAll_append.mpr ⟨hnew, h'.holds⟩
  · intro p hp
    rw [leavesAll_append, List.mem_append] at hp
    rcases hp with hp | hp
    · rw [objectRef_frame h'.frame (HoldsAll.leaf_lt new h.holds p hp)]
      exact h.named p hp
    · exact h'.named p hp
  · intro a ha
    rw [nodesAll_append, List.mem_append] at ha
    rw [List.mem_append]
    exact ha.imp (h.nodes_sub a) (h'.nodes_sub a)
  · intro array harray
    rw [nodesAll_append, kidsArrays_append, List.mem_append] at harray
    rw [List.mem_append]
    apply harray.imp _ (h'.arrays_sub array)
    intro hold
    rw [kidsArrays_frame h'.frame (kids_not_spliceKeys _ _) (HoldsAll.node_lt new h.holds)] at hold
    exact h.arrays_sub array hold
  · intro hne
    have h₁ := h.keep hne
    exact (h'.keep (by rw [h₁]; exact hne)).trans h₁
  · intro node hnone hsome
    by_cases h₁ : placed₁ = none
    · obtain ⟨hlt, hparents⟩ := h'.parents node h₁ hsome
      refine ⟨hlt, ?_⟩
      intro p hp
      have hnot : p ∉ splice.placedHere placed placed₁ := by
        rw [placedHere, if_neg fun hboth => hboth.2 h₁]
        exact List.not_mem_nil
      rw [hparents p hp, h.frame.getKey_eq p (hinsert.lt p hp) _ (parent_not_spliceKeys _ hnot)]
    · have h₂ : placed₁ = some node := (h'.keep h₁).symm.trans hsome
      obtain ⟨hlt, hparents⟩ := h.parents node hnone h₂
      refine ⟨Nat.lt_of_lt_of_le hlt h'.frame.size_le, ?_⟩
      intro p hp
      have hnot : p ∉ splice.placedHere placed₁ placed₂ := by
        rw [placedHere, if_neg fun hboth => h₁ hboth.1]
        exact List.not_mem_nil
      have hp_lt := Nat.lt_of_lt_of_le (hinsert.lt p hp) h.frame.size_le
      rw [h'.frame.getKey_eq p hp_lt _ (parent_not_spliceKeys _ hnot), objectRef_frame h'.frame hlt]
      exact hparents p hp

theorem Spliced.refl (hclosed : st.heap.Closed) (hdone : st.insertDone = placed.isSome) :
    splice.Spliced st st placed placed [] [] [] where
  done := hdone
  frame := (Heap.Frame.refl hclosed).mono (Set.empty_subset _) (Set.empty_subset _) (fun _ hx => hx)
  holds := trivial
  named _ hp := absurd hp List.not_mem_nil
  nodes_sub _ ha := absurd ha List.not_mem_nil
  arrays_sub _ harray := absurd harray List.not_mem_nil
  keep _ := rfl
  parents node hnone hsome := by
    rw [hnone] at hsome
    cases hsome

/-! ## The inserted pages -/

theorem setPageParents_run (node : Handle) : ∀ (pages : List Handle) (st : SpliceState),
    st.heap.Closed → node < st.heap.size → st.heap.isNull node = false →
    (∀ p ∈ pages, p < st.heap.size ∧ st.heap.isDictionary p = true) →
    ∃ st', setPageParents node pages st = .ok () st' ∧ st'.insertDone = st.insertDone ∧
      Heap.Frame st.heap st'.heap (spliceKeys [] pages) ∅ ∅ ∧
      ∀ p ∈ pages, st'.heap.getKey p (ascii "/Parent") =
        if (st.heap.objectRef node).isSome then some node
        else st.heap.getKey p (ascii "/Parent") := by
  intro pages
  induction pages with
  | nil =>
    intro st hclosed _ _ _
    refine ⟨st, rfl, rfl, ?_, fun p hp => absurd hp List.not_mem_nil⟩
    exact (Heap.Frame.refl hclosed).mono (Set.empty_subset _) (fun _ hx => hx) (fun _ hx => hx)
  | cons page pages ih =>
    intro st hclosed hlt hnull hpages
    obtain ⟨hpage_lt, hdictionary⟩ := hpages page List.mem_cons_self
    rw [setPageParents, hdictionary, Bool.not_true, if_neg Bool.false_ne_true]
    cases hnamed : (st.heap.objectRef node).isSome with
    | false =>
      rw [if_neg Bool.false_ne_true]
      obtain ⟨st', hrun, hdone, hframe, hparents⟩ :=
        ih st hclosed hlt hnull fun p hp => hpages p (List.mem_cons_of_mem _ hp)
      rw [hnamed] at hparents
      simp only [Bool.false_eq_true, if_false] at hparents ⊢
      refine ⟨st', hrun, hdone, ?_, ?_⟩
      · apply hframe.mono _ (fun _ hx => hx) (fun _ hx => hx)
        rintro entry (⟨-, hmem⟩ | ⟨hkey, hmem⟩)
        · cases hmem
        · exact .inr ⟨hkey, List.mem_cons_of_mem _ hmem⟩
      · intro p hp
        by_cases hmem : p ∈ pages
        · exact hparents p hmem
        · have hpage : p = page := (List.mem_cons.mp hp).resolve_right hmem
          rw [hpage] at hmem ⊢
          exact hframe.getKey_eq page hpage_lt _ (parent_not_spliceKeys [] hmem)
    | true =>
      rw [if_pos rfl]
      have hset := Heap.frame_replaceKey hclosed (ascii "/Parent") hdictionary hnull hlt
      have hpages' : ∀ p ∈ pages,
          p < (st.heap.replaceKey page (ascii "/Parent") node).size ∧
            (st.heap.replaceKey page (ascii "/Parent") node).isDictionary p = true := by
        intro p hp
        obtain ⟨hp_lt, hp_dictionary⟩ := hpages p (List.mem_cons_of_mem _ hp)
        rw [Heap.size_replaceKey, Heap.isDictionary_replaceKey]
        exact ⟨hp_lt, hp_dictionary⟩
      obtain ⟨st', hrun, hdone, hframe, hparents⟩ :=
        ih { st with heap := st.heap.replaceKey page (ascii "/Parent") node } hset.closed
          (Nat.lt_of_lt_of_le hlt hset.size_le) ((hset.isNull_eq node hlt).trans hnull) hpages'
      refine ⟨st', hrun, hdone, ?_, ?_⟩
      · apply (hset.trans hframe).mono
        · rintro entry (rfl | ⟨-, hmem⟩ | ⟨hkey, hmem⟩)
          · exact .inr ⟨rfl, List.mem_cons_self⟩
          · cases hmem
          · exact .inr ⟨hkey, List.mem_cons_of_mem _ hmem⟩
        · exact fun a ha => ha.elim id id
        · exact fun a ha => ha.elim id id
      · intro p hp
        have hnamed' : ((st.heap.replaceKey page (ascii "/Parent") node).objectRef node).isSome =
            true := by
          rw [objectRef_frame hset hlt]
          exact hnamed
        rw [hnamed'] at hparents
        rw [if_pos rfl]
        by_cases hmem : p ∈ pages
        · exact hparents p hmem
        · have hpage : p = page := (List.mem_cons.mp hp).resolve_right hmem
          rw [hframe.getKey_eq p (by rw [hpage, Heap.size_replaceKey]; exact hpage_lt) _
            (parent_not_spliceKeys [] hmem), hpage, Heap.getKey_replaceKey hdictionary hnull,
            if_pos rfl]

/-- The step at a place where the inserted pages may go. -/
theorem insertAt_run (hinsert : splice.InsertReady st.heap) (hclosed : st.heap.Closed)
    (node : Handle) (hlt : node < st.heap.size) (hnode : st.heap.isDictionary node = true)
    (hdone : st.insertDone = placed.isSome) (now : NewKids) :
    ∃ st', splice.insertAt node now st =
        .ok ⟨now.kids ++ (splice.place node now.offset placed).1.map handle,
          now.netDelta + (leavesAll (splice.place node now.offset placed).1).length, now.offset⟩ st' ∧
      splice.Spliced st st' placed (splice.place node now.offset placed).2 [] []
        (splice.place node now.offset placed).1 := by
  have hnone : placed.isNone = !st.insertDone := by
    rw [hdone]
    cases placed <;> rfl
  rw [insertAt, place, hnone]
  by_cases h : (!st.insertDone) = true ∧ splice.start = now.offset
  · have hcode : (!st.insertDone && splice.start == now.offset) = true := by
      simpa using h
    rw [if_pos hcode, if_pos h]
    obtain ⟨st', hrun, -, hframe, hparents⟩ := setPageParents_run node splice.insert st hclosed hlt
      (Heap.isNull_of_isDictionary hnode) fun p hp => ⟨hinsert.lt p hp, hinsert.dictionary p hp⟩
    rw [hrun, Outcome.andThen_ok]
    have hplaced : placed = none := by
      rw [← Option.isNone_iff_eq_none, hnone]
      exact h.1
    have hready := hinsert.frame hclosed hframe (kids_not_spliceKeys _ _)
    have hfresh : splice.placedHere placed (some node) = splice.insert := by
      rw [placedHere, if_pos ⟨hplaced, Option.some_ne_none node⟩]
    refine ⟨{ st' with insertDone := true }, ?_, ?_⟩
    · have hmap : (splice.insert.map page).map handle = splice.insert := by
        rw [List.map_map]
        exact List.map_id _
      simp only [hmap, leavesAll_map_page]
    · constructor
      · rfl
      · rw [hfresh]
        exact hframe.mono (fun _ hx => hx) (Set.empty_subset _) (fun _ hx => hx)
      · exact hready.holdsAll
      · rw [leavesAll_map_page]
        exact hready.named
      · rw [nodesAll_map_page]
        exact fun a ha => ha
      · rw [nodesAll_map_page]
        exact fun a ha => ha
      · exact fun hne => absurd hplaced hne
      · intro other _ hsome
        cases hsome
        refine ⟨Nat.lt_of_lt_of_le hlt hframe.size_le, ?_⟩
        rw [objectRef_frame hframe hlt]
        exact hparents
  · have hcode : ¬(!st.insertDone && splice.start == now.offset) = true := by
      simpa using h
    rw [if_neg hcode, if_neg h]
    refine ⟨st, ?_, Spliced.refl hclosed hdone⟩
    simp only [List.map_nil, List.append_nil, leavesAll, List.length_nil, Nat.cast_zero, add_zero]

/-! ## What the walk reads -/

theorem leafCountOf_eq {tree : PageTree} (h : tree.Holds heap) :
    heap.leafCountOf tree.handle = .ok tree.leaves.length := by
  cases tree with
  | page p =>
    rw [Holds] at h
    rw [handle, Heap.leafCountOf, h.2.1, h.2.2]
    rfl
  | pages node kids =>
    rw [Holds] at h
    rw [handle, Heap.leafCountOf, h.2.1, Heap.hasKey_of_arrayAt h.2.2.1, Heap.declaredCount,
      h.2.2.2.1]
    simp [leaves]

theorem hasKids_page {p : Handle} (h : (PageTree.page p).Holds heap) : heap.hasKids p = false := by
  rw [Holds] at h
  rw [Heap.hasKids, h.2.1, h.2.2]
  rfl

theorem hasKids_pages (h : (PageTree.pages node kids).Holds heap) : heap.hasKids node = true := by
  rw [Holds] at h
  rw [Heap.hasKids, h.2.1, Heap.hasKey_of_arrayAt h.2.2.1]
  rfl

theorem sumLeafCounts_eq : ∀ (trees : List PageTree) (total : ℕ), HoldsAll heap trees →
    sumLeafCounts heap (trees.map handle) total = .ok (total + (leavesAll trees).length) := by
  intro trees
  induction trees with
  | nil => exact fun total _ => rfl
  | cons tree trees ih =>
    intro total h
    rw [HoldsAll] at h
    rw [List.map_cons, sumLeafCounts, leafCountOf_eq h.1]
    simp only [ih _ h.2, leavesAll, List.length_append, Nat.add_assoc]

theorem isIndirect_of_objectRef {a : Handle} (h : (heap.objectRef a).isSome = true) :
    heap.isIndirect a = true := by
  rw [Heap.objectRef] at h
  rw [Heap.isIndirect]
  cases hidentity : heap.identity a with
  | none =>
    rw [hidentity] at h
    cases h
  | some objectGen => rfl

theorem no_direct_leaf : ∀ trees : List PageTree, HoldsAll heap trees →
    (∀ p ∈ leavesAll trees, (heap.objectRef p).isSome = true) →
    ((trees.map handle).any fun child => !heap.isIndirect child && !heap.hasKids child) = false := by
  intro trees
  induction trees with
  | nil => exact fun _ _ => rfl
  | cons tree trees ih =>
    intro h hnamed
    rw [HoldsAll] at h
    rw [leavesAll] at hnamed
    rw [List.map_cons, List.any_cons,
      ih h.2 fun p hp => hnamed p (List.mem_append_right _ hp), Bool.or_false]
    cases tree with
    | page p =>
      have hp := hnamed p (List.mem_append_left _ (by rw [leaves]; exact List.mem_cons_self))
      rw [handle, isIndirect_of_objectRef hp]
      rfl
    | pages node kids => rw [handle, hasKids_pages h.1, Bool.not_true, Bool.and_false]

/-! ## The walk -/

/-- What the walk needs of the trees that are still to come. -/
structure WalkReady (splice : Splice) (heap : Heap) (trees : List PageTree) : Prop where
  closed : heap.Closed
  insert : splice.InsertReady heap
  holds : HoldsAll heap trees
  named : ∀ p ∈ leavesAll trees, (heap.objectRef p).isSome = true
  nodes_nodup : (nodesAll trees).Nodup
  arrays_nodup : (kidsArrays heap (nodesAll trees)).Nodup

/-- Behind a part of the walk the trees that are still to come are as before. -/
theorem WalkReady.after (h : splice.WalkReady st.heap trees)
    (hspliced : splice.Spliced st st₁ placed placed₁ nodes arrays new)
    (hnodes : ∀ a ∈ nodesAll trees, a ∉ nodes)
    (harrays : ∀ array ∈ kidsArrays st.heap (nodesAll trees), array ∉ arrays) :
    splice.WalkReady st₁.heap trees ∧
      kidsArrays st₁.heap (nodesAll trees) = kidsArrays st.heap (nodesAll trees) := by
  have hkids := kidsArrays_frame hspliced.frame (kids_not_spliceKeys _ _)
    (HoldsAll.node_lt trees h.holds)
  refine ⟨⟨hspliced.frame.closed, ?_, ?_, ?_, h.nodes_nodup, ?_⟩, hkids⟩
  · exact h.insert.frame h.closed hspliced.frame (kids_not_spliceKeys _ _)
  · exact HoldsAll.frame hspliced.frame h.closed trees (spares_of_disjoint hnodes harrays) h.holds
  · intro p hp
    rw [objectRef_frame hspliced.frame (HoldsAll.leaf_lt trees h.holds p hp)]
    exact h.named p hp
  · rw [hkids]
    exact h.arrays_nodup

theorem WalkReady.cons {tree : PageTree} (h : splice.WalkReady heap (tree :: trees)) :
    splice.WalkReady heap [tree] ∧ splice.WalkReady heap trees ∧
      (∀ a ∈ nodesAll trees, a ∉ tree.nodes) ∧
      ∀ array ∈ kidsArrays heap (nodesAll trees), array ∉ kidsArrays heap tree.nodes := by
  obtain ⟨hclosed, hinsert, hholds, hnamed, hnodes, harrays⟩ := h
  rw [HoldsAll] at hholds
  rw [leavesAll] at hnamed
  rw [nodesAll] at hnodes harrays
  rw [kidsArrays_append] at harrays
  rw [List.nodup_append] at hnodes harrays
  refine ⟨⟨hclosed, hinsert, ?_, ?_, ?_, ?_⟩, ⟨hclosed, hinsert, hholds.2, ?_, hnodes.2.1, ?_⟩, ?_, ?_⟩
  · exact ⟨hholds.1, trivial⟩
  · intro p hp
    rw [leavesAll, leavesAll, List.append_nil] at hp
    exact hnamed p (List.mem_append_left _ hp)
  · rw [nodesAll, nodesAll, List.append_nil]
    exact hnodes.1
  · rw [nodesAll, nodesAll, List.append_nil]
    exact harrays.1
  · exact fun p hp => hnamed p (List.mem_append_right _ hp)
  · exact harrays.2.1
  · exact fun a ha hmem => hnodes.2.2 a hmem a ha rfl
  · exact fun a ha hmem => harrays.2.2 a hmem a ha rfl

/-- A kid that is not kept. -/
theorem Spliced.drop (h : splice.Spliced st st₁ placed placed₁ nodes arrays new) :
    splice.Spliced st st₁ placed placed₁ nodes arrays [] where
  done := h.done
  frame := h.frame
  holds := trivial
  named _ hp := absurd hp List.not_mem_nil
  nodes_sub _ ha := absurd ha List.not_mem_nil
  arrays_sub _ harray := absurd harray List.not_mem_nil
  keep := h.keep
  parents := h.parents

/-- The walk gets through a node. -/
def Runs (splice : Splice) (depth : ℕ) (node : Handle) (kids : List PageTree) : Prop :=
  ∀ st base placed, splice.WalkReady st.heap [.pages node kids] → st.insertDone = placed.isSome →
    ∃ st', splice.spliceSubtree depth node base st =
        .ok ((leavesAll (splice.spliceNode node base placed kids).1).length -
          (leavesAll kids).length) st' ∧
      splice.Spliced st st' placed (splice.spliceNode node base placed kids).2
        (node :: nodesAll kids) (kidsArrays st.heap (node :: nodesAll kids))
        [.pages node (splice.spliceNode node base placed kids).1]

/-- A tree that is not touched. -/
theorem Spliced.kept {tree : PageTree} (h : splice.WalkReady st.heap [tree])
    (hdone : st.insertDone = placed.isSome) :
    splice.Spliced st st placed placed tree.nodes (kidsArrays st.heap tree.nodes) [tree] := by
  have hnodes : nodesAll [tree] = tree.nodes := by
    rw [nodesAll, nodesAll, List.append_nil]
  constructor
  · exact hdone
  · exact (Heap.Frame.refl h.closed).mono (Set.empty_subset _) (Set.empty_subset _) (fun _ hx => hx)
  · exact h.holds
  · exact h.named
  · rw [hnodes]
    exact fun a ha => ha
  · rw [hnodes]
    exact fun a ha => ha
  · exact fun _ => rfl
  · intro node hnone hsome
    rw [hnone] at hsome
    cases hsome

theorem takeKid_run {depth : ℕ} (tree : PageTree)
    (hruns : ∀ node kids, tree = .pages node kids → splice.Runs depth node kids)
    (h : splice.WalkReady st.heap [tree]) (hdone : st.insertDone = placed.isSome) (now : NewKids) :
    ∃ st', splice.takeKid (splice.spliceSubtree depth) tree.handle tree.leaves.length now st =
        .ok ⟨now.kids ++ (splice.spliceKid now.offset placed tree).1.map handle,
          now.netDelta + ((leavesAll (splice.spliceKid now.offset placed tree).1).length -
            tree.leaves.length), now.offset + tree.leaves.length⟩ st' ∧
      splice.Spliced st st' placed (splice.spliceKid now.offset placed tree).2 tree.nodes
        (kidsArrays st.heap tree.nodes) (splice.spliceKid now.offset placed tree).1 := by
  have htree := h.holds
  rw [HoldsAll] at htree
  have hkept := Spliced.kept h hdone
  have hleaves : leavesAll [tree] = tree.leaves := by
    rw [leavesAll, leavesAll, List.append_nil]
  rw [takeKid]
  by_cases hrange : now.offset + tree.leaves.length > splice.start ∧ now.offset < splice.stop
  · have hcode : (decide (now.offset + tree.leaves.length > splice.start) &&
        decide (now.offset < splice.stop)) = true := by
      simpa using hrange
    simp only [hcode, if_true]
    cases tree with
    | page p =>
      have hone : (PageTree.page p).leaves.length = 1 := by
        rw [leaves]
        rfl
      rw [hone] at hrange
      rw [handle, hasKids_page htree.1, if_neg Bool.false_ne_true, spliceKid, if_pos hrange, hone]
      refine ⟨st, ?_, hkept.drop⟩
      simp only [leavesAll, List.map_nil, List.append_nil, List.length_nil, Nat.cast_zero,
        Nat.cast_one, zero_sub]
      rfl
    | pages node kids =>
      obtain ⟨st', hrun, hspliced⟩ := hruns node kids rfl st now.offset placed h hdone
      rw [handle, hasKids_pages htree.1, if_pos rfl, hrun, Outcome.andThen_ok, spliceKid_pages]
      rw [leaves] at hrange ⊢
      rw [if_pos hrange]
      by_cases hempty : leavesAll (splice.spliceNode node now.offset placed kids).1 = []
      · refine ⟨st', ?_, ?_⟩
        · simp [hempty, leavesAll]
        · rw [if_pos hempty]
          exact hspliced.drop
      · have hlength := List.length_pos_iff.mpr hempty
        have hpos :
            ((leavesAll (splice.spliceNode node now.offset placed kids).1).length : ℤ) > 0 := by
          omega
        refine ⟨st', ?_, ?_⟩
        · simp only [if_neg hempty, add_sub_cancel, if_pos hpos, List.map_cons, List.map_nil,
            handle, leavesAll, leaves, List.append_nil]
        · rw [if_neg hempty]
          exact hspliced
  · have hcode : ¬(decide (now.offset + tree.leaves.length > splice.start) &&
        decide (now.offset < splice.stop)) = true := by
      simpa using hrange
    have hkid : splice.spliceKid now.offset placed tree = ([tree], placed) := by
      cases tree with
      | page p =>
        rw [leaves, List.length_singleton] at hrange
        rw [spliceKid, if_neg hrange]
      | pages node kids =>
        rw [leaves] at hrange
        rw [spliceKid_pages, if_neg hrange]
    rw [hkid]
    refine ⟨st, (if_neg hcode).trans ?_, hkept⟩
    simp only [hleaves, List.map_cons, List.map_nil, sub_self, add_zero]

theorem spliceKids_run {depth : ℕ} {node : Handle} : ∀ (trees : List PageTree),
    (∀ tree ∈ trees, ∀ node kids, tree = .pages node kids → splice.Runs depth node kids) →
    ∀ st placed (now : NewKids), splice.WalkReady st.heap trees → node < st.heap.size →
      st.heap.isDictionary node = true → st.insertDone = placed.isSome →
      ∃ st', splice.spliceKids (splice.spliceSubtree depth) node (trees.map handle) now st =
          .ok ⟨now.kids ++ (splice.spliceLoop node now.offset placed trees).1.map handle,
            now.netDelta + ((leavesAll (splice.spliceLoop node now.offset placed trees).1).length -
              (leavesAll trees).length), now.offset + (leavesAll trees).length⟩ st' ∧
        splice.Spliced st st' placed (splice.spliceLoop node now.offset placed trees).2
          (nodesAll trees) (kidsArrays st.heap (nodesAll trees))
          (splice.spliceLoop node now.offset placed trees).1 := by
  intro trees
  induction trees with
  | nil =>
    intro _ st placed now h _ _ hdone
    refine ⟨st, ?_, Spliced.refl h.closed hdone⟩
    simp [spliceKids, spliceLoop, leavesAll]
  | cons tree trees ih =>
    intro hruns st placed now h hlt hnode hdone
    obtain ⟨hhead, htail, hnodes, harrays⟩ := h.cons
    have hcount := hhead.holds
    rw [HoldsAll] at hcount
    obtain ⟨st₁, hrun₁, hplaced⟩ := insertAt_run h.insert h.closed node hlt hnode hdone now
    obtain ⟨hhead₁, -⟩ := hhead.after hplaced (fun _ _ => List.not_mem_nil)
      (fun _ _ => List.not_mem_nil)
    obtain ⟨htail₁, harrays₁⟩ := htail.after hplaced (fun _ _ => List.not_mem_nil)
      (fun _ _ => List.not_mem_nil)
    have hsingle : nodesAll [tree] = tree.nodes := by
      rw [nodesAll, nodesAll, List.append_nil]
    have hheadArrays : kidsArrays st₁.heap tree.nodes = kidsArrays st.heap tree.nodes := by
      rw [← hsingle]
      exact (hhead.after hplaced (fun _ _ => List.not_mem_nil) (fun _ _ => List.not_mem_nil)).2
    obtain ⟨st₂, hrun₂, hkid⟩ := takeKid_run tree (hruns tree List.mem_cons_self) hhead₁
      hplaced.done ⟨now.kids ++ (splice.place node now.offset placed).1.map handle,
        now.netDelta + (leavesAll (splice.place node now.offset placed).1).length, now.offset⟩
    rw [hheadArrays] at hkid
    rw [← harrays₁] at harrays
    obtain ⟨htail₂, harrays₂⟩ := htail₁.after hkid hnodes harrays
    have hlt₂ : node < st₂.heap.size :=
      Nat.lt_of_lt_of_le hlt (hplaced.frame.size_le.trans hkid.frame.size_le)
    have hnode₂ : st₂.heap.isDictionary node = true := by
      rw [hkid.frame.isDictionary_eq node (Nat.lt_of_lt_of_le hlt hplaced.frame.size_le),
        hplaced.frame.isDictionary_eq node hlt, hnode]
    obtain ⟨st₃, hrun₃, hrest⟩ := ih (fun t ht => hruns t (List.mem_cons_of_mem _ ht)) st₂
      (splice.spliceKid now.offset (splice.place node now.offset placed).2 tree).2
      ⟨now.kids ++ (splice.place node now.offset placed).1.map handle ++
          (splice.spliceKid now.offset (splice.place node now.offset placed).2 tree).1.map handle,
        now.netDelta + (leavesAll (splice.place node now.offset placed).1).length +
          ((leavesAll (splice.spliceKid now.offset
            (splice.place node now.offset placed).2 tree).1).length - tree.leaves.length),
        now.offset + tree.leaves.length⟩
      htail₂ hlt₂ hnode₂ hkid.done
    rw [harrays₂, harrays₁] at hrest
    rw [harrays₁] at harrays
    have hplacedKid := hplaced.append h.insert hkid (fun _ ha => absurd ha List.not_mem_nil)
      (fun _ ha => absurd ha List.not_mem_nil)
    have hall := hplacedKid.append h.insert hrest
      (fun a ha hmem => hnodes a hmem (by simpa using ha))
      (fun a ha hmem => harrays a hmem (by simpa using ha))
    refine ⟨st₃, ?_, ?_⟩
    · rw [List.map_cons, spliceKids, leafCountOf_eq hcount.1]
      simp only [hrun₁, Outcome.andThen_ok, hrun₂]
      rw [hrun₃]
      simp only [spliceLoop, leavesAll_append, leavesAll, List.map_append, List.append_assoc,
        List.length_append, Nat.cast_add]
      congr 2
      · omega
      · omega
    · rw [nodesAll, kidsArrays_append, spliceLoop]
      exact hall

theorem writeBack_spec {array : Handle} {items items' : List Handle} (hclosed : heap.Closed)
    (hlt : node < heap.size) (hnode : heap.isDictionary node = true)
    (harray : heap.getKey node (ascii "/Kids") = some array)
    (hitems : heap.arrayItems array = some items) (hitems' : ∀ item ∈ items', item < heap.size)
    (count : ℤ) :
    Heap.Frame heap (writeBack node (some array) count items' heap) (spliceKeys [node] [])
        {a | a ∈ [array]} ∅ ∧
      (writeBack node (some array) count items' heap).arrayAt node (ascii "/Kids") = some items' ∧
      (writeBack node (some array) count items' heap).countOf node = some count := by
  have harray_lt := hclosed.getKey_lt hlt harray
  obtain ⟨hframe, hget, hvalue, -, hsize⟩ := Heap.setKey_spec hclosed hlt hnode (ascii "/Count")
    (.integer count) (fun _ h => absurd h List.not_mem_nil) (fun h => by cases h)
  have hitems₁ := (hframe.arrayItems_eq harray_lt (Set.notMem_empty array)).trans hitems
  obtain ⟨hframe', hset, -⟩ := Heap.setArrayItems_spec hframe.closed hitems₁
    (fun item hitem => Nat.lt_of_lt_of_le (hitems' item hitem) hframe.size_le)
  have hlt₁ := Nat.lt_of_lt_of_le hlt hframe.size_le
  have hnone : ∀ key, (node, key) ∉ (∅ : Set (Handle × Bytes)) := fun key => Set.notMem_empty _
  refine ⟨?_, ?_, ?_⟩
  · apply (hframe.trans hframe').mono
    · rintro entry (rfl | hmem)
      · exact .inl ⟨rfl, List.mem_cons_self⟩
      · exact absurd hmem (Set.notMem_empty _)
    · rintro a (hmem | rfl)
      · exact absurd hmem (Set.notMem_empty _)
      · exact List.mem_cons_self
    · exact fun a ha => ha.elim id id
  · have hkids : (node, ascii "/Kids") ∉ ({(node, ascii "/Count")} : Set (Handle × Bytes)) :=
      fun h => kids_ne_count (congrArg Prod.snd h)
    rw [writeBack, Heap.arrayAt, hframe'.getKey_eq node hlt₁ _ (hnone _),
      hframe.getKey_eq node hlt _ hkids, harray]
    exact hset
  · rw [writeBack, Heap.countOf, hframe'.getKey_eq node hlt₁ _ (hnone _), hget, Option.bind_some,
      hframe'.integerAt_eq (by rw [hsize]; exact Nat.lt_succ_self _), Heap.integerAt, hvalue]

theorem HoldsAll.handle_lt : ∀ trees : List PageTree, HoldsAll heap trees →
    ∀ a ∈ trees.map handle, a < heap.size := by
  intro trees
  induction trees with
  | nil => exact fun _ a ha => absurd ha List.not_mem_nil
  | cons tree trees ih =>
    intro h a ha
    rw [HoldsAll] at h
    rcases List.mem_cons.mp ha with rfl | ha
    · cases tree with
      | page p =>
        rw [Holds] at h
        exact h.1.1
      | pages node kids =>
        rw [Holds] at h
        exact h.1.1
    · exact ih h.2 a ha

/-- The node is written back behind its kids. -/
theorem Spliced.writeBack {array : Handle} (h : splice.WalkReady st.heap [.pages node kids])
    (harray : st.heap.getKey node (ascii "/Kids") = some array)
    (hspliced : splice.Spliced st st₁ placed placed₁ (nodesAll kids)
      (kidsArrays st.heap (nodesAll kids)) new) :
    splice.Spliced st
      ⟨Splice.writeBack node (some array) (leavesAll new).length (new.map handle) st₁.heap,
        st₁.insertDone⟩ placed placed₁
      (node :: nodesAll kids) (array :: kidsArrays st.heap (nodesAll kids)) [.pages node new] := by
  have hholds := h.holds
  have hnodes := h.nodes_nodup
  have harrays := h.arrays_nodup
  simp only [HoldsAll, Holds, and_true] at hholds
  simp only [nodesAll, nodes, List.append_nil, List.nodup_cons] at hnodes
  simp only [nodesAll, nodes, List.append_nil, kidsArrays, List.filterMap_cons, harray,
    List.nodup_cons] at harrays
  have hlt₁ := Nat.lt_of_lt_of_le hholds.1 hspliced.frame.size_le
  have hnode₁ := (hspliced.frame.isDictionary_eq node hholds.1).trans hholds.2.1
  have hkids : (node, ascii "/Kids") ∉ spliceKeys (nodesAll kids) (splice.placedHere placed placed₁) :=
    kids_not_spliceKeys _ _ _
  have harray₁ := (hspliced.frame.getKey_eq node hholds.1 _ hkids).trans harray
  have hitems₁ : ∃ items, st₁.heap.arrayItems array = some items := by
    have hitems := hholds.2.2.1
    rw [Heap.arrayAt, harray] at hitems
    have hsame := hspliced.frame.arrayItems_eq (h.closed.getKey_lt hholds.1 harray) harrays.1
    exact ⟨_, hsame.trans hitems⟩
  obtain ⟨items, hitems₁⟩ := hitems₁
  obtain ⟨hframe, hat, hcount⟩ := writeBack_spec hspliced.frame.closed hlt₁ hnode₁ harray₁ hitems₁
    (HoldsAll.handle_lt new hspliced.holds) (leavesAll new).length
  have hnew := HoldsAll.frame hframe hspliced.frame.closed new (spares_of_disjoint
    (fun a ha hmem => hnodes.1 (List.mem_singleton.mp hmem ▸ hspliced.nodes_sub a ha))
    (fun a ha hmem => harrays.1 (List.mem_singleton.mp hmem ▸ hspliced.arrays_sub a ha)))
    hspliced.holds
  have hboth := hspliced.frame.trans hframe
  have hnodes_new : nodesAll [.pages node new] = node :: nodesAll new := by
    rw [nodesAll, nodesAll, nodes, List.append_nil]
  have harrays_new : kidsArrays (Splice.writeBack node (some array) (leavesAll new).length
      (new.map handle) st₁.heap) (nodesAll new) = kidsArrays st₁.heap (nodesAll new) :=
    kidsArrays_frame hframe (kids_not_spliceKeys _ _) (HoldsAll.node_lt new hspliced.holds)
  have harray₂ := (hframe.getKey_eq node hlt₁ _ (kids_not_spliceKeys [node] [] node)).trans harray₁
  constructor
  · exact hspliced.done
  · apply hboth.mono
    · rw [spliceKeys_union, List.append_nil]
      rintro entry (⟨hkey, hmem⟩ | hparent)
      · rw [List.mem_append, List.mem_singleton] at hmem
        exact .inl ⟨hkey, List.mem_cons.mpr hmem.symm⟩
      · exact .inr hparent
    · rintro a (hmem | hmem)
      · exact List.mem_cons_of_mem _ hmem
      · exact List.mem_cons.mpr (.inl (List.mem_singleton.mp hmem))
    · exact fun a ha => ha.elim id id
  · rw [HoldsAll, Holds]
    exact ⟨⟨Nat.lt_of_lt_of_le hlt₁ hframe.size_le,
      (hframe.isDictionary_eq node hlt₁).trans hnode₁, hat, hcount, hnew⟩, trivial⟩
  · intro p hp
    rw [leavesAll, leavesAll, leaves, List.append_nil] at hp
    rw [objectRef_frame hframe (HoldsAll.leaf_lt new hspliced.holds p hp)]
    exact hspliced.named p hp
  · rw [hnodes_new]
    intro a ha
    exact (List.mem_cons.mp ha).elim (fun h => List.mem_cons.mpr (.inl h))
      fun h => List.mem_cons_of_mem _ (hspliced.nodes_sub a h)
  · rw [hnodes_new, kidsArrays, List.filterMap_cons, harray₂]
    change ∀ a ∈ array :: kidsArrays _ (nodesAll new), _
    rw [harrays_new]
    intro a ha
    exact (List.mem_cons.mp ha).elim (fun h => List.mem_cons.mpr (.inl h))
      fun h => List.mem_cons_of_mem _ (hspliced.arrays_sub a h)
  · exact hspliced.keep
  · intro other hnone hsome
    obtain ⟨hother, hparents⟩ := hspliced.parents other hnone hsome
    refine ⟨Nat.lt_of_lt_of_le hother hframe.size_le, ?_⟩
    intro p hp
    have hp_lt := Nat.lt_of_lt_of_le (h.insert.lt p hp) hspliced.frame.size_le
    rw [hframe.getKey_eq p hp_lt _ (parent_not_spliceKeys [node] List.not_mem_nil),
      objectRef_frame hframe hother]
    exact hparents p hp

/-- The walk gets through every node whose tree is not too high. -/
theorem spliceSubtree_run : ∀ (depth : ℕ) (node : Handle) (kids : List PageTree),
    heightAll kids < depth → splice.Runs depth node kids := by
  intro depth
  induction depth with
  | zero => exact fun node kids h => absurd h (Nat.not_lt_zero _)
  | succ depth ih =>
    intro node kids hheight st base placed h hdone
    have hholds := h.holds
    have hnodes := h.nodes_nodup
    have harrays := h.arrays_nodup
    have hnamed := h.named
    simp only [HoldsAll, Holds, and_true] at hholds
    simp only [nodesAll, nodes, List.append_nil, List.nodup_cons] at hnodes
    simp only [leavesAll, leaves, List.append_nil] at hnamed
    obtain ⟨hlt, hnode, hitems, hcount, hkids⟩ := hholds
    obtain ⟨array, harray, hitems'⟩ : ∃ array, st.heap.getKey node (ascii "/Kids") = some array ∧
        st.heap.arrayItems array = some (kids.map handle) := by
      rw [Heap.arrayAt, Option.bind_eq_some_iff] at hitems
      exact hitems
    simp only [nodesAll, nodes, List.append_nil, kidsArrays, List.filterMap_cons, harray,
      List.nodup_cons] at harrays
    have hready : splice.WalkReady st.heap kids :=
      ⟨h.closed, h.insert, hkids, hnamed, hnodes.2, harrays.2⟩
    have hruns : ∀ tree ∈ kids, ∀ node kids, tree = .pages node kids →
        splice.Runs depth node kids := by
      rintro tree htree node' kids' rfl
      apply ih
      have hle := height_le_heightAll htree
      rw [height] at hle
      omega
    obtain ⟨st₁, hrun₁, hloop⟩ :=
      spliceKids_run kids hruns st placed ⟨[], 0, base⟩ hready hlt hnode hdone
    have hlt₁ := Nat.lt_of_lt_of_le hlt hloop.frame.size_le
    have hnode₁ := (hloop.frame.isDictionary_eq node hlt).trans hnode
    have hinsert₁ := h.insert.frame h.closed hloop.frame (kids_not_spliceKeys _ _)
    obtain ⟨st₂, hrun₂, hlast⟩ := insertAt_run hinsert₁ hloop.frame.closed node hlt₁ hnode₁
      hloop.done ⟨[] ++ (splice.spliceLoop node base placed kids).1.map handle,
        0 + ((leavesAll (splice.spliceLoop node base placed kids).1).length -
          (leavesAll kids).length), base + (leavesAll kids).length⟩
    have hall := hloop.append h.insert hlast (fun _ _ => List.not_mem_nil)
      (fun _ _ => List.not_mem_nil)
    rw [List.append_nil, List.append_nil] at hall
    have hback := hall.writeBack h harray
    have hkidsArrays : kidsArrays st.heap (node :: nodesAll kids) =
        array :: kidsArrays st.heap (nodesAll kids) := by
      rw [kidsArrays, List.filterMap_cons, harray]
      rfl
    have hisArray : st.heap.isArray array = true := by
      rw [Heap.isArray, hitems']
      rfl
    have hdeclared : st.heap.declaredCount node = .ok (leavesAll kids).length := by
      rw [Heap.declaredCount, hcount]
      simp
    refine ⟨⟨writeBack node (some array)
      (leavesAll (splice.spliceNode node base placed kids).1).length
      ((splice.spliceNode node base placed kids).1.map handle) st₂.heap, st₂.insertDone⟩, ?_, ?_⟩
    · rw [spliceSubtree]
      simp only [hnode, Bool.not_true, Bool.false_eq_true, if_false, hitems, Option.getD_some,
        no_direct_leaf kids hkids hnamed, hdeclared, sumLeafCounts_eq kids 0 hkids, Nat.zero_add,
        ne_eq, not_true_eq_false, hrun₁, Outcome.andThen_ok, hrun₂, harray, Option.filter_some,
        hisArray, if_true]
      have hdelta :
          0 + (((leavesAll (splice.spliceLoop node base placed kids).1).length : ℤ) -
              (leavesAll kids).length) +
            (leavesAll (splice.place node (base + (leavesAll kids).length)
              (splice.spliceLoop node base placed kids).2).1).length =
          (leavesAll (splice.spliceNode node base placed kids).1).length -
            (leavesAll kids).length := by
        rw [spliceNode, leavesAll_append, List.length_append]
        omega
      have hnew : ((leavesAll kids).length : ℤ) +
          ((leavesAll (splice.spliceNode node base placed kids).1).length -
            (leavesAll kids).length) =
          (leavesAll (splice.spliceNode node base placed kids).1).length := by
        omega
      rw [hdelta, hnew, if_neg (by omega), List.nil_append, ← List.map_append]
      rfl
    · rw [hkidsArrays]
      exact hback

end Splice

end Flpdf
