import Flpdf.Pages.SpliceFails

/-!
# Splicing pages is splicing a list

The theorem about the whole call. What the two walks and the normalization in between
do is put together here.
-/

namespace Flpdf

open PageTree CollectState

variable {heap heap' : Heap} {copyFuel : ℕ} {catalog root : Handle}
  {kids new new' trees trees' : List PageTree} {splice : Splice}

/-! ## The stored tree -/

/-- The nodes of a stored tree, its pages and its `/Kids` arrays. -/
def treeSlots (heap : Heap) (tree : PageTree) : Set Handle :=
  {x | x ∈ tree.nodes ∨ x ∈ tree.leaves ∨ x ∈ kidsArrays heap tree.nodes}

/-- A page tree that can be spliced: its counts are right, it is not too deep, and no two nodes
share a `/Kids` array. -/
structure Spliceable (copyFuel maxDepth : ℕ) (catalog root : Handle) (kids : List PageTree)
    (heap : Heap) : Prop where
  closed : heap.Closed
  root_eq : heap.getKey catalog (ascii "/Pages") = some root
  holds : (PageTree.pages root kids).Holds heap
  height : heightAll kids < maxDepth
  arrays_nodup : (kidsArrays heap (root :: nodesAll kids)).Nodup
  nameable_root : Nameable heap root
  nameable : ∀ p ∈ leavesAll kids, Nameable heap p
  copyable : ∀ p ∈ leavesAll kids, ∃ n, n < copyFuel ∧ heap.Copyable n p

namespace PageTree

mutual

theorem Holds.node_kids : ∀ tree : PageTree, tree.Holds heap → ∀ a ∈ tree.nodes,
    ∃ array, heap.getKey a (ascii "/Kids") = some array
  | .page p, _, a, ha => by
    rw [nodes] at ha
    cases ha
  | .pages node kids, h, a, ha => by
    rw [Holds] at h
    rw [nodes, List.mem_cons] at ha
    rcases ha with rfl | ha
    · obtain ⟨array, harray, -⟩ := Option.bind_eq_some_iff.mp h.2.2.1
      exact ⟨array, harray⟩
    · exact HoldsAll.node_kids kids h.2.2.2.2 a ha

theorem HoldsAll.node_kids : ∀ trees : List PageTree, HoldsAll heap trees → ∀ a ∈ nodesAll trees,
    ∃ array, heap.getKey a (ascii "/Kids") = some array
  | [], _, a, ha => by
    rw [nodesAll] at ha
    cases ha
  | tree :: trees, h, a, ha => by
    rw [HoldsAll] at h
    rw [nodesAll, List.mem_append] at ha
    rcases ha with ha | ha
    · exact Holds.node_kids tree h.1 a ha
    · exact HoldsAll.node_kids trees h.2 a ha

end

/-- Nodes with different arrays are different. -/
theorem nodup_of_kidsArrays : ∀ nodes : List Handle,
    (∀ a ∈ nodes, ∃ array, heap.getKey a (ascii "/Kids") = some array) →
      (kidsArrays heap nodes).Nodup → nodes.Nodup := by
  intro nodes
  induction nodes with
  | nil => exact fun _ _ => List.nodup_nil
  | cons node nodes ih =>
    intro harrays hnodup
    obtain ⟨array, harray⟩ := harrays node List.mem_cons_self
    rw [kidsArrays, List.filterMap_cons, harray] at hnodup
    obtain ⟨hnot, hrest⟩ := List.nodup_cons.mp hnodup
    refine List.nodup_cons.mpr ⟨?_, ih (fun a ha => harrays a (List.mem_cons_of_mem node ha)) hrest⟩
    exact fun hmem => hnot (List.mem_filterMap.mpr ⟨node, hmem, harray⟩)

theorem kidsArrays_lt (hclosed : heap.Closed) {nodes : List Handle} (hlt : ∀ a ∈ nodes, a < heap.size) :
    ∀ array ∈ kidsArrays heap nodes, array < heap.size := by
  intro array harray
  obtain ⟨a, ha, hget⟩ := List.mem_filterMap.mp harray
  exact hclosed.getKey_lt (hlt a ha) hget

mutual

/-- Trees without pages are the same if their nodes are. -/
theorem SameNodes.eq_of_empty : ∀ tree tree' : PageTree, SameNodes tree tree' → tree'.leaves = [] →
    tree' = tree
  | .page p, .page q, _, hempty => by
    rw [leaves] at hempty
    cases hempty
  | .pages node kids, .pages node' kids', h, hempty => by
    rw [SameNodes] at h
    rw [leaves] at hempty
    rw [h.1, SameNodesAll.eq_of_empty kids kids' h.2 hempty]
  | .page _, .pages _ _, h, _ => h.elim
  | .pages _ _, .page _, h, _ => h.elim

theorem SameNodesAll.eq_of_empty : ∀ trees trees' : List PageTree, SameNodesAll trees trees' →
    leavesAll trees' = [] → trees' = trees
  | [], [], _, _ => rfl
  | tree :: trees, tree' :: trees', h, hempty => by
    rw [SameNodesAll] at h
    rw [leavesAll, List.append_eq_nil_iff] at hempty
    rw [SameNodes.eq_of_empty tree tree' h.1 hempty.1,
      SameNodesAll.eq_of_empty trees trees' h.2 hempty.2]
  | [], _ :: _, h, _ => h.elim
  | _ :: _, [], h, _ => h.elim

end

mutual

theorem SameNodes.subtree_empty : ∀ tree tree' : PageTree, SameNodes tree tree' →
    ∀ t ∈ tree'.subtrees, t.leaves = [] → t ∈ tree.subtrees
  | .page p, .page q, _, t, ht, hempty => by
    rw [subtrees, List.mem_singleton] at ht
    rw [ht, leaves] at hempty
    cases hempty
  | .pages node kids, .pages node' kids', h, t, ht, hempty => by
    have hsame := h
    rw [SameNodes] at h
    rw [subtrees, List.mem_cons] at ht ⊢
    rcases ht with rfl | ht
    · exact .inl (SameNodes.eq_of_empty _ _ hsame hempty)
    · exact .inr (SameNodesAll.subtree_empty kids kids' h.2 t ht hempty)
  | .page _, .pages _ _, h, _, _, _ => h.elim
  | .pages _ _, .page _, h, _, _, _ => h.elim

theorem SameNodesAll.subtree_empty : ∀ trees trees' : List PageTree, SameNodesAll trees trees' →
    ∀ t ∈ subtreesAll trees', t.leaves = [] → t ∈ subtreesAll trees
  | [], [], _, t, ht, _ => ht
  | tree :: trees, tree' :: trees', h, t, ht, hempty => by
    rw [SameNodesAll] at h
    rw [subtreesAll, List.mem_append] at ht ⊢
    rcases ht with ht | ht
    · exact .inl (SameNodes.subtree_empty tree tree' h.1 t ht hempty)
    · exact .inr (SameNodesAll.subtree_empty trees trees' h.2 t ht hempty)
  | [], _ :: _, h, _, _, _ => h.elim
  | _ :: _, [], h, _, _, _ => h.elim

end

end PageTree

/-! ## Up to the insertion -/

theorem Heap.replaceKey_self {a child : Handle} {key : Bytes} (hget : heap.getKey a key = some child)
    (hnull : heap.isNull child = false) : heap.replaceKey a key child = heap := by
  rw [Heap.getKey] at hget
  rw [Heap.replaceKey, hnull, Bool.false_and, if_neg Bool.false_ne_true]
  cases hvalue : heap.value a with
  | dictionary entries =>
    simp only [hvalue] at hget ⊢
    have hsame : entries.insert key child = entries := by
      apply Std.ExtTreeMap.ext_getElem?
      intro other
      rw [Std.ExtTreeMap.getElem?_insert]
      simp only [Std.LawfulEqCmp.compare_eq_iff_eq]
      split
      · rename_i heq
        rw [← heq, hget]
      · rfl
    have hslot : ({ heap.slot a with value := .dictionary entries } : Slot) = heap.slot a := by
      rw [← hvalue]
      rfl
    rw [hsame, Heap.setValue, hslot, Function.update_eq_self]
  | _ => simp [hvalue] at hget

/-- The root of the tree, which becomes indirect. -/
theorem pagesRef_run {maxDepth : ℕ} (h : Spliceable copyFuel maxDepth catalog root kids heap) :
    ∃ heap₁, pagesRef (some catalog) heap = .ok root heap₁ ∧
      Prepared heap heap₁ (treeSlots heap (.pages root kids)) ∅ := by
  have hholds := h.holds
  rw [Holds] at hholds
  have hcatalog : heap.isDictionary catalog = true := by
    have hget := h.root_eq
    rw [Heap.getKey] at hget
    rw [Heap.isDictionary]
    cases hvalue : heap.value catalog with
    | dictionary entries => rfl
    | _ => simp [hvalue] at hget
  rw [pagesRef]
  simp only [hcatalog, Bool.not_true, Bool.false_eq_true, if_false, h.root_eq]
  by_cases hnamed : (heap.objectRef root).isSome = true
  · exact ⟨heap, if_pos hnamed, .refl h.closed⟩
  · have hdirect := h.nameable_root.resolve_right hnamed
    have hself : (heap.makeIndirect root).replaceKey catalog (ascii "/Pages") root =
        heap.makeIndirect root := by
      apply Heap.replaceKey_self
      · rw [Heap.getKey_makeIndirect, h.root_eq]
      · rw [Heap.isNull_makeIndirect]
        exact Heap.isNull_of_isDictionary hholds.2.1
    refine ⟨heap.makeIndirect root, ?_, .makeIndirect h.closed hdirect (.inl ?_)⟩
    · rw [if_neg hnamed, hholds.2.1, hself]
      rfl
    · rw [nodes]
      exact List.mem_cons_self

/-- The first walk over the whole tree. -/
theorem collect_run {maxDepth : ℕ} (h : Spliceable copyFuel maxDepth catalog root kids heap) :
    ∃ heap₁ st' kids', pagesRef (some catalog) heap = .ok root heap₁ ∧
      collectPageRefs copyFuel maxDepth maxDepth true root ⟨heap₁, [], [], []⟩ =
        .ok (leavesAll kids).length st' ∧
      Prepared heap st'.heap (treeSlots heap (.pages root kids)) Set.univ ∧
      Collected heap (treeSlots heap (.pages root kids)) ⟨heap₁, [], [], []⟩ st'
        (kidsArrays heap (root :: nodesAll kids)) [.pages root kids] [.pages root kids'] := by
  obtain ⟨heap₁, hroot, hstep⟩ := pagesRef_run h
  have hnode_lt := Holds.node_lt _ h.holds
  have hleaf_lt := Holds.leaf_lt _ h.holds
  have hready : CollectReady heap (treeSlots heap (.pages root kids)) copyFuel ⟨heap₁, [], [], []⟩
      [.pages root kids] := by
    constructor
    · exact h.closed
    · rintro x (hx | hx | hx)
      · exact hnode_lt x hx
      · exact hleaf_lt x hx
      · exact kidsArrays_lt h.closed hnode_lt x hx
    · exact hstep.mono (fun _ _ hx => hx) (Set.empty_subset _)
    · exact ⟨Holds.frame hstep.frame h.closed _ ⟨not_typeKeys kids_ne_type,
        fun a _ => not_typeKeys count_ne_type a, fun a _ => Set.notMem_empty a⟩ h.holds, trivial⟩
    all_goals simp only [leavesAll_singleton, nodesAll_singleton]
    · exact fun p hp => (h.nameable p hp).prepared hstep (hleaf_lt p hp)
    · exact h.copyable
    · exact fun a ha => .inl ha
    · exact fun p hp => .inr (.inl hp)
    · exact fun a ha => .inr (.inr ha)
    · exact nodup_of_kidsArrays _ (Holds.node_kids _ h.holds) h.arrays_nodup
    · exact h.arrays_nodup
    · exact fun a _ => List.not_mem_nil
  obtain ⟨st', kids', hrun, hcollected⟩ :=
    collectPageRefs_run maxDepth root kids h.height true ⟨heap₁, [], [], []⟩ hready
  refine ⟨heap₁, st', kids', hroot, hrun, ?_, hcollected⟩
  exact (hstep.mono (fun _ _ hx => hx) (Set.empty_subset _)).trans
    (hcollected.prepared.mono (fun _ _ hx => hx) (Set.subset_univ _))

theorem mem_occupiedPages {existing : List Handle} {start stop : ℕ} {p : Handle} : p ∈ occupiedPages existing start stop ↔
      p ∈ existing.take start ++ existing.drop stop := by
  rw [occupiedPages, List.mem_append, List.mem_map]
  constructor
  · rintro ⟨⟨a, i⟩, hmem, rfl⟩
    obtain ⟨hzip, hout⟩ := List.mem_filter.mp hmem
    rw [List.mem_zipIdx_iff_getElem?] at hzip
    simp only [Bool.not_eq_true', Bool.and_eq_false_iff, decide_eq_false_iff_not] at hout
    rcases hout with hlt | hge
    · left
      rw [List.mem_iff_getElem?]
      refine ⟨i, ?_⟩
      rw [List.getElem?_take_of_lt (by omega)]
      exact hzip
    · right
      rw [List.mem_iff_getElem?]
      refine ⟨i - stop, ?_⟩
      rw [List.getElem?_drop, Nat.add_sub_cancel' (by omega)]
      exact hzip
  · rintro (hmem | hmem)
    · obtain ⟨i, hget⟩ := List.mem_iff_getElem?.mp hmem
      rw [List.getElem?_take] at hget
      split at hget
      · refine ⟨(p, i), List.mem_filter.mpr ⟨List.mem_zipIdx_iff_getElem?.mpr hget, ?_⟩, rfl⟩
        simp only [Bool.not_eq_true', Bool.and_eq_false_iff, decide_eq_false_iff_not]
        omega
      · cases hget
    · obtain ⟨i, hget⟩ := List.mem_iff_getElem?.mp hmem
      rw [List.getElem?_drop] at hget
      refine ⟨(p, stop + i), List.mem_filter.mpr ⟨List.mem_zipIdx_iff_getElem?.mpr hget, ?_⟩, rfl⟩
      simp only [Bool.not_eq_true', Bool.and_eq_false_iff, decide_eq_false_iff_not]
      omega

/-! ## The result -/

/-- The second page is a new copy of the first, up to the given keys. -/
def IsCopy (heap heap' : Heap) (slots : Set Handle) (except : Set Bytes) (p q : Handle) : Prop :=
  ∃ mid n, PageCopy heap mid heap' slots except n p q

/-- The keys under which a copy may differ: `/Type`, and `/Parent` if it has been set. -/
def renewedKeys (named : Bool) : Set Bytes :=
  {key | key = ascii "/Type" ∨ named = true ∧ key = ascii "/Parent"}

/-- What a splice makes of a stored tree; the inserted pages stand under the given parent. -/
structure SplicedTo (splice : Splice) (root parent : Handle) (kids : List PageTree)
    (old inserted : List Handle) (new : List PageTree) (heap heap' : Heap) : Prop where
  holds : (PageTree.pages root new).Holds heap'
  leaves_eq : leavesAll new = old.take splice.start ++ inserted ++ old.drop splice.stop
  nodup : (leavesAll new).Nodup
  old_deduped : Deduped (IsCopy heap heap' (treeSlots heap (.pages root kids)) (renewedKeys false)) ∅
    (leavesAll kids) old
  inserted_deduped : Deduped (IsCopy heap heap' (treeSlots heap (.pages root kids))
      (renewedKeys (heap'.objectRef parent).isSome))
    {p | p ∈ old.take splice.start ++ old.drop splice.stop} splice.insert inserted
  nodes_sub : (nodesAll new).Sublist (nodesAll kids)
  emptied : ∀ tree ∈ subtreesAll new, tree.leaves = [] → tree ∈ subtreesAll kids
  edge : ∀ p ∈ inserted, (parent, p) ∈ (PageTree.pages root new).edges
  parent_eq : ∀ p ∈ inserted, (heap'.objectRef parent).isSome = true →
    heap'.getKey p (ascii "/Parent") = some parent
  parent_left : ∀ p ∈ inserted, (heap'.objectRef parent).isSome = false → p < heap.size →
    heap'.getKey p (ascii "/Parent") = heap.getKey p (ascii "/Parent")

theorem type_mem_renewedKeys (named : Bool) : {ascii "/Type"} ⊆ renewedKeys named := by
  rintro key rfl
  exact .inl rfl

theorem nodup_take_drop {old inserted : List Handle} {start stop : ℕ} (hrange : start ≤ stop)
    (hold : old.Nodup) (hinserted : inserted.Nodup)
    (hfree : ∀ p ∈ inserted, p ∉ old.take start ++ old.drop stop) :
    (old.take start ++ inserted ++ old.drop stop).Nodup := by
  have hsublist : (old.take start ++ old.drop stop).Sublist old := by
    have hdrop : (old.drop stop).Sublist (old.drop start) := by
      rw [← Nat.add_sub_cancel' hrange, ← List.drop_drop]
      exact List.drop_sublist _ _
    calc (old.take start ++ old.drop stop).Sublist (old.take start ++ old.drop start) :=
          hdrop.append_left _
      _ = old := List.take_append_drop start old
  have hkept := hold.sublist hsublist
  rw [List.nodup_append] at hkept ⊢
  rw [List.nodup_append]
  refine ⟨⟨hkept.1, hinserted, ?_⟩, hkept.2.1, ?_⟩
  · rintro p hp q hq rfl
    exact hfree p hq (List.mem_append_left _ hp)
  · rintro p hp q hq rfl
    rcases List.mem_append.mp hp with hp | hp
    · exact hkept.2.2 p hp p hq rfl
    · exact hfree p hp (List.mem_append_right _ hq)

/-- At the root the pages are always placed. -/
theorem Splice.placed_root (root : Handle) (hrange : splice.start ≤ splice.stop)
    (hstop : splice.stop ≤ (leavesAll kids).length) :
    (splice.spliceNode root 0 none kids).2 ≠ none := by
  intro hnone
  have hstarted : splice.Started 0 none := ⟨fun _ => Nat.zero_le _, fun hne => absurd rfl hne⟩
  have hloop := Splice.cuts_spliceLoop hrange kids root 0 none hstarted
  obtain ⟨-, -, -, hlast⟩ := Splice.place_spec hloop.started root
  have hlt := hlast hnone
  omega

/-- The inserted pages are kids of the node that is reported. -/
theorem Splice.placesUnder_root (splice : Splice) (root : Handle) (kids : List PageTree) :
    splice.PlacesUnder none (splice.spliceNode root 0 none kids).2 root
      (splice.spliceNode root 0 none kids).1 :=
  (Splice.placesUnder_spliceLoop kids root 0 none).1.append
    (Splice.placesUnder_place splice root (0 + (leavesAll kids).length) _)
    (Splice.place_keep splice root _)

/-- The splice proper, from the root. -/
theorem Splice.spliceRoot_run (splice : Splice) (hrange : splice.start ≤ splice.stop)
    (hstop : splice.stop ≤ (leavesAll kids').length)
    (hready : splice.WalkReady heap [.pages root kids']) (hheight : heightAll kids' < splice.maxDepth) :
    ∃ delta st parent, splice.spliceSubtree splice.maxDepth root 0 ⟨heap, false⟩ = .ok delta st ∧
      splice.Spliced ⟨heap, false⟩ st none (some parent) (root :: nodesAll kids')
        (kidsArrays heap (root :: nodesAll kids'))
        [.pages root (splice.spliceNode root 0 none kids').1] ∧
      (splice.spliceNode root 0 none kids').2 = some parent := by
  obtain ⟨st, hrun, hspliced⟩ := Splice.spliceSubtree_run splice.maxDepth root kids' hheight
    ⟨heap, false⟩ 0 none hready rfl
  obtain ⟨parent, hparent⟩ :=
    Option.ne_none_iff_exists'.mp (Splice.placed_root root hrange hstop)
  rw [hparent] at hspliced
  exact ⟨_, st, parent, hrun, hspliced, hparent⟩

section Together

variable {maxDepth : ℕ} {actual : Splice} {st₀ st : CollectState} {st' : SpliceState}
  {parent : Handle} {heap₂ : Heap}
  (h : Spliceable copyFuel maxDepth catalog root kids heap)
  (hprepared : Prepared heap st.heap (treeSlots heap (.pages root kids)) Set.univ)
  (hcollected : Collected heap (treeSlots heap (.pages root kids)) st₀ st
    (kidsArrays heap (root :: nodesAll kids)) [.pages root kids] [.pages root kids'])
  (hnormalized : Normalized heap (treeSlots heap (.pages root kids)) st.heap heap₂
    (occupiedPages (leavesAll kids') splice.start splice.stop) splice.insert actual.insert)
  (hspliced : actual.Spliced ⟨heap₂, false⟩ st' none (some parent) (root :: nodesAll kids')
    (kidsArrays heap₂ (root :: nodesAll kids'))
    [.pages root (actual.spliceNode root 0 none kids').1])

include hcollected

theorem nodes_together : nodesAll kids' = nodesAll kids ∧
    (leavesAll kids').length = (leavesAll kids).length ∧ heightAll kids' = heightAll kids := by
  have hsame := hcollected.same
  rw [SameNodesAll, SameNodes] at hsame
  exact SameNodesAll.nodes_eq kids kids' hsame.1.2

include h hprepared hnormalized

/-- Between the walks the `/Kids` of the nodes have not changed. -/
theorem kidsArrays_together : kidsArrays heap₂ (root :: nodesAll kids') =
    kidsArrays heap (root :: nodesAll kids) := by
  obtain ⟨hnodes, -, -⟩ := nodes_together hcollected
  have hlt : ∀ a ∈ root :: nodesAll kids, a < heap.size := by
    have hnode_lt := Holds.node_lt _ h.holds
    rw [nodes] at hnode_lt
    exact hnode_lt
  rw [hnodes, kidsArrays_frame (hnormalized.extends_.frame hnormalized.closed)
    (fun _ => Set.notMem_empty _) fun a ha => Nat.lt_of_lt_of_le (hlt a ha) hprepared.frame.size_le]
  exact kidsArrays_frame hprepared.frame (not_typeKeys kids_ne_type) hlt

/-- The second walk is ready for the tree that the first one has left. -/
theorem walkReady_together : actual.WalkReady heap₂ [.pages root kids'] := by
  obtain ⟨hnodes, -, -⟩ := nodes_together hcollected
  have harrays := kidsArrays_together h hprepared hcollected hnormalized
  have hextends := hnormalized.extends_.frame hnormalized.closed
  have hnodes_nodup := nodup_of_kidsArrays _ (Holds.node_kids _ h.holds) h.arrays_nodup
  have hinserted : ∀ p ∈ actual.insert, p < heap₂.size ∧ heap₂.isDictionary p = true ∧
      heap₂.hasKey p (ascii "/Kids") = false := by
    intro p hp
    have hholds := (hnormalized.inserted p hp).holds
    rw [Holds] at hholds
    exact hholds
  constructor
  · exact hnormalized.closed
  · exact ⟨fun p hp => (hinserted p hp).1, fun p hp => (hinserted p hp).2.1,
      fun p hp => (hinserted p hp).2.2, fun p hp => (hnormalized.inserted p hp).named⟩
  · exact HoldsAll.frame hextends hprepared.frame.closed _
      ⟨fun _ => Set.notMem_empty _, fun _ _ => Set.notMem_empty _, fun _ _ => Set.notMem_empty _⟩
      hcollected.holds
  · intro p hp
    rw [Heap.objectRef, hnormalized.extends_.identity_eq (HoldsAll.leaf_lt _ hcollected.holds p hp)]
    exact hcollected.named p hp
  · rw [nodesAll_singleton, nodes, hnodes]
    exact hnodes_nodup
  · rw [nodesAll_singleton, nodes, harrays]
    exact h.arrays_nodup

include hspliced

/-- The copies of the first walk at the end. -/
theorem oldCopy_together {p q : Handle}
    (hfresh : FreshCopy heap st.heap (treeSlots heap (.pages root kids)) p q)
    (hinsert : ∀ p ∈ splice.insert, p < heap.size) :
    IsCopy heap st'.heap (treeSlots heap (.pages root kids)) (renewedKeys false) p q := by
  obtain ⟨mid, n, hfresh⟩ := hfresh
  obtain ⟨hnodes, -, -⟩ := nodes_together hcollected
  have hnode_lt := Holds.node_lt _ h.holds
  rw [nodes] at hnode_lt
  have hlater : Prepared st.heap heap₂ ∅ ∅ := .extends_ hnormalized.extends_ hnormalized.closed
  have hfresh₂ := hfresh.prepared hprepared.frame.closed (fun _ hx => absurd hx (Set.notMem_empty _))
    hlater
  have hlast := hfresh₂.spliced (renewedKeys false) hnormalized.closed hspliced.frame
    (by rw [hnodes]; exact hnode_lt)
    (by
      rw [kidsArrays_together h hprepared hcollected hnormalized]
      exact kidsArrays_lt h.closed hnode_lt)
    (by
      intro a ha
      rw [Splice.placedHere, if_pos ⟨rfl, Option.some_ne_none parent⟩] at ha
      exact Splice.isIndirect_of_objectRef (hnormalized.inserted a ha).named)
    (type_mem_renewedKeys false)
    (by
      intro hmem
      rw [Splice.placedHere, if_pos ⟨rfl, Option.some_ne_none parent⟩] at hmem
      rcases hnormalized.new q hmem with hold | hnew
      · exact absurd (hinsert q hold) (Nat.not_lt.mpr hfresh.new)
      · exact absurd hfresh.lt (Nat.not_lt.mpr hnew))
  exact ⟨mid, n, hlast.toPageCopy⟩

/-- The copies that are inserted at the end. -/
theorem insertedCopy_together {p q : Handle} (hq : q ∈ actual.insert)
    (hfresh : FreshCopy heap heap₂ (treeSlots heap (.pages root kids)) p q) :
    IsCopy heap st'.heap (treeSlots heap (.pages root kids))
      (renewedKeys (st'.heap.objectRef parent).isSome) p q := by
  obtain ⟨mid, n, hfresh⟩ := hfresh
  obtain ⟨hnodes, -, -⟩ := nodes_together hcollected
  have hnode_lt := Holds.node_lt _ h.holds
  rw [nodes] at hnode_lt
  obtain ⟨-, hparents⟩ := hspliced.parents parent rfl rfl
  have hlast := hfresh.spliced (renewedKeys (st'.heap.objectRef parent).isSome) hnormalized.closed
    hspliced.frame (by rw [hnodes]; exact hnode_lt)
    (by
      rw [kidsArrays_together h hprepared hcollected hnormalized]
      exact kidsArrays_lt h.closed hnode_lt)
    (by
      intro a ha
      rw [Splice.placedHere, if_pos ⟨rfl, Option.some_ne_none parent⟩] at ha
      exact Splice.isIndirect_of_objectRef (hnormalized.inserted a ha).named)
    (type_mem_renewedKeys _)
    (by
      intro _ hnot
      rw [hparents q hq, if_neg]
      exact fun hnamed => hnot (.inr ⟨hnamed, rfl⟩))
  exact ⟨mid, n, hlast.toPageCopy⟩

/-- The parts of the call together. -/
theorem splicedTo_together (hactual : actual.start = splice.start ∧ actual.stop = splice.stop)
    (hrange : splice.start ≤ splice.stop) (hinsert : ∀ p ∈ splice.insert, p < heap.size)
    (hseen : st₀.seen = [])
    (hparent : (actual.spliceNode root 0 none kids').2 = some parent) :
    SplicedTo splice root parent kids (leavesAll kids') actual.insert
      (actual.spliceNode root 0 none kids').1 heap st'.heap := by
  obtain ⟨hnodes, -, -⟩ := nodes_together hcollected
  have hsame := hcollected.same
  rw [SameNodesAll, SameNodes] at hsame
  have hrange' : actual.start ≤ actual.stop := by
    rw [hactual.1, hactual.2]
    exact hrange
  have hcuts := Splice.cuts_spliceNode hrange' (Splice.cuts_spliceLoop hrange' kids' root 0 none
    ⟨fun _ => Nat.zero_le _, fun hne => absurd rfl hne⟩)
  have hplaced : actual.placedHere none (some parent) = actual.insert := by
    rw [Splice.placedHere, if_pos ⟨rfl, Option.some_ne_none parent⟩]
  have hleaves := hcuts.leaves_eq
  rw [hparent, hplaced, Splice.cut, hactual.1, hactual.2, Nat.sub_zero, Nat.sub_zero] at hleaves
  have hholds := hspliced.holds
  rw [HoldsAll] at hholds
  have hdeduped := hcollected.deduped
  have hnodup := hcollected.nodup
  simp only [leavesAll_singleton, leaves, hseen] at hdeduped hnodup
  have hfree : ∀ p ∈ actual.insert,
      p ∉ (leavesAll kids').take splice.start ++ (leavesAll kids').drop splice.stop := by
    intro p hp hmem
    exact hnormalized.unoccupied p hp (mem_occupiedPages.mpr hmem)
  obtain ⟨-, hparents⟩ := hspliced.parents parent rfl rfl
  constructor
  · exact hholds.1
  · exact hleaves
  · rw [hleaves]
    exact nodup_take_drop hrange hnodup hnormalized.nodup hfree
  · have hempty : {p | p ∈ ([] : List Handle)} = (∅ : Set Handle) := by
      ext p
      simp
    rw [hempty] at hdeduped
    refine hdeduped.mono _ _ ?_
    intro p q _ hfresh
    exact oldCopy_together h hprepared hcollected hnormalized hspliced hfresh hinsert
  · refine (hnormalized.deduped.congr_taken ?_).mono _ _ ?_
    · exact fun p _ => mem_occupiedPages
    · intro p q hq hfresh
      exact insertedCopy_together h hprepared hcollected hnormalized hspliced hq hfresh
  · rw [Splice.nodesAll_spliceNode, ← hnodes]
    exact Splice.nodes_spliceLoop kids' root 0 none
  · intro tree htree hempty
    exact SameNodesAll.subtree_empty kids kids' hsame.1.2 tree
      (Splice.keepsEmpty_spliceNode root kids' tree htree hempty) hempty
  · intro p hp
    rw [edges]
    exact (Splice.placesUnder_root actual root kids' parent rfl hparent p hp).1
  · intro p hp hnamed
    rw [hparents p hp, if_pos hnamed]
  · intro p hp hdirect hold
    rw [hparents p hp, if_neg (by rw [hdirect]; exact Bool.false_ne_true),
      Heap.getKey_congr (hnormalized.extends_.value_eq
        (Nat.lt_of_lt_of_le hold hprepared.frame.size_le))]
    exact hprepared.frame.getKey_eq p hold _ (not_typeKeys (by decide) p)

end Together

/-- The splice of a list of page dictionaries. -/
theorem splicePages_run (h : Spliceable copyFuel splice.maxDepth catalog root kids heap)
    (hrange : splice.start ≤ splice.stop) (hstop : splice.stop ≤ (leavesAll kids).length)
    (hinsert : ∀ p ∈ splice.insert, Insertable copyFuel heap p)
    (hremain : (leavesAll kids).length - (splice.stop - splice.start) + splice.insert.length ≠ 0)
    (hwork : ¬(splice.start = splice.stop ∧ splice.insert = [])) :
    ∃ parent old inserted new heap', splicePages copyFuel (some catalog) splice heap = .ok () heap' ∧
      SplicedTo splice root parent kids old inserted new heap heap' := by
  obtain ⟨heap₁, st, kids', hroot, hcollect, hprepared, hcollected⟩ := collect_run h
  obtain ⟨-, hlength, hheight⟩ := nodes_together hcollected
  have hpages : st.pages = leavesAll kids' := by
    rw [hcollected.pages_eq, leavesAll_singleton, leaves]
    rfl
  have hleaf_lt : ∀ p ∈ leavesAll kids', p < st.heap.size := by
    have hlt := HoldsAll.leaf_lt _ hcollected.holds
    rw [leavesAll_singleton, leaves] at hlt
    exact hlt
  obtain ⟨inserted, heap₂, hnormalize, hnormalized⟩ := normalizeInsertPages_run h.closed splice.insert
    (occupiedPages (leavesAll kids') splice.start splice.stop) st.heap hprepared hinsert (by
      intro a ha
      rw [mem_occupiedPages] at ha
      rcases List.mem_append.mp ha with hmem | hmem
      · exact hleaf_lt a (List.mem_of_mem_take hmem)
      · exact hleaf_lt a (List.mem_of_mem_drop hmem))
  obtain ⟨delta, st', parent, hsplice, hspliced, hparent⟩ := Splice.spliceRoot_run
    { splice with insert := inserted } hrange (by rw [hlength]; exact hstop)
    (walkReady_together h hprepared hcollected hnormalized) (by rw [hheight]; exact h.height)
  refine ⟨parent, leavesAll kids', inserted, _, st'.heap, ?_,
    splicedTo_together h hprepared hcollected hnormalized hspliced ⟨rfl, rfl⟩ hrange
      (fun p hp => (hinsert p hp).lt) rfl hparent⟩
  have hdone : st'.insertDone = true := hspliced.done
  rw [splicePages, if_neg (Nat.not_lt.mpr hrange), if_neg hwork, hroot, Outcome.andThen_ok]
  simp only [hcollect, spliceCollected, hpages]
  rw [if_neg (by rw [hlength]; exact Nat.not_lt.mpr hstop), hnormalize, Outcome.andThen_ok,
    if_neg (by rw [hlength, hnormalized.length_eq]; exact hremain)]
  simp only [hsplice, hdone, Bool.not_true, Bool.false_and, Bool.false_eq_true, if_false]

theorem Heap.Extends.holds (hextends : heap.Extends heap') (hclosed : heap.Closed)
    (hclosed' : heap'.Closed) {tree : PageTree} (h : tree.Holds heap) : tree.Holds heap' :=
  Holds.frame (hextends.frame hclosed') hclosed tree
    ⟨fun _ => Set.notMem_empty _, fun _ _ => Set.notMem_empty _, fun _ _ => Set.notMem_empty _⟩ h

/-- The splice of a list with an object that is no dictionary. The nodes are as the first walk
has left them. -/
theorem splicePages_fails (h : Spliceable copyFuel splice.maxDepth catalog root kids heap)
    (hrange : splice.start ≤ splice.stop) (hstop : splice.stop ≤ (leavesAll kids).length)
    (hunfit : Unfit heap splice.insert) :
    ∃ failure kids' heap₁ heap', splicePages copyFuel (some catalog) splice heap =
        .failed failure heap' ∧
      (PageTree.pages root kids').Holds heap' ∧ SameNodesAll kids kids' ∧
      Deduped (IsCopy heap heap₁ (treeSlots heap (.pages root kids)) (renewedKeys false)) ∅
        (leavesAll kids) (leavesAll kids') := by
  obtain ⟨heap₁, st, kids', hroot, hcollect, hprepared, hcollected⟩ := collect_run h
  obtain ⟨-, hlength, hheight⟩ := nodes_together hcollected
  have hpages : st.pages = leavesAll kids' := by
    rw [hcollected.pages_eq, leavesAll_singleton, leaves]
    rfl
  have hsame := hcollected.same
  rw [SameNodesAll, SameNodes] at hsame
  have hholds := hcollected.holds
  rw [HoldsAll] at hholds
  have hclosed := hprepared.frame.closed
  have hdeduped := hcollected.deduped
  have hempty : {p | p ∈ ([] : List Handle)} = (∅ : Set Handle) := by
    ext p
    simp
  simp only [leavesAll_singleton, leaves, hempty] at hdeduped
  have hwork : ¬(splice.start = splice.stop ∧ splice.insert = []) := by
    rintro ⟨-, hnil⟩
    obtain ⟨p, hp, -⟩ := hunfit.not_dictionary
    rw [hnil] at hp
    cases hp
  have hunfit₁ := hunfit.frame hprepared.frame
  suffices hfails : ∃ failure heap', spliceCollected copyFuel splice root (leavesAll kids') st.heap =
      .failed failure heap' ∧ (PageTree.pages root kids').Holds heap' by
    obtain ⟨failure, heap', hrun, hholds'⟩ := hfails
    refine ⟨failure, kids', st.heap, heap', ?_, hholds', hsame.1.2, hdeduped.mono _ _ ?_⟩
    · rw [splicePages, if_neg (Nat.not_lt.mpr hrange), if_neg hwork, hroot, Outcome.andThen_ok]
      simp only [hcollect, hpages, hrun]
    · rintro p q - ⟨mid, n, hfresh⟩
      refine ⟨mid, n, hfresh.slot_eq, hfresh.new, ?_⟩
      exact fun key hkey => hfresh.copied key fun hmem => hkey (type_mem_renewedKeys false hmem)
  have hgrows := normalizeInsertPages_grows copyFuel splice.insert
    (occupiedPages (leavesAll kids') splice.start splice.stop) st.heap hclosed hunfit₁.lt
  rw [spliceCollected, if_neg (by rw [hlength]; exact Nat.not_lt.mpr hstop)]
  cases hrun : normalizeInsertPages copyFuel splice.insert
      (occupiedPages (leavesAll kids') splice.start splice.stop) st.heap with
  | failed failure heap₂ =>
    rw [hrun] at hgrows
    exact ⟨failure, heap₂, rfl, hgrows.1.holds hclosed hgrows.2 hholds.1⟩
  | ok inserted heap₂ =>
    rw [hrun] at hgrows
    obtain ⟨hextends, hclosed₂, hlt, hnot⟩ := hgrows
    have hholds₂ := hextends.holds hclosed hclosed₂ hholds.1
    rw [Outcome.andThen_ok]
    split
    · exact ⟨_, heap₂, rfl, hholds₂⟩
    · have hblocked : ({ splice with insert := inserted } : Splice).Blocked ⟨heap₂, false⟩
          [.pages root kids'] := by
        refine ⟨hclosed₂, rfl, hrange, ⟨hlt, hnot hunfit₁.not_dictionary⟩, ⟨hholds₂, trivial⟩, ?_⟩
        intro p hp
        rw [Heap.objectRef, hextends.identity_eq (HoldsAll.leaf_lt _ hcollected.holds p hp)]
        exact hcollected.named p hp
      obtain ⟨failure, st', hrun', hframe⟩ := Splice.spliceSubtree_fails splice.maxDepth root kids'
        (by rw [hheight]; exact h.height) ⟨heap₂, false⟩ 0 hblocked (Nat.zero_le _)
        (by rw [hlength, Nat.zero_add]; exact hrange.trans hstop)
      refine ⟨failure, st'.heap, ?_, ?_⟩
      · rw [hrun']
      · exact Holds.frame hframe hclosed₂ _ ⟨fun a => kids_ne_parent, fun a _ => count_ne_parent,
          fun a _ => Set.notMem_empty a⟩ hholds₂

/-- A splice of a stored page tree is the splice of its list of pages, and where an inserted
object is no dictionary the tree stays as it is. -/
theorem splicePages_correct (copyFuel : ℕ) (catalog root : Handle) (splice : Splice)
    (h : Spliceable copyFuel splice.maxDepth catalog root kids heap)
    (hrange : splice.start ≤ splice.stop) (hstop : splice.stop ≤ (leavesAll kids).length) :
    (splice.start = splice.stop ∧ splice.insert = [] →
      splicePages copyFuel (some catalog) splice heap = .ok () heap) ∧
    (¬(splice.start = splice.stop ∧ splice.insert = []) →
      (∀ p ∈ splice.insert, Insertable copyFuel heap p) →
      (leavesAll kids).length - (splice.stop - splice.start) + splice.insert.length ≠ 0 →
      ∃ parent old inserted new heap',
        splicePages copyFuel (some catalog) splice heap = .ok () heap' ∧
          SplicedTo splice root parent kids old inserted new heap heap') ∧
    (Unfit heap splice.insert →
      ∃ failure kids' heap₁ heap',
        splicePages copyFuel (some catalog) splice heap = .failed failure heap' ∧
          (PageTree.pages root kids').Holds heap' ∧ SameNodesAll kids kids' ∧
          Deduped (IsCopy heap heap₁ (treeSlots heap (.pages root kids)) (renewedKeys false)) ∅
            (leavesAll kids) (leavesAll kids')) := by
  refine ⟨?_, ?_, splicePages_fails h hrange hstop⟩
  · intro hidle
    rw [splicePages, if_neg (Nat.not_lt.mpr hrange), if_pos hidle]
  · intro hwork hinsert hremain
    exact splicePages_run h hrange hstop hinsert hremain hwork

/-- A root with a direct node that has two pages, and a page that is not in the tree. -/
def directNodeHeap : Heap where
  slot
    | 0 => ⟨some ⟨1, 0⟩, .dictionary (.ofList [(ascii "/Pages", 1)])⟩
    | 1 => ⟨some ⟨2, 0⟩, .dictionary (.ofList [(ascii "/Kids", 2), (ascii "/Count", 7)])⟩
    | 2 => ⟨none, .array [3]⟩
    | 3 => ⟨none, .dictionary (.ofList [(ascii "/Kids", 4), (ascii "/Count", 8)])⟩
    | 4 => ⟨none, .array [5, 6]⟩
    | 5 => ⟨some ⟨3, 0⟩, .dictionary ∅⟩
    | 6 => ⟨some ⟨4, 0⟩, .dictionary ∅⟩
    | 9 => ⟨some ⟨5, 0⟩, .dictionary ∅⟩
    | _ => ⟨none, .integer 2⟩
  size := 10
  objectCount := 5

def directNodeKids : List PageTree := [.pages 3 [.page 5, .page 6]]

theorem directNodeHeap_copyable (p : Handle) (hp : p ∈ [5, 6, 9]) :
    ∃ n, n < 3 ∧ directNodeHeap.Copyable n p := by
  have hvalue : directNodeHeap.value p = .dictionary ∅ := by
    simp only [List.mem_cons, List.not_mem_nil, or_false] at hp
    rcases hp with rfl | rfl | rfl <;> rfl
  refine ⟨1, by decide, ?_⟩
  rw [Heap.Copyable, hvalue]
  intro child hchild
  cases hchild

theorem directNodeHeap_spliceable : Spliceable 3 10 0 1 directNodeKids directNodeHeap where
  closed := by
    have hclosed : ∀ a, a < 10 → ∀ child ∈ (directNodeHeap.value a).children, child < 10 := by
      decide
    exact hclosed
  root_eq := by decide
  holds := by
    simp only [directNodeKids, Holds, HoldsAll, and_true]
    decide
  height := by decide
  arrays_nodup := by decide
  nameable_root := .inr (by decide)
  nameable p hp := by
    have hnamed : ∀ p ∈ leavesAll directNodeKids, (directNodeHeap.objectRef p).isSome = true := by
      decide
    exact .inr (hnamed p hp)
  copyable p hp := by
    have hmem : ∀ p ∈ leavesAll directNodeKids, p ∈ [5, 6, 9] := by
      decide
    exact directNodeHeap_copyable p (hmem p hp)

theorem directNodeHeap_insertable (p : Handle) (hp : p ∈ [9]) : Insertable 3 directNodeHeap p := by
  rw [List.mem_singleton] at hp
  subst hp
  exact ⟨by decide, by decide, by decide, by decide,
    directNodeHeap_copyable 9 (by decide)⟩

/-- The page goes between the two pages of the direct node. -/
theorem directNodeHeap_splices : ∃ parent old inserted new heap',
    splicePages 3 (some 0) ⟨1, 1, [9], 10⟩ directNodeHeap = .ok () heap' ∧
      SplicedTo ⟨1, 1, [9], 10⟩ 1 parent directNodeKids old inserted new directNodeHeap heap' :=
  (splicePages_correct 3 0 1 ⟨1, 1, [9], 10⟩ directNodeHeap_spliceable (by decide)
    (by decide)).2.1 (by decide) directNodeHeap_insertable (by decide)

/-- The direct node takes the page, but the page gets no `/Parent`. -/
theorem directNodeHeap_without_parent :
    Spliceable 3 10 0 1 directNodeKids directNodeHeap ∧
      (∀ p ∈ [9], Insertable 3 directNodeHeap p) ∧
      ∃ heap', splicePages 3 (some 0) ⟨1, 1, [9], 10⟩ directNodeHeap = .ok () heap' ∧
        heap'.arrayAt 3 (ascii "/Kids") = some [5, 9, 6] ∧ heap'.getKey 9 (ascii "/Parent") = none := by
  refine ⟨directNodeHeap_spliceable, directNodeHeap_insertable, ?_⟩
  have hrun : (splicePages 3 (some 0) ⟨1, 1, [9], 10⟩ directNodeHeap).okState.map (fun heap' =>
      (heap'.arrayAt 3 (ascii "/Kids"), heap'.getKey 9 (ascii "/Parent"))) =
        some (some [5, 9, 6], none) := by
    decide
  cases houtcome : splicePages 3 (some 0) ⟨1, 1, [9], 10⟩ directNodeHeap with
  | failed failure heap' =>
    rw [houtcome] at hrun
    cases hrun
  | ok value heap' =>
    rw [houtcome] at hrun
    have hboth := Option.some.inj hrun
    exact ⟨heap', rfl, congrArg Prod.fst hboth, congrArg Prod.snd hboth⟩

end Flpdf
