import Flpdf.NNTree.Shape

/-! # Limits up the path

Limits are computed again from a node upwards and no further than they change.  The nodes
above fit what the node has had for limits, so that the early stop leaves nothing behind.
-/

namespace Flpdf

variable {κ ρ ν : Type} {K : TreeKey κ ρ} {store : NodeStore ρ ν} {n : ℕ} {ctx : Context ρ ν n}
  {id : NodeId} {array array' : List (NodeSlot ρ ν n)} {limits : Option (ρ × ρ)}

/-- The limits of a node that holds are those of its items. -/
theorem NodeSlot.Holds.limits_eq {slot : NodeSlot ρ ν (n + 1)} (h : slot.Holds K store) :
    ∃ node first last, store.node slot.id = some node ∧ node.limits = some (first, last) ∧
      K.edges slot.items = some (K.valueFromHandle first, K.valueFromHandle last) := by
  have hne := h.items_ne_nil
  obtain ⟨id, array⟩ := slot
  obtain ⟨-, -, limits, hnode, hlimits⟩ := h
  change itemsOf array ≠ [] at hne
  rw [TreeKey.edges_of_ne_nil hne] at hlimits
  rcases limits with _ | ⟨first, last⟩
  · cases hlimits
  · refine ⟨_, first, last, hnode, ?_, ?_⟩
    · cases n <;> rfl
    · exact (TreeKey.edges_of_ne_nil hne).trans hlimits.symm

/-- The first and the last key of an array are those of its first and of its last slot. -/
theorem edges_itemsOf (h : ∀ slot ∈ array, slot.Holds K store) (hne : array ≠ []) :
    K.edges (itemsOf array) = do
      return ((← K.edges (array.head hne).items).1, (← K.edges (array.getLast hne).items).2) := by
  have hfirst := (h _ (List.head_mem hne)).items_ne_nil
  have hlast := (h _ (List.getLast_mem hne)).items_ne_nil
  have hhead : (itemsOf array).head (itemsOf_ne_nil h hne) = (array.head hne).items.head hfirst := by
    cases array with
    | nil => exact absurd rfl hne
    | cons slot array =>
      simp only [itemsOf_cons, List.head_cons]
      exact List.head_append_left hfirst
  have hend : (itemsOf array).getLast (itemsOf_ne_nil h hne) = (array.getLast hne).items.getLast hlast := by
    obtain ⟨array, slot, rfl⟩ := array.eq_nil_or_concat.resolve_left hne
    simp only [List.concat_eq_append, List.getLast_concat] at hlast ⊢
    simp only [itemsOf_append, itemsOf_cons, itemsOf_nil, List.append_nil]
    exact List.getLast_append_right hlast
  rw [TreeKey.edges_of_ne_nil hfirst, TreeKey.edges_of_ne_nil hlast,
    TreeKey.edges_of_ne_nil (itemsOf_ne_nil h hne), hhead, hend]
  rfl

/-- `edge_limits` of a node finds the first and the last key below it. -/
theorem edgeLimits_eq (h : ∀ slot ∈ array, slot.Holds K store) (hne : array ≠ []) (limits : Option (ρ × ρ)) :
    ∃ first last, store.edgeLimits (nodeOf array limits) = some (first, last) ∧
      K.edges (itemsOf array) = some (K.valueFromHandle first, K.valueFromHandle last) := by
  cases n with
  | zero =>
    revert hne h array
    intro (array : List (TreeItem ρ ν)) _ hne
    refine ⟨(array.head hne).rawKey, (array.getLast hne).rawKey, ?_, ?_⟩
    · simp [NodeStore.edgeLimits, nodeOf, List.head?_eq_some_head hne, List.getLast?_eq_some_getLast hne]
    · exact (congrArg K.edges (itemsOf_leaf array)).trans (TreeKey.edges_of_ne_nil hne)
  | succ n =>
    obtain ⟨firstNode, first, _, hfirst, hfirstLimits, hfirstEdges⟩ := (h _ (List.head_mem hne)).limits_eq
    obtain ⟨lastNode, _, last, hlast, hlastLimits, hlastEdges⟩ := (h _ (List.getLast_mem hne)).limits_eq
    refine ⟨first, last, ?_, ?_⟩
    · simp [NodeStore.edgeLimits, nodeOf, List.head?_eq_some_head hne, List.getLast?_eq_some_getLast hne,
        hfirst, hlast, hfirstLimits, hlastLimits]
    · rw [edges_itemsOf h hne, hfirstEdges, hlastEdges]
      rfl

namespace NNTree

variable [LinearOrder κ]

/-- The test whether limits change. -/
theorem any_limits_iff {first last : κ} :
    (limits.any fun old => K.valueFromHandle old.1 = first ∧ K.valueFromHandle old.2 = last) = true ↔
      K.decoded limits = some (first, last) := by
  cases limits <;> simp [TreeKey.decoded]

/-- Limits that fit are not changed. -/
theorem resetLimits_settled (h : SettledAt K store ctx id array) :
    resetLimits K store id ctx.path = .ok store := by
  obtain ⟨⟨limits, hfocus, hlimits⟩, hnil⟩ := h
  cases ctx with
  | top =>
    obtain rfl : limits = none := Option.map_eq_none_iff.mp hlimits
    rw [Context.path, resetLimits, NodeStore.loadNode_eq hfocus.node]
    dsimp only [bind, Except.bind, pure, Except.pure]
    rw [nodeOf_mk, NodeStore.set_eq_self hfocus.node]
  | up parent left right above =>
    have hne : array ≠ [] := fun hnil' => List.cons_ne_nil _ _ (hnil hnil').2
    obtain ⟨first, last, hedge, hedges⟩ := edgeLimits_eq hfocus.slots hne limits
    rw [Context.path, resetLimits, NodeStore.loadNode_eq hfocus.node]
    dsimp only [bind, Except.bind, pure, Except.pure]
    rw [hedge, nodeOf_limits]
    dsimp only
    rw [if_pos (any_limits_iff.mpr (hlimits.trans hedges))]

/-- `reset_limits` of a node whose array has changed. -/
theorem resetLimits_spec (h : Focused K store ctx id array limits) (hnil : array = [] → n = 0 ∧ ctx.path = []) :
    ∃ store', resetLimits K store id ctx.path = .ok store' ∧ store'.next = store.next ∧
      (∀ i ∉ id :: ctx.ids, store'.node i = store.node i) ∧ SettledAt K store' ctx id array := by
  induction ctx generalizing store id limits with
  | top =>
    refine ⟨store.set id (nodeOf array none), ?_, rfl, fun i hi => ?_, ⟨none, ?_, rfl⟩, hnil⟩
    · rw [Context.path, resetLimits, NodeStore.loadNode_eq h.node]
      dsimp only [bind, Except.bind, pure, Except.pure]
      rw [nodeOf_mk]
    · exact NodeStore.set_node_of_ne (List.ne_of_not_mem_cons hi)
    · exact h.set array _ h.slots (List.Sublist.refl _) trivial
  | @up n parent left right above ih =>
    have hne : array ≠ [] := fun hnil' => List.cons_ne_nil _ _ (hnil hnil').2
    obtain ⟨first, last, hedge, hedges⟩ := edgeLimits_eq h.slots hne limits
    rw [Context.path, resetLimits, NodeStore.loadNode_eq h.node]
    dsimp only [bind, Except.bind, pure, Except.pure]
    simp only [hedge, nodeOf_limits, nodeOf_mk]
    split_ifs with hsame htop
    · exact ⟨store, rfl, rfl, fun _ _ => rfl, ⟨limits, h, (any_limits_iff.mp hsame).trans hedges.symm⟩, hnil⟩
    · refine ⟨_, rfl, rfl, fun i hi => NodeStore.set_node_of_ne (List.ne_of_not_mem_cons hi),
        ⟨some (first, last), ?_, hedges.symm⟩, hnil⟩
      refine h.set array _ h.slots (List.Sublist.refl _) ?_
      obtain ⟨hleft, hright, parentLimits, hparent, hfit, habove⟩ := h.frames
      cases above with
      | top => exact ⟨hleft, hright, parentLimits, hparent, hfit, trivial⟩
      | up => cases htop
    · obtain ⟨parentLimits, hparent, -⟩ := h.up hne (some (first, last)) hedges.symm
      obtain ⟨store', hreset, hnext, hsame, hsettled⟩ := ih hparent (by simp)
      refine ⟨store', hreset, hnext, fun i hi => ?_, hsettled.down⟩
      simp only [Context.ids, List.mem_cons, List.mem_append, not_or] at hi
      rw [hsame i (by simp [hi]), NodeStore.set_node_of_ne hi.1]

end NNTree

end Flpdf
