import Flpdf.NNTree.Cursors

/-! # The shape of a tree that is reached

Every node below the root has limits that fit and is not empty, no array is longer than the
threshold, and all leaves are equally deep.
-/

namespace Flpdf

namespace NNTree

variable {κ ρ ν : Type} [LinearOrder κ]

/-- A node that a path from the root leads to, in a tree whose leaves have a depth. -/
structure WellFormedNode (K : TreeKey κ ρ) (store : NodeStore ρ ν) (threshold height : ℕ)
    (path : List PathElement) (id : NodeId) (node : TreeNode ρ ν) : Prop where
  leaf : path.length = height → ∃ items, node.items = some items ∧ node.kids = none ∧
    items.length ≤ threshold ∧ ((items.map K.entry).Pairwise fun entry entry' => entry.1 < entry'.1) ∧
    (path ≠ [] → items ≠ [])
  inner : path.length ≠ height → path.length < height ∧ ∃ kids, node.items = none ∧ node.kids = some kids ∧
    kids.length ≤ threshold ∧ kids ≠ []
  root : path = [] → node.limits = none
  limits : path ≠ [] → ∃ limits first last, node.limits = some limits ∧
    (storedItems store store.next id).head? = some first ∧ K.valueFromHandle limits.1 = (K.entry first).1 ∧
    (storedItems store store.next id).getLast? = some last ∧ K.valueFromHandle limits.2 = (K.entry last).1

variable {K : TreeKey κ ρ} {tree : NNTree} {store : NodeStore ρ ν} {n height : ℕ} {ctx : Context ρ ν n}
  {id : NodeId} {array : List (NodeSlot ρ ν n)} {threshold : ℕ}
  {repair : NodeStore ρ ν → Except NNTreeError (NodeStore ρ ν)}

omit [LinearOrder κ] in
theorem path_eq_nil (h : ctx.path = []) (edges : Option (κ × κ)) : ctx.expects edges = none := by
  cases ctx with
  | top => rfl
  | up => cases h

omit [LinearOrder κ] in
theorem path_ne_nil (h : ctx.path ≠ []) (edges : Option (κ × κ)) : ctx.expects edges = edges := by
  cases ctx with
  | top => exact absurd rfl h
  | up => rfl

omit [LinearOrder κ] in
/-- The first and the last key, decoded from limits. -/
theorem exists_limits {limits : Option (ρ × ρ)} {items : List (TreeItem ρ ν)} (hne : items ≠ [])
    (h : K.decoded limits = K.edges items) :
    ∃ limits' first last, limits = some limits' ∧ items.head? = some first ∧
      K.valueFromHandle limits'.1 = (K.entry first).1 ∧ items.getLast? = some last ∧
      K.valueFromHandle limits'.2 = (K.entry last).1 := by
  rw [TreeKey.edges_of_ne_nil hne] at h
  obtain ⟨limits', rfl, hlimits⟩ := Option.map_eq_some_iff.mp h
  obtain ⟨hfirst, hlast⟩ := Prod.mk.inj hlimits
  exact ⟨limits', _, _, rfl, List.head?_eq_some_head hne, hfirst, List.getLast?_eq_some_getLast hne, hlast⟩

theorem wellFormedNode_of_live (h : Live K tree store ctx id array) (hlength : array.length ≤ tree.splitThreshold)
    (hheight : ctx.path.length + n = height) :
    ∃ node, store.node id = some node ∧
      WellFormedNode K store tree.splitThreshold height ctx.path id node := by
  obtain ⟨⟨limits, hfocus, hlimits⟩, hnil⟩ := h.settled
  have hstored : storedItems store store.next id = itemsOf array :=
    storedItems_eq hfocus.node hfocus.slots h.settled.height_lt
  have hne : ctx.path ≠ [] → array ≠ [] := fun hpath harray => hpath (hnil harray).2
  refine ⟨_, hfocus.node, fun hleaf => ?_, fun hinner => ?_, fun hroot => ?_, fun hpath => ?_⟩
  · obtain rfl : n = 0 := by omega
    refine ⟨array, rfl, rfl, hlength, ?_, hne⟩
    have hinc : K.Increasing (itemsOf array) :=
      (List.pairwise_append.mp (List.pairwise_append.mp h.increasing).1).2.1
    rw [itemsOf_leaf] at hinc
    exact List.pairwise_map.mpr hinc
  · obtain ⟨n, rfl⟩ := Nat.exists_eq_succ_of_ne_zero (show n ≠ 0 by omega)
    refine ⟨by omega, array.map NodeSlot.id, rfl, rfl, by rwa [List.length_map], fun hkids => ?_⟩
    exact Nat.succ_ne_zero n (hnil (List.map_eq_nil_iff.mp hkids)).1
  · rw [path_eq_nil hroot] at hlimits
    rw [nodeOf_limits]
    exact Option.map_eq_none_iff.mp hlimits
  · rw [path_ne_nil hpath] at hlimits
    rw [nodeOf_limits, hstored]
    exact exists_limits (itemsOf_ne_nil hfocus.slots (hne hpath)) hlimits

/-- Whatever calls have led to a tree, its keys become greater from left to right, and every node is
well formed. -/
theorem reachable_wellFormed (hthreshold : 2 ≤ threshold) (h : Reachable K repair threshold tree store) :
    ((tree.entries K store).Pairwise fun entry entry' => entry.1 < entry'.1) ∧
    ∃ height, ∀ path id, LeadsTo store tree.root path id →
      ∃ node, store.node id = some node ∧ WellFormedNode K store threshold height path id node := by
  obtain ⟨-, rfl, items, hstores⟩ := h.stores hthreshold
  obtain ⟨n, array, hlive, hlength, -⟩ := id hstores
  refine ⟨entries_increasing hstores, n, fun path id hpath => ?_⟩
  obtain ⟨m, ctx, array, hnode, hsmall, rfl, hdeep⟩ := exists_context hlive hlength hpath
  exact wellFormedNode_of_live hnode hsmall hdeep

/-- With two entries at most in a leaf, three keys give two leaves. -/
theorem reachable_wellFormed_split : ∃ (tree : NNTree) (store : NodeStore ℤ Bool),
    (tree.entries numberKey store).map Prod.fst = [3, 5, 8] ∧
    ∃ height, ∀ path id, LeadsTo store tree.root path id →
      ∃ node, store.node id = some node ∧ WellFormedNode numberKey store 2 height path id node := by
  have hempty : newEmpty (⟨fun _ => none, 1⟩ : NodeStore ℤ Bool) = .ok (_, _) := rfl
  refine ⟨_, _, ?_, (reachable_wellFormed (Nat.le_refl 2)
    (@Reachable.insert _ _ _ numberKey _ (fun _ => .error (.structural none [])) 2 _ _ _ 8 true _
      (.insert 3 true (.insert 5 true (.newEmpty hempty) rfl) rfl) rfl)).2⟩
  decide

end NNTree

end Flpdf
