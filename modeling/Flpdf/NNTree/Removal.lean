import Flpdf.NNTree.Insertion

/-! # Removing an item

A node that has become empty is taken out of the one above it, and so on; what is behind the
removed item is found from the first node that keeps another slot.
-/

namespace Flpdf

variable {κ ρ ν : Type} {n : ℕ} {K : TreeKey κ ρ} {store : NodeStore ρ ν}

theorem eraseIdx_middle {α : Type} (left right : List α) (a : α) :
    (left ++ a :: right).eraseIdx left.length = left ++ right := by
  rw [List.eraseIdx_append_of_length_le (Nat.le_refl _), Nat.sub_self, List.eraseIdx_cons_zero]

/-- The edges do not depend on a slot in the middle. -/
theorem TreeKey.edgesAround_middle {left right : List (NodeSlot ρ ν n)} (hleft : itemsOf left ≠ [])
    (hright : itemsOf right ≠ []) (edges : κ × κ) :
    K.edgesAround left (some edges) right = K.edges (itemsOf (left ++ right)) := by
  rw [itemsOf_append, edges_append hleft hright, edgesAround, edges_of_ne_nil hleft, edges_of_ne_nil hright]
  rfl

section Empty

variable {left right : List (NodeSlot ρ ν (n + 1))} {above : Context ρ ν (n + 1)} {parent id : NodeId}
  {limits : Option (ρ × ρ)} {edges : κ × κ}

/-- A node is taken out of the one above it. -/
theorem Focused.unlink (h : Focused K store (.up parent left right above) id [] limits) :
    ∃ parentLimits,
      store.node parent = some { kids := some (left.map NodeSlot.id ++ id :: right.map NodeSlot.id), limits := parentLimits } ∧
      K.decoded parentLimits = above.expects (K.edgesAround left (K.decoded limits) right) ∧
      Focused K (store.set parent (nodeOf (left ++ right) parentLimits)) above parent (left ++ right)
        parentLimits := by
  obtain ⟨hleft, hright, parentLimits, hparent, hfit, habove⟩ := h.frames
  refine ⟨parentLimits, hparent, hfit, ?_⟩
  have hsub : (parent :: (idsOf (left ++ right) ++ above.ids)).Nodup := by
    have hnodup := (List.nodup_cons.mp h.nodup).2
    simpa [Context.ids] using hnodup
  have hid := (List.nodup_cons.mp hsub).1
  rw [List.mem_append, not_or] at hid
  have hslots : ∀ slot ∈ left ++ right, slot.Holds K store := by
    intro slot hslot
    rcases List.mem_append.mp hslot with hslot | hslot
    · exact hleft slot hslot
    · exact hright slot hslot
  refine ⟨NodeStore.set_node_self, holds_congr hslots fun i hi => ?_, habove.congr fun i hi => ?_, hsub,
    fun i hi => ?_⟩
  · exact NodeStore.set_node_of_ne fun heq => hid.1 (heq ▸ hi)
  · exact NodeStore.set_node_of_ne fun heq => hid.2 (heq ▸ hi)
  · refine h.bound i (List.mem_cons_of_mem _ ?_)
    simpa [Context.ids] using hi

variable [LinearOrder κ] {tree : NNTree}

/-- Where a cursor is behind what has been removed. -/
def Behind (K : TreeKey κ ρ) (tree : NNTree) (store : NodeStore ρ ν) (cursor : NNTreeCursor κ ν)
    (before after : List (TreeItem ρ ν)) : Prop :=
  cursor.current = none ∧
    (after = [] ∧ cursor.itemNumber = none ∨
      ∃ item after', after = item :: after' ∧ Points K tree store cursor before item after')

namespace NNTree

/-- The cursor behind the last item of a node. -/
theorem behind_increment {before after : List (TreeItem ρ ν)} {item : TreeItem ρ ν} {cursor : NNTreeCursor κ ν}
    (hdepth : tree.maxDepth = none) (h : Points K tree store cursor before item after) :
    ∃ cursor', increment K tree store cursor false false = .ok cursor' ∧
      Behind K tree store cursor' (before ++ [item]) after := by
  rcases increment_points hdepth false h with ⟨hafter, hincrement⟩ |
    ⟨item', after', cursor', hafter, hpoints, hcurrent, hincrement⟩
  · exact ⟨_, hincrement, rfl, .inl ⟨hafter, rfl⟩⟩
  · exact ⟨cursor', hincrement, hcurrent, .inr ⟨item', after', hafter, hpoints⟩⟩

/-- The nodes above, once limits are right again. -/
theorem resetLimits_unlinked (hedges : K.decoded limits = some edges) (hne : left ++ right ≠ [])
    {parentLimits : Option (ρ × ρ)}
    (hfit : K.decoded parentLimits = above.expects (K.edgesAround left (K.decoded limits) right))
    (hfocus : Focused K (store.set parent (nodeOf (left ++ right) parentLimits)) above parent (left ++ right)
      parentLimits) :
    ∃ store', resetEdge K (store.set parent (nodeOf (left ++ right) parentLimits)) parent above.path left.length
        ((left ++ right).map NodeSlot.id).length = .ok store' ∧
      SettledAt K store' above parent (left ++ right) := by
  rw [resetEdge]
  split_ifs with hedge
  · obtain ⟨store', hreset, -, -, hsettled⟩ := resetLimits_spec hfocus fun hnil => absurd hnil hne
    exact ⟨store', hreset, hsettled⟩
  · refine ⟨_, rfl, ⟨parentLimits, hfocus, ?_⟩, fun hnil => absurd hnil hne⟩
    rw [not_or, List.length_map, List.length_append] at hedge
    have hleft : left ≠ [] := fun hnil => hedge.1 (by rw [hnil]; rfl)
    have hright : right ≠ [] := fun hnil => hedge.2 (by rw [hnil]; rfl)
    rw [hfit, hedges, TreeKey.edgesAround_middle
      (itemsOf_ne_nil (fun slot hslot => hfocus.slots slot (List.mem_append_left _ hslot)) hleft)
      (itemsOf_ne_nil (fun slot hslot => hfocus.slots slot (List.mem_append_right _ hslot)) hright)]

/-- `remove_empty_leaf` for a node that is empty, of any height. -/
theorem removeEmptyLeaf_spec {n : ℕ} {ctx : Context ρ ν n} {id : NodeId} {limits : Option (ρ × ρ)}
    {edges : κ × κ} (hdepth : tree.maxDepth = none) (h : Focused K store ctx id [] limits)
    (hpath : ctx.path ≠ []) (hedges : K.decoded limits = some edges) (hsmall : ctx.Small tree.splitThreshold)
    (hroot : ctx.root id = tree.root) (hinc : K.Increasing (ctx.before ++ ctx.after)) :
    ∃ store' cursor', removeEmptyLeaf K tree store ctx.path = .ok (store', cursor') ∧
      Stores K tree store' (ctx.before ++ ctx.after) ∧
      Behind K tree store' cursor' ctx.before ctx.after := by
  induction ctx generalizing store id limits edges with
  | top => exact absurd rfl hpath
  | @up n parent left right above ih =>
    obtain ⟨parentLimits, hparent, hfit, hfocus⟩ := h.unlink
    obtain ⟨hlen, hleft, hright, habove⟩ := hsmall
    have herase : (left.map NodeSlot.id ++ id :: right.map NodeSlot.id).eraseIdx left.length =
        (left ++ right).map NodeSlot.id := by
      have herase := eraseIdx_middle (left.map NodeSlot.id) (right.map NodeSlot.id) id
      rwa [List.length_map, ← List.map_append] at herase
    rw [Context.path, removeEmptyLeaf, NodeStore.loadNode_eq hparent]
    simp only [ok_bind, herase]
    by_cases hne : left ++ right = []
    · obtain ⟨rfl, rfl⟩ := List.append_eq_nil_iff.mp hne
      simp only [List.append_nil, List.map_nil, List.getLast?_nil] at hfocus ⊢
      cases above with
      | top =>
        obtain rfl : parent = tree.root := hroot
        obtain rfl : parentLimits = none := Option.map_eq_none_iff.mp hfit
        have hset : Focused K ((store.set tree.root (nodeOf ([] : List (NodeSlot ρ ν (n + 1))) none)).set tree.root
            (nodeOf (leafArray []) none)) .top tree.root (leafArray ([] : List (TreeItem ρ ν))) none := by
          refine ⟨NodeStore.set_node_self, List.forall_mem_nil _, trivial, ?_, ?_⟩
          · simp [Context.ids]
          · simpa [Context.ids, NodeStore.set] using hfocus.bound tree.root List.mem_cons_self
        have hlive : Live K tree _ .top tree.root (leafArray ([] : List (TreeItem ρ ν))) :=
          ⟨⟨⟨none, hset, rfl⟩, fun _ => ⟨rfl, rfl⟩⟩, List.forall_mem_nil _, trivial, rfl, List.Pairwise.nil⟩
        refine ⟨_, {}, ?_, hlive.stores (Nat.zero_le _), rfl, .inl ⟨rfl, rfl⟩⟩
        have hload : (store.set tree.root (nodeOf ([] : List (NodeSlot ρ ν (n + 1))) none)).loadNode tree.root =
            .ok (nodeOf ([] : List (NodeSlot ρ ν (n + 1))) none) := NodeStore.loadNode_eq NodeStore.set_node_self
        rw [Context.path, if_pos rfl]
        exact congrArg (· >>= _) hload
      | up grandparent left right above =>
        have hedges' : K.decoded parentLimits = some edges := by
          rw [hfit, hedges]
          rfl
        have hremoved := ih hfocus (List.cons_ne_nil _ _) hedges' habove hroot
          (by simpa [Context.before, Context.after] using hinc)
        rw [Context.path, if_neg (List.cons_ne_nil _ _)]
        simp only [Context.before, Context.after, itemsOf_nil, List.append_nil, List.nil_append] at hremoved ⊢
        exact hremoved
    · obtain ⟨store', hreset, hsettled⟩ := resetLimits_unlinked hedges hne hfit hfocus
      have hlive : Live K tree store' above parent (left ++ right) := by
        refine ⟨hsettled, ?_, habove, hroot, by simpa [Context.before, Context.after] using hinc⟩
        intro slot hslot
        rcases List.mem_append.mp hslot with hslot | hslot
        · exact hleft slot hslot
        · exact hright slot hslot
      have hlength : (left ++ right).length ≤ tree.splitThreshold := by
        rw [List.length_append]
        omega
      have hstores : Stores K tree store' ((Context.up parent left right above).before ++
          (Context.up parent left right above).after) := by
        simpa [Context.before, Context.after] using hlive.stores hlength
      obtain ⟨last, hlast⟩ : ∃ last, ((left ++ right).map NodeSlot.id).getLast? = some last :=
        Option.ne_none_iff_exists'.mp (List.getLast?_eq_none_iff.not.mpr (List.map_eq_nil_iff.not.mpr hne))
      simp only [hlast]
      have hkept : (TreeNode.mk none (some ((left ++ right).map NodeSlot.id)) parentLimits : TreeNode ρ ν) =
        nodeOf (left ++ right) parentLimits := rfl
      rw [hkept, hreset, ok_bind]
      cases right with
      | nil =>
        rw [List.append_nil] at hne hlive hlength hlast
        obtain ⟨left', slot, rfl⟩ := left.eq_nil_or_concat.resolve_left hne
        obtain ⟨kid, sub, rfl⟩ := slot.exists_node
        rw [List.concat_eq_append] at hlive hlength hlast hstores ⊢
        obtain rfl : kid = last := by simpa using hlast
        obtain ⟨hdown, hsub⟩ := hlive.down hlength
        have hsubne : sub ≠ [] := fun hnil => List.cons_ne_nil _ _ (hdown.settled.ne_nil hnil).2
        have hnumber : (left' ++ [NodeSlot.node kid sub]).length - 1 = left'.length := by simp
        obtain ⟨before, item, after, cursor, hitems, hedge, hpoints, -, hdescend⟩ := descend_spec false true
          { path := ⟨parent, left'.length⟩ :: above.path } hdepth hdown hsub hsubne rfl
        obtain rfl : after = [] := hedge
        obtain ⟨cursor', hincrement, hbehind⟩ := behind_increment hdepth hpoints
        refine ⟨store', cursor', ?_, hstores, ?_⟩
        · rw [if_pos (by simp), hnumber, hdescend, ok_bind, if_pos hpoints.positioned, hincrement]
          rfl
        · simpa [Context.before, Context.after, hitems] using hbehind
      | cons slot right =>
        obtain ⟨kid, sub, rfl⟩ := slot.exists_node
        obtain ⟨hdown, hsub⟩ := hlive.down hlength
        have hsubne : sub ≠ [] := fun hnil => List.cons_ne_nil _ _ (hdown.settled.ne_nil hnil).2
        obtain ⟨before, item, after, cursor, hitems, hedge, hpoints, hcurrent, hdescend⟩ := descend_spec true true
          { path := ⟨parent, left.length⟩ :: above.path } hdepth hdown hsub hsubne rfl
        obtain rfl : before = [] := hedge
        refine ⟨store', cursor, ?_, hstores, hcurrent,
          .inr ⟨item, after ++ (Context.up parent left right above).after, ?_, ?_⟩⟩
        · rw [if_neg (by simp), List.getD_eq_getElem?_getD, getElem?_ids, Option.getD_some, NodeSlot.id_node, hdescend]
          rfl
        · simp [Context.after, hitems]
        · simpa [Context.before, Context.after] using hpoints

end NNTree

end Empty

namespace NNTree

variable [LinearOrder κ] {tree : NNTree} {before after items : List (TreeItem ρ ν)} {item : TreeItem ρ ν}
  {cursor : NNTreeCursor κ ν}

section Leaf

variable {ctx : Context ρ ν 0} {leaf : NodeId} {left right : List (TreeItem ρ ν)} {limits : Option (ρ × ρ)}

/-- A leaf that keeps an item, once limits are right again. -/
theorem resetEdge_leaf (h : Live K tree store ctx leaf (leafArray (left ++ item :: right)))
    (hnode : store.node leaf = some { items := some (left ++ item :: right), limits })
    (hne : left ++ right ≠ []) :
    ∃ store', resetEdge K (store.set leaf { items := some (left ++ right), limits }) leaf ctx.path left.length
        (left ++ right).length = .ok store' ∧
      Live K tree store' ctx leaf (leafArray (left ++ right)) := by
  have hinc : K.Increasing (ctx.before ++ (left ++ right) ++ ctx.after) := by
    refine h.increasing.sublist ?_
    rw [itemsOf_leafArray]
    exact ((List.Sublist.refl _).append ((List.Sublist.refl left).append (List.sublist_cons_self item right))).append
      (List.Sublist.refl _)
  obtain ⟨-, hfocus, hlimits⟩ := Live.leaf_eq h hnode
  rw [resetEdge]
  split_ifs with hedge
  · exact resetLimits_leaf h (.inl hne) hinc hnode
  · refine ⟨_, rfl, ⟨⟨limits, ?_, ?_⟩, fun hnil => absurd hnil hne⟩, fun _ _ => trivial, h.ctx_small, h.root_eq, ?_⟩
    · exact hfocus.set (leafArray (left ++ right)) limits (fun _ _ => trivial) (by simp) hfocus.frames
    · rw [not_or, List.length_append] at hedge
      have hleft : left ≠ [] := fun hnil => hedge.1 (by rw [hnil]; rfl)
      have hright : right ≠ [] := fun hnil => hedge.2 (by rw [hnil]; rfl)
      rw [hlimits, itemsOf_leafArray, TreeKey.edges_append hleft hright,
        TreeKey.edges_append hleft (List.cons_ne_nil item right), List.getLast_cons hright]
    · rwa [itemsOf_leafArray]

end Leaf

/-- `remove_at_inner` of a cursor that points to an item. -/
theorem removeAtInner_spec (hdepth : tree.maxDepth = none) (h : Points K tree store cursor before item after)
    (hcurrent : cursor.current = some (K.entry item)) :
    ∃ store' cursor', removeAtInner K tree store cursor = .ok (store', cursor', some item.value) ∧
      Stores K tree store' (before ++ after) ∧ Behind K tree store' cursor' before after := by
  obtain ⟨ctx, leaf, left, right, hlive, hlength, hpath, hleaf, hitem, rfl, rfl⟩ := h
  obtain ⟨limits, hnode⟩ := hlive.node_eq
  obtain ⟨path, _, _, _⟩ := cursor
  obtain rfl : path = ctx.path := hpath
  obtain rfl : _ = some leaf := hleaf
  obtain rfl : _ = some left.length := hitem
  obtain rfl : _ = some (K.entry item) := hcurrent
  have hlen : ¬(left ++ item :: right).length < left.length + 1 := by
    rw [List.length_append, List.length_cons]
    omega
  have hlen' : (left ++ right).length ≤ tree.splitThreshold := by
    rw [List.length_append, List.length_cons] at hlength
    rw [List.length_append]
    omega
  rw [removeAtInner]
  simp only [TreeKey.entry, NodeStore.loadNode_eq hnode, nodeOf_leafArray, ok_bind, hlen, if_false,
    eraseIdx_middle]
  by_cases hne : left ++ right = []
  · obtain ⟨rfl, rfl⟩ := List.append_eq_nil_iff.mp hne
    simp only [List.append_nil, List.nil_append, List.length_nil, lt_irrefl, if_false]
    obtain ⟨-, hfocus, hlimits⟩ := Live.leaf_eq hlive hnode
    cases ctx with
    | top =>
      obtain ⟨store', hreset, hlive'⟩ := @resetLimits_leaf _ _ _ K _ tree store .top leaf [item] [] hlive
        (.inr rfl) List.Pairwise.nil limits hnode
      rw [Context.path] at hreset ⊢
      rw [if_pos rfl, hreset]
      exact ⟨store', _, rfl, hlive'.stores hlen', rfl, .inl ⟨rfl, rfl⟩⟩
    | up parent left right above =>
      have hset := hfocus.set [] limits (by simp) (List.nil_sublist _) hfocus.frames
      have hinc : K.Increasing ((Context.up parent left right above).before ++
          (Context.up parent left right above).after) := by
        refine hlive.increasing.sublist ?_
        exact (List.sublist_append_left _ _).append (List.Sublist.refl _)
      obtain ⟨store', cursor', hremoved, hstores, hbehind⟩ :=
        removeEmptyLeaf_spec hdepth hset (List.cons_ne_nil _ _) hlimits hlive.ctx_small hlive.root_eq hinc
      have hpath : (Context.up parent left right above).path ≠ [] := List.cons_ne_nil _ _
      rw [if_neg hpath]
      exact ⟨store', cursor', congrArg (· >>= _) hremoved, hstores, hbehind⟩
  · rw [if_pos (List.length_pos_iff.mpr hne)]
    obtain ⟨store', hreset, hlive'⟩ := resetEdge_leaf hlive hnode hne
    rw [hreset, ok_bind]
    have hstores : Stores K tree store' (ctx.before ++ left ++ (right ++ ctx.after)) := by
      simpa using hlive'.stores hlen'
    cases right with
    | nil =>
      rw [List.append_nil] at hne hlive' hlen'
      obtain ⟨left', last, rfl⟩ := left.eq_nil_or_concat.resolve_left hne
      rw [List.concat_eq_append] at hlive' hlen' hstores ⊢
      have hpoints : Points K tree store'
          (⟨ctx.path, some leaf, some ((left' ++ [last]).length - 1), none⟩ : NNTreeCursor κ ν)
          (ctx.before ++ left') last ([] ++ ctx.after) :=
        ⟨ctx, leaf, left', [], hlive', hlen', rfl, rfl, by simp, rfl, rfl⟩
      obtain ⟨cursor', hincrement, hbehind⟩ := behind_increment hdepth hpoints
      rw [if_pos (by simp), hincrement]
      exact ⟨store', cursor', rfl, hstores, by simpa using hbehind⟩
    | cons item' right =>
      rw [if_neg (by simp)]
      exact ⟨store', _, rfl, hstores, rfl, .inr ⟨item', right ++ ctx.after, rfl,
        ctx, leaf, left, right, hlive', hlen', rfl, rfl, rfl, rfl, rfl⟩⟩

/-- The `remove` of a cursor that points to an item. -/
theorem removeAt_spec (hdepth : tree.maxDepth = none) (h : Points K tree store cursor before item after)
    (hcurrent : cursor.current = some (K.entry item)) :
    ∃ store' cursor', removeAt K tree store cursor true = .ok (store', cursor', some item.value) ∧
      Stores K tree store' (before ++ after) ∧
      (after = [] ∧ cursor'.positioned = false ∧ cursor'.current = none ∨
        ∃ item' after', after = item' :: after' ∧ Points K tree store' cursor' before item' after' ∧
          cursor'.current = some (K.entry item')) := by
  obtain ⟨store', cursor', hinner, hstores, hnone, ⟨hafter, hnumber⟩ | ⟨item', after', hafter, hpoints⟩⟩ :=
    removeAtInner_spec hdepth h hcurrent
  · have hpositioned : cursor'.positioned = false := by rw [NNTreeCursor.positioned, hnumber]; rfl
    refine ⟨store', cursor', ?_, hstores, .inl ⟨hafter, hpositioned, hnone⟩⟩
    rw [removeAt, hinner, ok_bind]
    simp only [hpositioned, Bool.and_false, Bool.false_eq_true, if_false]
    rfl
  · refine ⟨store', { cursor' with current := some (K.entry item') }, ?_, hstores,
      .inr ⟨item', after', hafter, hpoints, rfl⟩⟩
    rw [removeAt, hinner, ok_bind]
    simp only [hpoints.positioned, Bool.and_true, if_true, updateCurrent_points hpoints]
    rfl

/-- `remove` of a key. -/
theorem remove_spec (hdepth : tree.maxDepth = none) (h : Stores K tree store items)
    (repair : NodeStore ρ ν → Except NNTreeError (NodeStore ρ ν)) (key : κ) :
    (∀ item ∈ items, (K.entry item).1 ≠ key) ∧ remove K tree repair store key = .ok (store, none) ∨
      ∃ before item after store', items = before ++ item :: after ∧ (K.entry item).1 = key ∧
        remove K tree repair store key = .ok (store', some item.value) ∧
        Stores K tree store' (before ++ after) := by
  rw [remove]
  rcases find_spec hdepth h repair key false with ⟨hall, hfind⟩ |
    ⟨before, item, after, cursor, rfl, ⟨hle, hafter, hcursor⟩, hfind⟩
  · exact .inl ⟨fun item hitem heq => (hall item hitem).ne heq.symm, by rw [hfind]; rfl⟩
  · by_cases hexact : (K.entry item).1 = key
    · rw [if_pos (.inl hexact)] at hcursor
      obtain ⟨store', cursor', hremoved, hstores, -⟩ := removeAtInner_spec hdepth hcursor.1 hcursor.2
      refine .inr ⟨before, item, after, store', rfl, hexact, ?_, hstores⟩
      rw [hfind, ok_bind]
      simp only [hcursor.2, TreeKey.entry, removeAt, hremoved, ok_bind, Bool.false_and, Bool.false_eq_true,
        if_false]
      rfl
    · rw [if_neg (by simp [hexact])] at hcursor
      refine .inl ⟨fun item' hitem' => ?_, ?_⟩
      · rcases List.mem_append.mp hitem' with hitem' | hitem'
        · exact ((h.increasing.lt_of_append hitem' List.mem_cons_self).trans_le hle).ne
        · rcases List.mem_cons.mp hitem' with rfl | hitem'
          · exact hexact
          · exact (hafter item' hitem').ne'
      · rw [hfind, ok_bind]
        simp only [hcursor.2.2]
        rfl

end NNTree

end Flpdf
