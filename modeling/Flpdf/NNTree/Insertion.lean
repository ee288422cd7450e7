import Flpdf.NNTree.Search
import Flpdf.NNTree.Splits

/-! # Inserting an item

The new item goes behind the last one with a smaller key, or takes the place of the item with
the same key; the cursor that is returned points to it.
-/

namespace Flpdf

variable {κ ρ ν : Type} {n : ℕ} {K : TreeKey κ ρ}

/-! ## Items with the same keys -/

theorem TreeKey.edges_congr {items items' : List (TreeItem ρ ν)}
    (h : items.map TreeItem.rawKey = items'.map TreeItem.rawKey) : K.edges items = K.edges items' := by
  have hedges : ∀ items : List (TreeItem ρ ν), K.edges items = do
      return (K.valueFromHandle (← (items.map TreeItem.rawKey).head?),
        K.valueFromHandle (← (items.map TreeItem.rawKey).getLast?)) := by
    intro items
    rw [List.head?_map, List.getLast?_map, TreeKey.edges]
    cases items.head? <;> cases items.getLast? <;> rfl
  rw [hedges, hedges, h]

variable [LinearOrder κ]

theorem TreeKey.increasing_congr {items items' : List (TreeItem ρ ν)}
    (h : items.map TreeItem.rawKey = items'.map TreeItem.rawKey) : K.Increasing items ↔ K.Increasing items' := by
  have hpairs : ∀ items : List (TreeItem ρ ν), K.Increasing items ↔
      (items.map TreeItem.rawKey).Pairwise fun raw raw' => K.valueFromHandle raw < K.valueFromHandle raw' :=
    fun items => by rw [List.pairwise_map]; rfl
  rw [hpairs, hpairs, h]

namespace NNTree

variable {tree : NNTree} {store : NodeStore ρ ν} {ctx : Context ρ ν n} {id : NodeId}
  {array : List (NodeSlot ρ ν n)} {before after items : List (TreeItem ρ ν)} {item : TreeItem ρ ν}
  {cursor : NNTreeCursor κ ν}

/-- The allocations can be counted for every node of the tree. -/
theorem splitAllocations_spec (h : Live K tree store ctx id array)
    (hlength : array.length ≤ tree.splitThreshold) :
    ∃ count, splitAllocations tree store ctx.path = .ok count := by
  induction ctx generalizing id with
  | top => exact ⟨2, rfl⟩
  | @up n parent left right above ih =>
    obtain ⟨hup, huplen⟩ := h.up hlength
    obtain ⟨limits, hnode⟩ := hup.kids_eq
    obtain ⟨count, hcount⟩ := ih hup huplen
    rw [Context.path, splitAllocations, NodeStore.loadNode_eq hnode]
    simp only [bind, Except.bind, hcount]
    split_ifs
    · exact ⟨1, rfl⟩
    · exact ⟨count + 1, rfl⟩

theorem ensureSplitAllocationsAvailable_spec (h : Live K tree store ctx id array)
    (hlength : array.length ≤ tree.splitThreshold) (length : ℕ) :
    Delivers (ensureSplitAllocationsAvailable tree store ctx.path length) fun _ => True := by
  obtain ⟨count, hcount⟩ := splitAllocations_spec h hlength
  rw [ensureSplitAllocationsAvailable, hcount]
  simp only [bind, Except.bind]
  split_ifs
  · trivial
  · trivial
  · rfl

/-- What the store holds of a leaf whose dictionary is known. -/
theorem Live.leaf_eq {ctx : Context ρ ν 0} {leaf : NodeId} {nodeItems : List (TreeItem ρ ν)}
    {limits : Option (ρ × ρ)} (h : Live K tree store ctx leaf (leafArray items))
    (hnode : store.node leaf = some { items := some nodeItems, limits }) :
    nodeItems = items ∧ Focused K store ctx leaf (leafArray items) limits ∧
      K.decoded limits = ctx.expects (K.edges items) := by
  obtain ⟨limits', hfocus, hlimits⟩ := h.settled.focused
  have hsame := hnode.symm.trans hfocus.node
  simp only [nodeOf_leafArray, Option.some.injEq, TreeNode.mk.injEq, true_and] at hsame
  obtain ⟨rfl, rfl⟩ := hsame
  exact ⟨rfl, hfocus, by rwa [itemsOf_leafArray] at hlimits⟩

/-- A leaf with other items in it, after its limits have been set. -/
theorem resetLimits_leaf {ctx : Context ρ ν 0} {leaf : NodeId} {old new : List (TreeItem ρ ν)}
    (h : Live K tree store ctx leaf (leafArray old)) (hnew : new ≠ [] ∨ ctx.path = [])
    (hinc : K.Increasing (ctx.before ++ new ++ ctx.after)) {limits : Option (ρ × ρ)}
    (hnode : store.node leaf = some { items := some old, limits }) :
    ∃ store', resetLimits K (store.set leaf { items := some new, limits }) leaf ctx.path = .ok store' ∧
      Live K tree store' ctx leaf (leafArray new) := by
  obtain ⟨-, hfocus, -⟩ := Live.leaf_eq h hnode
  have hset := hfocus.set (leafArray new) limits (fun _ _ => trivial) (by simp) hfocus.frames
  obtain ⟨store', hreset, -, -, hsettled⟩ := resetLimits_spec hset fun hnil =>
    ⟨rfl, hnew.resolve_left (not_not.mpr hnil)⟩
  refine ⟨store', hreset, hsettled, fun _ _ => trivial, h.ctx_small, h.root_eq, ?_⟩
  rwa [itemsOf_leafArray]

section Leaf

variable {ctx : Context ρ ν 0} {leaf : NodeId} {left right : List (TreeItem ρ ν)}
  {limits : Option (ρ × ρ)}

/-- A leaf with a new item, and the splits that follow. -/
theorem insertLeaf_spec (ht : 2 ≤ tree.splitThreshold)
    (h : Live K tree store ctx leaf (leafArray (left ++ right)))
    (hlength : (left ++ right).length ≤ tree.splitThreshold)
    (hnode : store.node leaf = some { items := some (left ++ right), limits }) (new : TreeItem ρ ν)
    (hinc : K.Increasing (ctx.before ++ (left ++ new :: right) ++ ctx.after)) :
    ∃ store' limits', resetLimits K (store.set leaf { items := some (left ++ new :: right), limits }) leaf
        ctx.path = .ok store' ∧
      store'.node leaf = some { items := some (left ++ new :: right), limits := limits' } ∧
      Delivers (splitNodeLive K tree store'
          { leaf, itemNumber := left.length, current := some (K.entry new) } leaf ctx.path) fun result =>
        Points K tree result.1 result.2 (ctx.before ++ left) new (right ++ ctx.after) ∧
          result.2.current = some (K.entry new) := by
  obtain ⟨store', hreset, hlive⟩ := resetLimits_leaf h (.inl (by simp)) hinc hnode
  obtain ⟨limits', hnode'⟩ := hlive.node_eq
  refine ⟨store', limits', hreset, hnode', ?_⟩
  refine splitNodeLive_spec ht hlive ?_ ⟨rfl, rfl, rfl, rfl⟩ rfl
  simp only [length_leafArray, List.length_append, List.length_cons] at hlength ⊢
  omega

end Leaf

variable {rawKey : ρ} {value : ν}

/-- Items around a new one. -/
theorem increasing_insert (hinc : K.Increasing (before ++ after)) (hbefore : ∀ item' ∈ before,
      (K.entry item').1 < (K.entry item).1) (hafter : ∀ item' ∈ after, (K.entry item).1 < (K.entry item').1) :
    K.Increasing (before ++ item :: after) := by
  obtain ⟨hb, ha, hba⟩ := List.pairwise_append.mp hinc
  refine List.pairwise_append.mpr ⟨hb, List.pairwise_cons.mpr ⟨hafter, ha⟩, fun x hx y hy => ?_⟩
  rcases List.mem_cons.mp hy with rfl | hy
  · exact hbefore x hx
  · exact hba x hx y hy

/-- `insert_after` behind an item. -/
theorem insertAfter_spec (ht : 2 ≤ tree.splitThreshold) (h : Points K tree store cursor before item after)
    (hbefore : (K.entry item).1 < K.valueFromHandle rawKey)
    (hafter : ∀ item' ∈ after, K.valueFromHandle rawKey < (K.entry item').1) (value : ν) :
    Delivers (insertAfter K tree store cursor rawKey value) fun result =>
      Points K tree result.1 result.2 (before ++ [item]) ⟨rawKey, value⟩ after ∧
        result.2.current = some (K.valueFromHandle rawKey, value) := by
  obtain ⟨ctx, leaf, left, right, hlive, hlength, hpath, hleaf, hitem, rfl, rfl⟩ := h
  obtain ⟨limits, hnode⟩ := hlive.node_eq
  obtain ⟨path, _, _, current⟩ := cursor
  obtain rfl : path = ctx.path := hpath
  obtain rfl : _ = some leaf := hleaf
  obtain rfl : _ = some left.length := hitem
  have hbehind : ∀ item' ∈ ctx.before ++ (left ++ [item]),
      (K.entry item').1 < K.valueFromHandle rawKey := by
    have hinc := hlive.increasing
    rw [itemsOf_leafArray] at hinc
    intro item' hitem'
    rw [← List.append_assoc, List.mem_append, List.mem_singleton] at hitem'
    rcases hitem' with hitem' | rfl
    · have hsplit : K.Increasing ((ctx.before ++ left) ++ item :: (right ++ ctx.after)) := by simpa using hinc
      exact (hsplit.lt_of_append hitem' List.mem_cons_self).trans hbefore
    · exact hbefore
  have hinc : K.Increasing (ctx.before ++ ((left ++ [item]) ++ ⟨rawKey, value⟩ :: right) ++ ctx.after) := by
    have hnew : K.Increasing ((ctx.before ++ (left ++ [item])) ++ ⟨rawKey, value⟩ :: (right ++ ctx.after)) :=
      increasing_insert (by simpa using hlive.increasing) hbehind hafter
    simpa using hnew
  have hlive' : Live K tree store ctx leaf (leafArray ((left ++ [item]) ++ right)) := by simpa using hlive
  have hnode' : store.node leaf = some { items := some ((left ++ [item]) ++ right), limits } := by
    simpa using hnode
  obtain ⟨store', limits', hreset, hleafNode, hsplit⟩ := insertLeaf_spec ht hlive' (by simpa using hlength)
    hnode' ⟨rawKey, value⟩ hinc
  have hlen : ¬(left ++ item :: right).length < left.length + 1 := by
    rw [List.length_append, List.length_cons]
    omega
  have hinsert : (left ++ item :: right).insertIdx (left.length + 1) ⟨rawKey, value⟩ =
      (left ++ [item]) ++ ⟨rawKey, value⟩ :: right := by
    rw [insertIdx_behind]
    simp
  have hupdate := updateCurrent_eq (K := K) hleafNode
    ⟨ctx.path, some leaf, some (left.length + 1), current⟩ rfl (by simp)
  rw [insertAfter]
  simp only [NodeStore.loadNode_eq hnode, nodeOf_leafArray, ok_bind, hlen, if_false, hinsert]
  refine (ensureSplitAllocationsAvailable_spec hlive hlength _).bind fun _ _ => ?_
  rw [hreset, ok_bind, hupdate, ok_bind]
  simp only [List.length_append, List.length_singleton, ← List.append_assoc] at hsplit
  exact hsplit

/-- `insert_first` in front of all items. -/
theorem insertFirst_spec (ht : 2 ≤ tree.splitThreshold) (hdepth : tree.maxDepth = none)
    (h : Stores K tree store items) (hall : ∀ item ∈ items, K.valueFromHandle rawKey < (K.entry item).1)
    (value : ν) :
    Delivers (insertFirst K tree store rawKey value true) fun result =>
      Points K tree result.1 result.2 [] ⟨rawKey, value⟩ items ∧
        result.2.current = some (K.valueFromHandle rawKey, value) := by
  have hbegin : ∃ (ctx : Context ρ ν 0) (leaf : NodeId) (right : List (TreeItem ρ ν)) (cursor : NNTreeCursor κ ν),
      beginPosition K tree store false = .ok cursor ∧ cursor.path = ctx.path ∧ cursor.leaf = some leaf ∧
        Live K tree store ctx leaf (leafArray right) ∧ right.length ≤ tree.splitThreshold ∧ ctx.before = [] ∧
        items = right ++ ctx.after := by
    obtain ⟨n, array, hlive, hlength, rfl⟩ := h
    by_cases hne : array = []
    · obtain ⟨rfl, -⟩ := hlive.settled.ne_nil hne
      refine ⟨.top, tree.root, array, _, beginPosition_nil hdepth hlive hne, rfl, rfl, hlive, hlength, rfl, ?_⟩
      exact (itemsOf_leaf array).trans (List.append_nil array).symm
    · obtain ⟨item, after, cursor, hitems, ⟨ctx, leaf, left, right, hleafLive, hleafLength, hpath, hleaf, -,
        hbefore, rfl⟩, -, hbegin⟩ := beginPosition_cons hdepth hlive hlength hne
      obtain ⟨hctx, rfl⟩ := List.nil_eq_append_iff.mp hbefore
      exact ⟨ctx, leaf, item :: right, cursor, hbegin, hpath, hleaf, hleafLive, hleafLength, hctx, hitems⟩
  obtain ⟨ctx, leaf, right, cursor, hbegin, hpath, hleaf, hlive, hlength, hbefore, rfl⟩ := hbegin
  obtain ⟨limits, hnode⟩ := hlive.node_eq
  obtain ⟨path, _, number, current⟩ := cursor
  obtain rfl : path = ctx.path := hpath
  obtain rfl : _ = some leaf := hleaf
  have hinc : K.Increasing (ctx.before ++ ([] ++ ⟨rawKey, value⟩ :: right) ++ ctx.after) := by
    have hnew : K.Increasing ([] ++ ⟨rawKey, value⟩ :: (right ++ ctx.after)) :=
      increasing_insert (by simpa [hbefore] using hlive.increasing) nofun hall
    simpa [hbefore] using hnew
  obtain ⟨store', limits', hreset, hleafNode, hsplit⟩ :=
    @insertLeaf_spec _ _ _ K _ tree store ctx leaf [] right limits ht hlive hlength hnode ⟨rawKey, value⟩ hinc
  have hset : (store.set leaf { items := some (⟨rawKey, value⟩ :: right), limits }).node leaf =
      some { items := some ([] ++ ⟨rawKey, value⟩ :: right), limits } := NodeStore.set_node_self
  have hupdate := updateCurrent_eq (K := K) hset ⟨ctx.path, some leaf, some 0, current⟩ rfl rfl
  rw [insertFirst, hbegin]
  simp only [ok_bind, NodeStore.loadNode_eq hnode, nodeOf_leafArray, if_true]
  refine (ensureSplitAllocationsAvailable_spec hlive hlength _).bind fun _ _ => ?_
  rw [hupdate, ok_bind]
  dsimp only
  rw [List.nil_append] at hreset
  rw [hreset, ok_bind]
  rw [hbefore] at hsplit
  exact hsplit

/-- The value of an item is another one. -/
theorem setValue_spec {leaf : NodeId} {itemNumber : ℕ} {nodeItems : List (TreeItem ρ ν)}
    {limits : Option (ρ × ρ)} (h : Points K tree store cursor before item after)
    (hleaf : cursor.leaf = some leaf) (hitem : cursor.itemNumber = some itemNumber)
    (hnode : store.node leaf = some { items := some nodeItems, limits }) (value : ν) :
    Points K tree (store.set leaf { items := some (nodeItems.modify itemNumber fun item => { item with value }), limits })
      cursor before { item with value } after := by
  obtain ⟨ctx, _, left, right, hlive, hlength, hpath, hleaf', hitem', rfl, rfl⟩ := h
  obtain rfl := Option.some.inj (hleaf.symm.trans hleaf')
  obtain rfl := Option.some.inj (hitem.symm.trans hitem')
  obtain ⟨rfl, hfocus, hlimits⟩ := Live.leaf_eq hlive hnode
  have hmodify : (left ++ item :: right).modify left.length (fun item => { item with value }) =
      left ++ { item with value } :: right := by
    rw [List.modify_eq_take_drop]
    simp
  have hkeys : (left ++ { item with value } :: right).map TreeItem.rawKey =
      (left ++ item :: right).map TreeItem.rawKey := by simp
  rw [hmodify]
  have hne : leafArray (left ++ { item with value } :: right) ≠ [] :=
    List.append_ne_nil_of_right_ne_nil _ (List.cons_ne_nil _ _)
  refine ⟨ctx, leaf, left, right, ⟨⟨⟨limits, ?_, ?_⟩, fun hnil => absurd hnil hne⟩, fun _ _ => trivial,
    hlive.ctx_small, hlive.root_eq, ?_⟩, by simpa using hlength, hpath, hleaf, hitem, rfl, rfl⟩
  · exact hfocus.set (leafArray (left ++ { item with value } :: right)) limits (fun _ _ => trivial) (by simp)
      hfocus.frames
  · rw [hlimits, itemsOf_leafArray, TreeKey.edges_congr hkeys]
  · have hinc := hlive.increasing
    rw [itemsOf_leafArray] at hinc ⊢
    refine (TreeKey.increasing_congr ?_).mp hinc
    simp

/-- What a tree has after a key and its value have been inserted, seen from the new item. -/
def Inserted (K : TreeKey κ ρ) (items before : List (TreeItem ρ ν)) (key : κ) (after : List (TreeItem ρ ν)) : Prop :=
  (∀ item ∈ before, (K.entry item).1 < key) ∧ (∀ item ∈ after, key < (K.entry item).1) ∧
    (items = before ++ after ∨ ∃ old, (K.entry old).1 = key ∧ items = before ++ old :: after)

/-- `insert`: the cursor points to the new item. -/
theorem insert_spec (ht : 2 ≤ tree.splitThreshold) (hdepth : tree.maxDepth = none)
    (h : Stores K tree store items) (repair : NodeStore ρ ν → Except NNTreeError (NodeStore ρ ν)) (key : κ)
    (value : ν) :
    Delivers (insert K tree repair store key value) fun result =>
      ∃ before item after, Points K tree result.1 result.2 before item after ∧
        result.2.current = some (K.entry item) ∧ K.entry item = (K.valueFromHandle (K.toHandle key), value) ∧
        Inserted K items before (K.valueFromHandle (K.toHandle key)) after := by
  rw [insert, insertResolved]
  rcases find_spec hdepth h repair (K.valueFromHandle (K.toHandle key)) true with ⟨hall, hfind⟩ |
    ⟨before, item, after, cursor, rfl, ⟨hle, hafter, hcursor⟩, hfind⟩
  · rw [hfind, ok_bind]
    exact (insertFirst_spec ht hdepth h hall value).mono fun result hresult =>
      ⟨[], _, items, hresult.1, hresult.2, rfl, nofun, hall, .inl rfl⟩
  · rw [if_pos (.inr rfl)] at hcursor
    obtain ⟨hpoints, hcurrent⟩ := hcursor
    obtain ⟨leaf, number, limits, nodeItems, hleaf, hitem, hnode⟩ := hpoints.node_eq
    have hbefore : ∀ item' ∈ before, (K.entry item').1 < (K.entry item).1 :=
      fun item' hitem' => h.increasing.lt_of_append hitem' List.mem_cons_self
    rw [hfind, ok_bind]
    simp only [hleaf, hitem, hcurrent, Option.any_some, decide_eq_true_eq]
    by_cases hexact : (K.entry item).1 = K.valueFromHandle (K.toHandle key)
    · rw [if_pos hexact, NodeStore.loadNode_eq hnode]
      have hset := setValue_spec hpoints hleaf hitem hnode value
      simp only [ok_bind, updateCurrent_points hset]
      rw [hexact] at hbefore
      refine ⟨before, _, after, hset, rfl, ?_, hbefore, hafter, .inr ⟨item, hexact, rfl⟩⟩
      rw [← hexact]
      rfl
    · rw [if_neg hexact]
      have hless := lt_of_le_of_ne hle hexact
      refine (insertAfter_spec ht hpoints hless hafter value).mono fun result hresult =>
        ⟨before ++ [item], _, after, hresult.1, hresult.2, rfl, ?_, hafter, .inl (by simp)⟩
      intro item' hitem'
      rcases List.mem_append.mp hitem' with hitem' | hitem'
      · exact (hbefore item' hitem').trans hless
      · rwa [List.mem_singleton.mp hitem']

end NNTree

end Flpdf
