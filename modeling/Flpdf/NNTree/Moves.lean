import Flpdf.NNTree.Position

/-! # Moving a cursor

What the moves of the engine do to a cursor in a tree that the store holds.
-/

namespace Flpdf

variable {κ ρ ν : Type} {n : ℕ} {K : TreeKey κ ρ} {store : NodeStore ρ ν} {ctx : Context ρ ν n}
  {id : NodeId} {array : List (NodeSlot ρ ν n)}

theorem NodeSlot.Holds.le_length_ids {n : ℕ} {slot : NodeSlot ρ ν n} (h : slot.Holds K store) :
    n ≤ slot.ids.length := by
  induction n with
  | zero => exact Nat.zero_le _
  | succ n ih =>
    obtain ⟨id, _ | ⟨slot, array⟩⟩ := slot
    · exact absurd rfl h.1
    · have hslot := ih (h.2.1 slot List.mem_cons_self)
      change n + 1 ≤ (id :: idsOf (slot :: array)).length
      rw [idsOf_cons, List.length_cons, List.length_append]
      omega

/-- The number of objects is a bound on the height. -/
theorem SettledAt.height_lt (h : SettledAt K store ctx id array) : n < store.next := by
  obtain ⟨⟨limits, hfocus, -⟩, hnil⟩ := h
  have hlen : n < (id :: (idsOf array ++ ctx.ids)).length := by
    rw [List.length_cons, List.length_append]
    by_cases hne : array = []
    · have := (hnil hne).1
      omega
    · obtain ⟨slot, array, rfl⟩ := List.exists_cons_of_ne_nil hne
      have hslot := (hfocus.slots slot List.mem_cons_self).le_length_ids
      rw [idsOf_cons, List.length_append]
      omega
  have hsub : (id :: (idsOf array ++ ctx.ids)).Subperm (List.range store.next) :=
    hfocus.nodup.subperm fun i hi => List.mem_range.mpr (hfocus.bound i hi)
  have hle := hsub.length_le
  rw [List.length_range] at hle
  omega

/-- The first or the last slot of an array. -/
theorem exists_edge_slot (hne : array ≠ []) (first : Bool) :
    ∃ left slot right, array = left ++ slot :: right ∧
      left.length = (if first then 0 else array.length - 1) ∧
      (if first then left = [] else right = []) := by
  cases first
  · obtain ⟨left, slot, rfl⟩ := array.eq_nil_or_concat.resolve_left hne
    exact ⟨left, slot, [], List.concat_eq_append, by simp, rfl⟩
  · obtain ⟨slot, right, rfl⟩ := List.exists_cons_of_ne_nil hne
    exact ⟨[], slot, right, rfl, rfl, rfl⟩

/-- The kid at a position of the kids of a node. -/
theorem getElem?_ids (left right : List (NodeSlot ρ ν (n + 1))) (slot : NodeSlot ρ ν (n + 1)) :
    ((left ++ slot :: right).map NodeSlot.id)[left.length]? = some slot.id := by
  rw [List.getElem?_map, List.getElem?_append_right (Nat.le_refl _), Nat.sub_self]
  rfl

theorem Context.path_subset_ids {n : ℕ} (ctx : Context ρ ν n) :
    ctx.path.map PathElement.node ⊆ ctx.ids := by
  induction ctx with
  | top => exact List.nil_subset _
  | up id left right above ih =>
    intro i hi
    rcases List.mem_cons.mp hi with rfl | hi
    · exact List.mem_cons_self
    · exact List.mem_cons_of_mem _ (List.mem_append_right _ (ih hi))

variable [LinearOrder κ] {tree : NNTree} {parent : NodeId} {limits : Option (ρ × ρ)}
  {left right : List (NodeSlot ρ ν (n + 1))} {above : Context ρ ν (n + 1)}
  {before after items : List (TreeItem ρ ν)} {item : TreeItem ρ ν} {cursor : NNTreeCursor κ ν}

/-- A node can be read. -/
theorem Live.node_eq (h : Live K tree store ctx id array) :
    ∃ limits, store.node id = some (nodeOf array limits) := by
  obtain ⟨limits, hfocus, -⟩ := h.settled.focused
  exact ⟨limits, hfocus.node⟩

theorem Live.kids_eq {ctx : Context ρ ν (n + 1)} {array : List (NodeSlot ρ ν (n + 1))}
    (h : Live K tree store ctx id array) :
    ∃ limits, store.node id = some { kids := some (array.map NodeSlot.id), limits } := h.node_eq

/-- The leaf that a cursor points into. -/
theorem Points.node_eq (h : Points K tree store cursor before item after) :
    ∃ leaf itemNumber limits items, cursor.leaf = some leaf ∧ cursor.itemNumber = some itemNumber ∧
      store.node leaf = some { items := some items, limits } := by
  obtain ⟨ctx, leaf, left, right, hlive, -, -, hleaf, hitem, -, -⟩ := h
  obtain ⟨limits, hnode⟩ := hlive.node_eq
  exact ⟨leaf, left.length, limits, left ++ item :: right, hleaf, hitem, hnode⟩

theorem Points.positioned (h : Points K tree store cursor before item after) : cursor.positioned = true := by
  obtain ⟨_, _, _, _, _, _, _, _, hitem, _, _⟩ := h
  rw [NNTreeCursor.positioned, hitem]
  rfl

/-- The nodes below a kid have not been seen either. -/
theorem Live.notMem_seen {ctx : Context ρ ν (n + 1)} {kid : NodeId} {sub : List (NodeSlot ρ ν n)}
    {seen : List NodeId} (h : Live K tree store ctx id (left ++ .node kid sub :: right))
    (hseen : ∀ i ∈ seen, i ∉ id :: idsOf (left ++ .node kid sub :: right)) :
    ∀ i ∈ id :: seen, i ∉ kid :: idsOf sub := by
  have hsubset : ∀ i ∈ kid :: idsOf sub, i ∈ idsOf (left ++ .node kid sub :: right) := by
    intro i hi
    rw [idsOf_append, idsOf_cons, NodeSlot.ids_node]
    exact List.mem_append_right _ (List.mem_append_left _ hi)
  intro i hi hmem
  rcases List.mem_cons.mp hi with rfl | hi
  · obtain ⟨_, hfocus, -⟩ := h.settled.focused
    exact (List.nodup_cons.mp hfocus.nodup).1 (List.mem_append_left _ (hsubset i hmem))
  · exact hseen i hi (List.mem_cons_of_mem _ (hsubset i hmem))

namespace NNTree

omit [LinearOrder κ] in
theorem updateCurrent_eq {leaf : NodeId} {left right : List (TreeItem ρ ν)}
    (hnode : store.node leaf = some { items := some (left ++ item :: right), limits })
    (cursor : NNTreeCursor κ ν) (hleaf : cursor.leaf = some leaf)
    (hitem : cursor.itemNumber = some left.length) :
    updateCurrent K store cursor = .ok { cursor with current := some (K.entry item) } := by
  rw [updateCurrent, hleaf, hitem]
  simp only [NodeStore.loadNode_eq hnode, bind, Except.bind]
  rw [List.getElem?_append_right (Nat.le_refl _), Nat.sub_self]
  rfl

/-- The current item of a cursor that points to one. -/
theorem updateCurrent_points (h : Points K tree store cursor before item after) :
    updateCurrent K store cursor = .ok { cursor with current := some (K.entry item) } := by
  obtain ⟨ctx, leaf, left, right, hlive, -, -, hleaf, hitem, -, -⟩ := h
  obtain ⟨limits, hnode⟩ := hlive.node_eq
  exact updateCurrent_eq hnode cursor hleaf hitem

/-! ## Down -/

section Down

variable {first allowEmpty materializeCurrent : Bool} {seen : List NodeId} {fuel : ℕ}


omit [LinearOrder κ] in
theorem descendLoop_leaf (hdepth : tree.maxDepth = none) (hseen : id ∉ seen)
    (hnode : store.node id = some { items := some (item :: items), limits }) :
    descendLoop K tree store first allowEmpty materializeCurrent (fuel + 1) seen cursor id =
      let cursor := { cursor with
        leaf := some id
        itemNumber := some (if first then 0 else (item :: items).length - 1)
        current := none }
      if materializeCurrent then (updateCurrent K store cursor).map some else .ok (some cursor) := by
  rw [descendLoop, hdepth, hnode]
  simp only [Option.any_none, Bool.false_eq_true, if_false, hseen]

omit [LinearOrder κ] in
theorem descendLoop_kids (hdepth : tree.maxDepth = none) (hseen : id ∉ seen) {kid : NodeId}
    {kids : List NodeId} (hnode : store.node id = some { kids := some (kid :: kids), limits }) :
    descendLoop K tree store first allowEmpty materializeCurrent (fuel + 1) seen cursor id =
      let kidNumber := if first then 0 else (kid :: kids).length - 1
      descendLoop K tree store first allowEmpty materializeCurrent fuel (id :: seen)
        { cursor with path := ⟨id, kidNumber⟩ :: cursor.path } ((kid :: kids).getD kidNumber kid) := by
  rw [descendLoop, hdepth, hnode]
  simp only [Option.any_none, Bool.false_eq_true, if_false, hseen]

variable (first allowEmpty materializeCurrent)

theorem descendLoop_spec (hdepth : tree.maxDepth = none) (h : Live K tree store ctx id array)
    (hlength : array.length ≤ tree.splitThreshold) (hne : array ≠ []) (hpath : cursor.path = ctx.path)
    (hseen : ∀ i ∈ seen, i ∉ id :: idsOf array) (hfuel : n < fuel) :
    ∃ before item after cursor', itemsOf array = before ++ item :: after ∧
      (if first then before = [] else after = []) ∧
      Points K tree store cursor' (ctx.before ++ before) item (after ++ ctx.after) ∧
      cursor'.current = none ∧
      descendLoop K tree store first allowEmpty materializeCurrent fuel seen cursor id =
        if materializeCurrent then (updateCurrent K store cursor').map some else .ok (some cursor') := by
  induction n generalizing cursor seen fuel id with
  | zero =>
    have hid : id ∉ seen := fun hmem => hseen id hmem List.mem_cons_self
    obtain ⟨fuel, rfl⟩ := Nat.exists_eq_add_of_lt hfuel
    obtain ⟨limits, hnode⟩ := h.node_eq
    obtain ⟨left, item, right, harray, hlen, hedge⟩ := exists_edge_slot hne first
    obtain ⟨head, tail, hcons⟩ := List.exists_cons_of_ne_nil hne
    rw [hcons] at hnode hlen
    let cursor' : NNTreeCursor κ ν := { cursor with
      leaf := some id
      itemNumber := some (if first then 0 else (head :: tail).length - 1)
      current := none }
    refine ⟨left, item, right, cursor', (itemsOf_leaf _).trans harray, hedge, ?_, rfl, ?_⟩
    · subst harray
      exact ⟨ctx, id, left, right, h, hlength, hpath, rfl, congrArg some hlen.symm, rfl, rfl⟩
    · exact descendLoop_leaf hdepth hid hnode
  | succ n ih =>
    have hid : id ∉ seen := fun hmem => hseen id hmem List.mem_cons_self
    obtain ⟨fuel, rfl⟩ := Nat.exists_eq_add_of_lt hfuel
    obtain ⟨limits, hnode⟩ := h.kids_eq
    obtain ⟨left, slot, right, rfl, hlen, hedge⟩ := exists_edge_slot hne first
    obtain ⟨kid, sub, rfl⟩ := slot.exists_node
    obtain ⟨hdown, hsub⟩ := h.down hlength
    have hseen' := h.notMem_seen hseen
    have hsubne : sub ≠ [] := fun hnil => List.cons_ne_nil _ _ (hdown.settled.ne_nil hnil).2
    have hkid := getElem?_ids left right (.node kid sub)
    obtain ⟨head, tail, hkids⟩ := List.exists_cons_of_ne_nil (List.map_eq_nil_iff.not.mpr hne)
    rw [hkids] at hnode hkid
    have hnumber : (if first then 0 else (head :: tail).length - 1) = left.length := by
      rw [← hkids, List.length_map, hlen]
    have hpath' : (⟨id, left.length⟩ :: cursor.path : List PathElement) =
        (Context.up id left right ctx).path := by
      rw [hpath]
      rfl
    obtain ⟨before, item, after, cursor', hitems, hedge', hpoints, hcurrent, hloop⟩ :=
      @ih _ kid sub { cursor with path := ⟨id, left.length⟩ :: cursor.path } (id :: seen) _ hdown hsub hsubne hpath'
        hseen' (show n < n + 1 + fuel by omega)
    refine ⟨itemsOf left ++ before, item, after ++ itemsOf right, cursor', ?_, ?_, ?_, hcurrent, ?_⟩
    · simp [hitems]
    · cases first with
      | false =>
        obtain rfl : right = [] := hedge
        obtain rfl : after = [] := hedge'
        rfl
      | true =>
        obtain rfl : left = [] := hedge
        obtain rfl : before = [] := hedge'
        rfl
    · simpa [Context.before, Context.after] using hpoints
    · rw [descendLoop_kids hdepth hid hnode, hnumber]
      dsimp only
      rw [List.getD_eq_getElem?_getD, hkid]
      exact hloop

/-- `descend` below a node of the tree. -/
theorem descend_spec (cursor : NNTreeCursor κ ν) (hdepth : tree.maxDepth = none) (h : Live K tree store ctx id array)
    (hlength : array.length ≤ tree.splitThreshold) (hne : array ≠ []) (hpath : cursor.path = ctx.path) :
    ∃ before item after cursor', itemsOf array = before ++ item :: after ∧
      (if first then before = [] else after = []) ∧
      Points K tree store cursor' (ctx.before ++ before) item (after ++ ctx.after) ∧
      cursor'.current = none ∧
      descend K tree store cursor id first allowEmpty false = .ok (cursor', true) := by
  have hseen : ∀ i ∈ cursor.path.map PathElement.node, i ∉ id :: idsOf array := by
    intro i hi hmem
    obtain ⟨_, hfocus, -⟩ := h.settled.focused
    rw [hpath] at hi
    have hctx := ctx.path_subset_ids hi
    have hnodup : ((id :: idsOf array) ++ ctx.ids).Nodup := hfocus.nodup
    exact List.disjoint_of_nodup_append hnodup hmem hctx
  obtain ⟨before, item, after, cursor', hitems, hedge, hpoints, hcurrent, hloop⟩ :=
    descendLoop_spec first allowEmpty false hdepth h
      hlength hne hpath hseen (Nat.lt_succ_of_lt h.settled.height_lt)
  refine ⟨before, item, after, cursor', hitems, hedge, hpoints, hcurrent, ?_⟩
  rw [descend, hloop]
  rfl

end Down

/-! ## From the beginning -/

section Begin

variable {array : List (NodeSlot ρ ν n)}

theorem beginPosition_nil (hdepth : tree.maxDepth = none) {array : List (NodeSlot ρ ν 0)}
    (h : Live K tree store .top tree.root array) (hnil : array = []) :
    beginPosition K tree store false = .ok ({ leaf := some tree.root } : NNTreeCursor κ ν) := by
  obtain ⟨limits, hnode⟩ := h.node_eq
  subst hnil
  rw [beginPosition, descend, descendLoop, hdepth, hnode]
  rfl

theorem beginPosition_cons (hdepth : tree.maxDepth = none) (h : Live K tree store .top tree.root array)
    (hlength : array.length ≤ tree.splitThreshold) (hne : array ≠ []) :
    ∃ item after cursor, itemsOf array = item :: after ∧ Points K tree store cursor [] item after ∧
      cursor.current = none ∧ beginPosition K tree store false = .ok cursor := by
  obtain ⟨before, item, after, cursor, hitems, hedge, hpoints, hcurrent, hdescend⟩ :=
    descend_spec true true {} hdepth h hlength hne rfl
  obtain rfl : before = [] := hedge
  refine ⟨item, after, cursor, hitems, ?_, hcurrent, ?_⟩
  · simpa [Context.before, Context.after] using hpoints
  · rw [beginPosition, hdescend]
    rfl

end Begin

/-! ## Up -/

theorem kidHasTreeShape_eq {ctx : Context ρ ν n} (h : Live K tree store ctx id array) :
    kidHasTreeShape store id = true := by
  obtain ⟨limits, hnode⟩ := h.node_eq
  rw [kidHasTreeShape, hnode]
  cases n <;> rfl

/-- The way from a node to what is behind it. -/
theorem climb_spec (hdepth : tree.maxDepth = none) (h : Live K tree store ctx id array)
    (hlength : array.length ≤ tree.splitThreshold) :
    ctx.after = [] ∧ climb K tree store false ctx.path = .ok ({} : NNTreeCursor κ ν) ∨
      ∃ item after cursor, ctx.after = item :: after ∧
        Points K tree store cursor (ctx.before ++ itemsOf array) item after ∧ cursor.current = none ∧
        climb K tree store false ctx.path = .ok cursor := by
  induction ctx generalizing id with
  | top => exact .inl ⟨rfl, rfl⟩
  | @up n parent left right above ih =>
    obtain ⟨hup, huplen⟩ := h.up hlength
    obtain ⟨limits, hnode⟩ := hup.kids_eq
    have hcandidates : List.range' (left.length + 1)
        (((left ++ .node id array :: right).map NodeSlot.id).length - (left.length + 1)) =
        List.range' (left.length + 1) right.length := by
      congr 1
      simp only [List.length_map, List.length_append, List.length_cons]
      omega
    rw [Context.path, climb, NodeStore.loadNode_eq hnode]
    simp only [bind, Except.bind, Bool.false_eq_true, if_false]
    rw [hcandidates]
    cases right with
    | nil =>
      have habove := ih hup huplen
      simpa [Context.before, Context.after, tryKids] using habove
    | cons slot right =>
      obtain ⟨kid, sub, rfl⟩ := slot.exists_node
      have hsplit : left ++ .node id array :: .node kid sub :: right =
          (left ++ [.node id array]) ++ .node kid sub :: right := by simp
      rw [hsplit] at hup huplen
      obtain ⟨hdown, hsub⟩ := hup.down huplen
      have hsubne : sub ≠ [] := fun hnil => List.cons_ne_nil _ _ (hdown.settled.ne_nil hnil).2
      obtain ⟨before, item, after, cursor, hitems, hedge, hpoints, hcurrent, hdescend⟩ :=
        descend_spec true false { path := ⟨parent, left.length + 1⟩ :: above.path } hdepth hdown hsub hsubne
          (by simp [Context.path])
      obtain rfl : before = [] := hedge
      have hkid := getElem?_ids (left ++ [.node id array]) right (.node kid sub)
      rw [List.length_append, List.length_singleton] at hkid
      refine .inr ⟨item, after ++ (Context.up parent (left ++ [.node id array]) right above).after, cursor,
        ?_, ?_, hcurrent, ?_⟩
      · simp [Context.after, hitems]
      · simpa [Context.before, Context.after] using hpoints
      · rw [List.length_cons, List.range'_succ, tryKids, hsplit, hkid]
        simp only [NodeSlot.id_node, kidHasTreeShape_eq hdown, if_true, Bool.not_false, hdescend]
        rfl

/-- The next item, or the end behind the last one. -/
theorem increment_points (hdepth : tree.maxDepth = none) (materializeCurrent : Bool)
    (h : Points K tree store cursor before item after) :
    after = [] ∧ increment K tree store cursor false materializeCurrent = .ok {} ∨
      ∃ item' after' cursor', after = item' :: after' ∧
        Points K tree store cursor' (before ++ [item]) item' after' ∧
        cursor'.current = (if materializeCurrent then some (K.entry item') else none) ∧
        increment K tree store cursor false materializeCurrent = .ok cursor' := by
  obtain ⟨ctx, leaf, left, right, hlive, hlength, hpath, hleaf, hitem, rfl, rfl⟩ := h
  obtain ⟨limits, hnode⟩ := hlive.node_eq
  obtain ⟨path, _, _, current⟩ := cursor
  obtain rfl : path = ctx.path := hpath
  obtain rfl : _ = some leaf := hleaf
  obtain rfl : _ = some left.length := hitem
  have hincrement : increment K tree store ⟨ctx.path, some leaf, some left.length, current⟩ false
      materializeCurrent =
      if left.length + 1 < (left ++ item :: right).length then
        if materializeCurrent then
          updateCurrent K store ⟨ctx.path, some leaf, some (left.length + 1), current⟩
        else .ok ⟨ctx.path, some leaf, some (left.length + 1), none⟩
      else do
        let cursor ← climb K tree store false ctx.path
        if materializeCurrent then updateCurrent K store cursor else return cursor := by
    cases materializeCurrent <;>
      simp only [increment, NodeStore.loadNode_eq hnode, nodeOf_leafArray, bind, Except.bind,
        Bool.false_eq_true, if_false, if_true] <;> split_ifs <;> rfl
  rw [hincrement]
  cases right with
  | cons item' right =>
    have hpoints : ∀ current', Points K tree store (⟨ctx.path, some leaf, some (left.length + 1), current'⟩ :
        NNTreeCursor κ ν) (ctx.before ++ left ++ [item]) item' (right ++ ctx.after) := fun current' =>
      ⟨ctx, leaf, left ++ [item], right, by simpa using hlive, by simpa using hlength, rfl, rfl, by simp, by simp,
        rfl⟩
    rw [if_pos (by simp)]
    cases materializeCurrent with
    | false => exact .inr ⟨item', _, _, rfl, hpoints none, rfl, rfl⟩
    | true =>
      rw [if_pos rfl, updateCurrent_points (hpoints current)]
      exact .inr ⟨item', _, _, rfl, hpoints _, rfl, rfl⟩
  | nil =>
    rw [if_neg (by simp)]
    rcases climb_spec hdepth hlive hlength with ⟨hafter, hclimb⟩ |
      ⟨item', after', cursor', hafter, hpoints, hcurrent, hclimb⟩
    · refine .inl ⟨hafter, ?_⟩
      rw [hclimb]
      cases materializeCurrent <;> rfl
    · rw [itemsOf_leafArray, ← List.append_assoc] at hpoints
      rw [hclimb]
      cases materializeCurrent with
      | false => exact .inr ⟨item', after', cursor', hafter, hpoints, hcurrent, rfl⟩
      | true =>
        refine .inr ⟨item', after', _, hafter, ?_, rfl, updateCurrent_points hpoints⟩
        exact hpoints

end NNTree

end Flpdf
