import Flpdf.NNTree.Moves

/-! # Finding a key

At every node the search goes to the last slot that does not begin behind the key; the
binary search finds it, since limits say where the items of a kid begin and end.
-/

namespace Flpdf

variable {κ ρ ν : Type} {n : ℕ} [LinearOrder κ] {K : TreeKey κ ρ} {tree : NNTree}
  {store : NodeStore ρ ν} {id : NodeId} {array left right : List (NodeSlot ρ ν n)} {slot : NodeSlot ρ ν n}
  {items before after : List (TreeItem ρ ν)} {item : TreeItem ρ ν} {key : κ}

/-- The items do not begin behind a key. -/
def TreeKey.StartsBy (K : TreeKey κ ρ) (key : κ) (items : List (TreeItem ρ ν)) : Prop :=
  ∃ item rest, items = item :: rest ∧ (K.entry item).1 ≤ key

/-- Where a key is with respect to the items of a slot. -/
def TreeKey.slotOrder (K : TreeKey κ ρ) (key : κ) (slot : NodeSlot ρ ν n) : Ordering :=
  match K.edges slot.items with
  | none => .lt
  | some (first, last) => if key < first then .lt else if last < key then .gt else .eq

theorem TreeKey.Increasing.lt_of_append (h : K.Increasing (before ++ after)) {item item' : TreeItem ρ ν}
    (hitem : item ∈ before) (hitem' : item' ∈ after) : (K.entry item).1 < (K.entry item').1 :=
  (List.pairwise_append.mp h).2.2 item hitem item' hitem'

/-- Of an array that does not begin behind a key, the last slot that does not. -/
theorem exists_last_slot (hinc : K.Increasing (itemsOf array)) (hitems : ∀ slot ∈ array, slot.items ≠ [])
    (hstart : K.StartsBy key (itemsOf array)) :
    ∃ left slot right, array = left ++ slot :: right ∧ K.StartsBy key slot.items ∧
      ∀ item ∈ itemsOf right, key < (K.entry item).1 := by
  induction array with
  | nil =>
    obtain ⟨item, rest, hnil, -⟩ := hstart
    cases hnil
  | cons slot array ih =>
    rw [itemsOf_cons] at hinc hstart
    have hslot : K.StartsBy key slot.items := by
      obtain ⟨item, rest, hitems', hle⟩ := hstart
      obtain ⟨item', rest', hcons⟩ := List.exists_cons_of_ne_nil (hitems slot List.mem_cons_self)
      rw [hcons, List.cons_append, List.cons.injEq] at hitems'
      exact ⟨item', rest', hcons, hitems'.1 ▸ hle⟩
    by_cases hnext : K.StartsBy key (itemsOf array)
    · obtain ⟨left, slot', right, rfl, hstarts, hright⟩ := ih (List.pairwise_append.mp hinc).2.1
        (fun slot' hslot' => hitems slot' (List.mem_cons_of_mem _ hslot')) hnext
      exact ⟨slot :: left, slot', right, rfl, hstarts, hright⟩
    · refine ⟨[], slot, array, rfl, hslot, fun item hitem => ?_⟩
      obtain ⟨first, rest, hrest⟩ := List.exists_cons_of_ne_nil (List.ne_nil_of_mem hitem)
      have hfirst : key < (K.entry first).1 :=
        not_le.mp fun hle => hnext ⟨first, rest, hrest, hle⟩
      rw [hrest] at hitem hinc
      rcases List.mem_cons.mp hitem with rfl | hitem
      · exact hfirst
      · exact hfirst.trans ((List.pairwise_cons.mp (List.pairwise_append.mp hinc).2.1).1 item hitem)

theorem slotOrder_lt (hne : slot.items ≠ []) (h : ∀ item ∈ slot.items, key < (K.entry item).1) :
    K.slotOrder key slot = .lt := by
  rw [TreeKey.slotOrder, TreeKey.edges_of_ne_nil hne]
  exact if_pos (h _ (List.head_mem hne))

theorem slotOrder_gt (hne : slot.items ≠ []) (h : ∀ item ∈ slot.items, (K.entry item).1 < key) :
    K.slotOrder key slot = .gt := by
  rw [TreeKey.slotOrder, TreeKey.edges_of_ne_nil hne]
  dsimp only
  rw [if_neg (not_lt.mpr (h _ (List.head_mem hne)).le), if_pos (h _ (List.getLast_mem hne))]

theorem slotOrder_ne_lt (h : K.StartsBy key slot.items) : K.slotOrder key slot ≠ .lt := by
  obtain ⟨item, rest, hitems, hle⟩ := h
  have hne : slot.items ≠ [] := hitems ▸ List.cons_ne_nil _ _
  have hhead : slot.items.head hne = item := by simp [hitems]
  rw [TreeKey.slotOrder, TreeKey.edges_of_ne_nil hne, hhead]
  dsimp only
  rw [if_neg (not_lt.mpr hle)]
  split_ifs <;> decide

/-- The slots of an array are ordered for the binary search. -/
theorem ordered_slots (hinc : K.Increasing (itemsOf (left ++ slot :: right)))
    (hitems : ∀ slot' ∈ left ++ slot :: right, slot'.items ≠ []) (hstart : K.StartsBy key slot.items)
    (hright : ∀ item ∈ itemsOf right, key < (K.entry item).1) :
    NNTree.Ordered (left ++ slot :: right).length (left.length + 1)
      fun index => ((left ++ slot :: right)[index]?).elim .lt (K.slotOrder key) := by
  obtain ⟨first, rest, hslot, hle⟩ := hstart
  have hslot' := slotOrder_ne_lt ⟨first, rest, hslot, hle⟩
  have hleft : ∀ index < left.length,
      ((left ++ slot :: right)[index]?).elim .lt (K.slotOrder key) = .gt := by
    intro index hindex
    rw [List.getElem?_append_left hindex, List.getElem?_eq_getElem hindex]
    refine slotOrder_gt (hitems _ (by simp)) fun item hitem => ?_
    rw [itemsOf_append, itemsOf_cons, hslot] at hinc
    exact (hinc.lt_of_append (List.mem_flatMap_of_mem (List.getElem_mem hindex) hitem)
      List.mem_cons_self).trans_le hle
  have hmiddle : ((left ++ slot :: right)[left.length]?).elim .lt (K.slotOrder key) =
      K.slotOrder key slot := by
    rw [List.getElem?_append_right (Nat.le_refl _), Nat.sub_self]
    rfl
  refine ⟨by simp, ?_, ?_, ?_⟩
  · intro index hindex
    rcases Nat.lt_or_eq_of_le (Nat.le_of_lt_succ hindex) with hless | rfl
    · rw [hleft index hless]
      decide
    · rwa [hmiddle]
  · intro index hstop hindex
    obtain ⟨index, rfl⟩ := Nat.exists_eq_add_of_le hstop
    have hsplit : left ++ slot :: right = (left ++ [slot]) ++ right := by simp
    rw [hsplit] at hindex ⊢
    rw [List.length_append, List.length_append, List.length_singleton] at hindex
    have hbound : index < right.length := by omega
    have hget : ((left ++ [slot]) ++ right)[left.length + 1 + index]? = some right[index] := by
      rw [List.getElem?_append_right (by simp), List.length_append, List.length_singleton,
        Nat.add_sub_cancel_left, List.getElem?_eq_getElem hbound]
    rw [hget]
    exact slotOrder_lt (hitems _ (by simp)) fun item hitem =>
      hright item (List.mem_flatMap_of_mem (List.getElem_mem hbound) hitem)
  · intro index hindex hequal
    rcases Nat.lt_or_eq_of_le (Nat.le_of_lt_succ hindex) with hless | rfl
    · cases (hleft index hless).symm.trans hequal
    · rfl

variable {ctx : Context ρ ν n} {fuel : ℕ} {seen : List NodeId}

/-- The limits of a kid tell where its items are. -/
theorem withinLimits_eq {slot : NodeSlot ρ ν (n + 1)} (h : slot.Holds K store) :
    NNTree.withinLimits K store key slot.id = .ok (K.slotOrder key slot) := by
  obtain ⟨node, first, last, hnode, hlimits, hedges⟩ := h.limits_eq
  rw [NNTree.withinLimits, NodeStore.loadNode_eq hnode, TreeKey.slotOrder, hedges]
  simp only [bind, Except.bind, hlimits]
  split_ifs <;> rfl

/-- Where a key is with respect to one item. -/
theorem slotOrder_item (item : TreeItem ρ ν) :
    K.slotOrder key (n := 0) item = compare key (K.entry item).1 := by
  change (if key < (K.entry item).1 then _ else if (K.entry item).1 < key then _ else _) = _
  rcases lt_trichotomy key (K.entry item).1 with hless | hequal | hgreater
  · rw [if_pos hless, compare_lt_iff_lt.mpr hless]
  · rw [if_neg hequal.not_lt, if_neg hequal.not_gt, compare_eq_iff_eq.mpr hequal]
  · rw [if_neg hgreater.not_gt, if_pos hgreater, compare_gt_iff_gt.mpr hgreater]

/-- What the search ends with: the last item that is not behind the key, if it is the key's own
or the previous one is asked for. -/
def Finds (K : TreeKey κ ρ) (tree : NNTree) (store : NodeStore ρ ν) (key : κ) (returnPrevious : Bool)
    (cursor : NNTreeCursor κ ν) (before : List (TreeItem ρ ν)) (item : TreeItem ρ ν)
    (after : List (TreeItem ρ ν)) : Prop :=
  (K.entry item).1 ≤ key ∧ (∀ item' ∈ after, key < (K.entry item').1) ∧
    if (K.entry item).1 = key ∨ returnPrevious then
      Points K tree store cursor before item after ∧ cursor.current = some (K.entry item)
    else cursor.positioned = false ∧ cursor.leaf = none ∧ cursor.current = none

namespace NNTree

variable {limits : Option (ρ × ρ)} {returnPrevious : Bool} {cursor : NNTreeCursor κ ν}

theorem findLoop_leaf (hdepth : tree.maxDepth = none) (hseen : id ∉ seen)
    (hnode : store.node id = some { items := some (item :: items), limits }) :
    findLoop K tree store key returnPrevious (fuel + 1) seen cursor id =
      (binarySearch (item :: items).length returnPrevious fun index =>
        .ok (compare key (K.valueFromHandle ((item :: items).getD index item).rawKey))) >>= fun index =>
      match index with
      | some index => updateCurrent K store { cursor with leaf := some id, itemNumber := some index }
      | none => .ok cursor := by
  rw [findLoop, hdepth]
  simp only [Option.any_none, Bool.false_eq_true, if_false, hseen, NodeStore.loadNode_eq hnode]
  rfl

theorem findLoop_kids (hdepth : tree.maxDepth = none) (hseen : id ∉ seen) {kid : NodeId}
    {kids : List NodeId} {index : ℕ} (hnode : store.node id = some { kids := some (kid :: kids), limits })
    (hsearch : (binarySearch (kid :: kids).length true fun index =>
      withinLimits K store key ((kid :: kids).getD index kid)) = .ok (some index)) :
    findLoop K tree store key returnPrevious (fuel + 1) seen cursor id =
      findLoop K tree store key returnPrevious fuel (id :: seen)
        { cursor with path := ⟨id, index⟩ :: cursor.path } ((kid :: kids).getD index kid) := by
  rw [findLoop, hdepth]
  simp only [Option.any_none, Bool.false_eq_true, if_false, hseen, NodeStore.loadNode_eq hnode]
  simp only [bind, Except.bind, hsearch]

/-- The search among the items of a leaf. -/
theorem binarySearch_leaf {left right : List (TreeItem ρ ν)} {head : TreeItem ρ ν}
    {tail : List (TreeItem ρ ν)} (hcons : left ++ item :: right = head :: tail)
    (hordered : Ordered (leafArray (left ++ item :: right)).length (left.length + 1)
      fun index => ((leafArray (left ++ item :: right))[index]?).elim .lt (K.slotOrder key)) :
    (binarySearch (head :: tail).length returnPrevious fun index =>
        (.ok (compare key (K.valueFromHandle ((head :: tail).getD index head).rawKey)) :
          Except NNTreeError Ordering)) =
      .ok (if (K.entry item).1 = key ∨ returnPrevious then some left.length else none) := by
  rw [← hcons]
  have hcompare : ∀ index < (left ++ item :: right).length,
      (.ok (compare key (K.valueFromHandle ((left ++ item :: right).getD index head).rawKey)) :
          Except NNTreeError Ordering) =
        .ok (((leafArray (left ++ item :: right))[index]?).elim .lt (K.slotOrder key)) := by
    intro index hindex
    change _ = Except.ok (((left ++ item :: right)[index]?).elim Ordering.lt (K.slotOrder (n := 0) key))
    rw [List.getD_eq_getElem?_getD, List.getElem?_eq_getElem hindex]
    exact congrArg Except.ok (slotOrder_item _).symm
  obtain ⟨found, hsearch, hfound⟩ := binarySearch_eq hordered returnPrevious hcompare
  have hequal : found = true ↔ (K.entry item).1 = key := by
    rw [hfound, FoundAt, Nat.add_sub_cancel]
    change 0 < left.length + 1 ∧
      ((left ++ item :: right)[left.length]?).elim Ordering.lt (K.slotOrder (n := 0) key) = .eq ↔ _
    rw [List.getElem?_append_right (Nat.le_refl _), Nat.sub_self]
    change 0 < left.length + 1 ∧ K.slotOrder (n := 0) key item = .eq ↔ _
    rw [slotOrder_item, compare_eq_iff_eq, and_iff_right (Nat.succ_pos _)]
    exact eq_comm
  refine hsearch.trans (congrArg Except.ok (if_congr ?_ (lastIndex_succ _) rfl))
  rw [Bool.or_eq_true, hequal]

/-- The search among the kids of a node. -/
theorem binarySearch_kids {left right : List (NodeSlot ρ ν (n + 1))} {slot : NodeSlot ρ ν (n + 1)}
    {head : NodeId} {tail : List NodeId} (hcons : (left ++ slot :: right).map NodeSlot.id = head :: tail)
    (hslots : ∀ slot' ∈ left ++ slot :: right, slot'.Holds K store)
    (hordered : Ordered (left ++ slot :: right).length (left.length + 1)
      fun index => ((left ++ slot :: right)[index]?).elim .lt (K.slotOrder key)) :
    (binarySearch (head :: tail).length true fun index =>
      withinLimits K store key ((head :: tail).getD index head)) = .ok (some left.length) := by
  rw [← hcons, List.length_map]
  have hcompare : ∀ index < (left ++ slot :: right).length,
      withinLimits K store key (((left ++ slot :: right).map NodeSlot.id).getD index head) =
        .ok (((left ++ slot :: right)[index]?).elim .lt (K.slotOrder key)) := by
    intro index hindex
    rw [List.getD_eq_getElem?_getD, List.getElem?_map, List.getElem?_eq_getElem hindex]
    exact withinLimits_eq (hslots _ (List.getElem_mem hindex))
  obtain ⟨found, hsearch, -⟩ := binarySearch_eq hordered true hcompare
  rw [hsearch, Bool.or_true, if_pos rfl, lastIndex_succ]

/-- The slot that the search goes to. -/
theorem exists_slot (h : Live K tree store ctx id array) (hstart : K.StartsBy key (itemsOf array)) :
    ∃ left slot right, array = left ++ slot :: right ∧ K.StartsBy key slot.items ∧
      (∀ item ∈ itemsOf right, key < (K.entry item).1) ∧ (∀ slot' ∈ array, slot'.Holds K store) ∧
      Ordered (left ++ slot :: right).length (left.length + 1)
        fun index => ((left ++ slot :: right)[index]?).elim .lt (K.slotOrder key) := by
  have hinc : K.Increasing (itemsOf array) :=
    (List.pairwise_append.mp (List.pairwise_append.mp h.increasing).1).2.1
  obtain ⟨_, hfocus, -⟩ := h.settled.focused
  have hitems : ∀ slot ∈ array, slot.items ≠ [] := fun slot hslot => (hfocus.slots slot hslot).items_ne_nil
  obtain ⟨left, slot, right, rfl, hslot, hright⟩ := exists_last_slot hinc hitems hstart
  exact ⟨left, slot, right, rfl, hslot, hright, hfocus.slots, ordered_slots hinc hitems hslot hright⟩

/-- The loop of `find_internal` below a node that does not begin behind the key. -/
theorem findLoop_spec (hdepth : tree.maxDepth = none) (returnPrevious : Bool)
    (h : Live K tree store ctx id array) (hlength : array.length ≤ tree.splitThreshold)
    (hstart : K.StartsBy key (itemsOf array)) (hafter : ∀ item ∈ ctx.after, key < (K.entry item).1)
    (hseen : ∀ i ∈ seen, i ∉ id :: idsOf array) (hfuel : n < fuel) :
    ∃ before item after cursor, itemsOf array = before ++ item :: after ∧
      Finds K tree store key returnPrevious cursor (ctx.before ++ before) item (after ++ ctx.after) ∧
      findLoop K tree store key returnPrevious fuel seen { path := ctx.path } id = .ok cursor := by
  induction n generalizing seen fuel id with
  | zero =>
    have hid : id ∉ seen := fun hmem => hseen id hmem List.mem_cons_self
    obtain ⟨fuel, rfl⟩ := Nat.exists_eq_add_of_lt hfuel
    obtain ⟨limits, hnode⟩ := h.node_eq
    obtain ⟨(left : List (TreeItem ρ ν)), (item : TreeItem ρ ν), (right : List (TreeItem ρ ν)), rfl,
      ⟨_, _, hitem, hle⟩, hright, -, hordered⟩ := exists_slot h hstart
    obtain ⟨head, tail, hcons⟩ := List.exists_cons_of_ne_nil (List.append_ne_nil_of_right_ne_nil left
      (List.cons_ne_nil item right))
    obtain ⟨rfl, rfl⟩ := List.cons.inj hitem
    change store.node id = some { items := some (left ++ item :: right), limits } at hnode
    rw [hcons] at hnode
    have hloop := @findLoop_leaf _ _ _ _ K tree store id _ _ key (0 + fuel) seen limits returnPrevious
      { path := ctx.path } hdepth hid hnode
    rw [binarySearch_leaf hcons hordered] at hloop
    have hafter' : ∀ item' ∈ right ++ ctx.after, key < (K.entry item').1 := by
      intro item' hitem'
      rcases List.mem_append.mp hitem' with hitem' | hitem'
      · have hmem : item' ∈ itemsOf (leafArray right) := by rwa [itemsOf_leafArray]
        exact hright item' hmem
      · exact hafter item' hitem'
    by_cases hfound : (K.entry item).1 = key ∨ returnPrevious
    · have hpoints : Points K tree store
          ({ path := ctx.path, leaf := some id, itemNumber := some left.length } : NNTreeCursor κ ν)
          (ctx.before ++ left) item (right ++ ctx.after) :=
        ⟨ctx, id, left, right, h, hlength, rfl, rfl, rfl, rfl, rfl⟩
      rw [if_pos hfound] at hloop
      refine ⟨left, item, right, _, itemsOf_leaf _, ⟨hle, hafter', ?_⟩,
        hloop.trans (updateCurrent_points hpoints)⟩
      rw [if_pos hfound]
      exact ⟨hpoints, rfl⟩
    · rw [if_neg hfound] at hloop
      refine ⟨left, item, right, _, itemsOf_leaf _, ⟨hle, hafter', ?_⟩, hloop⟩
      rw [if_neg hfound]
      exact ⟨rfl, rfl, rfl⟩
  | succ n ih =>
    have hid : id ∉ seen := fun hmem => hseen id hmem List.mem_cons_self
    obtain ⟨fuel, rfl⟩ := Nat.exists_eq_add_of_lt hfuel
    obtain ⟨limits, hnode⟩ := h.kids_eq
    obtain ⟨left, slot, right, rfl, hslot, hright, hslots, hordered⟩ := exists_slot h hstart
    obtain ⟨kid, sub, rfl⟩ := slot.exists_node
    obtain ⟨hdown, hsub⟩ := h.down hlength
    obtain ⟨head, tail, hkids⟩ := List.exists_cons_of_ne_nil (List.map_eq_nil_iff.not.mpr
      (List.append_ne_nil_of_right_ne_nil left (List.cons_ne_nil (NodeSlot.node kid sub) right)))
    have hkid := getElem?_ids left right (.node kid sub)
    rw [hkids] at hnode hkid
    have hafter' : ∀ item ∈ (Context.up id left right ctx).after, key < (K.entry item).1 := by
      intro item hitem
      rcases List.mem_append.mp hitem with hitem | hitem
      · exact hright item hitem
      · exact hafter item hitem
    have hseen' := h.notMem_seen hseen
    obtain ⟨before, item, after, cursor, hitems, hfinds, hloop⟩ :=
      ih hdown hsub hslot hafter' hseen' (show n < n + 1 + fuel by omega)
    refine ⟨itemsOf left ++ before, item, after ++ itemsOf right, cursor, ?_, ?_, ?_⟩
    · simp [hitems]
    · simpa [Context.before, Context.after] using hfinds
    · rw [findLoop_kids hdepth hid hnode (binarySearch_kids hkids hslots hordered),
        List.getD_eq_getElem?_getD, hkid]
      exact hloop

/-- `find_internal` of a tree that the store holds. -/
theorem findInternal_spec (hdepth : tree.maxDepth = none) (h : Stores K tree store items) (key : κ)
    (returnPrevious : Bool) :
    (∀ item ∈ items, key < (K.entry item).1) ∧ findInternal K tree store key returnPrevious = .ok {} ∨
      ∃ before item after cursor, items = before ++ item :: after ∧
        Finds K tree store key returnPrevious cursor before item after ∧
        findInternal K tree store key returnPrevious = .ok cursor := by
  obtain ⟨n, array, hlive, hlength, rfl⟩ := h
  by_cases hne : array = []
  · obtain ⟨rfl, -⟩ := hlive.settled.ne_nil hne
    refine .inl ⟨by simp [hne], ?_⟩
    rw [findInternal, beginPosition_nil hdepth hlive hne]
    rfl
  obtain ⟨first, rest, cursor, hitems, hpoints, -, hbegin⟩ := beginPosition_cons hdepth hlive hlength hne
  have hinternal : findInternal K tree store key returnPrevious =
      if key < (K.entry first).1 then .ok {}
      else findLoop K tree store key returnPrevious (store.next + 1) [] {} tree.root := by
    obtain ⟨ctx, leaf, left, right, hleafLive, -, -, hleaf, hitem, -, -⟩ := hpoints
    obtain ⟨limits, hnode⟩ := hleafLive.node_eq
    rw [findInternal, hbegin]
    simp only [bind, Except.bind, hleaf, hitem, leafItems, NodeStore.loadNode_eq hnode, nodeOf_leafArray]
    simp only [pure, Except.pure]
    rw [List.getElem?_append_right (Nat.le_refl _), Nat.sub_self]
    rfl
  rw [hinternal]
  by_cases hless : key < (K.entry first).1
  · refine .inl ⟨?_, if_pos hless⟩
    have hinc := hlive.increasing
    simp only [Context.before, Context.after, List.nil_append, List.append_nil] at hinc
    rw [hitems] at hinc ⊢
    intro item hitem
    rcases List.mem_cons.mp hitem with rfl | hitem
    · exact hless
    · exact hless.trans ((List.pairwise_cons.mp hinc).1 item hitem)
  · rw [if_neg hless]
    obtain ⟨before, item, after, cursor, hsplit, hfinds, hloop⟩ :=
      findLoop_spec hdepth returnPrevious hlive hlength ⟨first, rest, hitems, not_lt.mp hless⟩
        (List.forall_mem_nil _) (List.forall_mem_nil _) (Nat.lt_succ_of_lt hlive.settled.height_lt)
    refine .inr ⟨before, item, after, cursor, hsplit, ?_, hloop⟩
    simpa [Context.before, Context.after] using hfinds

/-- A search in a tree that the store holds does not come to the repair. -/
theorem find_spec (hdepth : tree.maxDepth = none) (h : Stores K tree store items)
    (repair : NodeStore ρ ν → Except NNTreeError (NodeStore ρ ν)) (key : κ) (returnPrevious : Bool) :
    (∀ item ∈ items, key < (K.entry item).1) ∧
        find K tree repair store key returnPrevious = .ok (store, {}) ∨
      ∃ before item after cursor, items = before ++ item :: after ∧
        Finds K tree store key returnPrevious cursor before item after ∧
        find K tree repair store key returnPrevious = .ok (store, cursor) := by
  rcases findInternal_spec hdepth h key returnPrevious with ⟨hall, hfind⟩ |
    ⟨before, item, after, cursor, hsplit, hfinds, hfind⟩
  · exact .inl ⟨hall, by rw [find, hfind]⟩
  · exact .inr ⟨before, item, after, cursor, hsplit, hfinds, by rw [find, hfind]⟩

end NNTree

end Flpdf
