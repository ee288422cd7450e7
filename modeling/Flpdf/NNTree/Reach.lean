import Flpdf.NNTree.Removal

/-! # Trees that can be reached

A tree is made empty and changed by insertions and removals.  What such a tree has stored is
said here without the engine: the entries from left to right, and what it means for a cursor
to be at one of them.
-/

namespace Flpdf

variable {κ ρ ν : Type}

/-- A path leads from the root to a node, one kid after the other; it is given from its end. -/
def LeadsTo (store : NodeStore ρ ν) (root : NodeId) : List PathElement → NodeId → Prop
  | [], id => id = root
  | element :: above, id =>
      (∃ node kids, store.node element.node = some node ∧ node.kids = some kids ∧
        kids[element.kidNumber]? = some id) ∧
      LeadsTo store root above element.node

/-- The items below a node, from left to right. -/
def storedItems (store : NodeStore ρ ν) : ℕ → NodeId → List (TreeItem ρ ν)
  | 0, _ => []
  | fuel + 1, id =>
    match store.node id with
    | none => []
    | some node =>
      match node.items, node.kids with
      | some items, _ => items
      | none, some kids => kids.flatMap (storedItems store fuel)
      | none, none => []

namespace NNTree

variable (K : TreeKey κ ρ) (tree : NNTree) (store : NodeStore ρ ν)

/-- The entries of the tree, from left to right. -/
def entries : List (κ × ν) := (storedItems store store.next tree.root).map K.entry

/-- A cursor is at an entry: it shows the entry, and its path leads from the root to the slot of it. -/
structure At (cursor : NNTreeCursor κ ν) (key : κ) (value : ν) : Prop where
  current : cursor.current = some (key, value)
  slot : ∃ leaf itemNumber node items item, cursor.leaf = some leaf ∧ cursor.itemNumber = some itemNumber ∧
    store.node leaf = some node ∧ node.items = some items ∧ items[itemNumber]? = some item ∧
    K.entry item = (key, value) ∧ LeadsTo store tree.root cursor.path leaf

variable [LinearOrder κ]

/-- What `next` shows, again and again, until the end. -/
def following : ℕ → NNTreeCursor κ ν → Except NNTreeError (List (κ × ν))
  | 0, _ => .ok []
  | count + 1, cursor => do
    let cursor ← next K tree store cursor
    match cursor.current with
    | none => return []
    | some entry => return entry :: (← following count cursor)

/-- The trees that come from an empty one with a split threshold, by insertions and removals that
succeed; `repair` is what a search does after a structural error. -/
inductive Reachable (repair : NodeStore ρ ν → Except NNTreeError (NodeStore ρ ν)) (threshold : ℕ) :
    NNTree → NodeStore ρ ν → Prop
  | newEmpty {store store' : NodeStore ρ ν} {tree : NNTree} (h : newEmpty store = .ok (tree, store')) :
      Reachable repair threshold { tree with splitThreshold := threshold } store'
  | insert {tree : NNTree} {store store' : NodeStore ρ ν} (key : κ) (value : ν) {cursor : NNTreeCursor κ ν}
      (h : Reachable repair threshold tree store)
      (hinsert : insert K tree repair store key value = .ok (store', cursor)) :
      Reachable repair threshold tree store'
  | remove {tree : NNTree} {store store' : NodeStore ρ ν} {key : κ} {removed : Option ν}
      (h : Reachable repair threshold tree store)
      (hremove : remove K tree repair store key = .ok (store', removed)) :
      Reachable repair threshold tree store'
  | removeAt {tree : NNTree} {store store' : NodeStore ρ ν} {cursor cursor' : NNTreeCursor κ ν} {key : κ}
      {value : ν} {removed : Option ν} (h : Reachable repair threshold tree store)
      (hcursor : At K tree store cursor key value)
      (hremove : removeAt K tree store cursor true = .ok (store', cursor', removed)) :
      Reachable repair threshold tree store'

end NNTree

/-! ## What the store holds, without its nodes -/

section Stored

variable {K : TreeKey κ ρ} {store : NodeStore ρ ν} {n : ℕ}

theorem storedItems_eq {id : NodeId} {array : List (NodeSlot ρ ν n)} {limits : Option (ρ × ρ)} {fuel : ℕ}
    (hnode : store.node id = some (nodeOf array limits)) (hslots : ∀ slot ∈ array, slot.Holds K store)
    (hfuel : n < fuel) : storedItems store fuel id = itemsOf array := by
  induction n generalizing id limits fuel with
  | zero =>
    obtain ⟨fuel, rfl⟩ := Nat.exists_eq_add_of_lt hfuel
    rw [storedItems, hnode]
    exact (itemsOf_leaf array).symm
  | succ n ih =>
    obtain ⟨fuel, rfl⟩ := Nat.exists_eq_add_of_lt hfuel
    rw [storedItems, hnode]
    change (array.map NodeSlot.id).flatMap (storedItems store (n + 1 + fuel)) = _
    rw [List.flatMap_map]
    refine List.flatMap_congr fun slot hslot => ?_
    obtain ⟨kid, sub, rfl⟩ := slot.exists_node
    obtain ⟨-, hsub, limits', hkid, -⟩ := hslots _ hslot
    exact ih hkid hsub (by omega)

theorem Context.Holds.leadsTo {n : ℕ} {ctx : Context ρ ν n} {id : NodeId} {edges : Option (κ × κ)}
    (h : ctx.Holds K store id edges) : LeadsTo store (ctx.root id) ctx.path id := by
  induction ctx generalizing id edges with
  | top => rfl
  | up parent left right above ih =>
    obtain ⟨-, -, limits, hnode, -, habove⟩ := h
    refine ⟨⟨_, _, hnode, rfl, ?_⟩, ih habove⟩
    rw [List.getElem?_append_right (by simp), List.length_map, Nat.sub_self]
    rfl

variable [LinearOrder κ] {tree : NNTree} {items before after : List (TreeItem ρ ν)} {item : TreeItem ρ ν}
  {cursor : NNTreeCursor κ ν}

theorem Stores.storedItems_eq (h : Stores K tree store items) : storedItems store store.next tree.root = items := by
  obtain ⟨n, array, hlive, -, rfl⟩ := h
  obtain ⟨limits, hfocus, -⟩ := hlive.settled.focused
  exact Flpdf.storedItems_eq hfocus.node hfocus.slots hlive.settled.height_lt

theorem Stores.entries_eq (h : Stores K tree store items) : tree.entries K store = items.map K.entry := by
  rw [NNTree.entries, h.storedItems_eq]

/-- A cursor that points to an item is at its entry. -/
theorem Points.at_entry (h : Points K tree store cursor before item after)
    (hcurrent : cursor.current = some (K.entry item)) :
    NNTree.At K tree store cursor (K.entry item).1 (K.entry item).2 := by
  obtain ⟨ctx, leaf, left, right, hlive, -, hpath, hleaf, hitem, -, -⟩ := h
  obtain ⟨limits, hfocus, -⟩ := hlive.settled.focused
  refine ⟨hcurrent, leaf, left.length, _, _, item, hleaf, hitem, hfocus.node, rfl, ?_, rfl, ?_⟩
  · change (left ++ item :: right)[left.length]? = some item
    rw [List.getElem?_append_right (Nat.le_refl _), Nat.sub_self]
    rfl
  · rw [hpath, ← hlive.root_eq]
    exact hfocus.frames.leadsTo

omit [LinearOrder κ] in
theorem exists_split {α : Type} {l : List α} {i : ℕ} {a : α} (h : l[i]? = some a) :
    ∃ left right, l = left ++ a :: right ∧ left.length = i := by
  obtain ⟨hi, rfl⟩ := List.getElem?_eq_some_iff.mp h
  refine ⟨l.take i, l.drop (i + 1), ?_, List.length_take_of_le hi.le⟩
  rw [← List.drop_eq_getElem_cons hi, List.take_append_drop]

/-- A path that leads to a node is that of its context, and is as long as the node is deep. -/
theorem exists_context {array : List (NodeSlot ρ ν n)} (h : Live K tree store .top tree.root array)
    (hlength : array.length ≤ tree.splitThreshold) {path : List PathElement} {id : NodeId}
    (hpath : LeadsTo store tree.root path id) :
    ∃ (m : ℕ) (ctx : Context ρ ν m) (array : List (NodeSlot ρ ν m)), Live K tree store ctx id array ∧
      array.length ≤ tree.splitThreshold ∧ ctx.path = path ∧ path.length + m = n := by
  induction path generalizing id with
  | nil =>
    obtain rfl : id = tree.root := hpath
    exact ⟨n, .top, array, h, hlength, rfl, Nat.zero_add n⟩
  | cons element path ih =>
    obtain ⟨⟨node, kids, hnode, hkids, hkid⟩, habove⟩ := hpath
    obtain ⟨m, ctx, array, hlive, hlen, rfl, hdeep⟩ := ih habove
    obtain ⟨limits, hnode'⟩ := hlive.node_eq
    obtain rfl := Option.some.inj (hnode.symm.trans hnode')
    cases m with
    | zero => cases hkids
    | succ m =>
      obtain rfl := Option.some.inj hkids
      rw [List.getElem?_map] at hkid
      obtain ⟨slot, hslot, rfl⟩ := Option.map_eq_some_iff.mp hkid
      obtain ⟨left, right, rfl, hlength'⟩ := exists_split hslot
      obtain ⟨kid, sub, rfl⟩ := slot.exists_node
      obtain ⟨hdown, hsub⟩ := hlive.down hlen
      refine ⟨m, _, sub, hdown, hsub, by rw [Context.path, hlength'], ?_⟩
      rw [List.length_cons, ← hdeep]
      omega

/-- A cursor that is at an entry points to an item. -/
theorem NNTree.At.points {key : κ} {value : ν} (h : NNTree.At K tree store cursor key value)
    (hstores : Stores K tree store items) :
    ∃ before item after, Points K tree store cursor before item after ∧ items = before ++ item :: after ∧
      K.entry item = (key, value) ∧ cursor.current = some (K.entry item) := by
  obtain ⟨hcurrent, leaf, itemNumber, node, nodeItems, item, hleaf, hitem, hnode, hitems, hget, hentry, hpath⟩ := h
  obtain ⟨n, array, hlive, hlength, -⟩ := id hstores
  obtain ⟨m, ctx, array, hlive, hlen, hctx, -⟩ := exists_context hlive hlength hpath
  obtain ⟨limits, hnode'⟩ := hlive.node_eq
  obtain rfl := Option.some.inj (hnode.symm.trans hnode')
  cases m with
  | succ m => cases hitems
  | zero =>
    obtain rfl := Option.some.inj hitems
    obtain ⟨left, right, hsplit, rfl⟩ := exists_split hget
    have hpoints : Points K tree store cursor (ctx.before ++ left) item (right ++ ctx.after) := by
      refine ⟨ctx, leaf, left, right, hsplit ▸ hlive, hsplit ▸ hlen, hctx.symm, hleaf, hitem, rfl, rfl⟩
    refine ⟨_, item, _, hpoints, ?_, hentry, by rw [hcurrent, hentry]⟩
    rw [← hstores.storedItems_eq, hpoints.stores.storedItems_eq]

end Stored

end Flpdf
