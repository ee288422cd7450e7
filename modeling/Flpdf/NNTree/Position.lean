import Flpdf.NNTree.Engine
import Flpdf.NNTree.Limits

/-! # Positions of a cursor

A cursor that points to an item is a leaf with its context.  Moving the cursor is moving in
the tree: down to the first or the last item below a node, and up to the first node that
has another one behind it.
-/

namespace Flpdf

variable {κ ρ ν : Type} {n : ℕ}

/-- No array below a node is longer than the threshold. -/
def NodeSlot.Small (threshold : ℕ) : {n : ℕ} → NodeSlot ρ ν n → Prop
  | 0, _ => True
  | _ + 1, (_, array) => array.length ≤ threshold ∧ ∀ slot ∈ array, slot.Small threshold

def Context.Small (threshold : ℕ) : {n : ℕ} → Context ρ ν n → Prop
  | _, .top => True
  | _, .up _ left right above => left.length + 1 + right.length ≤ threshold ∧
      (∀ slot ∈ left, slot.Small threshold) ∧ (∀ slot ∈ right, slot.Small threshold) ∧
      above.Small threshold

/-- The array of a leaf. -/
def leafArray (items : List (TreeItem ρ ν)) : List (NodeSlot ρ ν 0) := items

@[simp] theorem itemsOf_leafArray (items : List (TreeItem ρ ν)) : itemsOf (leafArray items) = items :=
  itemsOf_leaf items

@[simp] theorem idsOf_leafArray (items : List (TreeItem ρ ν)) : idsOf (leafArray items) = [] :=
  idsOf_leaf items

@[simp] theorem length_leafArray (items : List (TreeItem ρ ν)) : (leafArray items).length = items.length :=
  rfl

@[simp] theorem nodeOf_leafArray (items : List (TreeItem ρ ν)) (limits : Option (ρ × ρ)) :
    nodeOf (leafArray items) limits = { items := some items, limits } := rfl

section Live

variable [LinearOrder κ] (K : TreeKey κ ρ) (tree : NNTree) (store : NodeStore ρ ν)

/-- Keys become greater from left to right. -/
def TreeKey.Increasing (items : List (TreeItem ρ ν)) : Prop :=
  items.Pairwise fun item item' => (K.entry item).1 < (K.entry item').1

/-- The store holds the tree, and a node of it is looked at; its own array may be too long. -/
structure Live (ctx : Context ρ ν n) (id : NodeId) (array : List (NodeSlot ρ ν n)) : Prop where
  settled : SettledAt K store ctx id array
  slots_small : ∀ slot ∈ array, slot.Small tree.splitThreshold
  ctx_small : ctx.Small tree.splitThreshold
  root_eq : ctx.root id = tree.root
  increasing : K.Increasing (ctx.before ++ itemsOf array ++ ctx.after)

/-- The store holds the tree with the given items. -/
def Stores (items : List (TreeItem ρ ν)) : Prop :=
  ∃ (n : ℕ) (array : List (NodeSlot ρ ν n)), Live K tree store .top tree.root array ∧
    array.length ≤ tree.splitThreshold ∧ itemsOf array = items

/-- A cursor points to an item of the tree, with the items before and behind it. -/
def Points (cursor : NNTreeCursor κ ν) (before : List (TreeItem ρ ν)) (item : TreeItem ρ ν)
    (after : List (TreeItem ρ ν)) : Prop :=
  ∃ (ctx : Context ρ ν 0) (leaf : NodeId) (left right : List (TreeItem ρ ν)),
    Live K tree store ctx leaf (leafArray (left ++ item :: right)) ∧
    (left ++ item :: right).length ≤ tree.splitThreshold ∧
    cursor.path = ctx.path ∧ cursor.leaf = some leaf ∧ cursor.itemNumber = some left.length ∧
    before = ctx.before ++ left ∧ after = right ++ ctx.after

variable {K tree store} {ctx : Context ρ ν n} {id parent : NodeId} {array : List (NodeSlot ρ ν n)}
  {left right : List (NodeSlot ρ ν (n + 1))} {above : Context ρ ν (n + 1)}
  {before after : List (TreeItem ρ ν)} {item : TreeItem ρ ν} {cursor : NNTreeCursor κ ν}

/-! ## Looking at another node -/

theorem Live.up (h : Live K tree store (.up parent left right above) id array)
    (hlength : array.length ≤ tree.splitThreshold) :
    Live K tree store above parent (left ++ .node id array :: right) ∧
      (left ++ .node id array :: right).length ≤ tree.splitThreshold := by
  obtain ⟨hlen, hleft, hright, habove⟩ := h.ctx_small
  refine ⟨⟨h.settled.up, ?_, habove, h.root_eq, ?_⟩, ?_⟩
  · intro slot hslot
    rcases List.mem_append.mp hslot with hslot | hslot
    · exact hleft slot hslot
    · rcases List.mem_cons.mp hslot with rfl | hslot
      · exact ⟨hlength, h.slots_small⟩
      · exact hright slot hslot
  · simpa only [Context.before, Context.after, itemsOf_append, itemsOf_cons, NodeSlot.items_node,
      List.append_assoc] using h.increasing
  · simp only [List.length_append, List.length_cons]
    omega

theorem Live.down (h : Live K tree store above parent (left ++ .node id array :: right))
    (hlength : (left ++ .node id array :: right).length ≤ tree.splitThreshold) :
    Live K tree store (.up parent left right above) id array ∧ array.length ≤ tree.splitThreshold := by
  have hslot : (NodeSlot.node id array).Small tree.splitThreshold := h.slots_small _ (by simp)
  simp only [List.length_append, List.length_cons] at hlength
  refine ⟨⟨h.settled.down, hslot.2, ⟨by omega, ?_, ?_, h.ctx_small⟩, h.root_eq, ?_⟩, hslot.1⟩
  · exact fun slot hslot => h.slots_small slot (by simp [hslot])
  · exact fun slot hslot => h.slots_small slot (by simp [hslot])
  · simpa only [Context.before, Context.after, itemsOf_append, itemsOf_cons, NodeSlot.items_node,
      List.append_assoc] using h.increasing

/-- Whatever node is looked at, the items of the tree are the same. -/
theorem Live.stores (h : Live K tree store ctx id array) (hlength : array.length ≤ tree.splitThreshold) :
    Stores K tree store (ctx.before ++ itemsOf array ++ ctx.after) := by
  induction ctx generalizing id with
  | top =>
    obtain rfl : id = tree.root := h.root_eq
    exact ⟨_, array, h, hlength, by simp [Context.before, Context.after]⟩
  | up parent left right above ih =>
    obtain ⟨hup, hlen⟩ := h.up hlength
    simpa only [Context.before, Context.after, itemsOf_append, itemsOf_cons, NodeSlot.items_node,
      List.append_assoc] using ih hup hlen

theorem Stores.increasing {items : List (TreeItem ρ ν)} (h : Stores K tree store items) : K.Increasing items := by
  obtain ⟨n, array, hlive, -, rfl⟩ := h
  simpa [Context.before, Context.after] using hlive.increasing

theorem Points.stores (h : Points K tree store cursor before item after) :
    Stores K tree store (before ++ item :: after) := by
  obtain ⟨ctx, leaf, left, right, hlive, hlength, -, -, -, rfl, rfl⟩ := h
  simpa using hlive.stores hlength

end Live

end Flpdf
