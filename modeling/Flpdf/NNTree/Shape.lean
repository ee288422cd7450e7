import Flpdf.NNTree.Store

/-! # The tree in the store

A node of height `n` has an array of slots: items in a leaf, and nodes of height `n - 1`
with their arrays above.  A node of the tree is looked at in a context, the nodes above it
with the slots on both sides; what the store has to hold for the array and for the context
is said separately, so that one of them can change while the other one stays.
-/

namespace Flpdf

variable {κ ρ ν : Type}

/-- What an array of a node of height `n` is made of. -/
def NodeSlot (ρ ν : Type) : ℕ → Type
  | 0 => TreeItem ρ ν
  | n + 1 => NodeId × List (NodeSlot ρ ν n)

namespace NodeSlot

/-- A node with its array. -/
@[match_pattern] def node {n : ℕ} (id : NodeId) (array : List (NodeSlot ρ ν n)) : NodeSlot ρ ν (n + 1) := (id, array)

/-- The object of a node. -/
def id {n : ℕ} (slot : NodeSlot ρ ν (n + 1)) : NodeId := slot.1

def items : {n : ℕ} → NodeSlot ρ ν n → List (TreeItem ρ ν)
  | 0, item => [item]
  | _ + 1, (_, array) => array.flatMap items

def ids : {n : ℕ} → NodeSlot ρ ν n → List NodeId
  | 0, _ => []
  | _ + 1, (id, array) => id :: array.flatMap ids

end NodeSlot

variable {n : ℕ}

/-- The items below an array, from left to right. -/
def itemsOf (array : List (NodeSlot ρ ν n)) : List (TreeItem ρ ν) := array.flatMap NodeSlot.items

def idsOf (array : List (NodeSlot ρ ν n)) : List NodeId := array.flatMap NodeSlot.ids

section Lists

variable (slot : NodeSlot ρ ν n) (array array' : List (NodeSlot ρ ν n)) (id : NodeId)

@[simp] theorem itemsOf_nil : itemsOf ([] : List (NodeSlot ρ ν n)) = [] := rfl

@[simp] theorem itemsOf_cons : itemsOf (slot :: array) = slot.items ++ itemsOf array := List.flatMap_cons

@[simp] theorem itemsOf_append : itemsOf (array ++ array') = itemsOf array ++ itemsOf array' :=
  List.flatMap_append

@[simp] theorem idsOf_nil : idsOf ([] : List (NodeSlot ρ ν n)) = [] := rfl

@[simp] theorem idsOf_cons : idsOf (slot :: array) = slot.ids ++ idsOf array := List.flatMap_cons

@[simp] theorem idsOf_append : idsOf (array ++ array') = idsOf array ++ idsOf array' :=
  List.flatMap_append

@[simp] theorem NodeSlot.items_node : (NodeSlot.node id array).items = itemsOf array := rfl

@[simp] theorem NodeSlot.id_node : (NodeSlot.node id array).id = id := rfl

@[simp] theorem NodeSlot.ids_node : (NodeSlot.node id array).ids = id :: idsOf array := rfl

theorem NodeSlot.exists_node (slot : NodeSlot ρ ν (n + 1)) : ∃ id array, slot = .node id array :=
  ⟨slot.1, slot.2, rfl⟩

/-- The items of a leaf are its slots. -/
theorem itemsOf_leaf (array : List (NodeSlot ρ ν 0)) : itemsOf array = array := by
  induction array with
  | nil => rfl
  | cons item array ih => rw [itemsOf_cons, ih]; rfl

theorem idsOf_leaf (array : List (NodeSlot ρ ν 0)) : idsOf array = [] := by
  induction array with
  | nil => rfl
  | cons item array ih => rw [idsOf_cons, ih]; rfl

end Lists

/-- The dictionary of a node with an array. -/
def nodeOf : {n : ℕ} → List (NodeSlot ρ ν n) → Option (ρ × ρ) → TreeNode ρ ν
  | 0, array, limits => { items := some array, limits }
  | _ + 1, array, limits => { kids := some (array.map NodeSlot.id), limits }

@[simp] theorem nodeOf_limits (array : List (NodeSlot ρ ν n)) (limits : Option (ρ × ρ)) :
    (nodeOf array limits).limits = limits := by cases n <;> rfl

@[simp] theorem nodeOf_mk (array : List (NodeSlot ρ ν n)) (limits limits' : Option (ρ × ρ)) :
    TreeNode.mk (nodeOf array limits).items (nodeOf array limits).kids limits' = nodeOf array limits' := by
  cases n <;> rfl

@[simp] theorem nodeOf_kids (array : List (NodeSlot ρ ν (n + 1))) (limits : Option (ρ × ρ)) :
    (nodeOf array limits).kids = some (array.map NodeSlot.id) := rfl

@[simp] theorem nodeOf_mk_kids (array array' : List (NodeSlot ρ ν (n + 1))) (limits limits' : Option (ρ × ρ)) :
    TreeNode.mk (nodeOf array limits).items (some (array'.map NodeSlot.id)) limits' = nodeOf array' limits' := rfl

/-- The nodes above a node, each with the slots before and behind the one that leads to it. -/
inductive Context (ρ ν : Type) : ℕ → Type
  | top {n : ℕ} : Context ρ ν n
  | up {n : ℕ} (id : NodeId) (left right : List (NodeSlot ρ ν (n + 1))) (above : Context ρ ν (n + 1)) :
      Context ρ ν n

namespace Context

def path : {n : ℕ} → Context ρ ν n → List PathElement
  | _, top => []
  | _, up id left _ above => ⟨id, left.length⟩ :: above.path

/-- The items before what is looked at. -/
def before : {n : ℕ} → Context ρ ν n → List (TreeItem ρ ν)
  | _, top => []
  | _, up _ left _ above => above.before ++ itemsOf left

/-- The items behind what is looked at. -/
def after : {n : ℕ} → Context ρ ν n → List (TreeItem ρ ν)
  | _, top => []
  | _, up _ _ right above => itemsOf right ++ above.after

def ids : {n : ℕ} → Context ρ ν n → List NodeId
  | _, top => []
  | _, up id left right above => id :: (idsOf left ++ idsOf right ++ above.ids)

/-- The root, when a node is looked at. -/
def root : {n : ℕ} → Context ρ ν n → NodeId → NodeId
  | _, top, id => id
  | _, up id _ _ above, _ => above.root id

/-- The root has no limits. -/
def expects : {n : ℕ} → Context ρ ν n → Option (κ × κ) → Option (κ × κ)
  | _, top, _ => none
  | _, up .., edges => edges

end Context

namespace TreeKey

variable (K : TreeKey κ ρ)

/-- An item as a cursor shows it. -/
def entry (item : TreeItem ρ ν) : κ × ν := (K.valueFromHandle item.rawKey, item.value)

/-- The first and the last key. -/
def edges (items : List (TreeItem ρ ν)) : Option (κ × κ) := do
  return ((K.entry (← items.head?)).1, (K.entry (← items.getLast?)).1)

def decoded (limits : Option (ρ × ρ)) : Option (κ × κ) :=
  limits.map fun limits => (K.valueFromHandle limits.1, K.valueFromHandle limits.2)

/-- The first and the last key of an array, when those of one of its slots are given. -/
def edgesAround (left : List (NodeSlot ρ ν n)) (edges : Option (κ × κ)) (right : List (NodeSlot ρ ν n)) :
    Option (κ × κ) :=
  edges.map fun edges =>
    (((K.edges (itemsOf left)).map Prod.fst).getD edges.1,
      ((K.edges (itemsOf right)).map Prod.snd).getD edges.2)

end TreeKey

variable (K : TreeKey κ ρ) (store : NodeStore ρ ν)

/-- The store holds a node below the root, and all nodes below it. -/
def NodeSlot.Holds : {n : ℕ} → NodeSlot ρ ν n → Prop
  | 0, _ => True
  | _ + 1, (id, array) => array ≠ [] ∧ (∀ slot ∈ array, slot.Holds) ∧
      ∃ limits, store.node id = some (nodeOf array limits) ∧ K.decoded limits = K.edges (itemsOf array)

/-- The store holds the nodes around a node, which is taken to have the given keys for limits. -/
def Context.Holds : {n : ℕ} → Context ρ ν n → NodeId → Option (κ × κ) → Prop
  | _, .top, _, _ => True
  | _, .up id left right above, hole, edges =>
      (∀ slot ∈ left, slot.Holds K store) ∧ (∀ slot ∈ right, slot.Holds K store) ∧
      ∃ limits, store.node id =
          some { kids := some (left.map NodeSlot.id ++ hole :: right.map NodeSlot.id), limits } ∧
        K.decoded limits = above.expects (K.edgesAround left edges right) ∧
        above.Holds id (K.decoded limits)

/-- The store holds a tree in which a node is looked at; its limits may be out of date. -/
structure Focused (ctx : Context ρ ν n) (id : NodeId) (array : List (NodeSlot ρ ν n))
    (limits : Option (ρ × ρ)) : Prop where
  node : store.node id = some (nodeOf array limits)
  slots : ∀ slot ∈ array, slot.Holds K store
  frames : ctx.Holds K store id (K.decoded limits)
  nodup : (id :: (idsOf array ++ ctx.ids)).Nodup
  bound : ∀ i ∈ id :: (idsOf array ++ ctx.ids), i < store.next

/-- The store holds a tree in which a node is looked at. -/
structure SettledAt (ctx : Context ρ ν n) (id : NodeId) (array : List (NodeSlot ρ ν n)) : Prop where
  focused : ∃ limits, Focused K store ctx id array limits ∧
    K.decoded limits = ctx.expects (K.edges (itemsOf array))
  ne_nil : array = [] → n = 0 ∧ ctx.path = []

variable {K store} {store' : NodeStore ρ ν} {left right array array' : List (NodeSlot ρ ν n)}
  {first last items : List (TreeItem ρ ν)} {node : TreeNode ρ ν} {id hole : NodeId}
  {limits : Option (ρ × ρ)} {edges : Option (κ × κ)} {ctx : Context ρ ν n}

/-! ## What is left alone -/

namespace NodeStore

@[simp] theorem set_node_self : (store.set id node).node id = some node := Function.update_self ..

theorem set_node_of_ne {i : NodeId} (h : i ≠ id) : (store.set id node).node i = store.node i :=
  Function.update_of_ne h ..

theorem set_eq_self (h : store.node id = some node) : store.set id node = store := by
  rw [set, ← h, Function.update_eq_self]

theorem loadNode_eq (h : store.node id = some node) : store.loadNode id = .ok node := by
  rw [loadNode, h]

end NodeStore

theorem NodeSlot.Holds.congr {n : ℕ} {slot : NodeSlot ρ ν n} (h : slot.Holds K store)
    (hsame : ∀ i ∈ slot.ids, store'.node i = store.node i) : slot.Holds K store' := by
  induction n with
  | zero => trivial
  | succ n ih =>
    obtain ⟨id, array⟩ := slot
    obtain ⟨hne, hslots, hnode⟩ := h
    refine ⟨hne, fun slot hslot => ih (hslots slot hslot) fun i hi => hsame i ?_, ?_⟩
    · exact List.mem_cons_of_mem _ (List.mem_flatMap_of_mem hslot hi)
    · rwa [hsame id List.mem_cons_self]

theorem holds_congr (h : ∀ slot ∈ array, slot.Holds K store)
    (hsame : ∀ i ∈ idsOf array, store'.node i = store.node i) : ∀ slot ∈ array, slot.Holds K store' :=
  fun slot hslot => (h slot hslot).congr fun i hi => hsame i (List.mem_flatMap_of_mem hslot hi)

theorem Context.Holds.congr {n : ℕ} {ctx : Context ρ ν n} {edges : Option (κ × κ)} {hole : NodeId}
    (h : ctx.Holds K store hole edges) (hsame : ∀ i ∈ ctx.ids, store'.node i = store.node i) :
    ctx.Holds K store' hole edges := by
  induction ctx generalizing hole edges with
  | top => trivial
  | up id left right above ih =>
    obtain ⟨hleft, hright, limits, hnode, hlimits, habove⟩ := h
    simp only [Context.ids, List.mem_cons, List.mem_append] at hsame
    refine ⟨holds_congr hleft fun i hi => hsame i (.inr (.inl (.inl hi))),
      holds_congr hright fun i hi => hsame i (.inr (.inl (.inr hi))), limits, ?_, hlimits,
      ih habove fun i hi => hsame i (.inr (.inr hi))⟩
    rwa [hsame id (.inl rfl)]

/-! ## The first and the last key -/

theorem NodeSlot.Holds.items_ne_nil {n : ℕ} {slot : NodeSlot ρ ν n} (h : slot.Holds K store) : slot.items ≠ [] := by
  induction n with
  | zero => exact List.cons_ne_nil _ _
  | succ n ih =>
    obtain ⟨id, _ | ⟨slot, array⟩⟩ := slot
    · exact absurd rfl h.1
    · exact List.append_ne_nil_of_left_ne_nil (ih (h.2.1 slot List.mem_cons_self)) _

theorem itemsOf_ne_nil (h : ∀ slot ∈ array, slot.Holds K store) (hne : array ≠ []) : itemsOf array ≠ [] := by
  obtain ⟨slot, array, rfl⟩ := List.exists_cons_of_ne_nil hne
  rw [itemsOf_cons]
  exact List.append_ne_nil_of_left_ne_nil (h slot List.mem_cons_self).items_ne_nil _

namespace TreeKey

@[simp] theorem edges_nil : K.edges ([] : List (TreeItem ρ ν)) = none := rfl

theorem edges_of_ne_nil (h : items ≠ []) :
    K.edges items = some ((K.entry (items.head h)).1, (K.entry (items.getLast h)).1) := by
  rw [edges, List.head?_eq_some_head h, List.getLast?_eq_some_getLast h]
  rfl

theorem edges_append (hfirst : first ≠ []) (hlast : last ≠ []) :
    K.edges (first ++ last) =
      some ((K.entry (first.head hfirst)).1, (K.entry (last.getLast hlast)).1) := by
  rw [edges_of_ne_nil (List.append_ne_nil_of_left_ne_nil hfirst _), List.head_append_left hfirst,
    List.getLast_append_right hlast]

/-- The keys of an array, when the slot in its middle has those of its items. -/
theorem edgesAround_eq {slot : NodeSlot ρ ν n} (h : ∀ slot' ∈ left ++ slot :: right, slot'.Holds K store) :
    K.edgesAround left (K.edges slot.items) right = K.edges (itemsOf (left ++ slot :: right)) := by
  have hslot : slot.items ≠ [] := (h slot (by simp)).items_ne_nil
  have hleft : left ≠ [] → itemsOf left ≠ [] :=
    itemsOf_ne_nil fun slot' hslot' => h slot' (List.mem_append_left _ hslot')
  have hright : right ≠ [] → itemsOf right ≠ [] :=
    itemsOf_ne_nil fun slot' hslot' => h slot' (List.mem_append_right _ (List.mem_cons_of_mem _ hslot'))
  rw [itemsOf_append, itemsOf_cons, edgesAround, edges_of_ne_nil hslot]
  by_cases hl : left = [] <;> by_cases hr : right = []
  · simp [hl, hr, edges_of_ne_nil hslot]
  · simp [hl, edges_append hslot (hright hr), edges_of_ne_nil (hright hr)]
  · subst hr
    rw [itemsOf_nil, List.append_nil, edges_append (hleft hl) hslot, edges_of_ne_nil (hleft hl)]
    rfl
  · rw [edges_append (hleft hl) (List.append_ne_nil_of_left_ne_nil hslot _), edges_of_ne_nil (hleft hl),
      edges_of_ne_nil (hright hr), List.getLast_append_right (hright hr)]
    rfl

end TreeKey

theorem Focused.congr (h : Focused K store ctx id array limits)
    (hsame : ∀ i ∈ id :: (idsOf array ++ ctx.ids), store'.node i = store.node i)
    (hnext : store.next ≤ store'.next) : Focused K store' ctx id array limits where
  node := (hsame id List.mem_cons_self).trans h.node
  slots := holds_congr h.slots fun i hi => hsame i (List.mem_cons_of_mem _ (List.mem_append_left _ hi))
  frames := h.frames.congr fun i hi => hsame i (List.mem_cons_of_mem _ (List.mem_append_right _ hi))
  nodup := h.nodup
  bound i hi := (h.bound i hi).trans_le hnext

theorem SettledAt.congr (h : SettledAt K store ctx id array)
    (hsame : ∀ i ∈ id :: (idsOf array ++ ctx.ids), store'.node i = store.node i)
    (hnext : store.next ≤ store'.next) : SettledAt K store' ctx id array := by
  obtain ⟨⟨limits, hfocus, hlimits⟩, hnil⟩ := h
  exact ⟨⟨limits, hfocus.congr hsame hnext, hlimits⟩, hnil⟩

/-- The dictionary of the node that is looked at is stored with another array. -/
theorem Focused.set (h : Focused K store ctx id array limits) (array' : List (NodeSlot ρ ν n))
    (limits' : Option (ρ × ρ)) (hslots : ∀ slot ∈ array', slot.Holds K store)
    (hids : (idsOf array').Sublist (idsOf array)) (hframes : ctx.Holds K store id (K.decoded limits')) :
    Focused K (store.set id (nodeOf array' limits')) ctx id array' limits' := by
  have hsub := (hids.append_right ctx.ids).cons_cons id
  have hid := (List.nodup_cons.mp (h.nodup.sublist hsub)).1
  simp only [List.mem_append, not_or] at hid
  have hsame : ∀ {ids : List NodeId}, id ∉ ids →
      ∀ i ∈ ids, (store.set id (nodeOf array' limits')).node i = store.node i :=
    fun hnot i hi => NodeStore.set_node_of_ne fun heq => hnot (heq ▸ hi)
  exact ⟨NodeStore.set_node_self, holds_congr hslots (hsame hid.1), hframes.congr (hsame hid.2),
    h.nodup.sublist hsub, fun i hi => h.bound i (hsub.subset hi)⟩

/-! ## Moving in the tree -/

section Moves

variable {left right : List (NodeSlot ρ ν (n + 1))} {above : Context ρ ν (n + 1)} {parent : NodeId}

/-- The nodes are the same ones, whichever of them is looked at. -/
theorem ids_perm : (parent :: (idsOf (left ++ .node id array :: right) ++ above.ids)).Perm
    (id :: (idsOf array ++ (Context.up parent left right above).ids)) := by
  classical
  refine List.perm_iff_count.mpr fun i => ?_
  simp only [Context.ids, idsOf_append, idsOf_cons, NodeSlot.ids_node, List.count_cons, List.count_append]
  omega

/-- A node gets limits that fit, and the node above it is looked at. -/
theorem Focused.up (h : Focused K store (.up parent left right above) id array limits) (hne : array ≠ [])
    (limits' : Option (ρ × ρ)) (hlimits' : K.decoded limits' = K.edges (itemsOf array)) :
    ∃ parentLimits,
      Focused K (store.set id (nodeOf array limits')) above parent (left ++ .node id array :: right)
        parentLimits ∧
      K.decoded parentLimits = above.expects (K.edgesAround left (K.decoded limits) right) := by
  obtain ⟨hleft, hright, parentLimits, hparent, hfit, habove⟩ := h.frames
  have hid : id ∉ idsOf array ++ (Context.up parent left right above).ids := (List.nodup_cons.mp h.nodup).1
  simp only [Context.ids, List.mem_append, List.mem_cons, not_or] at hid
  obtain ⟨harray, hparentId, ⟨hleftIds, hrightIds⟩, haboveIds⟩ := hid
  have hsame : ∀ {ids : List NodeId}, id ∉ ids →
      ∀ i ∈ ids, (store.set id (nodeOf array limits')).node i = store.node i :=
    fun hnot i hi => NodeStore.set_node_of_ne fun heq => hnot (heq ▸ hi)
  refine ⟨parentLimits, ⟨?_, ?_, ?_, ?_, ?_⟩, hfit⟩
  · rw [NodeStore.set_node_of_ne (Ne.symm hparentId), hparent, nodeOf, List.map_append, List.map_cons, NodeSlot.id_node]
  · intro slot hslot
    rcases List.mem_append.mp hslot with hslot | hslot
    · exact holds_congr hleft (hsame hleftIds) slot hslot
    · rcases List.mem_cons.mp hslot with rfl | hslot
      · exact ⟨hne, holds_congr h.slots (hsame harray), limits', NodeStore.set_node_self, hlimits'⟩
      · exact holds_congr hright (hsame hrightIds) slot hslot
  · exact habove.congr (hsame haboveIds)
  · exact ids_perm.nodup_iff.mpr h.nodup
  · exact fun i hi => h.bound i (ids_perm.mem_iff.mp hi)

theorem SettledAt.up (h : SettledAt K store (.up parent left right above) id array) :
    SettledAt K store above parent (left ++ .node id array :: right) := by
  obtain ⟨⟨limits, hfocus, hlimits⟩, hnil⟩ := h
  have hne : array ≠ [] := fun hnil' => List.cons_ne_nil _ _ (hnil hnil').2
  obtain ⟨parentLimits, hparent, hfit⟩ := hfocus.up hne limits hlimits
  rw [NodeStore.set_eq_self hfocus.node] at hparent
  refine ⟨⟨parentLimits, hparent, ?_⟩, by simp⟩
  rw [hfit, hlimits]
  congr 1
  exact TreeKey.edgesAround_eq hparent.slots

theorem SettledAt.down (h : SettledAt K store above parent (left ++ .node id array :: right)) :
    SettledAt K store (.up parent left right above) id array := by
  obtain ⟨⟨parentLimits, hfocus, hfit⟩, -⟩ := h
  have hslot : (NodeSlot.node id array).Holds K store := hfocus.slots _ (by simp)
  obtain ⟨hne, hslots, limits, hnode, hlimits⟩ := hslot
  refine ⟨⟨limits, ⟨hnode, hslots, ?_, ids_perm.nodup_iff.mp hfocus.nodup,
    fun i hi => hfocus.bound i (ids_perm.mem_iff.mpr hi)⟩, hlimits⟩, fun hnil => absurd hnil hne⟩
  refine ⟨fun slot hslot => hfocus.slots slot (by simp [hslot]),
    fun slot hslot => hfocus.slots slot (by simp [hslot]), parentLimits, ?_, ?_, hfocus.frames⟩
  · rw [hfocus.node, nodeOf, List.map_append, List.map_cons, NodeSlot.id_node]
  · rw [hfit, hlimits]
    congr 1
    exact (TreeKey.edgesAround_eq hfocus.slots).symm

end Moves

end Flpdf
