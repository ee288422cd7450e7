import Flpdf.Effects.Program
import Flpdf.NNTree.Below
import Mathlib.Data.List.Flatten

/-! # Splitting a node

A node whose array is too long is cut in two, and the node above it gets one slot more.  In
between, the limits above are those of the first half; they are right again when the node
above is the one that is looked at.
-/

namespace Flpdf

variable {κ ρ ν : Type} {n : ℕ}

/-- All goes well, unless there is no object number left. -/
def Delivers {α : Type} (result : Except NNTreeError α) (post : α → Prop) : Prop :=
  match result with
  | .ok a => post a
  | .error error => error = .unsupported (ascii "object-number space exhausted")

theorem Delivers.ok {α : Type} {post : α → Prop} {a : α} (h : post a) : Delivers (.ok a) post := h

theorem Delivers.bind {α β : Type} {result : Except NNTreeError α} {next : α → Except NNTreeError β}
    {middle : α → Prop} {post : β → Prop} (h : Delivers result middle)
    (hnext : ∀ a, middle a → Delivers (next a) post) : Delivers (result >>= next) post := by
  cases result with
  | ok a => exact hnext a h
  | error error => exact h

theorem Delivers.mono {α : Type} {result : Except NNTreeError α} {post post' : α → Prop}
    (h : Delivers result post) (hpost : ∀ a, post a → post' a) : Delivers result post' := by
  cases result with
  | ok a => exact hpost a h
  | error error => exact h

variable {K : TreeKey κ ρ} {store : NodeStore ρ ν} {ctx : Context ρ ν n} {id : NodeId}
  {array : List (NodeSlot ρ ν n)} {limits : Option (ρ × ρ)} {k : ℕ}

namespace NNTree

/-- The array of a node of a given height. -/
def NodeArray.of : {n : ℕ} → List (NodeSlot ρ ν n) → NodeArray ρ ν
  | 0, array => .items array
  | _ + 1, array => .kids (array.map NodeSlot.id)

@[simp] theorem NodeArray.length_of (array : List (NodeSlot ρ ν n)) : (NodeArray.of array).length = array.length := by
  cases n with
  | zero => rfl
  | succ n => exact List.length_map _

@[simp] theorem NodeArray.isLeaf_of (array : List (NodeSlot ρ ν n)) :
    (NodeArray.of array).isLeaf = decide (n = 0) := by cases n <;> rfl

@[simp] theorem NodeArray.dictionary_of (array : List (NodeSlot ρ ν n)) :
    (NodeArray.of array).dictionary = nodeOf array none := by cases n <;> rfl

@[simp] theorem NodeArray.store_of (array array' : List (NodeSlot ρ ν n)) :
    (NodeArray.of array).store (nodeOf array' limits) = nodeOf array limits := by cases n <;> rfl

@[simp] theorem NodeArray.take_of (array : List (NodeSlot ρ ν n)) :
    (NodeArray.of array).take k = NodeArray.of (array.take k) := by
  cases n with
  | zero => rfl
  | succ n => exact congrArg NodeArray.kids List.map_take.symm

@[simp] theorem NodeArray.drop_of (array : List (NodeSlot ρ ν n)) :
    (NodeArray.of array).drop k = NodeArray.of (array.drop k) := by
  cases n with
  | zero => rfl
  | succ n => exact congrArg NodeArray.kids List.map_drop.symm

theorem loadArray_eq (h : store.node id = some (nodeOf array limits)) :
    loadArray store id = .ok (NodeArray.of array) := by
  rw [loadArray, NodeStore.loadNode_eq h]
  cases n <;> rfl

variable [LinearOrder κ] {s : SplitCursor κ ν} {before after : List (TreeItem ρ ν)} {item : TreeItem ρ ν}

omit [LinearOrder κ] in
/-- The cursor in the second half, when that is stored. -/
theorem toSecond_eq {second : NodeId} {before' : List (TreeItem ρ ν)}
    (h : Below second (array.drop k) (s.moved (n = 0) second k) before' item after)
    (hnode : store.node second = some (nodeOf (array.drop k) limits))
    (hcurrent : s.current = some (K.entry item)) :
    s.toSecond K store (n = 0) second k = .ok (s.moved (n = 0) second k) := by
  cases n with
  | zero =>
    obtain ⟨hbelow, -, hitem, harray⟩ := h
    rw [harray] at hnode
    change s.itemNumber - k = before'.length at hitem
    have hupdate : updateCurrent K store (({ s with leaf := second, itemNumber := s.itemNumber - k } :
        SplitCursor κ ν).cursor []) = .ok (({ s with leaf := second, itemNumber := s.itemNumber - k } :
        SplitCursor κ ν).cursor []) := by
      rw [updateCurrent_eq hnode _ rfl (congrArg some hitem), ← hcurrent]
      rfl
    simp only [SplitCursor.toSecond, decide_true, if_true, hupdate]
    rfl
  | succ n => rfl

/-! ## Two halves -/

section Halves

variable {left right : List (NodeSlot ρ ν (n + 1))} {above : Context ρ ν (n + 1)} {parent : NodeId}
  {first sub : List (NodeSlot ρ ν n)}

/-- The store with a new node. -/
def added (store : NodeStore ρ ν) (node : TreeNode ρ ν) : NodeStore ρ ν :=
  { store.set store.next node with next := store.next + 1 }

omit [LinearOrder κ] in
theorem makeIndirect_cases (store : NodeStore ρ ν) (node : TreeNode ρ ν) :
    store.makeIndirect node = .ok (store.next, added store node) ∨
      store.makeIndirect node = .error (.unsupported (ascii "object-number space exhausted")) := by
  rw [NodeStore.makeIndirect]
  split_ifs
  · exact .inl rfl
  · exact .inr rfl

omit [LinearOrder κ] in
theorem added_set (node node' : TreeNode ρ ν) : (added store node).set store.next node' = added store node' := by
  simp only [added, NodeStore.set, Function.update_idem]

omit [LinearOrder κ] in
theorem added_node_of_lt (node : TreeNode ρ ν) {i : NodeId} (h : i < store.next) :
    (added store node).node i = store.node i := NodeStore.set_node_of_ne h.ne

omit [LinearOrder κ] in
/-- The slots of the second half are still what they were. -/
theorem second_slots {store' : NodeStore ρ ν}
    (h : Focused K store (.up parent left right above) id (first ++ sub) limits)
    (hsame : ∀ i ∉ id :: (Context.up parent left right above).ids, store'.node i = store.node i)
    (hnext : store'.next = store.next) (node : TreeNode ρ ν) :
    ∀ slot ∈ sub, slot.Holds K (added store' node) := by
  refine holds_congr (fun slot hslot => h.slots slot (List.mem_append_right _ hslot)) fun i hi => ?_
  have hi' : i ∈ idsOf (first ++ sub) := by
    rw [idsOf_append]
    exact List.mem_append_right _ hi
  have hbound : i < store'.next :=
    hnext ▸ h.bound i (List.mem_cons_of_mem _ (List.mem_append_left _ hi'))
  rw [added_node_of_lt _ hbound]
  refine hsame i fun hmem => ?_
  rcases List.mem_cons.mp hmem with rfl | hmem
  · exact (List.nodup_cons.mp h.nodup).1 (List.mem_append_left _ hi')
  · exact List.disjoint_of_nodup_append (List.nodup_cons.mp h.nodup).2 hi' hmem

omit [LinearOrder κ] in
/-- The second half is linked behind the first one. -/
theorem Focused.linked {store' : NodeStore ρ ν}
    (h : Focused K store (.up parent left right above) id (first ++ sub) limits)
    (hsame : ∀ i ∉ id :: (Context.up parent left right above).ids, store'.node i = store.node i)
    (hnext : store'.next = store.next) (hsettled : SettledAt K store' (.up parent left right above) id first)
    (hsub : sub ≠ []) {limits' : Option (ρ × ρ)} (hlimits' : K.decoded limits' = K.edges (itemsOf sub)) :
    ∃ parentLimits,
      K.decoded parentLimits = above.expects (K.edges (itemsOf (left ++ .node id first :: right))) ∧
      store'.node parent = some (nodeOf (left ++ .node id first :: right) parentLimits) ∧
      Focused K ((added store' (nodeOf sub limits')).set parent
          (nodeOf (left ++ .node id first :: .node store'.next sub :: right) parentLimits))
        above parent (left ++ .node id first :: .node store'.next sub :: right) parentLimits := by
  obtain ⟨⟨parentLimits, hparent, hexpects⟩, -⟩ := hsettled.up
  refine ⟨parentLimits, hexpects, hparent.node, ?_⟩
  have hperm : (parent :: (idsOf (left ++ .node id first :: .node store'.next sub :: right) ++ above.ids)).Perm
      (store'.next :: id :: (idsOf (first ++ sub) ++ (Context.up parent left right above).ids)) := by
    refine List.perm_iff_count.mpr fun i => ?_
    simp only [Context.ids, idsOf_append, idsOf_cons, NodeSlot.ids_node, List.count_cons, List.count_append]
    omega
  have hfresh : ∀ i ∈ id :: (idsOf (first ++ sub) ++ (Context.up parent left right above).ids),
      i < store'.next := fun i hi => hnext ▸ h.bound i hi
  have hnodup := hperm.nodup_iff.mpr
    (List.nodup_cons.mpr ⟨fun hmem => (hfresh _ hmem).ne rfl, h.nodup⟩)
  have hadded : Focused K (added store' (nodeOf sub limits')) above parent (left ++ .node id first :: right)
      parentLimits := hparent.congr (fun i hi => added_node_of_lt _ (hparent.bound i hi)) (Nat.le_succ _)
  have hsubHolds := second_slots h hsame hnext (nodeOf sub limits')
  have hslots : ∀ slot ∈ left ++ .node id first :: .node store'.next sub :: right,
      slot.Holds K (added store' (nodeOf sub limits')) := by
    intro slot hslot
    simp only [List.mem_append, List.mem_cons] at hslot
    rcases hslot with hslot | rfl | rfl | hslot
    · exact hadded.slots slot (by simp [hslot])
    · exact hadded.slots _ (by simp)
    · exact ⟨hsub, hsubHolds, limits', Function.update_self .., hlimits'⟩
    · exact hadded.slots slot (by simp [hslot])
  have hparentId := (List.nodup_cons.mp hnodup).1
  rw [List.mem_append, not_or] at hparentId
  refine ⟨NodeStore.set_node_self, holds_congr hslots fun i hi => ?_, hadded.frames.congr fun i hi => ?_, hnodup,
    fun i hi => ?_⟩
  · exact NodeStore.set_node_of_ne fun heq => hparentId.1 (heq ▸ hi)
  · exact NodeStore.set_node_of_ne fun heq => hparentId.2 (heq ▸ hi)
  · rcases List.mem_cons.mp (hperm.mem_iff.mp hi) with rfl | hi
    · exact Nat.lt_succ_self _
    · exact Nat.lt_succ_of_lt (hfresh i hi)

/-- The second half gets its limits, and no node above it changes. -/
theorem resetLimits_second (hsettled : SettledAt K store (.up parent left right above) id first)
    (hsubHolds : ∀ slot ∈ sub, slot.Holds K (added store (nodeOf sub none))) (hsub : sub ≠ []) :
    ∃ limits, K.decoded limits = K.edges (itemsOf sub) ∧
      resetLimits K (added store (nodeOf sub none)) store.next (⟨parent, left.length⟩ :: above.path) =
        .ok (added store (nodeOf sub limits)) := by
  obtain ⟨firstKey, lastKey, hedge, hedges⟩ := edgeLimits_eq hsubHolds hsub none
  refine ⟨some (firstKey, lastKey), hedges.symm, ?_⟩
  have hup : SettledAt K (added store (nodeOf sub (some (firstKey, lastKey)))) above parent
      (left ++ .node id first :: right) := by
    obtain ⟨limits, hfocus, -⟩ := hsettled.up.focused
    exact hsettled.up.congr (fun i hi => added_node_of_lt _ (hfocus.bound i hi)) (Nat.le_succ _)
  have hload : (added store (nodeOf sub none)).loadNode store.next = .ok (nodeOf sub none) :=
    NodeStore.loadNode_eq (Function.update_self ..)
  rw [resetLimits, hload]
  simp only [bind, Except.bind, hedge, nodeOf_limits, nodeOf_mk, Option.any_none, Bool.false_eq_true,
    if_false, added_set, pure, Except.pure]
  rw [resetLimits_settled hup, ite_self]

/-- `split_node_live`, the part that cuts a node. -/
theorem splitHalves_spec (h : Focused K store (.up parent left right above) id array limits)
    (hlong : 2 ≤ array.length) (hbelow : Below id array s before item after)
    (hcurrent : s.current = some (K.entry item)) :
    Delivers (splitHalves K store s id ⟨parent, left.length⟩ above.path) fun result =>
      ∃ second parentLimits edges, result.2.2.node = parent ∧ result.2.1.current = some (K.entry item) ∧
        K.decoded parentLimits = above.expects edges ∧
        Focused K result.1 above parent (left ++ .node id (array.take (array.length / 2)) ::
          .node second (array.drop (array.length / 2)) :: right) parentLimits ∧
        Below parent (left ++ .node id (array.take (array.length / 2)) ::
            .node second (array.drop (array.length / 2)) :: right)
          { result.2.1 with below := result.2.2 :: result.2.1.below } (itemsOf left ++ before) item
          (after ++ itemsOf right) := by
  have harray : array = array.take (array.length / 2) ++ array.drop (array.length / 2) :=
    (List.take_append_drop _ _).symm
  generalize hhalf : array.length / 2 = half at *
  have hfirst : array.take half ≠ [] := by
    rw [ne_eq, List.take_eq_nil_iff, not_or]
    exact ⟨by omega, List.ne_nil_of_length_pos (by omega)⟩
  have hsub : array.drop half ≠ [] := by
    rw [ne_eq, List.drop_eq_nil_iff, not_le]
    omega
  have hcut := h.set (array.take half) limits
    (fun slot hslot => h.slots slot (List.mem_of_mem_take hslot))
    ((List.take_sublist half array).flatMap NodeSlot.ids) h.frames
  obtain ⟨store', hreset, hnext, hsame, hsettled⟩ := resetLimits_spec hcut fun hnil => absurd hnil hfirst
  have hsame' : ∀ i ∉ id :: (Context.up parent left right above).ids, store'.node i = store.node i := by
    intro i hi
    rw [hsame i hi, NodeStore.set_node_of_ne (List.ne_of_not_mem_cons hi)]
  have hnode := h.node
  rw [harray] at h
  obtain ⟨limits', hlimits', hsecond⟩ :=
    resetLimits_second hsettled (second_slots h hsame' hnext _) hsub
  obtain ⟨parentLimits, hexpects, hparent, hlinked⟩ := Focused.linked h hsame' hnext hsettled hsub hlimits'
  rw [Context.path] at hreset
  rw [splitHalves, loadArray_eq hnode]
  simp only [bind, Except.bind, NodeArray.length_of, hhalf, NodeStore.loadNode_eq hnode, NodeArray.take_of,
    NodeArray.store_of, hreset, NodeArray.drop_of, NodeArray.dictionary_of, NodeArray.isLeaf_of]
  rcases makeIndirect_cases store' (nodeOf (array.drop half) none) with hmake | hmake
  · have hload : (added store' (nodeOf (array.drop half) limits')).loadNode parent =
        .ok (nodeOf (left ++ .node id (array.take half) :: right) parentLimits) := by
      obtain ⟨_, hfocus, -⟩ := hsettled.up.focused
      exact NodeStore.loadNode_eq ((added_node_of_lt _ (hfocus.bound parent List.mem_cons_self)).trans hparent)
    have hkids : ((left ++ .node id (array.take half) :: right).map NodeSlot.id).insertIdx (left.length + 1)
        store'.next = (left ++ .node id (array.take half) :: .node store'.next (array.drop half) :: right).map
          NodeSlot.id := by
      simp only [List.map_append, List.map_cons, NodeSlot.id_node]
      rw [← insertIdx_behind, List.length_map]
    obtain ⟨-, -, _, hnodeSecond, -⟩ := hlinked.slots (.node store'.next (array.drop half)) (by simp)
    simp only [hmake, hsecond, hload, nodeOf_kids, hkids, nodeOf_limits, nodeOf_mk_kids]
    by_cases hindex : half ≤ s.index (n = 0)
    · obtain ⟨before', hmoved, rfl⟩ := hbelow.drop store'.next hindex
      rw [if_pos hindex, toSecond_eq hmoved hnodeSecond hcurrent]
      refine ⟨store'.next, parentLimits, _, rfl, ?_, hexpects, hlinked, left ++ [.node id (array.take half)], store'.next,
        array.drop half, right, (s.moved (n = 0) store'.next half).below, before', after, by simp, ?_, hmoved,
        by simp, rfl⟩
      · cases n <;> exact hcurrent
      · rw [List.length_append]
        rfl
    · rw [if_neg hindex]
      obtain ⟨after', hstay, rfl⟩ := hbelow.take (Nat.not_le.mp hindex)
      refine ⟨store'.next, parentLimits, _, rfl, hcurrent, hexpects, hlinked, left, id, array.take half, _, _, before, after',
        rfl, rfl, hstay, rfl, by simp⟩
  · rw [hmake]
    exact rfl

end Halves

/-! ## All splits -/

variable {tree : NNTree}

/-- The two halves are short enough. -/
theorem small_halves (ht : 2 ≤ tree.splitThreshold) (hlong : tree.splitThreshold < array.length)
    (hlength : array.length ≤ tree.splitThreshold + 1) (h : ∀ slot ∈ array, slot.Small tree.splitThreshold)
    (id second : NodeId) :
    (NodeSlot.node id (array.take (array.length / 2))).Small tree.splitThreshold ∧
      (NodeSlot.node second (array.drop (array.length / 2))).Small tree.splitThreshold := by
  refine ⟨⟨?_, fun slot hslot => h slot (List.mem_of_mem_take hslot)⟩,
    ⟨?_, fun slot hslot => h slot (List.mem_of_mem_drop hslot)⟩⟩
  · rw [List.length_take]
    omega
  · rw [List.length_drop]
    omega

omit [LinearOrder κ] in
theorem itemsOf_halves (left right : List (NodeSlot ρ ν (n + 1))) (second : NodeId) :
    itemsOf (left ++ .node id (array.take k) :: .node second (array.drop k) :: right) =
      itemsOf left ++ (itemsOf array ++ itemsOf right) := by
  simp only [itemsOf_append, itemsOf_cons, NodeSlot.items_node]
  rw [← List.append_assoc (itemsOf (array.take k)), ← itemsOf_append, List.take_append_drop]

omit [LinearOrder κ] in
/-- The root has the new node for its only kid. -/
theorem growRoot_spec (h : Focused K store .top id array limits) (hbelow : Below id array s before item after) :
    Delivers (growRoot store s id (NodeArray.of array)) fun result =>
      Focused K result.1 (.up id [] [] .top) result.2.2 array none ∧
        Below result.2.2 array result.2.1 before item after ∧ result.2.1.current = s.current := by
  rw [growRoot, NodeArray.dictionary_of, NodeArray.isLeaf_of]
  rcases makeIndirect_cases store (nodeOf array none) with hmake | hmake
  · have hid : id < store.next := h.bound id List.mem_cons_self
    have hload : (added store (nodeOf array none)).loadNode id = .ok (nodeOf array limits) :=
      NodeStore.loadNode_eq ((added_node_of_lt _ hid).trans h.node)
    simp only [hmake, bind, Except.bind, hload]
    have hnodup : (id :: idsOf array).Nodup := by simpa [Context.ids] using h.nodup
    have hbound : ∀ i ∈ id :: idsOf array, i < store.next := by simpa [Context.ids] using h.bound
    refine ⟨⟨?_, ?_, ⟨by simp, by simp, none, NodeStore.set_node_self, rfl, trivial⟩, ?_, ?_⟩, hbelow.setNode, ?_⟩
    · exact (NodeStore.set_node_of_ne hid.ne').trans (Function.update_self ..)
    · refine holds_congr h.slots fun i hi => ?_
      have hne : i ≠ id := fun heq => (List.nodup_cons.mp hnodup).1 (heq ▸ hi)
      rw [NodeStore.set_node_of_ne hne, added_node_of_lt _ (hbound i (List.mem_cons_of_mem _ hi))]
    · have hperm : (store.next :: (idsOf array ++ (Context.up id [] [] (.top : Context ρ ν (n + 1))).ids)).Perm
          (store.next :: id :: idsOf array) := by
        simp [Context.ids, List.perm_append_singleton]
      exact hperm.nodup_iff.mpr (List.nodup_cons.mpr ⟨fun hmem => (hbound _ hmem).ne rfl, hnodup⟩)
    · intro i hi
      simp only [Context.ids, idsOf_nil, List.append_nil, List.mem_cons, List.mem_append,
        List.not_mem_nil, or_false] at hi
      rcases hi with rfl | hi | rfl
      · exact Nat.lt_succ_self _
      · exact Nat.lt_succ_of_lt (hbound i (List.mem_cons_of_mem _ hi))
      · exact Nat.lt_succ_of_lt hid
    · cases n <;> rfl
  · rw [hmake]
    exact rfl

/-- `split_node_live`: the cursor points to its item again. -/
theorem splitNodeLive_spec (ht : 2 ≤ tree.splitThreshold) (h : Live K tree store ctx id array)
    (hlength : array.length ≤ tree.splitThreshold + 1) (hbelow : Below id array s before item after)
    (hcurrent : s.current = some (K.entry item)) :
    Delivers (splitNodeLive K tree store s id ctx.path) fun result =>
      Points K tree result.1 result.2 (ctx.before ++ before) item (after ++ ctx.after) ∧
        result.2.current = some (K.entry item) := by
  induction ctx generalizing store id s before after with
  | @top n =>
    obtain ⟨limits, hfocus, hlimits⟩ := h.settled.focused
    rw [Context.path, splitNodeLive, loadArray_eq hfocus.node]
    change Delivers (ite _ _ _) _
    rw [NodeArray.length_of]
    split_ifs with hshort
    · have hpoints := hbelow.points h (by omega)
      exact ⟨hpoints, hcurrent⟩
    · refine (growRoot_spec hfocus hbelow).bind ?_
      rintro ⟨store', s', first⟩ ⟨hfocus', hbelow', hcurrent'⟩
      refine (splitHalves_spec hfocus' (by omega) hbelow' (hcurrent'.trans hcurrent)).bind ?_
      rintro ⟨store'', s'', parent⟩ ⟨second, rootLimits, edges, hparent, hcurrent'', hexpects, hfocus'', hbelow''⟩
      have hhalves := small_halves ht (by omega) hlength h.slots_small first second
      have hlive : Live K tree store'' .top id ([] ++ .node first (array.take (array.length / 2)) ::
          .node second (array.drop (array.length / 2)) :: []) := by
        refine ⟨⟨⟨rootLimits, hfocus'', hexpects⟩, by simp⟩, ?_, trivial, h.root_eq, ?_⟩
        · simpa using hhalves
        · rw [itemsOf_halves]
          simpa [Context.before, Context.after] using h.increasing
      have hpoints := hbelow''.points hlive (by simpa using ht)
      refine ⟨?_, hcurrent''⟩
      simpa [Context.before, Context.after, Context.path, SplitCursor.cursor] using hpoints
  | @up n parent left right above ih =>
    obtain ⟨limits, hfocus, -⟩ := h.settled.focused
    rw [Context.path, splitNodeLive, loadArray_eq hfocus.node]
    change Delivers (ite _ _ _) _
    rw [NodeArray.length_of]
    split_ifs with hshort
    · have hpoints := hbelow.points h (by omega)
      exact ⟨hpoints, hcurrent⟩
    · refine (splitHalves_spec hfocus (by omega) hbelow hcurrent).bind ?_
      rintro ⟨store', s', parent'⟩ ⟨second, parentLimits, edges, hparent, hcurrent', -, hfocus', hbelow'⟩
      obtain ⟨store'', hreset, -, -, hsettled⟩ := resetLimits_spec hfocus' (by simp)
      have hhalves := small_halves ht (by omega) hlength h.slots_small id second
      obtain ⟨hlen, hleft, hright, habove⟩ := h.ctx_small
      have hlive : Live K tree store'' above parent (left ++ .node id (array.take (array.length / 2)) ::
          .node second (array.drop (array.length / 2)) :: right) := by
        refine ⟨hsettled, ?_, habove, h.root_eq, ?_⟩
        · intro slot hslot
          simp only [List.mem_append, List.mem_cons] at hslot
          rcases hslot with hslot | rfl | rfl | hslot
          · exact hleft slot hslot
          · exact hhalves.1
          · exact hhalves.2
          · exact hright slot hslot
        · rw [itemsOf_halves]
          simpa [Context.before, Context.after] using h.increasing
      have hlength' : (left ++ .node id (array.take (array.length / 2)) ::
          .node second (array.drop (array.length / 2)) :: right).length ≤ tree.splitThreshold + 1 := by
        simp only [List.length_append, List.length_cons]
        omega
      have hsplit := ih hlive hlength' hbelow' hcurrent'
      simp only [Context.before, Context.after, List.append_assoc] at hsplit ⊢
      dsimp only at hparent
      rw [hparent, hreset]
      exact hsplit

end NNTree

end Flpdf
