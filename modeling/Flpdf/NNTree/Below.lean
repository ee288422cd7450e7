import Flpdf.NNTree.Moves

/-! # A cursor below a node

While nodes are split from a leaf upwards, the cursor is seen from the node that is split:
the part of its path below that node, and the items before and behind it there.
-/

namespace Flpdf

variable {κ ρ ν : Type} {n : ℕ}

/-- The cursor is at an item below a node. -/
def Below : {n : ℕ} → NodeId → List (NodeSlot ρ ν n) → NNTree.SplitCursor κ ν → List (TreeItem ρ ν) →
    TreeItem ρ ν → List (TreeItem ρ ν) → Prop
  | 0, id, array, s, before, item, after =>
      s.below = [] ∧ s.leaf = id ∧ s.itemNumber = before.length ∧
        array = leafArray (before ++ item :: after)
  | n + 1, id, array, s, before, item, after =>
    ∃ (left : List (NodeSlot ρ ν (n + 1))) (kid : NodeId) (sub : List (NodeSlot ρ ν n))
      (right : List (NodeSlot ρ ν (n + 1))) (below : List PathElement) (before' after' : List (TreeItem ρ ν)),
      array = left ++ .node kid sub :: right ∧ s.below = ⟨id, left.length⟩ :: below ∧
        Below kid sub { s with below } before' item after' ∧
        before = itemsOf left ++ before' ∧ after = after' ++ itemsOf right

variable {id second : NodeId} {array : List (NodeSlot ρ ν n)} {s : NNTree.SplitCursor κ ν}
  {before after : List (TreeItem ρ ν)} {item : TreeItem ρ ν} {k : ℕ}

section Halves

variable {α : Type} {left right : List α} {a : α}

theorem take_before (h : left.length < k) :
    (left ++ a :: right).take k = left ++ a :: right.take (k - left.length - 1) := by
  obtain ⟨k, rfl⟩ := Nat.exists_eq_add_of_lt h
  rw [List.take_append, List.take_of_length_le h.le]
  have hk : left.length + k + 1 - left.length = k + 1 := by omega
  rw [hk, List.take_succ_cons, Nat.add_sub_cancel]

theorem drop_before (h : left.length < k) :
    (left ++ a :: right).drop k = right.drop (k - left.length - 1) := by
  obtain ⟨k, rfl⟩ := Nat.exists_eq_add_of_lt h
  rw [List.drop_append, List.drop_of_length_le h.le]
  have hk : left.length + k + 1 - left.length = k + 1 := by omega
  rw [hk, List.drop_succ_cons, Nat.add_sub_cancel, List.nil_append]

theorem take_behind (h : k ≤ left.length) : (left ++ a :: right).take k = left.take k :=
  List.take_append_of_le_length h

theorem drop_behind (h : k ≤ left.length) : (left ++ a :: right).drop k = left.drop k ++ a :: right :=
  List.drop_append_of_le_length h

theorem insertIdx_behind (b : α) : (left ++ a :: right).insertIdx (left.length + 1) b = left ++ a :: b :: right := by
  induction left with
  | nil => rfl
  | cons c left ih => exact congrArg (c :: ·) ih

end Halves

/-- The cursor stays in the first half. -/
theorem Below.take (h : Below id array s before item after) (hindex : s.index (n = 0) < k) :
    ∃ after', Below id (array.take k) s before item after' ∧ after = after' ++ itemsOf (array.drop k) := by
  cases n with
  | zero =>
    obtain ⟨hbelow, hleaf, hitem, rfl⟩ := h
    change s.itemNumber < k at hindex
    rw [hitem] at hindex
    refine ⟨after.take (k - before.length - 1), ⟨hbelow, hleaf, hitem, take_before hindex⟩, ?_⟩
    have hdrop : (leafArray (before ++ item :: after)).drop k =
        leafArray (after.drop (k - before.length - 1)) := drop_before hindex
    rw [hdrop, itemsOf_leafArray, List.take_append_drop]
  | succ n =>
    obtain ⟨left, kid, sub, right, below, before', after', rfl, hbelow, hsub, rfl, rfl⟩ := h
    have hindex' : left.length < k := by
      simpa [NNTree.SplitCursor.index, hbelow] using hindex
    refine ⟨after' ++ itemsOf (right.take (k - left.length - 1)),
      ⟨left, kid, sub, _, below, before', after', take_before hindex', hbelow, hsub, rfl, rfl⟩, ?_⟩
    rw [drop_before hindex', List.append_assoc, ← itemsOf_append, List.take_append_drop]

/-- The cursor when it has moved to the second half. -/
def NNTree.SplitCursor.moved (s : NNTree.SplitCursor κ ν) (isLeaf : Bool) (second : NodeId) (k : ℕ) :
    NNTree.SplitCursor κ ν :=
  if isLeaf then { s with leaf := second, itemNumber := s.itemNumber - k }
  else
    { s with below := s.below.modifyHead fun element =>
        { node := second, kidNumber := element.kidNumber - k } }

theorem Below.drop (h : Below id array s before item after) (second : NodeId) (hindex : k ≤ s.index (n = 0)) :
    ∃ before', Below second (array.drop k) (s.moved (n = 0) second k) before' item after ∧
      before = itemsOf (array.take k) ++ before' := by
  cases n with
  | zero =>
    obtain ⟨hbelow, hleaf, hitem, rfl⟩ := h
    change k ≤ s.itemNumber at hindex
    rw [hitem] at hindex
    refine ⟨before.drop k, ⟨hbelow, rfl, ?_, drop_behind hindex⟩, ?_⟩
    · change s.itemNumber - k = _
      rw [hitem, List.length_drop]
    · have htake : (leafArray (before ++ item :: after)).take k = leafArray (before.take k) :=
        take_behind hindex
      rw [htake, itemsOf_leafArray, List.take_append_drop]
  | succ n =>
    obtain ⟨left, kid, sub, right, below, before', after', rfl, hbelow, hsub, rfl, rfl⟩ := h
    have hindex' : k ≤ left.length := by
      simpa [NNTree.SplitCursor.index, hbelow] using hindex
    refine ⟨itemsOf (left.drop k) ++ before',
      ⟨left.drop k, kid, sub, right, below, before', after', drop_behind hindex', ?_, hsub, rfl, rfl⟩, ?_⟩
    · simp [NNTree.SplitCursor.moved, hbelow, List.length_drop]
    · rw [take_behind hindex', ← List.append_assoc, ← itemsOf_append, List.take_append_drop]

/-- The array of the cursor's node becomes that of another node. -/
theorem Below.setNode (h : Below id array s before item after) :
    Below second array (s.setNode (n = 0) second) before item after := by
  cases n with
  | zero =>
    obtain ⟨hbelow, -, hitem, rfl⟩ := h
    exact ⟨hbelow, rfl, hitem, rfl⟩
  | succ n =>
    obtain ⟨left, kid, sub, right, below, before', after', rfl, hbelow, hsub, rfl, rfl⟩ := h
    refine ⟨left, kid, sub, right, below, before', after', rfl, ?_, hsub, rfl, rfl⟩
    simp [NNTree.SplitCursor.setNode, hbelow]

variable [LinearOrder κ] {K : TreeKey κ ρ} {tree : NNTree} {store : NodeStore ρ ν} {ctx : Context ρ ν n}

/-- The cursor, when all nodes have been split. -/
theorem Below.points (h : Below id array s before item after) (hlive : Live K tree store ctx id array)
    (hlength : array.length ≤ tree.splitThreshold) :
    Points K tree store (s.cursor ctx.path) (ctx.before ++ before) item (after ++ ctx.after) := by
  induction n generalizing id s before after with
  | zero =>
    obtain ⟨hbelow, rfl, hitem, rfl⟩ := h
    refine ⟨ctx, s.leaf, before, after, hlive, hlength, ?_, rfl, congrArg some hitem, rfl, rfl⟩
    simp [NNTree.SplitCursor.cursor, hbelow]
  | succ n ih =>
    obtain ⟨left, kid, sub, right, below, before', after', rfl, hbelow, hsub, rfl, rfl⟩ := h
    obtain ⟨hdown, hdownlen⟩ := hlive.down hlength
    have hpoints := ih hsub hdown hdownlen
    simp only [Context.before, Context.after, List.append_assoc] at hpoints ⊢
    have hcursor : ({ s with below } : NNTree.SplitCursor κ ν).cursor (Context.up id left right ctx).path =
        s.cursor ctx.path := by
      simp [NNTree.SplitCursor.cursor, hbelow, Context.path]
    rwa [hcursor] at hpoints

end Flpdf
