import Flpdf.NNTree.Reach

/-! # Cursors after a change

Every tree that is reached is held by the store, so that a cursor after an insertion or a
removal is where the items of the tree say.
-/

namespace Flpdf

namespace NNTree

variable {κ ρ ν : Type} [LinearOrder κ] {K : TreeKey κ ρ} {tree : NNTree} {store : NodeStore ρ ν}
  {items before after : List (TreeItem ρ ν)} {item : TreeItem ρ ν} {cursor : NNTreeCursor κ ν}
  {repair : NodeStore ρ ν → Except NNTreeError (NodeStore ρ ν)} {threshold : ℕ}

theorem newEmpty_stores {store' : NodeStore ρ ν} (h : newEmpty store = .ok (tree, store')) (threshold : ℕ) :
    tree.maxDepth = none ∧ Stores K { tree with splitThreshold := threshold } store' [] := by
  obtain ⟨⟨root, made⟩, hmake, hresult⟩ := bind_eq_ok.mp h
  cases hresult
  rcases makeIndirect_cases store ({ items := some [] } : TreeNode ρ ν) with hcase | hcase
  · obtain ⟨rfl, rfl⟩ := Prod.mk.inj (Except.ok.inj (hmake.symm.trans hcase))
    have hfocus : Focused K (added store ({ items := some [] } : TreeNode ρ ν)) .top store.next
        (leafArray []) none := by
      refine ⟨Function.update_self .., nofun, trivial, ?_, ?_⟩
      · simp [Context.ids]
      · simp [Context.ids, added]
    refine ⟨rfl, 0, leafArray [], ⟨⟨⟨none, hfocus, rfl⟩, fun _ => ⟨rfl, rfl⟩⟩, nofun, trivial, rfl,
      List.Pairwise.nil⟩, Nat.zero_le _, rfl⟩
  · cases hmake.symm.trans hcase

/-- The invariant of a run. -/
theorem Reachable.stores (hthreshold : 2 ≤ threshold) (h : Reachable K repair threshold tree store) :
    tree.maxDepth = none ∧ tree.splitThreshold = threshold ∧ ∃ items, Stores K tree store items := by
  induction h with
  | newEmpty h =>
    obtain ⟨hdepth, hstores⟩ := newEmpty_stores (K := K) h threshold
    exact ⟨hdepth, rfl, [], hstores⟩
  | @insert tree store store' key value cursor _ hinsert ih =>
    obtain ⟨hdepth, rfl, items, hstores⟩ := ih
    have hspec := insert_spec hthreshold hdepth hstores repair key value
    rw [hinsert] at hspec
    obtain ⟨before, item, after, hpoints, -⟩ := hspec
    exact ⟨hdepth, rfl, _, hpoints.stores⟩
  | @remove tree store store' key removed _ hremove ih =>
    obtain ⟨hdepth, hsplit, items, hstores⟩ := ih
    refine ⟨hdepth, hsplit, ?_⟩
    rcases remove_spec hdepth hstores repair key with ⟨-, hspec⟩ |
      ⟨before, item, after, store'', -, -, hspec, hstores'⟩
    · obtain ⟨rfl, -⟩ := Prod.mk.inj (Except.ok.inj (hremove.symm.trans hspec))
      exact ⟨items, hstores⟩
    · obtain ⟨rfl, -⟩ := Prod.mk.inj (Except.ok.inj (hremove.symm.trans hspec))
      exact ⟨_, hstores'⟩
  | @removeAt tree store store' cursor cursor' key value removed _ hcursor hremove ih =>
    obtain ⟨hdepth, hsplit, items, hstores⟩ := ih
    obtain ⟨before, item, after, hpoints, -, -, hcurrent⟩ := hcursor.points hstores
    obtain ⟨store'', cursor'', hspec, hstores', -⟩ := removeAt_spec hdepth hpoints hcurrent
    obtain ⟨rfl, -⟩ := Prod.mk.inj (Except.ok.inj (hremove.symm.trans hspec))
    exact ⟨hdepth, hsplit, _, hstores'⟩

/-- The entries of a tree that is held become greater from left to right. -/
theorem entries_increasing (h : Stores K tree store items) :
    (tree.entries K store).Pairwise fun entry entry' => entry.1 < entry'.1 := by
  rw [h.entries_eq, List.pairwise_map]
  exact h.increasing

/-- What `next` shows from an item on. -/
theorem following_points (hdepth : tree.maxDepth = none) (h : Points K tree store cursor before item after)
    (count : ℕ) : following K tree store count cursor = .ok ((after.map K.entry).take count) := by
  induction count generalizing cursor before item after with
  | zero => rfl
  | succ count ih =>
    rw [following, next]
    rcases increment_points hdepth true h with ⟨rfl, hincrement⟩ |
      ⟨item', after', cursor', rfl, hpoints, hcurrent, hincrement⟩
    · rw [hincrement]
      rfl
    · rw [hincrement, ok_bind, hcurrent]
      simp only [if_true, ih hpoints, ok_bind]
      rfl

section Parts

variable {key : κ} {middle : List (TreeItem ρ ν)}

omit [LinearOrder κ] in
/-- A list of entries whose keys are all smaller than, equal to, or all greater than a key. -/
theorem filter_entries {test : κ × ν → Bool} {part : List (TreeItem ρ ν)} (answer : Bool)
    (h : ∀ item ∈ part, test (K.entry item) = answer) :
    (part.map K.entry).filter test = if answer then part.map K.entry else [] := by
  cases answer with
  | false =>
    rw [if_neg Bool.false_ne_true, List.filter_eq_nil_iff]
    intro entry hentry
    obtain ⟨item, hitem, rfl⟩ := List.mem_map.mp hentry
    rw [h item hitem]
    exact Bool.false_ne_true
  | true =>
    rw [if_pos rfl, List.filter_eq_self]
    intro entry hentry
    obtain ⟨item, hitem, rfl⟩ := List.mem_map.mp hentry
    exact h item hitem

theorem filter_parts (hbefore : ∀ item ∈ before, (K.entry item).1 < key)
    (hmiddle : ∀ item ∈ middle, (K.entry item).1 = key) (hafter : ∀ item ∈ after, key < (K.entry item).1) :
    ((before ++ (middle ++ after)).map K.entry).filter (fun entry => entry.1 < key) = before.map K.entry ∧
      ((before ++ (middle ++ after)).map K.entry).filter (fun entry => key < entry.1) = after.map K.entry ∧
      ((before ++ (middle ++ after)).map K.entry).filter (fun entry => entry.1 ≠ key) =
        (before ++ after).map K.entry := by
  refine ⟨?_, ?_, ?_⟩ <;> rw [List.map_append, List.map_append, List.filter_append, List.filter_append]
  · rw [filter_entries true fun item hitem => by simpa using hbefore item hitem,
      filter_entries false fun item hitem => by simpa using (hmiddle item hitem).ge,
      filter_entries false fun item hitem => by simpa using (hafter item hitem).le]
    simp
  · rw [filter_entries false fun item hitem => by simpa using (hbefore item hitem).le,
      filter_entries false fun item hitem => by simpa using (hmiddle item hitem).le,
      filter_entries true fun item hitem => by simpa using hafter item hitem]
    simp
  · rw [filter_entries true fun item hitem => by simpa using (hbefore item hitem).ne,
      filter_entries false fun item hitem => by simpa using hmiddle item hitem,
      filter_entries true fun item hitem => by simpa using (hafter item hitem).ne']
    simp

end Parts

/-- Around an item of a tree. -/
theorem filter_item (h : K.Increasing (before ++ item :: after)) :
    ((before ++ item :: after).map K.entry).filter (fun entry => (K.entry item).1 < entry.1) =
        after.map K.entry ∧
      ((before ++ item :: after).map K.entry).filter (fun entry => entry.1 ≠ (K.entry item).1) =
        (before ++ after).map K.entry := by
  obtain ⟨-, hafter, -⟩ := List.pairwise_append.mp h
  have hmiddle : ∀ item' ∈ [item], (K.entry item').1 = (K.entry item).1 :=
    fun item' hitem' => by rw [List.mem_singleton.mp hitem']
  exact (filter_parts (fun item' hitem' => h.lt_of_append hitem' List.mem_cons_self) hmiddle
    (List.pairwise_cons.mp hafter).1).2

/-- After an insertion the cursor is at the new entry and `next` shows the greater ones; after the
removal of an entry the cursor is at the next greater one, or at the end. -/
theorem cursor_after_mutation (hthreshold : 2 ≤ threshold) (h : Reachable K repair threshold tree store) :
    (∀ key value store' cursor, insert K tree repair store key value = .ok (store', cursor) →
      At K tree store' cursor (K.valueFromHandle (K.toHandle key)) value ∧
      tree.entries K store' =
        ((tree.entries K store).filter fun entry => entry.1 < K.valueFromHandle (K.toHandle key)) ++
          (K.valueFromHandle (K.toHandle key), value) ::
            ((tree.entries K store).filter fun entry => K.valueFromHandle (K.toHandle key) < entry.1) ∧
      ((tree.entries K store').Pairwise fun entry entry' => entry.1 < entry'.1) ∧
      ∀ count, following K tree store' count cursor = .ok (((tree.entries K store').filter fun entry =>
        K.valueFromHandle (K.toHandle key) < entry.1).take count)) ∧
    ∀ cursor key value, At K tree store cursor key value →
      ∃ store' cursor', removeAt K tree store cursor true = .ok (store', cursor', some value) ∧
        (tree.entries K store' = (tree.entries K store).filter fun entry => entry.1 ≠ key) ∧
        match (tree.entries K store).filter fun entry => key < entry.1 with
        | [] => cursor'.positioned = false ∧ cursor'.current = none
        | (key', value') :: _ => At K tree store' cursor' key' value' := by
  obtain ⟨hdepth, rfl, items, hstores⟩ := h.stores hthreshold
  refine ⟨fun key value store' cursor hinsert => ?_, fun cursor key value hcursor => ?_⟩
  · have hspec := insert_spec hthreshold hdepth hstores repair key value
    rw [hinsert] at hspec
    obtain ⟨before, item, after, hpoints, hcurrent, hentry, hbefore, hafter, hitems⟩ := hspec
    have hstores' := hpoints.stores
    have hkey : (K.entry item).1 = K.valueFromHandle (K.toHandle key) := by rw [hentry]
    have hparts : (tree.entries K store).filter (fun entry => entry.1 < K.valueFromHandle (K.toHandle key)) =
          before.map K.entry ∧
        (tree.entries K store).filter (fun entry => K.valueFromHandle (K.toHandle key) < entry.1) =
          after.map K.entry := by
      rw [hstores.entries_eq]
      rcases hitems with rfl | ⟨old, hold, rfl⟩
      · have hparts := filter_parts hbefore (List.forall_mem_nil _) hafter
        exact ⟨hparts.1, hparts.2.1⟩
      · have hmiddle : ∀ item' ∈ [old], (K.entry item').1 = K.valueFromHandle (K.toHandle key) :=
          fun item' hitem' => by rw [List.mem_singleton.mp hitem', hold]
        have hparts := filter_parts hbefore hmiddle hafter
        exact ⟨hparts.1, hparts.2.1⟩
    refine ⟨?_, ?_, entries_increasing hstores', fun count => ?_⟩
    · have hat := hpoints.at_entry hcurrent
      rwa [hentry] at hat
    · rw [hparts.1, hparts.2, hstores'.entries_eq, List.map_append, List.map_cons, hentry]
    · rw [following_points hdepth hpoints, hstores'.entries_eq, ← hkey, (filter_item hstores'.increasing).1]
  · obtain ⟨before, item, after, hpoints, rfl, hentry, hcurrent⟩ := hcursor.points hstores
    obtain ⟨store', cursor', hspec, hstores', hend⟩ := removeAt_spec hdepth hpoints hcurrent
    obtain ⟨hgreater, hother⟩ := filter_item hstores.increasing
    rw [hentry] at hgreater hother
    have hvalue : item.value = value := congrArg Prod.snd hentry
    refine ⟨store', cursor', by rw [hspec, hvalue], ?_, ?_⟩
    · rw [hstores'.entries_eq, hstores.entries_eq, hother]
    · rw [hstores.entries_eq, hgreater]
      rcases hend with ⟨rfl, hpositioned, hnone⟩ | ⟨item', after', rfl, hpoints', hcurrent'⟩
      · exact ⟨hpositioned, hnone⟩
      · exact hpoints'.at_entry hcurrent'

/-- With two entries at most in a leaf, the fourth key makes a split. -/
theorem cursor_after_mutation_split : ∃ (tree : NNTree) (store : NodeStore ℤ Bool),
    (tree.entries numberKey store).map Prod.fst = [3, 5, 8] ∧
      ((insert numberKey tree (fun _ => .error (.structural none [])) store 9 true).toOption.map
        fun result => result.2.current) = some (some (9, true)) ∧
      ∀ store' cursor,
        insert numberKey tree (fun _ => .error (.structural none [])) store 9 true = .ok (store', cursor) →
        At numberKey tree store' cursor 9 true := by
  have hempty : newEmpty (⟨fun _ => none, 1⟩ : NodeStore ℤ Bool) = .ok (_, _) := rfl
  refine ⟨_, _, ?_, ?_, fun store' cursor h => ((cursor_after_mutation (Nat.le_refl 2)
    (.insert 8 true (.insert 3 true (.insert 5 true (.newEmpty hempty) rfl) rfl) rfl)).1 9 true store' cursor h).1⟩
  · decide
  · decide

end NNTree

end Flpdf
