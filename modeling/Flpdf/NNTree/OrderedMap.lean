import Flpdf.NNTree.Helpers

/-! # A tree is an ordered map

The entries of a tree are those of an abstract map, and each call does to the entries what
it does to the map.
-/

namespace Flpdf

variable {κ ρ ν : Type} [LinearOrder κ]

namespace TreeKey

/-- The entries of the items are those of a map. -/
def Represents (K : TreeKey κ ρ) (items : List (TreeItem ρ ν)) (map : κ → Option ν) : Prop :=
  ∀ key value, map key = some value ↔ ∃ item ∈ items, K.entry item = (key, value)

variable {K : TreeKey κ ρ} {items before after : List (TreeItem ρ ν)} {item : TreeItem ρ ν}
  {map : κ → Option ν} {key : κ} {value : ν}

omit [LinearOrder κ] in
theorem Represents.eq_none (h : K.Represents items map) (hnot : ∀ item ∈ items, (K.entry item).1 ≠ key) :
    map key = none := by
  rw [Option.eq_none_iff_forall_ne_some]
  intro value hvalue
  obtain ⟨item, hitem, hentry⟩ := (h key value).mp hvalue
  exact hnot item hitem (congrArg Prod.fst hentry)

theorem Represents.insert (h : K.Represents items map) (hentry : K.entry item = (key, value))
    (hinserted : NNTree.Inserted K items before key after) :
    K.Represents (before ++ item :: after) (Function.update map key (some value)) := by
  obtain ⟨hbefore, hafter, hitems⟩ := hinserted
  intro key' value'
  by_cases hkey : key' = key
  · subst hkey
    rw [Function.update_self, Option.some.injEq]
    constructor
    · rintro rfl
      exact ⟨item, by simp, hentry⟩
    · rintro ⟨item', hitem', hentry'⟩
      have hfst : (K.entry item').1 = key' := congrArg Prod.fst hentry'
      rcases List.mem_append.mp hitem' with hitem' | hitem'
      · exact absurd hfst (hbefore item' hitem').ne
      · rcases List.mem_cons.mp hitem' with rfl | hitem'
        · exact (Prod.mk.inj (hentry.symm.trans hentry')).2
        · exact absurd hfst (hafter item' hitem').ne'
  · rw [Function.update_of_ne hkey, h key' value']
    refine exists_congr fun item' => and_congr_left fun hentry' => ?_
    have hne : ∀ other, (K.entry other).1 = key → item' ≠ other := by
      rintro other hother rfl
      rw [hentry'] at hother
      exact hkey hother
    have hitem : item' ≠ item := hne item (congrArg Prod.fst hentry)
    rcases hitems with rfl | ⟨old, hold, rfl⟩
    · simp [hitem]
    · simp [hitem, hne old hold]

theorem Represents.remove (h : K.Represents (before ++ item :: after) map)
    (hincreasing : K.Increasing (before ++ item :: after)) (hkey : (K.entry item).1 = key) :
    K.Represents (before ++ after) (Function.update map key none) := by
  subst hkey
  obtain ⟨-, hafter, -⟩ := List.pairwise_append.mp hincreasing
  have hgreater := (List.pairwise_cons.mp hafter).1
  intro key' value'
  by_cases hkey : key' = (K.entry item).1
  · subst hkey
    rw [Function.update_self]
    refine ⟨nofun, ?_⟩
    rintro ⟨item', hitem', hentry'⟩
    have hfst : (K.entry item').1 = (K.entry item).1 := by rw [hentry']
    rcases List.mem_append.mp hitem' with hitem' | hitem'
    · exact absurd hfst (hincreasing.lt_of_append hitem' List.mem_cons_self).ne
    · exact absurd hfst (hgreater item' hitem').ne'
  · rw [Function.update_of_ne hkey, h key' value']
    refine exists_congr fun item' => and_congr_left fun hentry' => ?_
    have hitem : item' ≠ item := by
      rintro rfl
      rw [hentry'] at hkey
      exact hkey rfl
    simp [hitem]

/-- Nothing is removed under a key that is not there. -/
theorem Represents.remove_none (h : K.Represents items map) (hnot : ∀ item ∈ items, (K.entry item).1 ≠ key) :
    K.Represents items (Function.update map key none) := by
  rw [← h.eq_none hnot, Function.update_eq_self]
  exact h

theorem Represents.lookup (h : K.Represents items map) (hincreasing : K.Increasing items) (key : κ) :
    (items.map K.entry).lookup key = map key := by
  have hascending : Ascending (items.map K.entry) :=
    List.pairwise_map.mpr (hincreasing.imp compare_lt_iff_lt.mpr)
  cases hmap : map key with
  | none =>
    rw [List.lookup_eq_none_iff]
    intro entry hentry
    obtain ⟨item, hitem, rfl⟩ := List.mem_map.mp hentry
    have hsome := (h (K.entry item).1 (K.entry item).2).mpr ⟨item, hitem, rfl⟩
    rw [bne_iff_ne]
    rintro rfl
    rw [hmap] at hsome
    cases hsome
  | some value =>
    obtain ⟨item, hitem, hentry⟩ := (h key value).mp hmap
    have hmem : (key, value) ∈ items.map K.entry := List.mem_map.mpr ⟨item, hitem, hentry⟩
    obtain ⟨before, after, hsplit⟩ := List.append_of_mem hmem
    rw [hsplit] at hascending ⊢
    exact lookup_append hascending

end TreeKey

namespace TreeHelper

variable {H : TreeHelper κ ρ} {tree : NNTree} {store : NodeStore ρ ν} {items : List (TreeItem ρ ν)}
  {map : κ → Option ν} {threshold : ℕ}

/-! ## Looking up -/

theorem findObject_eq (hdepth : tree.maxDepth = none) (h : Stores H.toTreeKey tree store items)
    (hmap : H.Represents items map) (repair : NodeStore ρ ν → Except NNTreeError (NodeStore ρ ν)) (key : κ) :
    H.findObject tree repair store key = .ok (store, map (H.searchKey key)) := by
  rw [findObject, NNTree.findObject]
  rcases NNTree.find_spec hdepth h repair (H.searchKey key) false with ⟨hall, hfind⟩ |
    ⟨before, item, after, cursor, rfl, ⟨hle, hafter, hcursor⟩, hfind⟩
  · rw [hfind, hmap.eq_none fun item hitem => (hall item hitem).ne']
    rfl
  · rw [hfind, ok_bind]
    by_cases hexact : (H.entry item).1 = H.searchKey key
    · rw [if_pos (.inl hexact)] at hcursor
      have hvalue := (hmap (H.entry item).1 (H.entry item).2).mpr ⟨item, by simp, rfl⟩
      rw [← hexact, hvalue]
      simp only [hcursor.2]
      rfl
    · rw [if_neg (by simp [hexact])] at hcursor
      have hless := lt_of_le_of_ne hle hexact
      rw [hmap.eq_none fun item' hitem' => ?_]
      · simp only [hcursor.2.2]
        rfl
      · rcases List.mem_append.mp hitem' with hitem' | hitem'
        · exact ((h.increasing.lt_of_append hitem' List.mem_cons_self).trans hless).ne
        · rcases List.mem_cons.mp hitem' with rfl | hitem'
          · exact hexact
          · exact (hafter item' hitem').ne'

/-- The search for a key, or else the one before it. -/
theorem findWithOptions_eq (hdepth : tree.maxDepth = none) (h : Stores H.toTreeKey tree store items)
    (hmap : H.Represents items map) (repair : NodeStore ρ ν → Except NNTreeError (NodeStore ρ ν)) (key : κ) :
    ∃ cursor, H.findWithOptions tree repair store key true = .ok (store, cursor) ∧
      ((∀ key' ≤ H.searchKey key, map key' = none) ∧ cursor.positioned = false ∧ cursor.current = none ∨
        ∃ key' value', NNTree.At H.toTreeKey tree store cursor key' value' ∧ map key' = some value' ∧
          key' ≤ H.searchKey key ∧ ∀ other ≤ H.searchKey key, map other ≠ none → other ≤ key') := by
  rw [findWithOptions]
  rcases NNTree.find_spec hdepth h repair (H.searchKey key) true with ⟨hall, hfind⟩ |
    ⟨before, item, after, cursor, rfl, ⟨hle, hafter, hcursor⟩, hfind⟩
  · refine ⟨_, hfind, .inl ⟨fun key' hkey' => hmap.eq_none fun item hitem => ?_, rfl, rfl⟩⟩
    exact (hkey'.trans_lt (hall item hitem)).ne'
  · rw [if_pos (.inr rfl)] at hcursor
    refine ⟨cursor, hfind, .inr ⟨_, _, hcursor.1.at_entry hcursor.2,
      (hmap _ _).mpr ⟨item, by simp, rfl⟩, hle, fun other hother hsome => ?_⟩⟩
    obtain ⟨value, hvalue⟩ := Option.ne_none_iff_exists'.mp hsome
    obtain ⟨item', hitem', hentry'⟩ := (hmap other value).mp hvalue
    obtain rfl : (H.entry item').1 = other := congrArg Prod.fst hentry'
    rcases List.mem_append.mp hitem' with hitem' | hitem'
    · exact (h.increasing.lt_of_append hitem' List.mem_cons_self).le
    · rcases List.mem_cons.mp hitem' with rfl | hitem'
      · exact le_refl _
      · exact absurd hother (not_le.mpr (hafter item' hitem'))

/-! ## The whole map -/

/-- The entry of an item comes behind those before it. -/
theorem insertSorted_entries {before after : List (TreeItem ρ ν)} {item : TreeItem ρ ν}
    (h : H.Increasing (before ++ item :: after)) :
    insertSorted (H.entry item).1 (H.entry item).2 (before.map H.entry) =
      (before ++ [item]).map H.entry := by
  rw [List.map_append, insertSorted_last fun entry hentry => ?_]
  · rfl
  · obtain ⟨item', hitem', rfl⟩ := List.mem_map.mp hentry
    exact compare_lt_iff_lt.mpr (h.lt_of_append hitem' List.mem_cons_self)

theorem asMapLoop_points {cursor : NNTreeCursor κ ν} {before after : List (TreeItem ρ ν)} {item : TreeItem ρ ν}
    (hdepth : tree.maxDepth = none) (h : Points H.toTreeKey tree store cursor before item after)
    (hcurrent : cursor.current = some (H.entry item)) (fuel : ℕ) :
    H.asMapLoop tree store (after.length + 2 + fuel) (before.map H.entry) cursor =
      .ok (some ((before ++ item :: after).map H.entry)) := by
  induction after generalizing cursor before item with
  | nil =>
    rcases NNTree.increment_points hdepth true h with ⟨-, hincrement⟩ | ⟨item', after', -, hcons, -⟩
    · rw [List.length_nil, Nat.zero_add, Nat.add_comm, asMapLoop, hcurrent]
      simp only [NNTree.next, hincrement, ok_bind, insertSorted_entries h.stores.increasing]
      rfl
    · cases hcons
  | cons item' after ih =>
    rcases NNTree.increment_points hdepth true h with ⟨hnil, -⟩ |
      ⟨_, _, cursor', hcons, hpoints, hcurrent', hincrement⟩
    · cases hnil
    · obtain ⟨rfl, rfl⟩ := List.cons.inj hcons
      have hfuel : (item' :: after).length + 2 + fuel = after.length + 2 + fuel + 1 := by
        rw [List.length_cons]
        omega
      rw [hfuel, asMapLoop, hcurrent]
      simp only [NNTree.next, hincrement, ok_bind, insertSorted_entries h.stores.increasing]
      rw [ih hpoints hcurrent', List.append_assoc, List.singleton_append]

/-- `begin`. -/
theorem beginPosition_stores (hdepth : tree.maxDepth = none) (h : Stores H.toTreeKey tree store items) :
    ∃ cursor, NNTree.beginPosition H.toTreeKey tree store true = .ok cursor ∧
      (items = [] ∧ cursor.positioned = false ∧ cursor.current = none ∨
        ∃ item after, items = item :: after ∧ Points H.toTreeKey tree store cursor [] item after ∧
          cursor.current = some (H.entry item)) := by
  obtain ⟨n, array, hlive, hlength, rfl⟩ := h
  by_cases hne : array = []
  · obtain ⟨rfl, -⟩ := hlive.settled.ne_nil hne
    obtain ⟨limits, hnode⟩ := hlive.node_eq
    subst hne
    refine ⟨{ leaf := some tree.root }, ?_, .inl ⟨rfl, rfl, rfl⟩⟩
    rw [NNTree.beginPosition, NNTree.descend, NNTree.descendLoop, hdepth, hnode]
    rfl
  · obtain ⟨before, item, after, cursor, hitems, hedge, hpoints, -, hloop⟩ :=
      NNTree.descendLoop_spec true true true hdepth hlive hlength hne
        (rfl : ({} : NNTreeCursor κ ν).path = (Context.top : Context ρ ν n).path) (List.forall_mem_nil _)
        (Nat.lt_succ_of_lt hlive.settled.height_lt)
    obtain rfl : before = [] := hedge
    rw [NNTree.updateCurrent_points hpoints] at hloop
    refine ⟨{ cursor with current := some (H.entry item) }, ?_, .inr ⟨item, after, hitems, ?_, rfl⟩⟩
    · rw [NNTree.beginPosition, NNTree.descend]
      change Except.map Prod.fst (NNTree.descendLoop H.toTreeKey tree store true true true (store.next + 1) []
        {} tree.root >>= _) = _
      rw [hloop]
      rfl
    · simpa [Points, Context.before, Context.after] using hpoints

theorem asMap_eq (hdepth : tree.maxDepth = none) (h : Stores H.toTreeKey tree store items) {fuel : ℕ}
    (hfuel : items.length < fuel) : H.asMap tree store fuel = .ok (some (items.map H.entry)) := by
  obtain ⟨cursor, hbegin, hcursor⟩ := beginPosition_stores hdepth h
  rw [asMap, hbegin, ok_bind]
  obtain ⟨fuel, rfl⟩ := Nat.exists_eq_add_of_lt hfuel
  rcases hcursor with ⟨rfl, hpositioned, hcurrent⟩ | ⟨item, after, rfl, hpoints, hcurrent⟩
  · rw [hpositioned, asMapLoop, hcurrent]
    rfl
  · have hloop : H.asMapLoop tree store (after.length + 2 + fuel) [] cursor =
        .ok (some ((item :: after).map H.entry)) := asMapLoop_points hdepth hpoints hcurrent fuel
    have hfuel : (item :: after).length + fuel + 1 = after.length + 2 + fuel := by
      rw [List.length_cons]
      omega
    rw [hfuel, hloop, hcurrent, Option.isNone_some, Bool.and_false, if_neg Bool.false_ne_true]

/-! ## Runs -/

section Runs

variable {repair : NodeStore ρ ν → Except NNTreeError (NodeStore ρ ν)}

theorem find_repair (hdepth : tree.maxDepth = none) (h : Stores H.toTreeKey tree store items)
    (repair' : NodeStore ρ ν → Except NNTreeError (NodeStore ρ ν)) (key : κ) (returnPrevious : Bool) :
    NNTree.find H.toTreeKey tree repair' store key returnPrevious =
      NNTree.find H.toTreeKey tree repair store key returnPrevious := by
  rw [NNTree.find, NNTree.find]
  rcases NNTree.findInternal_spec hdepth h key returnPrevious with ⟨-, hfind⟩ | ⟨_, _, _, _, -, -, hfind⟩
  all_goals rw [hfind]

/-- What one call does; it is the same with any other `repair`. -/
theorem call_spec (hthreshold : 2 ≤ tree.splitThreshold) (hdepth : tree.maxDepth = none)
    (h : Stores H.toTreeKey tree store items) (hmap : H.Represents items map) (call : TreeCall κ ν) :
    (Delivers (H.call tree repair store call) fun store' => ∃ items',
      Stores H.toTreeKey tree store' items' ∧ H.Represents items' (call.onMap H.searchKey map)) ∧
      ∀ repair', H.call tree repair' store call = H.call tree repair store call := by
  cases call with
  | insert key value =>
    refine ⟨?_, fun repair' => ?_⟩
    · refine (NNTree.insert_spec hthreshold hdepth h repair key value).bind fun result hresult => ?_
      obtain ⟨before, item, after, hpoints, -, hentry, hinserted⟩ := hresult
      rw [H.valueFromHandle_toHandle] at hentry hinserted
      exact .ok ⟨_, hpoints.stores, hmap.insert hentry hinserted⟩
    · simp only [call, insert, NNTree.insert, NNTree.insertResolved, @find_repair _ _ _ _ _ _ _ _ repair hdepth h repair']
  | remove key =>
    refine ⟨?_, fun repair' => ?_⟩
    · rcases NNTree.remove_spec hdepth h repair (H.searchKey key) with ⟨hnot, hremove⟩ |
        ⟨before, item, after, store', rfl, hkey, hremove, hstores⟩
      · rw [call, remove, hremove]
        exact ⟨items, h, hmap.remove_none hnot⟩
      · rw [call, remove, hremove]
        exact ⟨_, hstores, hmap.remove h.increasing hkey⟩
    · simp only [call, remove, NNTree.remove, @find_repair _ _ _ _ _ _ _ _ repair hdepth h repair']

theorem run_spec (hthreshold : 2 ≤ tree.splitThreshold) (hdepth : tree.maxDepth = none)
    (h : Stores H.toTreeKey tree store items) (hmap : H.Represents items map) (calls : List (TreeCall κ ν)) :
    (Delivers (H.run tree repair store calls) fun store' => ∃ items',
      Stores H.toTreeKey tree store' items' ∧
        H.Represents items' (calls.foldl (TreeCall.onMap H.searchKey) map)) ∧
      ∀ repair', H.run tree repair' store calls = H.run tree repair store calls := by
  induction calls generalizing store items map with
  | nil => exact ⟨⟨items, h, hmap⟩, fun _ => rfl⟩
  | cons call calls ih =>
    obtain ⟨hcall, hrepair⟩ := @call_spec _ _ _ _ _ _ _ _ _ repair hthreshold hdepth h hmap call
    refine ⟨hcall.bind fun store' ⟨items', hstores, hmap'⟩ => (ih hstores hmap').1, fun repair' => ?_⟩
    rw [run, run, hrepair]
    cases hresult : H.call tree repair store call with
    | error error => rfl
    | ok store' =>
      rw [hresult] at hcall
      obtain ⟨items', hstores, hmap'⟩ := hcall
      exact (ih hstores hmap').2 repair'

end Runs

/-- The tree answers every question as a map does. -/
structure Answers (H : TreeHelper κ ρ) (tree : NNTree)
    (repair : NodeStore ρ ν → Except NNTreeError (NodeStore ρ ν)) (store : NodeStore ρ ν)
    (map : κ → Option ν) : Prop where
  asMap : ∃ entries : List (κ × ν), Ascending entries ∧ (∀ key, entries.lookup key = map key) ∧
    ∀ fuel, entries.length < fuel → H.asMap tree store fuel = .ok (some entries)
  findObject : ∀ key, H.findObject tree repair store key = .ok (store, map (H.searchKey key))
  findPrevious : ∀ key, ∃ cursor, H.findWithOptions tree repair store key true = .ok (store, cursor) ∧
    ((∀ key' ≤ H.searchKey key, map key' = none) ∧ cursor.positioned = false ∧ cursor.current = none ∨
      ∃ key' value', NNTree.At H.toTreeKey tree store cursor key' value' ∧ map key' = some value' ∧
        key' ≤ H.searchKey key ∧ ∀ other ≤ H.searchKey key, map other ≠ none → other ≤ key')

theorem Answers.of_stores (hdepth : tree.maxDepth = none) (h : Stores H.toTreeKey tree store items)
    (hmap : H.Represents items map) (repair : NodeStore ρ ν → Except NNTreeError (NodeStore ρ ν)) :
    H.Answers tree repair store map where
  asMap := by
    refine ⟨items.map H.entry, List.pairwise_map.mpr (h.increasing.imp compare_lt_iff_lt.mpr),
      hmap.lookup h.increasing, fun fuel hfuel => asMap_eq hdepth h ?_⟩
    rwa [List.length_map] at hfuel
  findObject := findObject_eq hdepth h hmap repair
  findPrevious := findWithOptions_eq hdepth h hmap repair

/-- From an empty tree on, calls that succeed do to the tree what they do to an abstract map; none
of them meets a structural error or enters `repair`. -/
theorem run_refines_map (H : TreeHelper κ ρ) (hthreshold : 2 ≤ threshold) {document : NodeStore ρ ν}
    (hempty : NNTree.newEmpty document = .ok (tree, store))
    (repair : NodeStore ρ ν → Except NNTreeError (NodeStore ρ ν)) (calls : List (TreeCall κ ν)) :
    (∀ store', H.run (tree.setSplitThreshold threshold) repair store calls = .ok store' →
      H.Answers (tree.setSplitThreshold threshold) repair store'
        (calls.foldl (TreeCall.onMap H.searchKey) fun _ => none)) ∧
    (∀ node message, H.run (tree.setSplitThreshold threshold) repair store calls ≠
      .error (.structural node message)) ∧
    ∀ repair', H.run (tree.setSplitThreshold threshold) repair' store calls =
      H.run (tree.setSplitThreshold threshold) repair store calls := by
  obtain ⟨hdepth, hstores⟩ := NNTree.newEmpty_stores (K := H.toTreeKey) hempty threshold
  have hmap : H.Represents ([] : List (TreeItem ρ ν)) (fun _ => none) := fun key value => by simp
  obtain ⟨hrun, hrepair⟩ := @run_spec _ _ _ _ _ (tree.setSplitThreshold threshold) _ _ _ repair hthreshold hdepth
    hstores hmap calls
  refine ⟨fun store' hresult => ?_, fun node message herror => ?_, hrepair⟩
  · rw [hresult] at hrun
    obtain ⟨items, hstores', hmap'⟩ := hrun
    have hdepth' : (tree.setSplitThreshold threshold).maxDepth = none := hdepth
    exact .of_stores hdepth' hstores' hmap' repair
  · rw [herror] at hrun
    cases hrun

/-- A tree of two levels that has lost its least key. -/
theorem run_refines_map_numbers : ∃ (tree : NNTree) (store : NodeStore ℤ Bool),
    NNTree.newEmpty ⟨fun _ => none, 1⟩ = .ok (tree, store) ∧
    (NumberTree.helper.run (tree.setSplitThreshold 2) (fun _ => .error (.structural none [])) store
      [.insert 5 true, .insert 3 false, .insert 8 true, .insert 9 false, .remove 3]).toOption.isSome = true ∧
    ∀ store', NumberTree.helper.run (tree.setSplitThreshold 2) (fun _ => .error (.structural none [])) store
        [.insert 5 true, .insert 3 false, .insert 8 true, .insert 9 false, .remove 3] = .ok store' →
      NumberTree.helper.findObject (tree.setSplitThreshold 2) (fun _ => .error (.structural none [])) store' 3 =
        .ok (store', none) ∧
      NumberTree.helper.findObject (tree.setSplitThreshold 2) (fun _ => .error (.structural none [])) store' 8 =
        .ok (store', some true) := by
  have hempty : NNTree.newEmpty (⟨fun _ => none, 1⟩ : NodeStore ℤ Bool) = .ok (_, _) := rfl
  refine ⟨_, _, hempty, ?_, fun store' hrun => ?_⟩
  · decide
  · have hanswers := (run_refines_map NumberTree.helper (Nat.le_refl 2) hempty
      (fun _ => .error (.structural none []))
      [.insert 5 true, .insert 3 false, .insert 8 true, .insert 9 false, .remove 3]).1 store' hrun
    exact ⟨hanswers.findObject 3, hanswers.findObject 8⟩

end TreeHelper

end Flpdf

/-! ## Names as keys

A name is written as a text string and read back in its normalized form, so that it is found
under every string with this form. -/

namespace Flpdf

variable {κ ρ ν : Type}

def TreeCall.key : TreeCall κ ν → κ
  | insert key _ => key
  | remove key => key

/-- A call leaves the other keys alone. -/
theorem TreeCall.onMap_of_ne [DecidableEq κ] {searchKey : κ → κ} {map : κ → Option ν} {call : TreeCall κ ν}
    {key : κ} (h : key ≠ searchKey call.key) : call.onMap searchKey map key = map key := by
  cases call with
  | insert key' value => exact Function.update_of_ne h ..
  | remove key' => exact Function.update_of_ne h ..

theorem foldl_onMap_of_ne [DecidableEq κ] {searchKey : κ → κ} {map : κ → Option ν} {calls : List (TreeCall κ ν)}
    {key : κ} (h : ∀ call ∈ calls, key ≠ searchKey call.key) :
    calls.foldl (TreeCall.onMap searchKey) map key = map key := by
  induction calls generalizing map with
  | nil => rfl
  | cons call calls ih =>
    rw [List.foldl_cons, ih fun call' hcall' => h call' (List.mem_cons_of_mem _ hcall'),
      TreeCall.onMap_of_ne (h call List.mem_cons_self)]

/-- What has been inserted under a key is found until a call has this key again. -/
theorem TreeHelper.findObject_inserted [LinearOrder κ] (H : TreeHelper κ ρ) {threshold : ℕ}
    (hthreshold : 2 ≤ threshold) {document store store' : NodeStore ρ ν} {tree : NNTree}
    (hempty : NNTree.newEmpty document = .ok (tree, store))
    {repair : NodeStore ρ ν → Except NNTreeError (NodeStore ρ ν)} {calls calls' : List (TreeCall κ ν)}
    {key key' : κ} {value : ν} (hcalls : ∀ call ∈ calls', H.searchKey key ≠ H.searchKey call.key)
    (hrun : H.run (tree.setSplitThreshold threshold) repair store (calls ++ .insert key value :: calls') = .ok store')
    (hkey : H.searchKey key' = H.searchKey key) :
    H.findObject (tree.setSplitThreshold threshold) repair store' key' = .ok (store', some value) := by
  obtain ⟨hdepth, hstores⟩ := NNTree.newEmpty_stores (K := H.toTreeKey) hempty threshold
  have hmap : H.Represents ([] : List (TreeItem ρ ν)) (fun _ => none) := fun key value => by simp
  have hspec := (@run_spec _ _ _ _ _ (tree.setSplitThreshold threshold) _ _ _ repair hthreshold hdepth hstores hmap
    (calls ++ .insert key value :: calls')).1
  rw [hrun] at hspec
  obtain ⟨items, hstores', hmap'⟩ := hspec
  have hdepth' : (tree.setSplitThreshold threshold).maxDepth = none := hdepth
  rw [findObject_eq hdepth' hstores' hmap' repair key', hkey, List.foldl_append, List.foldl_cons,
    foldl_onMap_of_ne hcalls, TreeCall.onMap, Function.update_self]

/-- Every text string is read back in its normalized form, which is its own normalized form; so a
name that has been inserted is found under all strings with the same normalized form. -/
theorem NameTree.findObject_normalized :
    (∀ s, utf8Value (newUnicodeString s) = normalizedUtf8Value s) ∧
    (∀ s, normalizedUtf8Value (normalizedUtf8Value s) = normalizedUtf8Value s) ∧
    ∀ {threshold : ℕ}, 2 ≤ threshold → ∀ {document store store' : NodeStore Bytes ν} {tree : NNTree},
      NNTree.newEmpty document = .ok (tree, store) →
      ∀ {repair : NodeStore Bytes ν → Except NNTreeError (NodeStore Bytes ν)}
        {calls calls' : List (TreeCall Bytes ν)} {s : Bytes} {value : ν},
        (∀ call ∈ calls', normalizedUtf8Value s ≠ normalizedUtf8Value call.key) →
        helper.run (tree.setSplitThreshold threshold) repair store (calls ++ .insert s value :: calls') =
          .ok store' →
        ∀ s', normalizedUtf8Value s' = normalizedUtf8Value s →
          helper.findObject (tree.setSplitThreshold threshold) repair store' s' = .ok (store', some value) :=
  ⟨utf8Value_newUnicodeString_normalized, normalizedUtf8Value_normalizedUtf8Value,
    fun hthreshold _ _ _ _ hempty _ _ _ _ _ hcalls hrun _ hkey =>
      helper.findObject_inserted hthreshold hempty hcalls hrun hkey⟩

/-- A byte that is no UTF-8 is found under the character that takes its place. -/
theorem NameTree.findObject_normalized_replaced : ∃ (tree : NNTree) (store : NodeStore Bytes Bool),
    NNTree.newEmpty ⟨fun _ => none, 1⟩ = .ok (tree, store) ∧
    (helper.run (tree.setSplitThreshold 2) (fun _ => .error (.structural none [])) store
      [.insert [0xff] true]).toOption.isSome = true ∧
    ∀ store', helper.run (tree.setSplitThreshold 2) (fun _ => .error (.structural none [])) store
        [.insert [0xff] true] = .ok store' →
      helper.findObject (tree.setSplitThreshold 2) (fun _ => .error (.structural none [])) store'
        [0xef, 0xbf, 0xbd] = .ok (store', some true) := by
  have hempty : NNTree.newEmpty (⟨fun _ => none, 1⟩ : NodeStore Bytes Bool) = .ok (_, _) := rfl
  refine ⟨_, _, hempty, ?_, fun store' hrun => ?_⟩
  · decide
  · have hfound := @(@findObject_normalized Bool).2.2 2 (Nat.le_refl 2) _ _ store' _ hempty
      (fun _ => .error (.structural none [])) [] [] [0xff] true (List.forall_mem_nil _) hrun
    exact hfound [0xef, 0xbf, 0xbd] (by decide)

end Flpdf
