import Flpdf.NNTree.OrderedMap

/-! # Lookups in a number tree

A tree that is only read may have a depth limit and leaves of any length.  The limit makes a
search fail or leaves it as it is, so that a lookup which comes to an end gives the entry of
an index, or the one before it.
-/

namespace Flpdf

variable {κ ρ ν : Type}

namespace NNTree

def depthLimitExceeded : NNTreeError :=
  .unsupported (ascii "name/number tree: /Kids depth limit exceeded")

/-- The same result, or a stop at the depth limit. -/
def Limited {α : Type} (result unlimited : Except NNTreeError α) : Prop :=
  result = unlimited ∨ result = .error depthLimitExceeded

theorem Limited.bind {α β : Type} {result unlimited : Except NNTreeError α}
    {next next' : α → Except NNTreeError β} (h : Limited result unlimited)
    (hnext : ∀ a, Limited (next a) (next' a)) :
    Limited (result >>= next) (unlimited >>= next') := by
  rcases h with rfl | rfl
  · cases result with
    | error error => exact .inl rfl
    | ok a => exact hnext a
  · exact .inr rfl

section Limits

variable {K : TreeKey κ ρ} {tree tree' : NNTree} {store : NodeStore ρ ν}

theorem descendLoop_limited (hdepth : tree'.maxDepth = none) (first allowEmpty materialize : Bool)
    (fuel : ℕ) (seen : List NodeId) (cursor : NNTreeCursor κ ν) (id : NodeId) :
    Limited (descendLoop K tree store first allowEmpty materialize fuel seen cursor id)
      (descendLoop K tree' store first allowEmpty materialize fuel seen cursor id) := by
  induction fuel generalizing seen cursor id with
  | zero => exact .inl rfl
  | succ fuel ih =>
    rw [descendLoop, descendLoop, hdepth]
    simp only [Option.any_none, Bool.false_eq_true, if_false]
    split
    · exact .inr rfl
    split
    · exact .inl rfl
    split
    · exact .inl rfl
    split
    · exact .inl rfl
    · exact ih _ _ _
    · exact .inl rfl

theorem beginPosition_limited (hroot : tree.root = tree'.root) (hdepth : tree'.maxDepth = none)
    (materialize : Bool) :
    Limited (beginPosition K tree store materialize) (beginPosition K tree' store materialize) := by
  rw [beginPosition, beginPosition, descend, descend, hroot]
  have hdescend : Limited (descendLoop K tree store true true materialize (store.next + 1)
      (({} : NNTreeCursor κ ν).path.map PathElement.node) {} tree'.root) _ :=
    descendLoop_limited hdepth _ _ _ _ _ _ _
  rcases hdescend with hdescend | hdescend
  · exact .inl (by rw [hdescend])
  · exact .inr (by rw [hdescend]; rfl)

variable [LinearOrder κ]

theorem findLoop_limited (hdepth : tree'.maxDepth = none) (key : κ) (returnPrevious : Bool)
    (fuel : ℕ) (seen : List NodeId) (cursor : NNTreeCursor κ ν) (id : NodeId) :
    Limited (findLoop K tree store key returnPrevious fuel seen cursor id)
      (findLoop K tree' store key returnPrevious fuel seen cursor id) := by
  induction fuel generalizing seen cursor id with
  | zero => exact .inl rfl
  | succ fuel ih =>
    rw [findLoop, findLoop, hdepth]
    simp only [Option.any_none, Bool.false_eq_true, if_false]
    split
    · exact .inr rfl
    split
    · exact .inl rfl
    refine Limited.bind (.inl rfl) fun node => ?_
    split
    · exact .inl rfl
    · refine Limited.bind (.inl rfl) fun index => ?_
      split
      · exact .inl rfl
      · exact ih _ _ _
    · exact .inl rfl

theorem findInternal_limited (hroot : tree.root = tree'.root) (hdepth : tree'.maxDepth = none)
    (key : κ) (returnPrevious : Bool) :
    Limited (findInternal K tree store key returnPrevious)
      (findInternal K tree' store key returnPrevious) := by
  rw [findInternal, findInternal, hroot]
  apply (beginPosition_limited hroot hdepth false).bind
  intro first
  split
  · refine Limited.bind (.inl rfl) fun items => ?_
    split
    · exact .inl rfl
    split
    · exact .inl rfl
    · exact findLoop_limited hdepth _ _ _ _ _ _
  · exact .inl rfl

/-- A search that finds its way without a limit finds it, or comes to the limit. -/
theorem find_limited (hroot : tree.root = tree'.root) (hdepth : tree'.maxDepth = none)
    (repair : NodeStore ρ ν → Except NNTreeError (NodeStore ρ ν)) {key : κ} {returnPrevious : Bool}
    {cursor : NNTreeCursor κ ν}
    (h : findInternal K tree' store key returnPrevious = .ok cursor) :
    Limited (find K tree repair store key returnPrevious) (.ok (store, cursor)) := by
  rw [find]
  rcases findInternal_limited hroot hdepth key returnPrevious with hfind | hfind
  · exact .inl (by rw [hfind, h])
  · exact .inr (by rw [hfind]; rfl)

end Limits

end NNTree

/-! ## Numbers -/

/-- A sum or a difference that fits into 64 bits. -/
def checkedI64 (value : ℤ) : Option ℤ :=
  if -2 ^ 63 ≤ value ∧ value < 2 ^ 63 then some value else none

theorem checkedI64_eq_some {value result : ℤ} (h : checkedI64 value = some result) :
    result = value := by
  rw [checkedI64] at h
  split at h
  · exact (Option.some.inj h).symm
  · cases h

/-- The last entry whose key is not above a number. -/
def governing {α : Type} (entries : List (ℤ × α)) (number : ℤ) : Option (ℤ × α) :=
  (entries.filter fun entry => entry.1 ≤ number).getLast?

section Governing

variable {α : Type} {entries before after : List (ℤ × α)} {e : ℤ × α} {number : ℤ}

theorem governing_split (hle : e.1 ≤ number) (hafter : ∀ e' ∈ after, number < e'.1) :
    governing (before ++ e :: after) number = some e := by
  have hbehind : after.filter (fun entry => entry.1 ≤ number) = [] := by
    rw [List.filter_eq_nil_iff]
    intro e' he'
    simpa using hafter e' he'
  rw [governing, List.filter_append, List.filter_cons_of_pos (by simpa using hle), hbehind,
    List.getLast?_concat]

theorem governing_exists_split (h : governing entries number = some e) :
    ∃ before after, entries = before ++ e :: after ∧ e.1 ≤ number ∧
      ∀ e' ∈ after, number < e'.1 := by
  induction entries using List.reverseRecOn with
  | nil => cases h
  | append_singleton entries last ih =>
    rw [governing, List.filter_append] at h
    by_cases hle : last.1 ≤ number
    · rw [List.filter_cons_of_pos (by simpa using hle), List.filter_nil,
        List.getLast?_concat] at h
      obtain rfl := Option.some.inj h
      exact ⟨entries, [], rfl, hle, List.forall_mem_nil _⟩
    · rw [List.filter_cons_of_neg (by simpa using hle), List.filter_nil, List.append_nil] at h
      obtain ⟨before, after, rfl, hsplit, hafter⟩ := ih h
      refine ⟨before, after ++ [last], by simp, hsplit, ?_⟩
      intro e' he'
      rcases List.mem_append.mp he' with he' | he'
      · exact hafter e' he'
      · rw [List.mem_singleton.mp he']
        exact not_le.mp hle

theorem governing_eq_none : governing entries number = none ↔ ∀ e ∈ entries, number < e.1 := by
  rw [governing, List.getLast?_eq_none_iff, List.filter_eq_nil_iff]
  simp only [decide_eq_true_eq, not_le]

end Governing

namespace NumberTree

section Lookups

variable (tree : NNTree) (repair : NodeStore ℤ ν → Except NNTreeError (NodeStore ℤ ν))
  (store : NodeStore ℤ ν) (key : ℤ)

def hasIndex : Except NNTreeError (NodeStore ℤ ν × Bool) := do
  let (store, value) ← helper.findObject tree repair store key
  return (store, value.isSome)

def findObjectAtOrBelow : Except NNTreeError (NodeStore ℤ ν × Option (ν × ℤ)) := do
  let (store, cursor) ← helper.findWithOptions tree repair store key true
  match cursor.current with
  | none => return (store, none)
  | some (actualKey, value) =>
    match checkedI64 (key - actualKey) with
    | none => throw (.unsupported (ascii "number-tree at-or-below offset overflow"))
    | some offset => return (store, some (value, offset))

end Lookups

/-- The store holds a tree of the given entries, however long its leaves are. -/
def Holds (tree : NNTree) (store : NodeStore ℤ ν) (entries : List (ℤ × ν)) : Prop :=
  ∃ (threshold : ℕ) (items : List (TreeItem ℤ ν)),
    Stores helper.toTreeKey { tree with splitThreshold := threshold, maxDepth := none } store items ∧
      items.map helper.entry = entries

variable {tree : NNTree} {repair : NodeStore ℤ ν → Except NNTreeError (NodeStore ℤ ν)}
  {store : NodeStore ℤ ν} {entries : List (ℤ × ν)} {key : ℤ}

/-- A root with items and nothing below it. -/
theorem holds_leaf {items : List (TreeItem ℤ ν)}
    (hnode : store.node tree.root = some { items := some items }) (hroot : tree.root < store.next)
    (hincreasing : helper.Increasing items) : Holds tree store (items.map helper.entry) := by
  have hfocus : Focused helper.toTreeKey store .top tree.root (leafArray items) none :=
    ⟨hnode, fun _ _ => trivial, trivial, by simp [Context.ids], by simpa [Context.ids] using hroot⟩
  refine ⟨items.length, items, ⟨0, leafArray items, ⟨⟨⟨none, hfocus, rfl⟩, fun _ => ⟨rfl, rfl⟩⟩,
    fun _ _ => trivial, trivial, rfl, ?_⟩, le_rfl, itemsOf_leafArray items⟩, rfl⟩
  simpa [Context.before, Context.after] using hincreasing

/-- What a search that ends points to. -/
theorem findWithOptions_eq (h : Holds tree store entries) {returnPrevious : Bool}
    {store' : NodeStore ℤ ν} {cursor : NNTreeCursor ℤ ν}
    (hfind : helper.findWithOptions tree repair store key returnPrevious = .ok (store', cursor)) :
    store' = store ∧ cursor.current =
      (governing entries key).filter fun entry => entry.1 == key || returnPrevious := by
  obtain ⟨threshold, items, hstores, rfl⟩ := h
  rw [TreeHelper.findWithOptions] at hfind
  have hlimited : ∀ found, NNTree.findInternal helper.toTreeKey
      { tree with splitThreshold := threshold, maxDepth := none } store key returnPrevious =
        .ok found →
      NNTree.Limited (NNTree.find helper.toTreeKey tree repair store key returnPrevious)
        (.ok (store, found)) :=
    fun found hinternal => NNTree.find_limited (by rfl) (by rfl) repair hinternal
  rcases NNTree.findInternal_spec rfl hstores key returnPrevious with ⟨hall, hinternal⟩ |
    ⟨before, item, after, found, rfl, ⟨hle, hafter, hfound⟩, hinternal⟩
  · have hnone : governing (items.map helper.entry) key = none := by
      rw [governing_eq_none]
      intro entry hentry
      obtain ⟨item, hitem, rfl⟩ := List.mem_map.mp hentry
      exact hall item hitem
    rcases hlimited _ hinternal with hok | hlimit
    · obtain ⟨rfl, rfl⟩ := Prod.mk.inj (Except.ok.inj (hfind.symm.trans hok))
      exact ⟨rfl, by rw [hnone]; rfl⟩
    · cases hfind.symm.trans hlimit
  · have hsome : governing ((before ++ item :: after).map helper.entry) key =
        some (helper.entry item) := by
      rw [List.map_append, List.map_cons]
      apply governing_split hle
      intro entry hentry
      obtain ⟨item', hitem', rfl⟩ := List.mem_map.mp hentry
      exact hafter item' hitem'
    rw [hsome]
    rcases hlimited _ hinternal with hok | hlimit
    · obtain ⟨rfl, rfl⟩ := Prod.mk.inj (Except.ok.inj (hfind.symm.trans hok))
      refine ⟨rfl, ?_⟩
      split at hfound
      · case isTrue hkey =>
          rw [hfound.2, Option.filter_some_pos (by simpa using hkey)]
      · case isFalse hkey =>
          rw [hfound.2.2, Option.filter_some_neg (by simpa using hkey)]
    · cases hfind.symm.trans hlimit

theorem hasIndex_eq (h : Holds tree store entries) {result : NodeStore ℤ ν × Bool}
    (hresult : hasIndex tree repair store key = .ok result) :
    result = (store, (governing entries key).any fun entry => entry.1 == key) := by
  obtain ⟨⟨store', value⟩, hobject, hpair⟩ := bind_eq_ok.mp hresult
  obtain ⟨⟨store'', cursor⟩, hfind, hvalue⟩ := bind_eq_ok.mp hobject
  obtain ⟨hstore, hcurrent⟩ := findWithOptions_eq h hfind
  obtain ⟨rfl, rfl⟩ := Prod.mk.inj (Except.ok.inj hvalue)
  obtain rfl := Except.ok.inj hpair
  rw [hstore, hcurrent]
  cases governing entries key with
  | none => rfl
  | some entry =>
    rw [Option.any_some, Option.filter_some]
    simp only [Bool.or_false]
    cases entry.1 == key <;> rfl

theorem findObjectAtOrBelow_eq (h : Holds tree store entries)
    {result : NodeStore ℤ ν × Option (ν × ℤ)}
    (hresult : findObjectAtOrBelow tree repair store key = .ok result) :
    result = (store, (governing entries key).map fun entry => (entry.2, key - entry.1)) := by
  obtain ⟨⟨store', cursor⟩, hfind, hpair⟩ := bind_eq_ok.mp hresult
  obtain ⟨hstore, hcurrent⟩ := findWithOptions_eq h hfind
  cases hgoverning : governing entries key with
  | none =>
    rw [hgoverning, Option.filter_none] at hcurrent
    simp only [hcurrent] at hpair
    cases hpair
    rw [hstore]
    rfl
  | some entry =>
    rw [hgoverning, Option.filter_some_pos (by rw [Bool.or_true])] at hcurrent
    simp only [hcurrent] at hpair
    cases hoffset : checkedI64 (key - entry.1) with
    | none =>
      simp only [hoffset] at hpair
      cases hpair
    | some offset =>
      simp only [hoffset] at hpair
      cases hpair
      rw [hstore, checkedI64_eq_some hoffset]
      rfl

end NumberTree

end Flpdf
