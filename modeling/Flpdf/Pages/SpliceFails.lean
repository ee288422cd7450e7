import Flpdf.Pages.SpliceInsert

/-!
# A splice that fails

Copying only adds objects, and the inserted objects are looked at before any node is
written back. So when one of them is no dictionary, the tree stays as it was.
-/

namespace Flpdf

open PageTree Std

variable {heap heap' : Heap} {a b p q node : Handle} {kids trees : List PageTree}

/-! ## Copying only adds -/

namespace Heap

/-- Whether it succeeds or not, a call has only added objects. -/
def Grows {α : Type} (heap : Heap) (result : α → Heap → Prop) : Outcome Heap α → Prop
  | .ok value heap' => Extends heap heap' ∧ heap'.Closed ∧ result value heap'
  | .failed _ heap' => Extends heap heap' ∧ heap'.Closed

theorem Grows.andThen {α β : Type} {result : α → Heap → Prop} {result' : β → Heap → Prop}
    {outcome : Outcome Heap α} {next : α → Heap → Outcome Heap β} (h : Grows heap result outcome)
    (hnext : ∀ value heap', Extends heap heap' → heap'.Closed → result value heap' →
      Grows heap' result' (next value heap')) : Grows heap result' (outcome.andThen next) := by
  cases outcome with
  | failed failure heap' => exact h
  | ok value heap' =>
    obtain ⟨hextends, hclosed, hresult⟩ := h
    have hrest := hnext value heap' hextends hclosed hresult
    rw [Outcome.andThen_ok]
    cases hrun : next value heap' with
    | failed failure heap'' =>
      rw [hrun] at hrest
      exact ⟨hextends.trans hrest.1, hrest.2⟩
    | ok value' heap'' =>
      rw [hrun] at hrest
      exact ⟨hextends.trans hrest.1, hrest.2⟩

theorem Grows.alloc {value : SlotValue} (hclosed : heap.Closed) {size : ℕ} (hsize : size ≤ heap.size)
    (hchildren : ∀ child ∈ value.children, child < heap.size) :
    Grows heap (fun b heap' => size ≤ b ∧ b < heap'.size)
      (.ok (heap.alloc value).1 (heap.alloc value).2) :=
  ⟨extends_alloc value, closed_alloc hclosed hchildren, hsize, Nat.lt_succ_self _⟩

theorem Grows.mono {α : Type} {result result' : α → Heap → Prop} {outcome : Outcome Heap α}
    (h : Grows heap result outcome) (hresult : ∀ value heap', result value heap' → result' value heap') :
    Grows heap result' outcome := by
  cases outcome with
  | failed failure heap' => exact h
  | ok value heap' => exact ⟨h.1, h.2.1, hresult value heap' h.2.2⟩

variable {copy : Handle → Heap → Outcome Heap Handle}

/-- A copying function returns a new object. -/
def GrowsAll (copy : Handle → Heap → Outcome Heap Handle) : Prop :=
  ∀ a heap, heap.Closed → a < heap.size →
    Grows heap (fun b heap' => heap.size ≤ b ∧ b < heap'.size) (copy a heap)

theorem copyChild_grows (hcopy : GrowsAll copy) (hclosed : heap.Closed) (ha : a < heap.size) :
    Grows heap (fun b heap' => b < heap'.size) (copyChild copy a heap) := by
  rw [copyChild]
  split
  · exact ⟨.refl heap, hclosed, ha⟩
  · exact (hcopy a heap hclosed ha).mono fun _ _ hboth => hboth.2

theorem copyItems_grows (hcopy : GrowsAll copy) : ∀ (items : List Handle) (heap : Heap),
    heap.Closed → (∀ a ∈ items, a < heap.size) →
      Grows heap (fun items' heap' => ∀ b ∈ items', b < heap'.size) (copyItems copy items heap) := by
  intro items
  induction items with
  | nil => exact fun heap hclosed _ => ⟨.refl heap, hclosed, fun b hb => absurd hb List.not_mem_nil⟩
  | cons item items ih =>
    intro heap hclosed hitems
    rw [copyItems]
    apply (copyChild_grows hcopy hclosed (hitems item List.mem_cons_self)).andThen
    intro y heap₁ hextends hclosed₁ hy
    apply (ih heap₁ hclosed₁ fun a ha =>
      Nat.lt_of_lt_of_le (hitems a (List.mem_cons_of_mem item ha)) hextends.size_le).andThen
    intro items' heap₂ hextends₂ hclosed₂ hitems'
    refine ⟨.refl heap₂, hclosed₂, ?_⟩
    intro b hb
    rcases List.mem_cons.mp hb with rfl | hb
    · exact Nat.lt_of_lt_of_le hy hextends₂.size_le
    · exact hitems' b hb

theorem copyEntries_grows (hcopy : GrowsAll copy) : ∀ (entries : List (Bytes × Handle)) (heap : Heap),
    heap.Closed → (∀ entry ∈ entries, entry.2 < heap.size) →
      Grows heap (fun (entries' : ExtTreeMap Bytes Handle) heap' =>
        ∀ (key : Bytes) b, entries'[key]? = some b → b < heap'.size) (copyEntries copy entries heap) := by
  intro entries
  induction entries with
  | nil =>
    intro heap hclosed _
    refine ⟨.refl heap, hclosed, ?_⟩
    intro key b hb
    rw [ExtTreeMap.getElem?_empty] at hb
    cases hb
  | cons entry entries ih =>
    intro heap hclosed hentries
    obtain ⟨key, value⟩ := entry
    rw [copyEntries]
    apply (copyChild_grows hcopy hclosed (hentries (key, value) List.mem_cons_self)).andThen
    intro y heap₁ hextends hclosed₁ hy
    apply (ih heap₁ hclosed₁ fun e he =>
      Nat.lt_of_lt_of_le (hentries e (List.mem_cons_of_mem _ he)) hextends.size_le).andThen
    intro entries' heap₂ hextends₂ hclosed₂ hentries'
    refine ⟨.refl heap₂, hclosed₂, ?_⟩
    intro other b hb
    rw [ExtTreeMap.getElem?_insert] at hb
    split at hb
    · cases hb
      exact Nat.lt_of_lt_of_le hy hextends₂.size_le
    · exact hentries' other b hb

theorem shallowCopy_grows : ∀ n, GrowsAll (shallowCopy n) := by
  intro n
  induction n with
  | zero => exact fun a heap hclosed _ => ⟨.refl heap, hclosed⟩
  | succ n ih =>
    intro a heap hclosed ha
    have hbelow : ∀ child ∈ (heap.value a).children, child < heap.size := hclosed a ha
    rw [shallowCopy]
    cases hvalue : heap.value a with
    | array items =>
      rw [hvalue] at hbelow
      apply (copyItems_grows ih items heap hclosed hbelow).andThen
      exact fun items' heap' hextends hclosed' hitems' => .alloc hclosed' hextends.size_le hitems'
    | dictionary entries =>
      rw [hvalue] at hbelow
      apply (copyEntries_grows ih entries.toList heap hclosed fun e he =>
        hbelow e.2 (List.mem_map.mpr ⟨e, he, rfl⟩)).andThen
      intro entries' heap' hextends hclosed' hentries'
      apply Grows.alloc hclosed' hextends.size_le
      intro child hchild
      obtain ⟨⟨key, c⟩, hmem, rfl⟩ := List.mem_map.mp hchild
      exact hentries' key c (ExtTreeMap.mem_toList_iff_getElem?_eq_some.mp hmem)
    | stream streamDict => exact ⟨.refl heap, hclosed⟩
    | _ => exact .alloc hclosed (Nat.le_refl _) fun child hchild => absurd hchild List.not_mem_nil

/-- Only the copy of a dictionary is one. -/
theorem isDictionary_shallowCopy {n : ℕ} (h : shallowCopy n a heap = .ok b heap') :
    heap'.isDictionary b = heap.isDictionary a := by
  cases n with
  | zero => cases h
  | succ n =>
    rw [shallowCopy] at h
    rw [isDictionary, isDictionary]
    have halloc : ∀ (heap₁ : Heap) (value : SlotValue),
        Outcome.ok (heap₁.alloc value).1 (heap₁.alloc value).2 = .ok b heap' →
          heap'.value b = value := by
      intro heap₁ value heq
      cases heq
      exact value_alloc_self
    cases hvalue : heap.value a with
    | array items =>
      simp only [hvalue] at h
      cases hrun : copyItems (shallowCopy n) items heap with
      | failed failure heap₁ =>
        rw [hrun] at h
        cases h
      | ok items' heap₁ =>
        rw [hrun] at h
        rw [halloc heap₁ _ h]
    | dictionary entries =>
      simp only [hvalue] at h
      cases hrun : copyEntries (shallowCopy n) entries.toList heap with
      | failed failure heap₁ =>
        rw [hrun] at h
        cases h
      | ok entries' heap₁ =>
        rw [hrun] at h
        rw [halloc heap₁ _ h]
    | stream streamDict =>
      simp only [hvalue] at h
      cases h
    | _ =>
      simp only [hvalue] at h
      rw [halloc heap _ h]

end Heap

/-- Some object is no dictionary, and all are in use. -/
structure Unfit (heap : Heap) (pages : List Handle) : Prop where
  lt : ∀ p ∈ pages, p < heap.size
  not_dictionary : ∃ p ∈ pages, heap.isDictionary p = false

theorem Unfit.frame {keys : Set (Handle × Bytes)} {arrays promoted : Set Handle} {pages : List Handle}
    (h : Unfit heap pages) (hframe : Heap.Frame heap heap' keys arrays promoted) :
    Unfit heap' pages where
  lt p hp := Nat.lt_of_lt_of_le (h.lt p hp) hframe.size_le
  not_dictionary := by
    obtain ⟨p, hp, hnot⟩ := h.not_dictionary
    exact ⟨p, hp, (hframe.isDictionary_eq p (h.lt p hp)).trans hnot⟩

theorem normalizeInsertPages_grows (copyFuel : ℕ) : ∀ (pages occupied : List Handle) (heap : Heap),
    heap.Closed → (∀ p ∈ pages, p < heap.size) →
      heap.Grows (fun pages' heap' => (∀ q ∈ pages', q < heap'.size) ∧
          ((∃ p ∈ pages, heap.isDictionary p = false) → ∃ q ∈ pages', heap'.isDictionary q = false))
        (normalizeInsertPages copyFuel pages occupied heap) := by
  intro pages
  induction pages with
  | nil =>
    intro occupied heap hclosed _
    refine ⟨.refl heap, hclosed, fun q hq => absurd hq List.not_mem_nil, ?_⟩
    rintro ⟨p, hp, -⟩
    cases hp
  | cons p pages ih =>
    intro occupied heap hclosed hpages
    have hp := hpages p List.mem_cons_self
    -- one page, kept or copied, in front of the pages that follow
    have hcons : ∀ (q : Handle) (heap₁ : Heap) (occupied' : List Handle), heap.Extends heap₁ →
        heap₁.Closed → q < heap₁.size → heap₁.isDictionary q = heap.isDictionary p →
        heap₁.Grows (fun pages' heap' => (∀ q ∈ pages', q < heap'.size) ∧
            ((∃ a ∈ p :: pages, heap.isDictionary a = false) →
              ∃ q ∈ pages', heap'.isDictionary q = false))
          ((normalizeInsertPages copyFuel pages occupied' heap₁).andThen
            fun rest heap => .ok (q :: rest) heap) := by
      intro q heap₁ occupied' hextends hclosed₁ hq hsame
      have hrest : ∀ a ∈ pages, a < heap.size := fun a ha => hpages a (List.mem_cons_of_mem p ha)
      apply (ih occupied' heap₁ hclosed₁
        fun a ha => Nat.lt_of_lt_of_le (hrest a ha) hextends.size_le).andThen
      rintro rest heap₂ hextends₂ hclosed₂ ⟨hlt, hunfit⟩
      refine ⟨.refl heap₂, hclosed₂, ?_, ?_⟩
      · intro b hb
        rcases List.mem_cons.mp hb with rfl | hb
        · exact Nat.lt_of_lt_of_le hq hextends₂.size_le
        · exact hlt b hb
      · rintro ⟨a, ha, hnot⟩
        rcases List.mem_cons.mp ha with rfl | ha
        · refine ⟨q, List.mem_cons_self, ?_⟩
          rw [Heap.isDictionary, hextends₂.value_eq hq, ← Heap.isDictionary, hsame, hnot]
        · obtain ⟨b, hb, hnot'⟩ := hunfit ⟨a, ha, by
            rw [Heap.isDictionary, hextends.value_eq (hrest a ha), ← Heap.isDictionary, hnot]⟩
          exact ⟨b, List.mem_cons_of_mem q hb, hnot'⟩
    rw [normalizeInsertPages]
    split
    · exact hcons p heap (p :: occupied) (.refl heap) hclosed hp rfl
    · have hcopy := Heap.shallowCopy_grows copyFuel p heap hclosed hp
      cases hrun : heap.shallowCopy copyFuel p with
      | failed failure heap₁ =>
        rw [hrun] at hcopy
        exact hcopy
      | ok q heap₁ =>
        rw [hrun] at hcopy
        obtain ⟨hextends, hclosed₁, hnew, hq⟩ := hcopy
        have hextends₂ := Heap.extends_makeIndirect hextends hnew
        have hrest := hcons q (heap₁.makeIndirect q) (q :: occupied) hextends₂ hclosed₁.makeIndirect hq
          (Heap.isDictionary_makeIndirect.trans (Heap.isDictionary_shallowCopy hrun))
        rw [Outcome.andThen_ok]
        cases hlast : (normalizeInsertPages copyFuel pages (q :: occupied)
            (heap₁.makeIndirect q)).andThen fun rest heap => .ok (q :: rest) heap with
        | failed failure heap₂ =>
          rw [hlast] at hrest
          exact ⟨hextends₂.trans hrest.1, hrest.2⟩
        | ok pages' heap₂ =>
          rw [hlast] at hrest
          exact ⟨hextends₂.trans hrest.1, hrest.2⟩

/-! ## The walk -/

/-- The entries under `/Parent`. -/
def parentKeys : Set (Handle × Bytes) := {entry | entry.2 = ascii "/Parent"}

/-- A failure that has changed nothing but some `/Parent`. -/
def FailsEarly {α : Type} (heap : Heap) (outcome : Outcome SpliceState α) : Prop :=
  ∃ failure st, outcome = .failed failure st ∧ Heap.Frame heap st.heap parentKeys ∅ ∅

theorem FailsEarly.andThen {α β : Type} {outcome : Outcome SpliceState α}
    (h : FailsEarly heap outcome) (next : α → SpliceState → Outcome SpliceState β) :
    FailsEarly heap (outcome.andThen next) := by
  obtain ⟨failure, st, hrun, hframe⟩ := h
  refine ⟨failure, st, ?_, hframe⟩
  rw [hrun]
  rfl

theorem setPageParents_fails (node : Handle) : ∀ (pages : List Handle) (st : SpliceState),
    st.heap.Closed → node < st.heap.size → st.heap.isNull node = false → Unfit st.heap pages →
      FailsEarly st.heap (setPageParents node pages st) := by
  intro pages
  induction pages with
  | nil =>
    intro st _ _ _ hunfit
    obtain ⟨p, hp, -⟩ := hunfit.not_dictionary
    cases hp
  | cons page pages ih =>
    intro st hclosed hlt hnull hunfit
    rw [setPageParents]
    cases hdictionary : st.heap.isDictionary page with
    | false =>
      refine ⟨_, st, if_pos rfl, ?_⟩
      exact (Heap.Frame.refl hclosed).mono (Set.empty_subset _) (fun _ hx => hx) (fun _ hx => hx)
    | true =>
      have hrest : Unfit st.heap pages := by
        obtain ⟨p, hp, hnot⟩ := hunfit.not_dictionary
        refine ⟨fun a ha => hunfit.lt a (List.mem_cons_of_mem page ha), p, ?_, hnot⟩
        apply (List.mem_cons.mp hp).resolve_left
        rintro rfl
        rw [hdictionary] at hnot
        cases hnot
      simp only [Bool.not_true, Bool.false_eq_true, if_false]
      split
      · have hset := Heap.frame_replaceKey hclosed (ascii "/Parent") hdictionary hnull hlt
        obtain ⟨failure, st', hrun, hframe⟩ :=
          ih { st with heap := st.heap.replaceKey page (ascii "/Parent") node } hset.closed
            (Nat.lt_of_lt_of_le hlt hset.size_le) ((hset.isNull_eq node hlt).trans hnull)
            (hrest.frame hset)
        refine ⟨failure, st', hrun, ?_⟩
        apply (hset.trans hframe).mono
        · rintro entry (rfl | hmem)
          · rfl
          · exact hmem
        · exact fun a ha => ha.elim id id
        · exact fun a ha => ha.elim id id
      · exact ih st hclosed hlt hnull hrest

namespace Splice

variable {splice : Splice} {st : SpliceState}

/-- What makes the walk fail. -/
structure Blocked (splice : Splice) (st : SpliceState) (trees : List PageTree) : Prop where
  closed : st.heap.Closed
  todo : st.insertDone = false
  range : splice.start ≤ splice.stop
  unfit : Unfit st.heap splice.insert
  holds : HoldsAll st.heap trees
  named : ∀ p ∈ leavesAll trees, (st.heap.objectRef p).isSome = true

theorem insertAt_fails (h : splice.Blocked st trees) (hlt : node < st.heap.size)
    (hnode : st.heap.isDictionary node = true) (now : NewKids) (hstart : splice.start = now.offset) :
    FailsEarly st.heap (splice.insertAt node now st) := by
  have hcode : (!st.insertDone && splice.start == now.offset) = true := by
    rw [h.todo, hstart]
    simp
  rw [insertAt, if_pos hcode]
  apply FailsEarly.andThen
  exact setPageParents_fails node splice.insert st h.closed hlt (Heap.isNull_of_isDictionary hnode)
    h.unfit

theorem insertAt_skips (h : splice.Blocked st trees) (now : NewKids)
    (hstart : splice.start ≠ now.offset) : splice.insertAt node now st = .ok now st := by
  rw [insertAt, if_neg]
  simp [h.todo, hstart]

theorem Blocked.cons {tree : PageTree} (h : splice.Blocked st (tree :: trees)) :
    splice.Blocked st [tree] ∧ splice.Blocked st trees := by
  obtain ⟨hclosed, htodo, hrange, hunfit, hholds, hnamed⟩ := h
  rw [HoldsAll] at hholds
  rw [leavesAll] at hnamed
  refine ⟨⟨hclosed, htodo, hrange, hunfit, ⟨hholds.1, trivial⟩, ?_⟩,
    ⟨hclosed, htodo, hrange, hunfit, hholds.2, ?_⟩⟩
  · rw [leavesAll_singleton]
    exact fun p hp => hnamed p (List.mem_append_left _ hp)
  · exact fun p hp => hnamed p (List.mem_append_right _ hp)

/-- The walk fails in a node in which the range starts. -/
def Stops (splice : Splice) (depth : ℕ) (node : Handle) (kids : List PageTree) : Prop :=
  ∀ st base, splice.Blocked st [.pages node kids] → base ≤ splice.start →
    splice.start ≤ base + (leavesAll kids).length →
      FailsEarly st.heap (splice.spliceSubtree depth node base st)

/-- The range starts inside of this kid. -/
theorem takeKid_fails {depth : ℕ} {tree : PageTree}
    (hstops : ∀ node kids, tree = .pages node kids → splice.Stops depth node kids)
    (h : splice.Blocked st [tree]) (now : NewKids) (hbefore : now.offset < splice.start)
    (hinside : splice.start < now.offset + tree.leaves.length) :
    FailsEarly st.heap
      (splice.takeKid (splice.spliceSubtree depth) tree.handle tree.leaves.length now st) := by
  have hholds := h.holds
  rw [HoldsAll] at hholds
  have hrange := h.range
  have hcode : (decide (now.offset + tree.leaves.length > splice.start) &&
      decide (now.offset < splice.stop)) = true := by
    simp only [Bool.and_eq_true, decide_eq_true_eq]
    omega
  rw [takeKid]
  simp only [hcode, if_true]
  cases tree with
  | page p =>
    rw [leaves, List.length_singleton] at hinside
    omega
  | pages node kids =>
    rw [handle, hasKids_pages hholds.1, if_pos rfl]
    rw [leaves] at hinside
    exact (hstops node kids rfl st now.offset h (Nat.le_of_lt hbefore) (Nat.le_of_lt hinside)).andThen _

/-- A kid in front of the range. -/
theorem takeKid_before {recurse : Handle → ℕ → SpliceState → Outcome SpliceState ℤ} (kid : Handle)
    (count : ℕ) (now : NewKids) (hbefore : now.offset + count ≤ splice.start) :
    splice.takeKid recurse kid count now st =
      .ok ⟨now.kids ++ [kid], now.netDelta, now.offset + count⟩ st := by
  have hcode : (decide (now.offset + count > splice.start) && decide (now.offset < splice.stop)) =
      false := by
    simp only [Bool.and_eq_false_iff, decide_eq_false_iff_not]
    omega
  rw [takeKid]
  simp only [hcode, Bool.false_eq_true, if_false]

/-- The loop fails, or it ends in front of the range with nothing done. -/
theorem spliceKids_stops {depth : ℕ} : ∀ (trees : List PageTree),
    (∀ tree ∈ trees, ∀ node kids, tree = .pages node kids → splice.Stops depth node kids) →
    ∀ (now : NewKids), splice.Blocked st trees → node < st.heap.size →
      st.heap.isDictionary node = true → now.offset ≤ splice.start →
      FailsEarly st.heap
          (splice.spliceKids (splice.spliceSubtree depth) node (trees.map handle) now st) ∨
        ∃ new, splice.spliceKids (splice.spliceSubtree depth) node (trees.map handle) now st =
            .ok new st ∧
          new.offset = now.offset + (leavesAll trees).length ∧ new.offset ≤ splice.start := by
  intro trees
  induction trees with
  | nil =>
    intro _ now _ _ _ hle
    exact .inr ⟨now, rfl, rfl, hle⟩
  | cons tree trees ih =>
    intro hstops now h hlt hnode hle
    obtain ⟨hhead, htail⟩ := h.cons
    have hholds := hhead.holds
    rw [HoldsAll] at hholds
    rw [List.map_cons, spliceKids, leafCountOf_eq hholds.1]
    by_cases hstart : splice.start = now.offset
    · exact .inl (((insertAt_fails h hlt hnode now hstart).andThen _).andThen _)
    · simp only [insertAt_skips h now hstart, Outcome.andThen_ok]
      by_cases hinside : splice.start < now.offset + tree.leaves.length
      · left
        apply FailsEarly.andThen
        exact takeKid_fails (hstops tree List.mem_cons_self) hhead now (by omega) hinside
      · rw [takeKid_before tree.handle tree.leaves.length now (by omega), Outcome.andThen_ok]
        have hrest := ih (fun t ht => hstops t (List.mem_cons_of_mem tree ht))
          ⟨now.kids ++ [tree.handle], now.netDelta, now.offset + tree.leaves.length⟩ htail hlt hnode
          (by simp only; omega)
        refine hrest.imp id ?_
        rintro ⟨new, hrun, hoffset, hbefore⟩
        refine ⟨new, hrun, ?_, hbefore⟩
        rw [hoffset, leavesAll, List.length_append, Nat.add_assoc]

/-- Where an inserted object is no dictionary, the walk fails before it writes a node back. -/
theorem spliceSubtree_fails : ∀ (depth : ℕ) (node : Handle) (kids : List PageTree),
    heightAll kids < depth → splice.Stops depth node kids := by
  intro depth
  induction depth with
  | zero => exact fun node kids h => absurd h (Nat.not_lt_zero _)
  | succ depth ih =>
    intro node kids hheight st base h hbase hstop
    have hholds := h.holds
    have hnamed := h.named
    simp only [HoldsAll, Holds, and_true] at hholds
    simp only [leavesAll_singleton, leaves] at hnamed
    obtain ⟨hlt, hnode, hitems, hcount, hkids⟩ := hholds
    have hblocked : splice.Blocked st kids :=
      ⟨h.closed, h.todo, h.range, h.unfit, hkids, hnamed⟩
    have hdeclared : st.heap.declaredCount node = .ok (leavesAll kids).length := by
      rw [Heap.declaredCount, hcount]
      simp
    have hstops : ∀ tree ∈ kids, ∀ node kids, tree = .pages node kids →
        splice.Stops depth node kids := by
      rintro tree htree node' kids' rfl
      apply ih
      have hle := height_le_heightAll htree
      rw [height] at hle
      omega
    rw [spliceSubtree]
    simp only [hnode, Bool.not_true, Bool.false_eq_true, if_false, hitems, Option.getD_some,
      no_direct_leaf kids hkids hnamed, hdeclared, sumLeafCounts_eq kids 0 hkids, Nat.zero_add,
      ne_eq, not_true_eq_false]
    apply FailsEarly.andThen
    rcases spliceKids_stops kids hstops ⟨[], 0, base⟩ hblocked hlt hnode hbase with
      hfails | ⟨new, hrun, hoffset, hbefore⟩
    · exact hfails.andThen _
    · rw [hrun, Outcome.andThen_ok]
      apply insertAt_fails hblocked hlt hnode
      simp only at hoffset
      omega

end Splice

end Flpdf
