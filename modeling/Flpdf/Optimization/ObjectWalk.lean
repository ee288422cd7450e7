import Flpdf.Optimization.ObjectMaps

/-!
# The walk behind the object maps

The loop of `update_object_maps` is a depth-first search whose marks are the
object identities. It ends, its records are those of the recursive definition,
and it records what the followed edges reach.
-/

namespace Flpdf

open Std DepthFirst

variable {pdf : Pdf} {skip : SkipStreamParameters} {maps base : Optimization}
  {visited : ExtTreeSet QpdfObjGen} {log : List (QpdfObjGen × Pending)} {stack : List Pending}
  {p : Pending} {fuel : ℕ} {user : ObjectUser} {object : ObjectValue} {objectGen : QpdfObjGen}

namespace Pdf

/-- A null is recorded in an array slot only, a page only at the start. -/
def placeEntry (pdf : Pdf) (object : ObjectValue) (top viaArray : Bool) : Entry QpdfObjGen :=
  if pdf.isNull object then
    match object.qpdfObjGen with
    | some objectGen => if viaArray && 0 < objectGen.object then .mark objectGen else .skip
    | none => .skip
  else if pdf.isPage object && !top then .skip
  else
    match object.qpdfObjGen with
    | some objectGen => .mark objectGen
    | none => .pass

def pendingEntry (pdf : Pdf) (p : Pending) : Entry QpdfObjGen :=
  pdf.placeEntry p.object p.top p.viaArray

def pendingSearch (pdf : Pdf) (skip : SkipStreamParameters) : Search Pending QpdfObjGen :=
  ⟨pdf.pendingEntry, pdf.pendingChildren skip⟩

/-- What a visit has recorded. -/
def recordOf (e : QpdfObjGen × Pending) : ObjectUser × QpdfObjGen := (e.2.user, e.1)

/-- The state of the loop says the same as the log of the search. -/
structure Tracks (base maps : Optimization) (visited : ExtTreeSet QpdfObjGen)
    (log : List (QpdfObjGen × Pending)) : Prop where
  maps_eq : maps = base.recordAll (log.map recordOf)
  visited_iff : ∀ objectGen, visited.contains objectGen = true ↔ objectGen ∈ log.map Prod.fst

theorem pendingChildren_of_isNull (h : pdf.isNull p.object = true) :
    pdf.pendingChildren skip p = [] := by
  rw [pendingChildren]
  rw [isNull] at h
  cases hvalue : pdf.dereference p.object <;> simp_all [ObjectValue.isNull]

theorem pushReversed_eq (children stack : List Pending) :
    pushReversed children stack = children ++ stack := by
  rw [pushReversed, List.foldl_reverse]
  induction children with
  | nil => rfl
  | cons child children ih => rw [List.foldr_cons, ih, List.cons_append]

theorem Tracks.record (h : Tracks base maps visited log) (p : Pending) (objectGen : QpdfObjGen) :
    Tracks base (maps.recordRaw p.user objectGen) (visited.insert objectGen)
      (log ++ [(objectGen, p)]) where
  maps_eq := by
    rw [h.maps_eq, List.map_append, Optimization.recordAll, Optimization.recordAll,
      List.foldl_append]
    rfl
  visited_iff other := by
    rw [ExtTreeSet.contains_insert, Bool.or_eq_true, h.visited_iff, beq_iff_eq,
      LawfulEqCmp.compare_eq_iff_eq, List.map_append, List.mem_append]
    simp only [List.map_cons, List.map_nil, List.mem_singleton]
    rw [or_comm, eq_comm]

/-- One turn of the loop is one visit of the search. -/
theorem Tracks.visitPending (h : Tracks base maps visited log) (pdf : Pdf)
    (skip : SkipStreamParameters) (p : Pending) :
    Tracks base (pdf.visitPending skip maps visited p).1 (pdf.visitPending skip maps visited p).2.1
        ((pdf.pendingSearch skip).visit log p).1 ∧
      (pdf.visitPending skip maps visited p).2.2 = ((pdf.pendingSearch skip).visit log p).2 := by
  have hseen : ∀ objectGen, visited.contains objectGen = false ↔ objectGen ∉ log.map Prod.fst := by
    intro objectGen
    rw [← h.visited_iff, Bool.not_eq_true]
  simp only [Pdf.visitPending, Search.visit, pendingSearch, pendingEntry, placeEntry]
  by_cases hnull : pdf.isNull p.object = true
  · simp only [hnull, if_true, pendingChildren_of_isNull]
    cases hid : p.object.qpdfObjGen with
    | none => exact ⟨h, rfl⟩
    | some objectGen =>
      by_cases hslot : (p.viaArray && decide (0 < objectGen.object)) = true
      · simp only [hslot, Bool.true_and, if_true]
        by_cases hmem : objectGen ∈ log.map Prod.fst
        · rw [(h.visited_iff objectGen).mpr hmem, if_pos hmem]
          exact ⟨h, rfl⟩
        · rw [(hseen objectGen).mpr hmem, if_neg hmem]
          exact ⟨h.record p objectGen, rfl⟩
      · simp only [Bool.not_eq_true] at hslot
        simp only [hslot, Bool.false_and, Bool.false_eq_true, if_false]
        exact ⟨h, trivial⟩
  · simp only [hnull, Bool.false_eq_true, if_false]
    by_cases hpage : (pdf.isPage p.object && !p.top) = true
    · rw [if_pos hpage, if_pos hpage]
      exact ⟨h, rfl⟩
    · rw [if_neg hpage, if_neg hpage]
      cases hid : p.object.qpdfObjGen with
      | none => exact ⟨h, rfl⟩
      | some objectGen =>
        simp only
        by_cases hmem : objectGen ∈ log.map Prod.fst
        · rw [(h.visited_iff objectGen).mpr hmem, if_pos hmem]
          exact ⟨h, rfl⟩
        · rw [(hseen objectGen).mpr hmem, if_neg hmem]
          exact ⟨h.record p objectGen, rfl⟩

theorem updateLoop_eq (h : Tracks base maps visited log) :
    pdf.updateLoop skip fuel maps visited stack =
      ((pdf.pendingSearch skip).loop fuel log stack).map fun log =>
        base.recordAll (log.map recordOf) := by
  induction fuel generalizing maps visited log stack with
  | zero =>
    cases stack with
    | nil => exact congrArg some h.maps_eq
    | cons p stack => rfl
  | succ fuel ih =>
    cases stack with
    | nil => exact congrArg some h.maps_eq
    | cons p stack =>
      obtain ⟨htracks, hchildren⟩ := h.visitPending pdf skip p
      show pdf.updateLoop skip fuel (pdf.visitPending skip maps visited p).1
        (pdf.visitPending skip maps visited p).2.1
        (pushReversed (pdf.visitPending skip maps visited p).2.2 stack) = _
      rw [Search.loop, pushReversed_eq, hchildren]
      exact ih htracks

/-- A walk records the log of its search. -/
theorem updateObjectMaps_eq :
    pdf.updateObjectMaps skip fuel maps user object =
      ((pdf.pendingSearch skip).loop fuel [] [⟨object, user, true, false⟩]).map fun log =>
        maps.recordAll (log.map recordOf) := by
  apply updateLoop_eq
  constructor
  · rfl
  · intro objectGen
    simp

/-! ## The walk ends -/

theorem sizeOf_children_array (items : List ObjectValue) :
    (items.map sizeOf).sum ≤ sizeOf items := by
  induction items with
  | nil => exact Nat.zero_le _
  | cons item items ih =>
    simp only [List.map_cons, List.sum_cons, List.cons.sizeOf_spec]
    omega

theorem sizeOf_children_dictionary (entries : List (Bytes × ObjectValue)) :
    (entries.map fun entry => sizeOf entry.2).sum ≤ sizeOf entries := by
  induction entries with
  | nil => exact Nat.zero_le _
  | cons entry entries ih =>
    obtain ⟨key, value⟩ := entry
    simp only [List.map_cons, List.sum_cons, List.cons.sizeOf_spec, Prod.mk.sizeOf_spec]
    omega

theorem sum_map_filter_le (keep : Bytes × ObjectValue → Bool) (entries : List (Bytes × ObjectValue)) :
    ((entries.filter keep).map fun entry => sizeOf entry.2).sum ≤
      (entries.map fun entry => sizeOf entry.2).sum := by
  induction entries with
  | nil => exact Nat.le_refl _
  | cons entry entries ih =>
    rw [List.filter_cons]
    split
    · simp only [List.map_cons, List.sum_cons]
      omega
    · simp only [List.map_cons, List.sum_cons]
      omega

/-- The children together are smaller than the value they are in. -/
theorem sizeOf_pendingChildren (pdf : Pdf) (skip : SkipStreamParameters) (p : Pending) :
    ((pdf.pendingChildren skip p).map fun child => sizeOf child.object).sum <
      sizeOf (pdf.dereference p.object) := by
  have hentries : ∀ (keep : Bytes × ObjectValue → Bool) (entries : List (Bytes × ObjectValue)),
      (((pdf.visibleChildren entries).filter keep).map fun entry => sizeOf entry.2).sum ≤
        sizeOf entries := by
    intro keep entries
    calc _ ≤ ((pdf.visibleChildren entries).map fun entry => sizeOf entry.2).sum :=
          sum_map_filter_le _ _
      _ ≤ (entries.map fun entry => sizeOf entry.2).sum := sum_map_filter_le _ _
      _ ≤ sizeOf entries := sizeOf_children_dictionary entries
  rw [pendingChildren]
  split
  · rename_i items hvalue
    rw [hvalue, List.map_map]
    have hle := sizeOf_children_array items
    simp only [ObjectValue.array.sizeOf_spec]
    exact Nat.lt_of_le_of_lt hle (by omega)
  · rename_i entries hvalue
    rw [hvalue, List.map_map]
    simp only [ObjectValue.stream.sizeOf_spec, ObjectValue.dictionary.sizeOf_spec]
    exact Nat.lt_of_le_of_lt (hentries _ entries) (by omega)
  · rename_i entries hvalue
    rw [hvalue, List.map_map]
    simp only [ObjectValue.dictionary.sizeOf_spec]
    exact Nat.lt_of_le_of_lt (hentries _ entries) (by omega)
  · cases pdf.dereference p.object <;> simp

theorem direct_of_pass (h : pdf.pendingEntry p = .pass) : pdf.dereference p.object = p.object := by
  rw [pendingEntry, placeEntry] at h
  cases hvalue : p.object with
  | indirect objectGen =>
    simp only [hvalue, ObjectValue.qpdfObjGen] at h
    split at h
    · split at h <;> cases h
    · split at h <;> cases h
  | _ => rfl

theorem indirect_of_mark (h : pdf.pendingEntry p = .mark objectGen) :
    p.object = .indirect objectGen := by
  rw [pendingEntry, placeEntry] at h
  cases hvalue : p.object with
  | indirect other =>
    simp only [hvalue, ObjectValue.qpdfObjGen] at h
    split at h
    · split at h <;> cases h
      rfl
    · split at h <;> cases h
      rfl
  | _ =>
    simp only [hvalue, ObjectValue.qpdfObjGen] at h
    split at h
    · cases h
    · split at h <;> cases h

theorem value_of_not_mem (h : objectGen ∉ pdf.objects.map Prod.fst) : pdf.value objectGen = .null := by
  have hlookup : pdf.objects.lookup objectGen = none := by
    rw [List.lookup_eq_none_iff]
    intro entry hentry
    rw [bne_iff_ne]
    rintro rfl
    exact h (List.mem_map_of_mem hentry)
  rw [value, hlookup]
  rfl

/-- A pending value weighs its size, an object lends the size of its value once. -/
noncomputable def pendingWeights (pdf : Pdf) (skip : SkipStreamParameters) :
    (pdf.pendingSearch skip).Weights where
  weight p := sizeOf p.object
  budget objectGen :=
    if objectGen ∈ pdf.objects.map Prod.fst then sizeOf (pdf.value objectGen) else 0
  marks := pdf.objects.map Prod.fst
  weight_pos p := by
    cases p.object <;> simp
  children_of_pass p h := by
    have hlt := sizeOf_pendingChildren pdf skip p
    rw [direct_of_pass h] at hlt
    exact hlt
  children_of_mark p objectGen h := by
    have hid := indirect_of_mark h
    split
    · have hlt := sizeOf_pendingChildren pdf skip p
      rw [hid] at hlt
      exact Nat.le_of_lt hlt
    · rename_i hmem
      have hnull : pdf.isNull p.object = true := by
        rw [isNull, hid, dereference, value_of_not_mem hmem]
        rfl
      rw [show (pdf.pendingSearch skip).children p = [] from pendingChildren_of_isNull hnull]
      exact Nat.zero_le _
  budget_of_not_mem objectGen h := if_neg h

/-- Fuel that every walk from a value gets by with. -/
noncomputable def walkBound (pdf : Pdf) (skip : SkipStreamParameters) (object : ObjectValue) : ℕ :=
  (pdf.pendingWeights skip).unspent [] + sizeOf object

/-- A walk ends, whatever its user, and it is the recursion. -/
theorem exists_log (pdf : Pdf) (skip : SkipStreamParameters) (start : Pending) :
    ∃ log depth,
      (∀ fuel, pdf.walkBound skip start.object ≤ fuel →
        (pdf.pendingSearch skip).loop fuel [] [start] = some log) ∧
      ∀ n, depth ≤ n → (pdf.pendingSearch skip).walk n [] start = some log := by
  have hbound : (pdf.pendingWeights skip).measure [] [start] ≤ pdf.walkBound skip start.object :=
    Nat.le_refl _
  obtain ⟨log, depth, hloop, hwalk⟩ :=
    Search.loop_eq_walk (pdf.pendingWeights skip).measure_decreases hbound
  refine ⟨log, depth, ?_, ?_⟩
  · intro fuel hfuel
    obtain ⟨k, rfl⟩ := Nat.exists_eq_add_of_le hfuel
    exact Search.loop_mono hloop k
  · intro n hn
    have hfold := hwalk n hn
    rw [List.foldlM_cons] at hfold
    obtain ⟨log', hfirst, hrest⟩ := Option.bind_eq_some_iff.mp hfold
    cases hrest
    exact hfirst

/-! ## The recursive definition -/

/-- The records of what is below a pending value: a null only in an array slot, a
page only at the start, every object once, and the children in key order. -/
def recordBelow (pdf : Pdf) (skip : SkipStreamParameters) :
    ℕ → List (ObjectUser × QpdfObjGen) → Pending → Option (List (ObjectUser × QpdfObjGen))
  | 0, _, _ => none
  | depth + 1, records, p =>
    if pdf.isNull p.object then
      match p.object.qpdfObjGen with
      | some objectGen =>
        if p.viaArray ∧ 0 < objectGen.object ∧ objectGen ∉ records.map Prod.snd then
          some (records ++ [(p.user, objectGen)])
        else some records
      | none => some records
    else if pdf.isPage p.object ∧ ¬ p.top then some records
    else
      match p.object.qpdfObjGen with
      | some objectGen =>
        if objectGen ∈ records.map Prod.snd then some records
        else (pdf.pendingChildren skip p).foldlM (recordBelow pdf skip depth)
          (records ++ [(p.user, objectGen)])
      | none => (pdf.pendingChildren skip p).foldlM (recordBelow pdf skip depth) records

theorem foldlM_map_records {f : List (QpdfObjGen × Pending) → Pending → Option (List (QpdfObjGen × Pending))}
    {g : List (ObjectUser × QpdfObjGen) → Pending → Option (List (ObjectUser × QpdfObjGen))}
    (h : ∀ log p, g (log.map recordOf) p = (f log p).map (List.map recordOf))
    (children : List Pending) (log : List (QpdfObjGen × Pending)) :
    children.foldlM g (log.map recordOf) = (children.foldlM f log).map (List.map recordOf) := by
  induction children generalizing log with
  | nil => rfl
  | cons child children ih =>
    rw [List.foldlM_cons, List.foldlM_cons, h]
    cases f log child with
    | none => rfl
    | some log' => exact ih log'

/-- The recursion records what the depth-first recursion logs. -/
theorem recordBelow_eq (pdf : Pdf) (skip : SkipStreamParameters) (depth : ℕ) (log : List (QpdfObjGen × Pending)) (p : Pending) :
    pdf.recordBelow skip depth (log.map recordOf) p =
      ((pdf.pendingSearch skip).walk depth log p).map (List.map recordOf) := by
  induction depth generalizing log p with
  | zero => rfl
  | succ depth ih =>
    have hkeys : (log.map recordOf).map Prod.snd = log.map Prod.fst := by
      rw [List.map_map]
      rfl
    have happend : ∀ objectGen, log.map recordOf ++ [(p.user, objectGen)] =
        (log ++ [(objectGen, p)]).map recordOf := by
      intro objectGen
      rw [List.map_append]
      rfl
    simp only [recordBelow, Search.walk, Search.visit, pendingSearch, pendingEntry, placeEntry, hkeys,
      happend]
    by_cases hnull : pdf.isNull p.object = true
    · simp only [hnull, if_true, pendingChildren_of_isNull]
      cases hid : p.object.qpdfObjGen with
      | none => rfl
      | some objectGen =>
        by_cases hslot : p.viaArray = true ∧ 0 < objectGen.object
        · by_cases hmem : objectGen ∈ log.map Prod.fst
          · simp only [hslot, hmem, not_true, and_false, if_false, decide_true, Bool.and_true, if_true]
            rfl
          · simp only [hslot, hmem, not_false_eq_true, and_self, if_true, decide_true, Bool.and_true,
              if_false]
            rfl
        · have hfalse : (p.viaArray && decide (0 < objectGen.object)) = false := by
            rw [Bool.eq_false_iff]
            intro h
            rw [Bool.and_eq_true, decide_eq_true_eq] at h
            exact hslot h
          dsimp only
          rw [if_neg fun h => hslot ⟨h.1, h.2.1⟩]
          simp only [hfalse, Bool.false_eq_true, if_false]
          rfl
    · simp only [hnull, Bool.false_eq_true, if_false]
      by_cases hpage : (pdf.isPage p.object && !p.top) = true
      · have hstop : pdf.isPage p.object = true ∧ ¬ p.top = true := by
          rw [Bool.and_eq_true, Bool.not_eq_true'] at hpage
          exact ⟨hpage.1, by rw [hpage.2]; exact Bool.false_ne_true⟩
        rw [if_pos hstop, if_pos hpage]
        rfl
      · have hgo : ¬ (pdf.isPage p.object = true ∧ ¬ p.top = true) := by
          rintro ⟨h, htop⟩
          exact hpage (by rw [h, Bool.eq_false_iff.mpr htop]; rfl)
        rw [if_neg hgo, if_neg hpage]
        cases hid : p.object.qpdfObjGen with
        | none => exact foldlM_map_records ih _ _
        | some objectGen =>
          by_cases hmem : objectGen ∈ log.map Prod.fst
          · simp only [hmem, if_true]
            rfl
          · simp only [hmem, if_false]
            exact foldlM_map_records ih _ _

end Pdf

end Flpdf
