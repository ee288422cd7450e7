import Flpdf.Writer.LiveNumbering

/-!
# Calls of the live queue

Every call ends, keeps the numbering invariant and the numbers already given.
-/

namespace Flpdf.LiveQueue

open Std

variable {q q' : LiveQueue} {popped : List ObjectHandle} {handle : ObjectHandle}
  {source : ObjectRef} {rawSource : QpdfObjGen} {pdf : Document} {fuel : ℕ}
  {outcome : Outcome (Option ObjectRef)}

/-! ## The branches -/

theorem reserveLengthHolder_advance (h : Live q popped)
    (hkey : source ∈ q.oldToNew ∨ ∃ objGen : QpdfObjGen, q.rawOldToNew[objGen]? = some source)
    (hnew : q.Apart → source ∉ q.streamLengthHolders) :
    Advance popped q (q.reserveLengthHolder source).2 := by
  unfold reserveLengthHolder
  cases hreserve : q.reserveOutputNumber with
  | error e => exact .refl h
  | ok reserved =>
    obtain ⟨output, q₁⟩ := reserved
    obtain ⟨rfl, rfl⟩ := reserveOutputNumber_eq_ok hreserve
    exact advance_lengthHolder h hkey hnew

theorem numberMembers_advance (members : List ObjectRef) (h : Live q popped)
    (hmembers : ∀ member ∈ members, member ∈ q.memberToContainer) :
    Advance popped q (numberMembers members q).2 := by
  induction members generalizing q with
  | nil => exact .refl h
  | cons member members ih =>
    rw [numberMembers]
    have htail : ∀ m ∈ members, m ∈ q.memberToContainer := by
      intro m hm
      exact hmembers m (List.mem_cons_of_mem _ hm)
    by_cases hold : member ∈ q.oldToNew
    · rw [if_pos hold]
      exact ih h htail
    · rw [if_neg hold]
      cases hreserve : q.reserveOutputNumber with
      | error e => exact .refl h
      | ok reserved =>
        obtain ⟨output, q₁⟩ := reserved
        obtain ⟨rfl, rfl⟩ := reserveOutputNumber_eq_ok hreserve
        have hstep := advance_member h hold (hmembers member List.mem_cons_self)
        exact hstep.trans (ih hstep.live htail)

theorem enqueueSource_advance (h : Live q popped) (hnew : q.oldToNew[source]? = none)
    (hmember : q.memberToContainer[source]? = none)
    (hkey : handle.sourceKey = some (.source source)) :
    Advance popped q (q.enqueueSource handle source).2 := by
  have hnew' : source ∉ q.oldToNew := by
    simpa using hnew
  have hmember' : source ∉ q.memberToContainer := by
    simpa using hmember
  unfold enqueueSource
  cases hreserve : q.reserveOutputNumber with
  | error e => exact .refl h
  | ok reserved =>
    obtain ⟨output, q₁⟩ := reserved
    obtain ⟨rfl, rfl⟩ := reserveOutputNumber_eq_ok hreserve
    have hstep := advance_source h hnew' hmember' hkey
    dsimp only
    cases hmembers : q.containerToMembers[source]? with
    | some members => exact hstep.trans (numberMembers_advance members hstep.live
        (h.members source members hmembers))
    | none =>
      dsimp only
      by_cases hstream : (q.qdf && handle.isStream) = true
      · rw [if_pos hstream]
        have hself : source ∈ (q.withSource source).oldToNew := ExtTreeMap.mem_insert_self
        refine hstep.trans (reserveLengthHolder_advance hstep.live (.inl hself) ?_)
        -- A holder under this key can only be that of a raw source with this number.
        intro hapart hholder
        rcases h.holders source hholder with hold | ⟨objGen, hraw⟩
        · exact hnew' hold
        · exact hapart (Bool.and_eq_true_iff.mp hstream).1 objGen source hraw hself
      · rw [if_neg hstream]
        exact hstep

theorem enqueueRaw_advance (h : Live q popped)
    (hkey : handle.sourceKey = some (.raw rawSource)) :
    Advance popped q (q.enqueueRaw handle rawSource).2 := by
  unfold enqueueRaw
  cases hold : q.rawOldToNew[rawSource]? with
  | some output => exact .refl h
  | none =>
    have hnew : rawSource ∉ q.rawOldToNew := by
      simpa using hold
    dsimp only
    cases hreserve : q.reserveOutputNumber with
    | error e => exact .refl h
    | ok reserved =>
      obtain ⟨output, q₁⟩ := reserved
      obtain ⟨rfl, rfl⟩ := reserveOutputNumber_eq_ok hreserve
      have hstep := advance_raw h hnew hkey
      dsimp only
      by_cases hstream : (q.qdf && handle.isStream) = true
      · rw [if_pos hstream]
        have hself : (q.withRaw rawSource).rawOldToNew[rawSource]? =
            some (outputRef q.nextObjid) := ExtTreeMap.getElem?_insert_self
        refine hstep.trans (reserveLengthHolder_advance hstep.live (.inr ⟨rawSource, hself⟩) ?_)
        -- The counter's number is new, so that only an ordinary source can own this key.
        intro hapart hholder
        rcases h.holders _ hholder with hsource | ⟨objGen, hraw⟩
        · exact hapart (Bool.and_eq_true_iff.mp hstream).1 rawSource _ hself hsource
        · obtain ⟨n, _, hlt, hn⟩ := h.numbering.range (.raw objGen) _ hraw
          have hnext : q.nextObjid = n := outputRef_injective hn
          omega
      · rw [if_neg hstream]
        exact hstep

/-! ## One call -/

theorem sourceKey_of_objectRef (h : handle.objectRef = some source) :
    handle.sourceKey = some (.source source) := by
  simp only [ObjectHandle.sourceKey, h]

theorem sourceKey_of_raw (h : handle.objectRef = none)
    (hraw : handle.indirectObjGen = some rawSource) :
    handle.sourceKey = some (.raw rawSource) := by
  simp only [ObjectHandle.sourceKey, h, hraw, Option.map_some]

theorem Live.resolving (h : Live q popped) (resolving : ExtTreeSet ObjectRef) :
    Live { q with resolvingMembers := resolving } popped :=
  ⟨h.numbering, h.holders, h.covers, h.pushed, h.members⟩

theorem Live.ignoring (h : Live q popped) (ignored : ExtTreeSet QpdfObjGen) :
    Live { q with qdfIgnoredRefs := ignored } popped :=
  ⟨h.numbering, h.holders, h.covers, h.pushed, h.members⟩

/-- An ordinary indirect handle of the document: it names an object by a
reference, and is neither removed nor an ignored cross-reference stream. -/
structure Ordinary (pdf : Document) (q : LiveQueue) (handle : ObjectHandle) (source : ObjectRef) :
    Prop where
  owner : handle.owningPdfUniqueId = some pdf.uniqueId
  notXref : q.qdf = true → handle.isXrefStream = .ok false
  ref : handle.objectRef = some source
  pos : source.number ≠ 0
  kept : ¬(source ∈ q.removedRefs ∧ source ∉ q.containerToMembers)

/-- What a call can do: nothing but note an ignored reference, number a raw
identity, number a source, or look for the container of a member. -/
theorem enqueueFuel_cases (pdf : Document) (fuel : ℕ) (handle : ObjectHandle) (q : LiveQueue) :
    (∃ result ignored, enqueueFuel pdf (fuel + 1) handle q =
      some (result, { q with qdfIgnoredRefs := ignored })) ∨
    (∃ rawSource, handle.sourceKey = some (.raw rawSource) ∧
      enqueueFuel pdf (fuel + 1) handle q = some (q.enqueueRaw handle rawSource)) ∨
    (∃ source, Ordinary pdf q handle source ∧ q.oldToNew[source]? = none ∧
      q.memberToContainer[source]? = none ∧
      enqueueFuel pdf (fuel + 1) handle q = some (q.enqueueSource handle source)) ∨
    ∃ source container, Ordinary pdf q handle source ∧ q.oldToNew[source]? = none ∧
      q.memberToContainer[source]? = some container ∧ source ∉ q.resolvingMembers ∧
      enqueueFuel pdf (fuel + 1) handle q =
        (enqueueFuel pdf fuel (pdf.getObjectHandle container)
          { q with resolvingMembers := q.resolvingMembers.insert source }).map
            (memberOutcome source) := by
  rw [enqueueFuel]
  by_cases howner : handle.owningPdfUniqueId ≠ some pdf.uniqueId
  · rw [if_pos howner]
    exact .inl ⟨_, q.qdfIgnoredRefs, rfl⟩
  rw [if_neg howner]
  cases hxref : (if q.qdf then handle.isXrefStream else .ok false) with
  | error e => exact .inl ⟨_, q.qdfIgnoredRefs, rfl⟩
  | ok ignored =>
    cases ignored with
    | true =>
      cases hindirect : handle.indirectObjGen with
      | none => exact .inl ⟨_, q.qdfIgnoredRefs, rfl⟩
      | some objGen => exact .inl ⟨_, _, rfl⟩
    | false =>
      cases href : handle.objectRef with
      | none =>
        cases hindirect : handle.indirectObjGen with
        | none => exact .inl ⟨_, q.qdfIgnoredRefs, rfl⟩
        | some rawSource =>
          exact .inr (.inl ⟨rawSource, sourceKey_of_raw href hindirect, rfl⟩)
      | some source =>
        dsimp only
        have hnotXref : q.qdf = true → handle.isXrefStream = .ok false := by
          intro hqdf
          rwa [if_pos hqdf] at hxref
        by_cases hzero : source.number = 0
        · rw [if_pos hzero]
          exact .inl ⟨_, q.qdfIgnoredRefs, rfl⟩
        rw [if_neg hzero]
        by_cases hremoved : source ∈ q.removedRefs ∧ source ∉ q.containerToMembers
        · rw [if_pos hremoved]
          exact .inl ⟨_, q.qdfIgnoredRefs, rfl⟩
        rw [if_neg hremoved]
        have hordinary : Ordinary pdf q handle source :=
          ⟨not_ne_iff.mp howner, hnotXref, href, hzero, hremoved⟩
        cases hold : q.oldToNew[source]? with
        | some output => exact .inl ⟨_, q.qdfIgnoredRefs, rfl⟩
        | none =>
          cases hmember : q.memberToContainer[source]? with
          | none =>
            exact .inr (.inr (.inl ⟨source, hordinary, hold, hmember, rfl⟩))
          | some container =>
            dsimp only
            by_cases hresolving : source ∈ q.resolvingMembers
            · rw [if_pos hresolving]
              exact .inl ⟨_, q.qdfIgnoredRefs, rfl⟩
            · rw [if_neg hresolving]
              exact .inr (.inr (.inr ⟨source, container, hordinary, hold, hmember, hresolving, rfl⟩))

theorem enqueueFuel_advance (h : Live q popped)
    (hcall : enqueueFuel pdf fuel handle q = some outcome) : Advance popped q outcome.2 := by
  induction fuel generalizing q handle outcome with
  | zero => cases hcall
  | succ fuel ih =>
    rcases enqueueFuel_cases pdf fuel handle q with ⟨result, ignored, heq⟩ |
      ⟨rawSource, hkey, heq⟩ | ⟨source, hordinary, hold, hmember, heq⟩ |
      ⟨source, container, _, _, _, _, heq⟩ <;> rw [heq] at hcall
    · cases hcall
      exact ⟨h.ignoring ignored, fun _ _ hold => hold, fun _ _ hraw => hraw, rfl, rfl⟩
    · cases hcall
      exact enqueueRaw_advance h hkey
    · cases hcall
      exact enqueueSource_advance h hold hmember (sourceKey_of_objectRef hordinary.ref)
    · obtain ⟨outcome', hcall', rfl⟩ := Option.map_eq_some_iff.mp hcall
      have hstep := ih (h.resolving _) hcall'
      exact ⟨hstep.live, hstep.source, hstep.raw, hstep.member, hstep.container⟩

/-! ## Termination -/

/-- The members a search has not passed yet. -/
def unresolved (q : LiveQueue) : List ObjectRef :=
  q.memberToContainer.keys.filter fun member => !q.resolvingMembers.contains member

/-- A search through a member leaves one member less. -/
theorem unresolved_insert_lt {container : ObjectRef}
    (hmember : q.memberToContainer[source]? = some container)
    (hresolving : source ∉ q.resolvingMembers) :
    ({ q with resolvingMembers := q.resolvingMembers.insert source } : LiveQueue).unresolved.length <
      q.unresolved.length := by
  have hfilter : ({ q with resolvingMembers := q.resolvingMembers.insert source } :
      LiveQueue).unresolved = q.unresolved.filter fun member => !(source == member) := by
    simp only [unresolved, List.filter_filter]
    congr 1
    funext member
    rw [ExtTreeSet.contains_insert, Bool.not_or]
    by_cases heq : source = member
    · subst heq
      simp
    · have hcompare : compare source member ≠ .eq := by
        rw [ne_eq, LawfulEqOrd.compare_eq_iff_eq]
        exact heq
      rw [beq_eq_false_iff_ne.mpr hcompare, beq_eq_false_iff_ne.mpr heq, Bool.and_comm]
  rw [hfilter, List.length_filter_lt_length_iff_exists]
  refine ⟨source, ?_, by simp⟩
  rw [unresolved, List.mem_filter, ExtTreeMap.mem_keys]
  constructor
  · rw [ExtTreeMap.mem_iff_isSome_getElem?, hmember]
    rfl
  · rw [ExtTreeSet.mem_iff_contains, Bool.not_eq_true] at hresolving
    rw [hresolving]
    rfl

/-- Enough fuel is one more than the members the search can pass. -/
theorem enqueueFuel_isSome (handle : ObjectHandle) (hfuel : q.unresolved.length < fuel) :
    (enqueueFuel pdf fuel handle q).isSome = true := by
  induction fuel generalizing q handle with
  | zero => omega
  | succ fuel ih =>
    rcases enqueueFuel_cases pdf fuel handle q with ⟨result, ignored, heq⟩ |
      ⟨rawSource, _, heq⟩ | ⟨source, _, _, _, heq⟩ |
      ⟨source, container, _, _, hmember, hresolving, heq⟩ <;> rw [heq]
    · rfl
    · rfl
    · rfl
    · have hlt := unresolved_insert_lt hmember hresolving
      rw [Option.isSome_map]
      exact ih _ (by omega)

theorem enqueueHandle_isSome (pdf : Document) (handle : ObjectHandle) (q : LiveQueue) :
    (enqueueHandle pdf handle q).isSome = true := by
  apply enqueueFuel_isSome
  have hlen := List.length_filter_le (fun member => !q.resolvingMembers.contains member)
    q.memberToContainer.keys
  rw [ExtTreeMap.length_keys] at hlen
  exact Nat.lt_succ_of_le hlen

end Flpdf.LiveQueue
