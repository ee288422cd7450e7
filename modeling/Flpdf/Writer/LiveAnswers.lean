import Flpdf.Writer.LiveMembers

/-!
# Answers of the live queue

A call for a member goes up from container to container. It is answered with a
number when the way up ends at a container that is free to be numbered and
lists the member; the read-back finds nothing on any other way.
-/

namespace Flpdf.LiveQueue

open Std

variable {q q' : LiveQueue} {handle : ObjectHandle} {source member container : ObjectRef}
  {members : List ObjectRef} {pdf : Document} {fuel : ℕ} {outcome : Outcome (Option ObjectRef)}

/-- The way up from a container ends at one that numbers the member: it has no
number yet, is no member itself and lists the member. The containers passed
have no number, and none of them is being resolved. -/
inductive Leads (pdf : Document) (q : LiveQueue) (member : ObjectRef) : ObjectHandle → Prop where
  | top {handle : ObjectHandle} {source : ObjectRef} {members : List ObjectRef}
      (ordinary : Ordinary pdf q handle source) (new : q.oldToNew[source]? = none)
      (free : q.memberToContainer[source]? = none)
      (listed : q.containerToMembers[source]? = some members) (mem : member ∈ members) :
      Leads pdf q member handle
  | up {handle : ObjectHandle} {source container : ObjectRef}
      (ordinary : Ordinary pdf q handle source) (new : q.oldToNew[source]? = none)
      (below : q.memberToContainer[source]? = some container)
      (unresolved : source ∉ q.resolvingMembers)
      (rest : Leads pdf q member (pdf.getObjectHandle container)) : Leads pdf q member handle

/-- The sources a call answers with an output reference. -/
inductive Answered (pdf : Document) (q : LiveQueue) (source : ObjectRef) : Prop where
  | numbered (output : ObjectRef) (h : q.oldToNew[source]? = some output)
  | free (h : q.memberToContainer[source]? = none)
  | asked (h : source ∈ q.resolvingMembers)
  | found (container : ObjectRef) (h : q.memberToContainer[source]? = some container)
      (leads : Leads pdf q source (pdf.getObjectHandle container))

/-- The queue while a member waits for its container. -/
def waiting (q : LiveQueue) (source : ObjectRef) : LiveQueue :=
  { q with resolvingMembers := q.resolvingMembers.insert source }

theorem Ordinary.waiting (h : Ordinary pdf q handle source) (other : ObjectRef) :
    Ordinary pdf (q.waiting other) handle source :=
  ⟨h.owner, h.notXref, h.ref, h.pos, h.kept⟩

theorem Ordinary.of_waiting {other : ObjectRef} (h : Ordinary pdf (q.waiting other) handle source) :
    Ordinary pdf q handle source :=
  ⟨h.owner, h.notXref, h.ref, h.pos, h.kept⟩

theorem Leads.of_waiting {other : ObjectRef} (h : Leads pdf (q.waiting other) member handle) :
    Leads pdf q member handle := by
  induction h with
  | top ordinary new free listed mem => exact .top ordinary.of_waiting new free listed mem
  | up ordinary new below unresolved _ ih =>
    refine .up ordinary.of_waiting new below ?_ ih
    intro hresolving
    exact unresolved (ExtTreeSet.mem_insert.mpr (.inr hresolving))

/-- A way up that passes a member can be cut short behind it. -/
theorem Leads.waiting_or (hbelow : q.memberToContainer[source]? = some container)
    (h : Leads pdf q member handle) :
    Leads pdf (q.waiting source) member handle ∨
      Leads pdf (q.waiting source) member (pdf.getObjectHandle container) := by
  induction h with
  | top ordinary new free listed mem => exact .inl (.top (ordinary.waiting _) new free listed mem)
  | @up handle passed next ordinary new below unresolved _ ih =>
    rcases ih with hrest | hshort
    · by_cases hself : source = passed
      · subst hself
        obtain rfl : container = next := Option.some.inj (hbelow.symm.trans below)
        exact .inr hrest
      · refine .inl (.up (ordinary.waiting _) new below ?_ hrest)
        intro hresolving
        rcases ExtTreeSet.mem_insert.mp hresolving with heq | hold
        · rw [LawfulEqOrd.compare_eq_iff_eq] at heq
          exact hself heq
        · exact unresolved hold
    · exact .inr hshort

/-- The way up from a member's container does not come back to the member. -/
theorem leads_waiting_iff (hbelow : q.memberToContainer[source]? = some container) :
    Leads pdf (q.waiting source) member (pdf.getObjectHandle container) ↔
      Leads pdf q member (pdf.getObjectHandle container) := by
  constructor
  · exact Leads.of_waiting
  · intro h
    exact (Leads.waiting_or hbelow h).elim id id

/-! ## Calls within the limit of the counter -/

/-- A member list is numbered whole, unless the counter reaches its limit. -/
theorem numberMembers_spec (members : List ObjectRef) (q : LiveQueue)
    (hlimit : (numberMembers members q).2.nextObjid + 1 < 2 ^ 32) :
    (numberMembers members q).1 = .ok () ∧
      (∀ ref ∈ q.oldToNew, ref ∈ (numberMembers members q).2.oldToNew) ∧
      ∀ ref ∈ members, ref ∈ (numberMembers members q).2.oldToNew := by
  induction members generalizing q with
  | nil => exact ⟨rfl, fun _ h => h, fun _ h => absurd h List.not_mem_nil⟩
  | cons first members ih =>
    rw [numberMembers] at hlimit ⊢
    by_cases hold : first ∈ q.oldToNew
    · rw [if_pos hold] at hlimit ⊢
      obtain ⟨hok, hkeep, hall⟩ := ih q hlimit
      refine ⟨hok, hkeep, ?_⟩
      intro ref href
      rcases List.mem_cons.mp href with rfl | htail
      · exact hkeep ref hold
      · exact hall ref htail
    · rw [if_neg hold] at hlimit ⊢
      by_cases hbound : q.nextObjid + 1 < 2 ^ 32
      · rw [reserveOutputNumber, if_pos hbound] at hlimit ⊢
        obtain ⟨hok, hkeep, hall⟩ := ih _ hlimit
        refine ⟨hok, ?_, ?_⟩
        · intro ref href
          exact hkeep ref (ExtTreeMap.mem_insert.mpr (.inr href))
        · intro ref href
          rcases List.mem_cons.mp href with rfl | htail
          · exact hkeep ref ExtTreeMap.mem_insert_self
          · exact hall ref htail
      · rw [reserveOutputNumber, if_neg hbound] at hlimit
        exact absurd hlimit hbound

/-- A free source is answered, and only its own list and itself are numbered. -/
theorem enqueueSource_answer (hlimit : (q.enqueueSource handle source).2.nextObjid + 1 < 2 ^ 32) :
    (∃ output, (q.enqueueSource handle source).1 = .ok (some output)) ∧
      ∀ members, q.containerToMembers[source]? = some members →
        ∀ ref ∈ members, ref ∈ (q.enqueueSource handle source).2.oldToNew := by
  by_cases hbound : q.nextObjid + 1 < 2 ^ 32
  · rw [enqueueSource, reserveOutputNumber, if_pos hbound] at hlimit ⊢
    dsimp only at hlimit ⊢
    cases hmembers : q.containerToMembers[source]? with
    | some members =>
      rw [hmembers] at hlimit
      obtain ⟨hok, _, hall⟩ := numberMembers_spec members _ hlimit
      refine ⟨⟨outputRef q.nextObjid, ?_⟩, ?_⟩
      · dsimp only
        rw [hok]
        rfl
      · intro members' heq
        obtain rfl := Option.some.inj heq
        exact hall
    | none =>
      rw [hmembers] at hlimit
      dsimp only at hlimit ⊢
      refine ⟨?_, by simp⟩
      by_cases hstream : (q.qdf && handle.isStream) = true
      · rw [if_pos hstream] at hlimit ⊢
        refine ⟨outputRef q.nextObjid, ?_⟩
        by_cases hholder : q.nextObjid + 1 + 1 < 2 ^ 32
        · rw [reserveLengthHolder, reserveOutputNumber, if_pos hholder]
          rfl
        · rw [reserveLengthHolder, reserveOutputNumber, if_neg hholder] at hlimit
          exact absurd hlimit hholder
      · rw [if_neg hstream]
        exact ⟨_, rfl⟩
  · rw [enqueueSource, reserveOutputNumber, if_neg hbound] at hlimit
    exact absurd hlimit hbound

/-- A source that is no member and is not listed keeps its lack of a number. -/
theorem enqueueSource_unlisted (hne : source ≠ member)
    (hunlisted : ∀ members, q.containerToMembers[source]? = some members → member ∉ members) :
    (q.enqueueSource handle source).2.oldToNew[member]? = q.oldToNew[member]? := by
  have hkeep : (q.withSource source).oldToNew[member]? = q.oldToNew[member]? := by
    rw [withSource, getElem?_insert_ite, if_neg hne]
  by_cases hbound : q.nextObjid + 1 < 2 ^ 32
  · cases hmembers : q.containerToMembers[source]? with
    | some members =>
      rw [enqueueSource_container hbound hmembers, numberMembers_frame _ _ (hunlisted _ hmembers)]
      exact hkeep
    | none => rw [enqueueSource_single hbound hmembers, hkeep]
  · rw [enqueueSource_overflow hbound]

/-- A call on an ordinary handle. -/
theorem enqueueFuel_ordinary (h : Ordinary pdf q handle source) :
    enqueueFuel pdf (fuel + 1) handle q =
      match q.oldToNew[source]? with
      | some output => some (.ok (some output), q)
      | none =>
        match q.memberToContainer[source]? with
        | none => some (q.enqueueSource handle source)
        | some container =>
          if source ∈ q.resolvingMembers then some (.ok (some (outputRef 0)), q)
          else (enqueueFuel pdf fuel (pdf.getObjectHandle container) (q.waiting source)).map
            (memberOutcome source) := by
  have hxref : (if q.qdf then handle.isXrefStream else .ok false) = .ok false := by
    split_ifs with hqdf
    · exact h.notXref hqdf
    · rfl
  rw [enqueueFuel, if_neg (not_ne_iff.mpr h.owner), hxref]
  dsimp only
  rw [h.ref]
  dsimp only
  rw [if_neg h.pos, if_neg h.kept]
  rfl

theorem memberOutcome_eq_ok {output : Option ObjectRef} :
    (memberOutcome source outcome).1 = .ok output ↔
      (∃ result, outcome.1 = .ok result) ∧ outcome.2.oldToNew[source]? = output := by
  unfold memberOutcome
  cases outcome.1 <;> simp [Except.map]

/-- The call on a container numbers a member exactly when its way up leads to it. -/
theorem enqueueFuel_leads (hcall : enqueueFuel pdf fuel handle q = some outcome)
    (hlimit : outcome.2.nextObjid + 1 < 2 ^ 32) (hnew : q.oldToNew[member]? = none)
    (hmember : member ∈ q.memberToContainer) :
    ((∃ result, outcome.1 = .ok result) ∧ member ∈ outcome.2.oldToNew) ↔
      Leads pdf q member handle := by
  induction fuel generalizing q handle outcome with
  | zero => cases hcall
  | succ fuel ih =>
    constructor
    · rintro ⟨hok, hnumbered⟩
      rw [ExtTreeMap.mem_iff_isSome_getElem?] at hnumbered
      rcases enqueueFuel_cases pdf fuel handle q with ⟨result, ignored, heq⟩ |
        ⟨rawSource, hkey, heq⟩ | ⟨source, hordinary, hold, hfree, heq⟩ |
        ⟨source, container, hordinary, hold, hbelow, hunresolved, heq⟩ <;> rw [heq] at hcall
      · cases hcall
        rw [hnew] at hnumbered
        cases hnumbered
      · cases hcall
        rw [enqueueRaw_oldToNew, hnew] at hnumbered
        cases hnumbered
      · cases hcall
        have hne : source ≠ member := by
          rintro rfl
          rw [ExtTreeMap.mem_iff_isSome_getElem?, hfree] at hmember
          cases hmember
        by_contra hleads
        rw [enqueueSource_unlisted hne, hnew] at hnumbered
        · cases hnumbered
        · intro members hlisted hmem
          exact hleads (.top hordinary hold hfree hlisted hmem)
      · obtain ⟨inner, hinner, rfl⟩ := Option.map_eq_some_iff.mp hcall
        obtain ⟨output, hok⟩ := hok
        have hrest := (ih (q := q.waiting source) hinner hlimit hnew hmember).mp
          ⟨(memberOutcome_eq_ok.mp hok).1, ExtTreeMap.mem_iff_isSome_getElem?.mpr hnumbered⟩
        exact .up hordinary hold hbelow hunresolved hrest.of_waiting
    · intro hleads
      cases hleads with
      | top hordinary hold hfree hlisted hmem =>
        rw [enqueueFuel_ordinary hordinary, hold] at hcall
        dsimp only at hcall
        rw [hfree] at hcall
        cases hcall
        obtain ⟨⟨output, hok⟩, hall⟩ := enqueueSource_answer hlimit
        exact ⟨⟨_, hok⟩, hall _ hlisted member hmem⟩
      | up hordinary hold hbelow hunresolved hrest =>
        rw [enqueueFuel_ordinary hordinary, hold] at hcall
        dsimp only at hcall
        rw [hbelow] at hcall
        dsimp only at hcall
        rw [if_neg hunresolved] at hcall
        obtain ⟨inner, hinner, rfl⟩ := Option.map_eq_some_iff.mp hcall
        obtain ⟨hok, hnumbered⟩ := (ih (q := q.waiting _) hinner hlimit hnew hmember).mpr
          ((leads_waiting_iff hbelow).mpr hrest)
        exact ⟨⟨_, memberOutcome_eq_ok.mpr ⟨hok, rfl⟩⟩, hnumbered⟩

/-- A call on an ordinary handle gives an output reference exactly to the
answered sources. -/
theorem enqueueHandle_answer (h : Ordinary pdf q handle source)
    (hcall : enqueueHandle pdf handle q = some outcome)
    (hlimit : outcome.2.nextObjid + 1 < 2 ^ 32) :
    (∃ output, outcome.1 = .ok (some output)) ↔ Answered pdf q source := by
  rw [enqueueHandle, enqueueFuel_ordinary h] at hcall
  cases hold : q.oldToNew[source]? with
  | some output =>
    rw [hold] at hcall
    cases hcall
    exact iff_of_true ⟨output, rfl⟩ (.numbered output hold)
  | none =>
    rw [hold] at hcall
    dsimp only at hcall
    cases hbelow : q.memberToContainer[source]? with
    | none =>
      rw [hbelow] at hcall
      cases hcall
      exact iff_of_true (enqueueSource_answer hlimit).1 (.free hbelow)
    | some container =>
      rw [hbelow] at hcall
      dsimp only at hcall
      by_cases hresolving : source ∈ q.resolvingMembers
      · rw [if_pos hresolving] at hcall
        cases hcall
        exact iff_of_true ⟨_, rfl⟩ (.asked hresolving)
      · rw [if_neg hresolving] at hcall
        obtain ⟨inner, hinner, rfl⟩ := Option.map_eq_some_iff.mp hcall
        have hmember : source ∈ q.memberToContainer := by
          rw [ExtTreeMap.mem_iff_isSome_getElem?, hbelow]
          rfl
        have hleads := enqueueFuel_leads (q := q.waiting source) hinner hlimit hold hmember
        rw [leads_waiting_iff hbelow] at hleads
        have hanswer : (∃ output, (memberOutcome source inner).1 = .ok (some output)) ↔
            (∃ result, inner.1 = .ok result) ∧ source ∈ inner.2.oldToNew := by
          simp only [memberOutcome_eq_ok, exists_and_left, ExtTreeMap.mem_iff_isSome_getElem?,
            Option.isSome_iff_exists]
        rw [hanswer, hleads]
        constructor
        · exact .found container hbelow
        · rintro (⟨output, hnum⟩ | hfree | hasked | ⟨container', hbelow', hrest⟩)
          · rw [hold] at hnum
            cases hnum
          · rw [hbelow] at hfree
            cases hfree
          · exact absurd hasked hresolving
          · obtain rfl := Option.some.inj (hbelow.symm.trans hbelow')
            exact hrest

/-- A source that a call numbers is answered with its number. -/
theorem enqueueSource_output {popped : List ObjectHandle} {output : ObjectRef} (h : Live q popped)
    (hfree : q.memberToContainer[source]? = none)
    (hok : (q.enqueueSource handle source).1 = .ok (some output)) :
    (q.enqueueSource handle source).2.oldToNew[source]? = some output := by
  have hself : (q.withSource source).oldToNew[source]? = some (outputRef q.nextObjid) :=
    ExtTreeMap.getElem?_insert_self
  have hsource : ∀ members, q.containerToMembers[source]? = some members → source ∉ members := by
    intro members hmembers hmem
    have hmember := h.members source members hmembers source hmem
    rw [ExtTreeMap.mem_iff_isSome_getElem?, hfree] at hmember
    cases hmember
  by_cases hbound : q.nextObjid + 1 < 2 ^ 32
  · have houtput : output = outputRef q.nextObjid := by
      rw [enqueueSource, reserveOutputNumber, if_pos hbound] at hok
      dsimp only at hok
      have hmap : ∀ outcome : Except WriterError Unit,
          outcome.map (fun _ => some (outputRef q.nextObjid)) = .ok (some output) →
            output = outputRef q.nextObjid := by
        intro outcome heq
        cases outcome with
        | error e => cases heq
        | ok _ => exact (Option.some.inj (Except.ok.inj heq)).symm
      cases hmembers : q.containerToMembers[source]? with
      | some members =>
        rw [hmembers] at hok
        exact hmap _ hok
      | none =>
        rw [hmembers] at hok
        dsimp only at hok
        by_cases hstream : (q.qdf && handle.isStream) = true
        · rw [if_pos hstream] at hok
          exact hmap _ hok
        · rw [if_neg hstream] at hok
          exact (Option.some.inj (Except.ok.inj hok)).symm
    rw [houtput]
    cases hmembers : q.containerToMembers[source]? with
    | some members =>
      rw [enqueueSource_container hbound hmembers, numberMembers_frame _ _ (hsource _ hmembers)]
      exact hself
    | none => rw [enqueueSource_single hbound hmembers, hself]
  · rw [enqueueSource, reserveOutputNumber, if_neg hbound] at hok
    cases hok

/-- The answer is the source's number, or the null reference to a member that
is asked for again. -/
theorem enqueueHandle_output {popped : List ObjectHandle} {output : ObjectRef} (hlive : Live q popped)
    (h : Ordinary pdf q handle source) (hcall : enqueueHandle pdf handle q = some outcome)
    (hok : outcome.1 = .ok (some output)) :
    outcome.2.oldToNew[source]? = some output ∨
      output = outputRef 0 ∧ source ∈ q.resolvingMembers := by
  rw [enqueueHandle, enqueueFuel_ordinary h] at hcall
  cases hold : q.oldToNew[source]? with
  | some output' =>
    rw [hold] at hcall
    cases hcall
    rw [hold]
    exact .inl (Except.ok.inj hok)
  | none =>
    rw [hold] at hcall
    dsimp only at hcall
    cases hbelow : q.memberToContainer[source]? with
    | none =>
      rw [hbelow] at hcall
      cases hcall
      exact .inl (enqueueSource_output hlive hbelow hok)
    | some container =>
      rw [hbelow] at hcall
      dsimp only at hcall
      by_cases hresolving : source ∈ q.resolvingMembers
      · rw [if_pos hresolving] at hcall
        cases hcall
        exact .inr ⟨(Option.some.inj (Except.ok.inj hok)).symm, hresolving⟩
      · rw [if_neg hresolving] at hcall
        obtain ⟨inner, _, rfl⟩ := Option.map_eq_some_iff.mp hcall
        exact .inl (memberOutcome_eq_ok.mp hok).2

end Flpdf.LiveQueue
