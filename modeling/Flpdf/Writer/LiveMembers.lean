import Flpdf.Writer.LiveCalls

/-!
# Members of the live queue

The members of a queued container take the numbers right after it, in their
registered order.
-/

namespace Flpdf.LiveQueue

open Std

variable {q q' : LiveQueue} {popped : List ObjectHandle} {handle : ObjectHandle}
  {source : ObjectRef} {members : List ObjectRef} {rawSource : QpdfObjGen} {pdf : Document}
  {fuel : ℕ} {outcome : Outcome (Option ObjectRef)}

/-- The members that a container has still to number, in registered order. -/
def freshMembers (q : LiveQueue) (members : List ObjectRef) : List ObjectRef :=
  (members.filter fun member => q.oldToNew[member]?.isNone).eraseDups

theorem freshMembers_cons_old (members : List ObjectRef) (hold : source ∈ q.oldToNew) :
    q.freshMembers (source :: members) = q.freshMembers members := by
  have hnone : q.oldToNew[source]?.isNone = false := by
    simpa using hold
  rw [freshMembers, List.filter_cons, hnone]
  rfl

theorem freshMembers_cons_new (members : List ObjectRef) (hnew : source ∉ q.oldToNew) :
    q.freshMembers (source :: members) = source :: (q.withSource source).freshMembers members := by
  have hnone : q.oldToNew[source]?.isNone = true := by
    simpa using hnew
  rw [freshMembers, List.filter_cons, hnone, if_pos rfl, List.eraseDups_cons, freshMembers,
    List.filter_filter]
  congr 3
  funext member
  rw [withSource, getElem?_insert_ite]
  by_cases heq : source = member
  · subst heq
    simp
  · rw [if_neg heq]
    have hne : (member == source) = false := beq_eq_false_iff_ne.mpr (Ne.symm heq)
    rw [hne]
    rfl

/-- The numbers of the fresh members run on from the counter, up to the last `u32`. -/
theorem numberMembers_fresh (members : List ObjectRef) (h : Live q popped)
    (hmembers : ∀ member ∈ members, member ∈ q.memberToContainer) (i : ℕ) (member : ObjectRef)
    (hi : (q.freshMembers members)[i]? = some member) (hbound : q.nextObjid + i + 1 < 2 ^ 32) :
    (numberMembers members q).2.oldToNew[member]? = some (outputRef (q.nextObjid + i)) := by
  induction members generalizing q i with
  | nil => simp [freshMembers] at hi
  | cons first members ih =>
    have htail : ∀ m ∈ members, m ∈ q.memberToContainer := by
      intro m hm
      exact hmembers m (List.mem_cons_of_mem _ hm)
    rw [numberMembers]
    by_cases hold : first ∈ q.oldToNew
    · rw [freshMembers_cons_old members hold] at hi
      rw [if_pos hold]
      exact ih h htail i hi hbound
    · rw [freshMembers_cons_new members hold] at hi
      rw [if_neg hold, reserveOutputNumber, if_pos (by omega)]
      have hstep := advance_member h hold (hmembers first List.mem_cons_self)
      cases i with
      | zero =>
        obtain rfl : first = member := by
          simpa using hi
        have hself : (q.withSource first).oldToNew[first]? = some (outputRef q.nextObjid) :=
          ExtTreeMap.getElem?_insert_self
        exact (numberMembers_advance members hstep.live htail).source first _ hself
      | succ i =>
        have hnext : q.nextObjid + (i + 1) = (q.withSource first).nextObjid + i := by
          show q.nextObjid + (i + 1) = q.nextObjid + 1 + i
          omega
        rw [hnext] at hbound ⊢
        exact ih hstep.live htail i (by simpa using hi) hbound

/-- Numbering members leaves every other source alone. -/
theorem numberMembers_frame (members : List ObjectRef) (q : LiveQueue) (hsource : source ∉ members) :
    (numberMembers members q).2.oldToNew[source]? = q.oldToNew[source]? := by
  induction members generalizing q with
  | nil => rfl
  | cons member members ih =>
    rw [List.mem_cons, not_or] at hsource
    obtain ⟨hne, htail⟩ := hsource
    rw [numberMembers]
    by_cases hold : member ∈ q.oldToNew
    · rw [if_pos hold]
      exact ih q htail
    · rw [if_neg hold]
      cases hreserve : q.reserveOutputNumber with
      | error e => rfl
      | ok reserved =>
        obtain ⟨output, q₁⟩ := reserved
        obtain ⟨rfl, rfl⟩ := reserveOutputNumber_eq_ok hreserve
        dsimp only
        rw [ih _ htail, getElem?_insert_ite, if_neg (Ne.symm hne)]

theorem reserveLengthHolder_oldToNew : (q.reserveLengthHolder source).2.oldToNew = q.oldToNew := by
  unfold reserveLengthHolder
  cases hreserve : q.reserveOutputNumber with
  | error e => rfl
  | ok reserved =>
    obtain ⟨output, q₁⟩ := reserved
    obtain ⟨rfl, rfl⟩ := reserveOutputNumber_eq_ok hreserve
    rfl

theorem enqueueRaw_oldToNew : (q.enqueueRaw handle rawSource).2.oldToNew = q.oldToNew := by
  unfold enqueueRaw
  cases hold : q.rawOldToNew[rawSource]? with
  | some output => rfl
  | none =>
    dsimp only
    cases hreserve : q.reserveOutputNumber with
    | error e => rfl
    | ok reserved =>
      obtain ⟨output, q₁⟩ := reserved
      obtain ⟨rfl, rfl⟩ := reserveOutputNumber_eq_ok hreserve
      dsimp only
      by_cases hstream : (q.qdf && handle.isStream) = true
      · rw [if_pos hstream]
        exact reserveLengthHolder_oldToNew
      · rw [if_neg hstream]

/-- A container numbers its members next. -/
theorem enqueueSource_container (hbound : q.nextObjid + 1 < 2 ^ 32)
    (hmembers : q.containerToMembers[source]? = some members) :
    (q.enqueueSource handle source).2 =
      (numberMembers members ((q.withSource source).queued handle)).2 := by
  rw [enqueueSource, reserveOutputNumber, if_pos hbound]
  dsimp only
  rw [hmembers]
  rfl

theorem enqueueSource_single (hbound : q.nextObjid + 1 < 2 ^ 32)
    (hmembers : q.containerToMembers[source]? = none) :
    (q.enqueueSource handle source).2.oldToNew = (q.withSource source).oldToNew := by
  rw [enqueueSource, reserveOutputNumber, if_pos hbound]
  dsimp only
  rw [hmembers]
  dsimp only
  by_cases hstream : (q.qdf && handle.isStream) = true
  · rw [if_pos hstream]
    exact reserveLengthHolder_oldToNew
  · rw [if_neg hstream]
    rfl

theorem enqueueSource_overflow (hbound : ¬q.nextObjid + 1 < 2 ^ 32) :
    (q.enqueueSource handle source).2 = q := by
  rw [enqueueSource, reserveOutputNumber, if_neg hbound]

/-- Only its own discovery gives a number to a source that is no member. -/
theorem enqueueSource_frame {other : ObjectRef} (h : Live q popped)
    (hmember : other ∉ q.memberToContainer) (hne : source ≠ other) :
    (q.enqueueSource handle source).2.oldToNew[other]? = q.oldToNew[other]? := by
  have hkeep : (q.withSource source).oldToNew[other]? = q.oldToNew[other]? := by
    rw [withSource, getElem?_insert_ite, if_neg hne]
  by_cases hbound : q.nextObjid + 1 < 2 ^ 32
  · cases hmembers : q.containerToMembers[source]? with
    | some members =>
      rw [enqueueSource_container hbound hmembers, numberMembers_frame]
      · exact hkeep
      · intro hother
        exact hmember (h.members source members hmembers other hother)
    | none => rw [enqueueSource_single hbound hmembers, hkeep]
  · rw [enqueueSource_overflow hbound]

/-- The same members are still to be numbered once their container is. -/
theorem freshMembers_container (hsource : source ∉ members) :
    ((q.withSource source).queued handle).freshMembers members = q.freshMembers members := by
  unfold freshMembers
  congr 1
  apply List.filter_congr
  intro member hmember
  show ((q.oldToNew.insert source (outputRef q.nextObjid))[member]?).isNone = _
  rw [getElem?_insert_ite, if_neg]
  intro heq
  exact hsource (heq ▸ hmember)

theorem enqueueSource_members {output : ObjectRef} (h : Live q popped)
    (hkey : handle.sourceKey = some (.source source)) (hold : q.oldToNew[source]? = none)
    (hmember : source ∉ q.memberToContainer)
    (hmembers : q.containerToMembers[source]? = some members)
    (hout : (q.enqueueSource handle source).2.oldToNew[source]? = some output) (i : ℕ)
    (member : ObjectRef) (hi : (q.freshMembers members)[i]? = some member)
    (hbound : output.number + i + 2 < 2 ^ 32) :
    (q.enqueueSource handle source).2.oldToNew[member]? =
      some (outputRef (output.number + i + 1)) := by
  have hnew : source ∉ q.oldToNew := by
    simpa using hold
  have hsource : source ∉ members := by
    intro hin
    exact hmember (h.members source members hmembers source hin)
  by_cases hnext : q.nextObjid + 1 < 2 ^ 32
  · have hstep := advance_source h hnew hmember hkey
    have hself : (q.withSource source).oldToNew[source]? = some (outputRef q.nextObjid) :=
      ExtTreeMap.getElem?_insert_self
    rw [enqueueSource_container hnext hmembers, numberMembers_frame _ _ hsource] at hout
    obtain rfl : output = outputRef q.nextObjid := Option.some.inj (hout.symm.trans hself)
    rw [enqueueSource_container hnext hmembers]
    rw [← freshMembers_container hsource] at hi
    have hnumber := numberMembers_fresh members hstep.live (h.members source members hmembers)
      i member hi (by
        show q.nextObjid + 1 + i + 1 < 2 ^ 32
        have : (outputRef q.nextObjid).number = q.nextObjid := rfl
        omega)
    rw [hnumber]
    show some (outputRef (q.nextObjid + 1 + i)) = some (outputRef (q.nextObjid + i + 1))
    rw [Nat.add_right_comm]
  · rw [enqueueSource_overflow hnext, hold] at hout
    cases hout

/-- When a call numbers a container that is no member, its unnumbered members
take the numbers after it, in registered order and up to the last `u32`. -/
theorem enqueueFuel_members {container output : ObjectRef} (h : Live q popped)
    (hcall : enqueueFuel pdf fuel handle q = some outcome)
    (hold : q.oldToNew[container]? = none) (hmember : container ∉ q.memberToContainer)
    (hmembers : q.containerToMembers[container]? = some members)
    (hout : outcome.2.oldToNew[container]? = some output) (i : ℕ) (member : ObjectRef)
    (hi : (q.freshMembers members)[i]? = some member) (hbound : output.number + i + 2 < 2 ^ 32) :
    outcome.2.oldToNew[member]? = some (outputRef (output.number + i + 1)) := by
  induction fuel generalizing q handle outcome with
  | zero => cases hcall
  | succ fuel ih =>
    rcases enqueueFuel_cases pdf fuel handle q with ⟨result, ignored, heq⟩ |
      ⟨rawSource, hkey, heq⟩ | ⟨source, hordinary, hsource, hsmember, heq⟩ |
      ⟨source, container', _, _, _, _, heq⟩ <;> rw [heq] at hcall
    · cases hcall
      rw [hold] at hout
      cases hout
    · cases hcall
      rw [enqueueRaw_oldToNew, hold] at hout
      cases hout
    · cases hcall
      by_cases hself : source = container
      · subst hself
        have hkey := sourceKey_of_objectRef hordinary.ref
        exact enqueueSource_members h hkey hold hmember hmembers hout i member hi hbound
      · rw [enqueueSource_frame h hmember hself, hold] at hout
        cases hout
    · obtain ⟨outcome', hcall', rfl⟩ := Option.map_eq_some_iff.mp hcall
      have hrest := ih (h.resolving (q.resolvingMembers.insert source)) hcall' hold hmember hmembers
        hout hi
      exact hrest

end Flpdf.LiveQueue
