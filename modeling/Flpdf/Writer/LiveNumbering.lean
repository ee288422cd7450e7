import Flpdf.Writer.LiveQueue
import Mathlib.Data.Fintype.Defs
import Mathlib.Logic.Relation

/-!
# Output numbers of the live queue

The numbers in the three maps of the queue form one numbering. Each branch of
the queue gives the counter's value to a new key, so that the numbers stay
distinct, leave no gap, and never change.
-/

namespace Flpdf

open Std

/-- What can hold an output number. -/
inductive OutputKey where
  | source (ref : ObjectRef)
  | raw (objGen : QpdfObjGen)
  | lengthHolder (ref : ObjectRef)
  deriving DecidableEq

/-- The key a handle is queued under. -/
def ObjectHandle.sourceKey (handle : ObjectHandle) : Option OutputKey :=
  match handle.objectRef with
  | some source => some (.source source)
  | none => handle.indirectObjGen.map .raw

namespace LiveQueue

theorem outputRef_injective : Function.Injective outputRef := by
  intro a b h
  exact congrArg ObjectRef.number h

variable {q q' q'' : LiveQueue} {popped : List ObjectHandle} {handle : ObjectHandle}
  {source member output : ObjectRef} {rawSource : QpdfObjGen}

def outputOf (q : LiveQueue) : OutputKey → Option ObjectRef
  | .source ref => q.oldToNew[ref]?
  | .raw objGen => q.rawOldToNew[objGen]?
  | .lengthHolder ref => q.streamLengthHolders[ref]?

/-- Under QDF, no raw-identity source has the number of a reference that is
itself a numbered source: their length holders would share a key. -/
def Apart (q : LiveQueue) : Prop :=
  q.qdf = true → ∀ (objGen : QpdfObjGen) (ref : ObjectRef),
    q.rawOldToNew[objGen]? = some ref → ref ∉ q.oldToNew

/-- The numbered keys that pass through the pending queue. -/
def enters (q : LiveQueue) : OutputKey → Bool
  | .source ref => q.oldToNew[ref]?.isSome && q.memberToContainer[ref]?.isNone
  | .raw objGen => q.rawOldToNew[objGen]?.isSome
  | .lengthHolder _ => false

/-- The invariant; `popped` lists the handles that have left the queue. -/
structure Live (q : LiveQueue) (popped : List ObjectHandle) : Prop where
  numbering : Numbering outputRef q.outputOf q.nextObjid
  holders : ∀ ref : ObjectRef, ref ∈ q.streamLengthHolders →
    ref ∈ q.oldToNew ∨ ∃ objGen : QpdfObjGen, q.rawOldToNew[objGen]? = some ref
  covers : q.Apart → Covers outputRef q.outputOf q.nextObjid
  pushed : ∀ key,
    ((popped ++ q.pending).map ObjectHandle.sourceKey).count (some key) = (q.enters key).toNat
  members : ∀ (container : ObjectRef) (members : List ObjectRef),
    q.containerToMembers[container]? = some members →
      ∀ member ∈ members, member ∈ q.memberToContainer

/-- What a call does to the queue: it keeps the invariant, the numbers of the
sources and the registered object streams. -/
structure Advance (popped : List ObjectHandle) (q q' : LiveQueue) : Prop where
  live : Live q' popped
  source : ∀ ref output : ObjectRef, q.oldToNew[ref]? = some output → q'.oldToNew[ref]? = some output
  raw : ∀ (objGen : QpdfObjGen) (output : ObjectRef), q.rawOldToNew[objGen]? = some output →
    q'.rawOldToNew[objGen]? = some output
  member : q'.memberToContainer = q.memberToContainer
  container : q'.containerToMembers = q.containerToMembers

theorem Advance.refl (h : Live q popped) : Advance popped q q where
  live := h
  source := fun _ _ hout => hout
  raw := fun _ _ hout => hout
  member := rfl
  container := rfl

theorem Advance.trans (h : Advance popped q q') (h' : Advance popped q' q'') :
    Advance popped q q'' where
  live := h'.live
  source := fun ref output hout => h'.source ref output (h.source ref output hout)
  raw := fun objGen output hout => h'.raw objGen output (h.raw objGen output hout)
  member := h'.member.trans h.member
  container := h'.container.trans h.container

/-! ## Giving out one number -/

theorem reserveOutputNumber_eq_ok (h : q.reserveOutputNumber = .ok (output, q')) :
    output = outputRef q.nextObjid ∧ q' = { q with nextObjid := q.nextObjid + 1 } := by
  unfold reserveOutputNumber at h
  split_ifs at h
  obtain ⟨rfl, rfl⟩ := Prod.mk.inj (Except.ok.inj h)
  exact ⟨rfl, rfl⟩

/-- The queue once a source has taken the counter's number. -/
def withSource (q : LiveQueue) (source : ObjectRef) : LiveQueue :=
  { q with
    nextObjid := q.nextObjid + 1
    oldToNew := q.oldToNew.insert source (outputRef q.nextObjid) }

def withRaw (q : LiveQueue) (rawSource : QpdfObjGen) : LiveQueue :=
  { q with
    nextObjid := q.nextObjid + 1
    rawOldToNew := q.rawOldToNew.insert rawSource (outputRef q.nextObjid) }

def withLengthHolder (q : LiveQueue) (key : ObjectRef) : LiveQueue :=
  { q with
    nextObjid := q.nextObjid + 1
    streamLengthHolders := q.streamLengthHolders.insert key (outputRef q.nextObjid) }

def queued (q : LiveQueue) (handle : ObjectHandle) : LiveQueue :=
  { q with pending := q.pending ++ [handle] }

theorem outputOf_withSource : (q.withSource source).outputOf =
    Function.update q.outputOf (.source source) (some (outputRef q.nextObjid)) := by
  funext key
  cases key with
  | source ref =>
    simp only [outputOf, withSource, getElem?_insert_ite, Function.update_apply,
      OutputKey.source.injEq, eq_comm (a := ref)]
  | raw objGen => rfl
  | lengthHolder ref => rfl

theorem outputOf_withRaw : (q.withRaw rawSource).outputOf =
    Function.update q.outputOf (.raw rawSource) (some (outputRef q.nextObjid)) := by
  funext key
  cases key with
  | source ref => rfl
  | raw objGen =>
    simp only [outputOf, withRaw, getElem?_insert_ite, Function.update_apply,
      OutputKey.raw.injEq, eq_comm (a := objGen)]
  | lengthHolder ref => rfl

theorem outputOf_withLengthHolder : (q.withLengthHolder source).outputOf =
    Function.update q.outputOf (.lengthHolder source) (some (outputRef q.nextObjid)) := by
  funext key
  cases key with
  | source ref => rfl
  | raw objGen => rfl
  | lengthHolder ref =>
    simp only [outputOf, withLengthHolder, getElem?_insert_ite, Function.update_apply,
      OutputKey.lengthHolder.injEq, eq_comm (a := ref)]

theorem enters_queued : (q.queued handle).enters = q.enters := by
  funext key
  cases key <;> rfl

theorem source_keeps (hsource : source ∉ q.oldToNew) (ref out : ObjectRef)
    (hout : q.oldToNew[ref]? = some out) :
    (q.oldToNew.insert source output)[ref]? = some out := by
  rw [getElem?_insert_ite, if_neg, hout]
  rintro rfl
  rw [ExtTreeMap.mem_iff_isSome_getElem?, hout] at hsource
  exact hsource rfl

/-- New numbers for sources keep raw and ordinary numbers apart only if they were. -/
theorem Apart.of_withSource (h : (q.withSource source).Apart) : q.Apart := by
  intro hqdf objGen ref href hmem
  exact h hqdf objGen ref href (ExtTreeMap.mem_insert.mpr (.inr hmem))

theorem holders_withSource (h : Live q popped) (ref : ObjectRef)
    (href : ref ∈ q.streamLengthHolders) : ref ∈ (q.withSource source).oldToNew ∨
      ∃ objGen : QpdfObjGen, q.rawOldToNew[objGen]? = some ref := by
  rcases h.holders ref href with hold | hraw
  · exact .inl (ExtTreeMap.mem_insert.mpr (.inr hold))
  · exact .inr hraw

/-- A member is numbered without entering the queue. -/
theorem advance_member (h : Live q popped) (hnew : source ∉ q.oldToNew)
    (hmember : source ∈ q.memberToContainer) : Advance popped q (q.withSource source) := by
  have hout : q.outputOf (.source source) = none := by
    simpa [outputOf] using hnew
  refine ⟨⟨?_, holders_withSource h, ?_, ?_, h.members⟩, source_keeps hnew, fun _ _ hraw => hraw,
    rfl, rfl⟩
  · rw [outputOf_withSource]
    exact h.numbering.assign outputRef_injective _
  · intro hapart
    rw [outputOf_withSource]
    exact (h.covers hapart.of_withSource).assign hout
  · intro key
    refine (h.pushed key).trans ?_
    cases key with
    | source ref =>
      by_cases href : source = ref
      · subst href
        have hnone : q.memberToContainer[source]?.isNone = false := by
          simpa using hmember
        simp only [enters, withSource, hnone, Bool.and_false]
      · simp only [enters, withSource, getElem?_insert_ite, if_neg href]
    | raw objGen => rfl
    | lengthHolder ref => rfl

/-- One more handle at the end of the queue. -/
theorem count_queued (h : Live q popped) {key : OutputKey}
    (hkey : handle.sourceKey = some key) (key' : OutputKey) :
    ((popped ++ (q.pending ++ [handle])).map ObjectHandle.sourceKey).count (some key') =
      (q.enters key').toNat + if key = key' then 1 else 0 := by
  rw [← List.append_assoc, List.map_append, List.count_append, h.pushed key']
  simp [hkey, List.count_singleton]

/-- A source is numbered and queued. -/
theorem advance_source (h : Live q popped) (hnew : source ∉ q.oldToNew)
    (hmember : source ∉ q.memberToContainer) (hkey : handle.sourceKey = some (.source source)) :
    Advance popped q ((q.withSource source).queued handle) := by
  have hout : q.outputOf (.source source) = none := by
    simpa [outputOf] using hnew
  refine ⟨⟨?_, holders_withSource h, ?_, ?_, h.members⟩, source_keeps hnew, fun _ _ hraw => hraw,
    rfl, rfl⟩
  · show Numbering outputRef (q.withSource source).outputOf _
    rw [outputOf_withSource]
    exact h.numbering.assign outputRef_injective _
  · intro hapart
    show Covers outputRef (q.withSource source).outputOf _
    rw [outputOf_withSource]
    exact (h.covers (Apart.of_withSource hapart)).assign hout
  · intro key
    refine (count_queued h hkey key).trans ?_
    rw [enters_queued]
    cases key with
    | source ref =>
      by_cases href : source = ref
      · subst href
        have hnone : q.memberToContainer[source]? = none := by
          simpa using hmember
        have hold : q.oldToNew[source]? = none := by
          simpa using hnew
        simp only [enters, withSource, getElem?_insert_ite, hnone, hold, if_true]
        rfl
      · simp only [enters, withSource, getElem?_insert_ite, if_neg href,
          OutputKey.source.injEq, Nat.add_zero]
    | raw objGen => rfl
    | lengthHolder ref => rfl

/-- A raw identity is numbered and queued. -/
theorem advance_raw (h : Live q popped) (hnew : rawSource ∉ q.rawOldToNew)
    (hkey : handle.sourceKey = some (.raw rawSource)) :
    Advance popped q ((q.withRaw rawSource).queued handle) := by
  have hout : q.outputOf (.raw rawSource) = none := by
    simpa [outputOf] using hnew
  have hkeeps : ∀ (objGen : QpdfObjGen) (out : ObjectRef), q.rawOldToNew[objGen]? = some out →
      (q.withRaw rawSource).rawOldToNew[objGen]? = some out := by
    intro objGen out hraw
    rw [withRaw, getElem?_insert_ite, if_neg, hraw]
    rintro rfl
    rw [ExtTreeMap.mem_iff_isSome_getElem?, hraw] at hnew
    exact hnew rfl
  refine ⟨⟨?_, ?_, ?_, ?_, h.members⟩, fun _ _ hold => hold, hkeeps, rfl, rfl⟩
  · show Numbering outputRef (q.withRaw rawSource).outputOf _
    rw [outputOf_withRaw]
    exact h.numbering.assign outputRef_injective _
  · intro ref href
    rcases h.holders ref href with hold | ⟨objGen, hraw⟩
    · exact .inl hold
    · exact .inr ⟨objGen, hkeeps objGen ref hraw⟩
  · intro hapart
    show Covers outputRef (q.withRaw rawSource).outputOf _
    rw [outputOf_withRaw]
    apply Covers.assign _ hout
    apply h.covers
    intro hqdf objGen ref href
    exact hapart hqdf objGen ref (hkeeps objGen ref href)
  · intro key
    refine (count_queued h hkey key).trans ?_
    rw [enters_queued]
    cases key with
    | source ref => rfl
    | raw objGen =>
      by_cases href : rawSource = objGen
      · subst href
        have hraw : q.rawOldToNew[rawSource]? = none := by
          simpa using hnew
        simp only [enters, withRaw, getElem?_insert_ite, hraw, if_true]
        rfl
      · simp only [enters, withRaw, getElem?_insert_ite, if_neg href,
          OutputKey.raw.injEq, Nat.add_zero]
    | lengthHolder ref => rfl

/-- A length holder is numbered. Its key is new unless two streams share it. -/
theorem advance_lengthHolder (h : Live q popped)
    (hkey : source ∈ q.oldToNew ∨ ∃ objGen : QpdfObjGen, q.rawOldToNew[objGen]? = some source)
    (hnew : q.Apart → source ∉ q.streamLengthHolders) :
    Advance popped q (q.withLengthHolder source) := by
  refine ⟨⟨?_, ?_, ?_, ?_, h.members⟩, fun _ _ hold => hold, fun _ _ hraw => hraw, rfl, rfl⟩
  · rw [outputOf_withLengthHolder]
    exact h.numbering.assign outputRef_injective _
  · intro ref href
    rw [withLengthHolder, ExtTreeMap.mem_insert] at href
    rcases href with href | href
    · rw [LawfulEqOrd.compare_eq_iff_eq] at href
      exact href ▸ hkey
    · exact h.holders ref href
  · intro hapart
    rw [outputOf_withLengthHolder]
    apply (h.covers hapart).assign
    simpa [outputOf] using hnew hapart
  · intro key
    refine (h.pushed key).trans ?_
    cases key <;> rfl

end LiveQueue

end Flpdf
