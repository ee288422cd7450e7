import Flpdf.Writer.LiveMembers

/-!
# Runs of the live queue

The writer registers its object streams, then enqueues handles and takes them
from the queue in any order. What one step keeps, every run keeps.
-/

namespace Flpdf.LiveQueue

open Std Relation

variable {q q' : LiveQueue} {source member : ObjectRef} {pdf : Document}

/-! ## Registration -/

/-- A queue that has numbered nothing yet. -/
structure Unnumbered (q : LiveQueue) : Prop where
  next : q.nextObjid = 1
  source : q.oldToNew = ∅
  raw : q.rawOldToNew = ∅
  holders : q.streamLengthHolders = ∅
  pending : q.pending = []
  members : ∀ (container : ObjectRef) (members : List ObjectRef),
    q.containerToMembers[container]? = some members →
      ∀ member ∈ members, member ∈ q.memberToContainer

theorem Unnumbered.new (removedRefs : ExtTreeSet ObjectRef) (qdf : Bool) :
    Unnumbered (.new removedRefs qdf) where
  next := rfl
  source := rfl
  raw := rfl
  holders := rfl
  pending := rfl
  members := by
    intro container members h
    rw [LiveQueue.new, ExtTreeMap.getElem?_empty] at h
    cases h

theorem Unnumbered.live (h : q.Unnumbered) : Live q [] := by
  have hnone : q.outputOf = fun _ => none := by
    funext key
    cases key with
    | source ref => rw [outputOf, h.source, ExtTreeMap.getElem?_empty]
    | raw objGen => rw [outputOf, h.raw, ExtTreeMap.getElem?_empty]
    | lengthHolder ref => rw [outputOf, h.holders, ExtTreeMap.getElem?_empty]
  refine ⟨?_, ?_, ?_, ?_, h.members⟩
  · rw [hnone, h.next]
    exact .start
  · intro ref href
    rw [h.holders] at href
    exact absurd href ExtTreeMap.not_mem_empty
  · intro _
    rw [hnone, h.next]
    exact .start
  · intro key
    rw [h.pending]
    cases key with
    | source ref => simp [enters, h.source]
    | raw objGen => simp [enters, h.raw]
    | lengthHolder ref => simp [enters]

theorem mem_foldl_insert (retained : List ObjectRef) (map : ExtTreeMap ObjectRef ObjectRef)
    (h : member ∈ retained ∨ member ∈ map) :
    member ∈ retained.foldl (fun map m => map.insert m source) map := by
  induction retained generalizing map with
  | nil => exact h.resolve_left List.not_mem_nil
  | cons first retained ih =>
    apply ih
    rcases h with h | h
    · rcases List.mem_cons.mp h with rfl | h
      · exact .inr ExtTreeMap.mem_insert_self
      · exact .inl h
    · exact .inr (ExtTreeMap.mem_insert.mpr (.inr h))

theorem Unnumbered.registerMembers (h : q.Unnumbered) (source : ObjectRef)
    (retained : List ObjectRef) : (q.registerMembers source retained).Unnumbered := by
  unfold LiveQueue.registerMembers
  by_cases hempty : retained.isEmpty = true
  · rw [if_pos hempty]
    exact h
  · rw [if_neg hempty]
    refine ⟨h.next, h.source, h.raw, h.holders, h.pending, ?_⟩
    intro container members hmembers member hmember
    apply mem_foldl_insert
    rw [getElem?_insert_ite] at hmembers
    by_cases heq : source = container
    · rw [if_pos heq] at hmembers
      exact .inl (Option.some.inj hmembers ▸ hmember)
    · rw [if_neg heq] at hmembers
      exact .inr (h.members container members hmembers member hmember)

theorem Unnumbered.registerGroup (h : q.Unnumbered) (pdf : Document) (group : ObjectStreamGroup) :
    (registerGroup pdf q group).Unnumbered := by
  cases group with
  | sourceBacked source members => exact h.registerMembers source _
  | generated source members =>
    have hgenerated : Unnumbered { q with
        generatedContainerSources := q.generatedContainerSources.insert source } :=
      ⟨h.next, h.source, h.raw, h.holders, h.pending, h.members⟩
    exact hgenerated.registerMembers source _

theorem Unnumbered.registerObjectStreams (h : q.Unnumbered) (pdf : Document)
    (groups : List ObjectStreamGroup) : (registerObjectStreams pdf groups q).Unnumbered := by
  unfold LiveQueue.registerObjectStreams
  induction groups generalizing q with
  | nil => exact h
  | cons group groups ih => exact ih (h.registerGroup pdf group)

/-! ## Runs -/

/-- A step of the writer: it enqueues a handle, with the document as it then
is, or takes the first handle from the queue. The list collects the handles taken. -/
inductive Step : LiveQueue × List ObjectHandle → LiveQueue × List ObjectHandle → Prop where
  | enqueue {q : LiveQueue} {popped : List ObjectHandle} (pdf : Document) (handle : ObjectHandle)
      (outcome : Outcome (Option ObjectRef)) (h : enqueueHandle pdf handle q = some outcome) :
      Step (q, popped) (outcome.2, popped)
  | pop {q : LiveQueue} {popped : List ObjectHandle} (handle : ObjectHandle) (q' : LiveQueue)
      (h : q.pop = some (handle, q')) : Step (q, popped) (q', popped ++ [handle])

/-- The states of all runs on the given object streams. -/
def Reachable (pdf : Document) (groups : List ObjectStreamGroup)
    (removedRefs : ExtTreeSet ObjectRef) (qdf : Bool) (state : LiveQueue × List ObjectHandle) :
    Prop :=
  ReflTransGen Step (registerObjectStreams pdf groups (.new removedRefs qdf), []) state

variable {state state' : LiveQueue × List ObjectHandle}

theorem Step.advance (hstep : Step state state') (h : Live state.1 state.2) :
    Live state'.1 state'.2 ∧
      ∀ ref output : ObjectRef, state.1.oldToNew[ref]? = some output →
        state'.1.oldToNew[ref]? = some output := by
  cases hstep with
  | enqueue pdf handle outcome hcall =>
    have hadvance := enqueueFuel_advance h hcall
    exact ⟨hadvance.live, hadvance.source⟩
  | @pop q popped handle q' hpop =>
    unfold LiveQueue.pop at hpop
    cases hpending : q.pending with
    | nil =>
      rw [hpending] at hpop
      cases hpop
    | cons first pending =>
      rw [hpending] at hpop
      cases hpop
      refine ⟨⟨h.numbering, h.holders, h.covers, ?_, h.members⟩, fun _ _ hold => hold⟩
      intro key
      have hpushed := h.pushed key
      rw [hpending] at hpushed
      rw [List.append_assoc]
      exact hpushed

theorem ReflTransGen.live (hrun : ReflTransGen Step state state') (h : Live state.1 state.2) :
    Live state'.1 state'.2 ∧
      ∀ ref output : ObjectRef, state.1.oldToNew[ref]? = some output →
        state'.1.oldToNew[ref]? = some output := by
  induction hrun with
  | refl => exact ⟨h, fun _ _ hold => hold⟩
  | tail _ hstep ih =>
    obtain ⟨hlive, hkeep⟩ := ih
    obtain ⟨hlive', hkeep'⟩ := hstep.advance hlive
    exact ⟨hlive', fun ref output hold => hkeep' ref output (hkeep ref output hold)⟩

theorem Reachable.live {groups : List ObjectStreamGroup} {removedRefs : ExtTreeSet ObjectRef}
    {qdf : Bool} (h : Reachable pdf groups removedRefs qdf state) : Live state.1 state.2 :=
  (ReflTransGen.live h ((Unnumbered.new removedRefs qdf).registerObjectStreams pdf groups).live).1

/-- A document whose objects are streams of its own, none a cross-reference stream. -/
def plainDocument : Document where
  uniqueId := 0
  getObjectHandle := fun ref =>
    { owningPdfUniqueId := some 0
      qpdfObjGen := some ⟨ref.number, ref.generation⟩
      isXrefStream := .ok false
      isStream := true }
  writerObjectOrder := none

end Flpdf.LiveQueue
