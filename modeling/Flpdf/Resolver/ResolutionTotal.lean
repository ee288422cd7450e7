import Flpdf.Resolver.Depth
import Flpdf.Resolver.EditsSurvive

/-!
# Resolution is total

Every call answers, at a depth the rows bound and with an answer no greater depth
changes. What it leaves: the marks of before, a value in the handle it was asked for,
and null for the objects that were found on a loop and have no object stream.
-/

namespace Flpdf.Resolver

open Program Std

variable {source : Source} {s t : State} {g : QpdfObjGen} {h depth : ℕ}
  {result : Except Error Unit}

/-- A dereference that succeeds leaves a value, and every dereference leaves the marks
and an order of the state. -/
theorem dereference_settles (hs : s.WellFormed)
    (hrun : dereference source depth h s = some (result, t)) :
    t.WellFormed ∧ t.resolving = s.resolving ∧ (result = .ok () → (t.value h).isSome) := by
  have hmeets : (dereference source depth h).Meets s fun result t =>
      Since source (fun _ => False) (fun _ => True) s t ∧
        (result = .ok () → (t.value h).isSome) :=
    meets_tryDereferenceWith (fun _ hs hin _ _ => meets_resolveQpdfObjGen depth hs hin) hs
      (fun _ _ _ => trivial) h
  obtain ⟨hsince, hsome⟩ := hmeets result t hrun
  exact ⟨hsince.wellFormed, hsince.progress.resolving, hsome⟩

/-- An object found on a loop is null when the dereference returns, unless its row puts
it into an object stream. -/
theorem dereference_loop_null (hs : s.WellFormed)
    (hrun : dereference source depth h s = some (result, t)) (hrow : ¬∃ k, s.InStream g k)
    (hloop : s.loops.count g < t.loops.count g) :
    ∃ h', t.objectCache[g]? = some h' ∧ t.value h' = some .null := by
  have hmeets : (dereference source depth h).Meets s fun result t =>
      Since source (fun _ => False) (fun g => ∃ k, s.InStream g k) s t ∧
        (result = .ok () → (t.value h).isSome) :=
    meets_tryDereferenceWith (fun _ hs hin _ _ => meets_resolveQpdfObjGen depth hs hin) hs
      (fun _ k hk => ⟨k, hk⟩) h
  exact (hmeets result t hrun).1.progress.loops hrow hloop

/-- Every call answers at every depth from a bound on, always the same. In every state
that calls lead to nothing is marked, each object stream was decoded at most once and
the table rebuilt at most once. And every resolution, those inside another one
included, keeps the marks, settles its handle and leaves null on a loop. -/
theorem resolution_total (source : Source) :
    (∀ (s : State) (op : Op), ∃ outcome, ∀ depth, s.depthBound source ≤ depth →
      op.perform source depth s = some outcome) ∧
    (∀ s, Reachable source s → s.WellFormed ∧ s.resolving = ∅ ∧ s.decodedStreams.Nodup ∧
      s.rebuilds ≤ 1) ∧
    ∀ s depth h result t, s.WellFormed → dereference source depth h s = some (result, t) →
      t.WellFormed ∧ t.resolving = s.resolving ∧ t.decodedStreams.Nodup ∧ t.rebuilds ≤ 1 ∧
      (result = .ok () → (t.value h).isSome) ∧
      ∀ g, (¬∃ k, s.InStream g k) → s.loops.count g < t.loops.count g →
        ∃ h', t.objectCache[g]? = some h' ∧ t.value h' = some .null := by
  refine ⟨?_, ?_, ?_⟩
  · intro s op
    obtain ⟨outcome, hrun⟩ :=
      Option.isSome_iff_exists.mp (halts_perform source s op (s.depthBound source) le_rfl)
    exact ⟨outcome, fun depth hdepth => extendedBy_perform hdepth op s outcome hrun⟩
  · intro s hs
    have hwf := hs.wellFormed
    exact ⟨hwf, hs.resolving, hwf.decoded_nodup, hwf.rebuilds_le⟩
  · intro s depth h result t hs hrun
    obtain ⟨hwf, hresolving, hsome⟩ := dereference_settles hs hrun
    refine ⟨hwf, hresolving, hwf.decoded_nodup, hwf.rebuilds_le, hsome, ?_⟩
    intro g hrow hloop
    exact dereference_loop_null hs hrun hrow hloop

/-! ## A member on the loop of its stream -/

/-- Object 1 is a member of object stream 5 and its `/Length`. -/
def loopSource : Source :=
  { sampleSource with
    readStream := fun offset dictionary =>
      .indirectHandle ⟨1, 0⟩ fun length => .dereference length fun _ =>
        .directHandle dictionary fun h => .done (.ok (.stream h offset 5)) }

/-- Every object found on a loop is null when the dereference returns. -/
def LoopsStayNull (source : Source) : Prop :=
  ∀ s, Reachable source s → ∀ depth h result t,
    dereference source depth h s = some (result, t) →
    ∀ g, s.loops.count g < t.loops.count g →
      ∃ h', t.objectCache[g]? = some h' ∧ t.value h' = some .null

/-- The member loop assigns object 1 after the loop made it null. -/
theorem not_loopsStayNull : ¬∀ source, LoopsStayNull source := by
  intro hall
  let s := (State.opened sampleRows false).getObjectHandle ⟨1, 0⟩
  have hstart : performAll loopSource 0 [.fetch ⟨1, 0⟩] (State.opened sampleRows false) =
      some s := rfl
  have hanswer : (dereference loopSource 5 0 s).map (fun outcome =>
      (s.loops, outcome.2.loops, outcome.2.objectCache[(⟨1, 0⟩ : QpdfObjGen)]?,
        outcome.2.value 0)) =
      some ([], [⟨1, 0⟩], some 0, some (.integer 10)) := by decide
  obtain ⟨⟨result, t⟩, hrun, hvalues⟩ := Option.map_eq_some_iff.mp hanswer
  simp only [Prod.mk.injEq] at hvalues
  obtain ⟨hbefore, hafter, hcached, hvalue⟩ := hvalues
  obtain ⟨h', hcached', hnull⟩ := hall loopSource s ⟨_, _, _, runs_performAll hstart⟩ 5 0 result t
    hrun ⟨1, 0⟩ (by rw [hbefore, hafter]; decide)
  rw [hcached, Option.some.injEq] at hcached'
  rw [← hcached', hvalue] at hnull
  cases hnull

end Flpdf.Resolver
