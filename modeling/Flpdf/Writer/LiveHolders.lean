import Flpdf.Writer.LiveAnswers
import Flpdf.Writer.LiveRuns

/-!
# Length holders of the live queue

Under QDF the emitter looks a stream's length holder up under its source, or
under its output number when the source is a raw identity. A holder is the
number after its stream's own; it is lost when a later stream uses the same key.
-/

namespace Flpdf.LiveQueue

open Std Relation

variable {q q' : LiveQueue} {popped queued : List ObjectHandle} {handle other : ObjectHandle}
  {source : ObjectRef} {rawSource : QpdfObjGen} {members : List ObjectRef} {pdf : Document}
  {fuel n : ℕ} {outcome : Outcome (Option ObjectRef)}

/-! ## The lookup -/

/-- `output_number` of an indirect object. -/
def outputNumber (q : LiveQueue) (object : QpdfObjGen) : Option ℕ :=
  (q.rawOldToNew[object]?.or (object.toObjectRef.bind fun ref => q.oldToNew[ref]?)).map
    ObjectRef.number

def handleNumber (q : LiveQueue) (handle : ObjectHandle) : Option ℕ :=
  q.outputNumber (handle.qpdfObjGen.getD ⟨0, 0⟩)

/-- The key of a stream with the given output number. -/
def holderKey (handle : ObjectHandle) (outputNumber : ℕ) : ObjectRef :=
  handle.objectRef.getD (outputRef outputNumber)

/-- The holder the emitter finds for a stream. -/
def lengthHolder (q : LiveQueue) (handle : ObjectHandle) : Option ObjectRef :=
  (q.handleNumber handle).bind fun number => q.streamLengthHolders[holderKey handle number]?

/-- The streams that reserve a holder when they are queued. -/
structure Reserves (q : LiveQueue) (handle : ObjectHandle) : Prop where
  qdf : q.qdf = true
  stream : handle.isStream = true
  single : ∀ source, handle.objectRef = some source → source ∉ q.containerToMembers

/-- The emitter finds the holder reserved with the stream, a number that no
object and no other holder has. -/
def FindsOwnHolder (q : LiveQueue) (handle : ObjectHandle) : Prop :=
  ∃ number, q.handleNumber handle = some number ∧
    q.lengthHolder handle = some (outputRef (number + 1)) ∧
    ∀ key, q.outputOf key = some (outputRef (number + 1)) →
      key = .lengthHolder (holderKey handle number)

/-- One of two streams has a raw identity and as output number the object
number of the other's reference, of generation zero. -/
def SharesKey (q : LiveQueue) (a b : ObjectHandle) : Prop :=
  ∃ n, (a.objectRef = none ∧ q.handleNumber a = some n ∧ b.objectRef = some (outputRef n)) ∨
    (b.objectRef = none ∧ q.handleNumber b = some n ∧ a.objectRef = some (outputRef n))

/-- A stream queued later, with a holder of its own under the same key. -/
def Overwrites (q : LiveQueue) (handle other : ObjectHandle) : Prop :=
  q.Reserves other ∧ q.SharesKey handle other ∧
    ∃ n m, q.handleNumber handle = some n ∧ q.handleNumber other = some m ∧ n < m

/-! ## Numbers of queued handles -/

/-- Raw identities are those without a reference. -/
theorem Live.raw_identity (h : Live q popped) (hraw : rawSource ∈ q.rawOldToNew) :
    rawSource.toObjectRef = none ∧ rawSource.isIndirect = true := by
  have hcount := h.pushed (.raw rawSource)
  rw [ExtTreeMap.mem_iff_isSome_getElem?] at hraw
  rw [enters, hraw] at hcount
  have hmem : some (OutputKey.raw rawSource) ∈
      (popped ++ q.pending).map ObjectHandle.sourceKey := by
    apply List.count_pos_iff.mp
    rw [hcount]
    exact Nat.one_pos
  obtain ⟨handle, _, hkey⟩ := List.mem_map.mp hmem
  unfold ObjectHandle.sourceKey at hkey
  cases href : handle.objectRef with
  | some source =>
    rw [href] at hkey
    cases hkey
  | none =>
    rw [href] at hkey
    obtain ⟨objGen, hindirect, heq⟩ := Option.map_eq_some_iff.mp hkey
    obtain rfl := OutputKey.raw.inj heq
    obtain ⟨hobj, hfilter⟩ := Option.filter_eq_some_iff.mp hindirect
    rw [ObjectHandle.objectRef, hobj] at href
    exact ⟨href, hfilter⟩

/-- The emitter's number is the one given to the handle's key. -/
theorem handleNumber_eq (h : Live q popped) (handle : ObjectHandle) :
    q.handleNumber handle = (handle.sourceKey.bind q.outputOf).map ObjectRef.number := by
  unfold handleNumber outputNumber ObjectHandle.sourceKey ObjectHandle.objectRef
    ObjectHandle.indirectObjGen
  cases hobj : handle.qpdfObjGen with
  | none =>
    have hraw : q.rawOldToNew[(⟨0, 0⟩ : QpdfObjGen)]? = none := by
      apply ExtTreeMap.getElem?_eq_none
      intro hmem
      exact absurd (h.raw_identity hmem).2 (by decide)
    rw [Option.getD_none, hraw]
    rfl
  | some objGen =>
    rw [Option.getD_some, Option.bind_some]
    cases href : objGen.toObjectRef with
    | some source =>
      have hraw : q.rawOldToNew[objGen]? = none := by
        apply ExtTreeMap.getElem?_eq_none
        intro hmem
        rw [(h.raw_identity hmem).1] at href
        cases href
      rw [hraw]
      rfl
    | none =>
      by_cases hindirect : objGen.isIndirect = true
      · rw [Option.filter_some, if_pos hindirect]
        simp only [Option.bind_none, Option.or_none]
        rfl
      · have hraw : q.rawOldToNew[objGen]? = none := by
          apply ExtTreeMap.getElem?_eq_none
          intro hmem
          exact hindirect (h.raw_identity hmem).2
        rw [Option.filter_some, if_neg hindirect, hraw]
        rfl

theorem handleNumber_of_key {key : OutputKey} (h : Live q popped)
    (hkey : handle.sourceKey = some key) (hout : q.outputOf key = some (outputRef n)) :
    q.handleNumber handle = some n := by
  rw [handleNumber_eq h, hkey, Option.bind_some, hout]
  rfl

/-- A queued handle keeps its number. -/
theorem Advance.handleNumber (hlive : Live q popped) (h : Advance popped q q')
    (hnumber : q.handleNumber handle = some n) : q'.handleNumber handle = some n := by
  rw [handleNumber_eq hlive] at hnumber
  rw [handleNumber_eq h.live]
  obtain ⟨output, hout, hn⟩ := Option.map_eq_some_iff.mp hnumber
  obtain ⟨key, hkey, hout⟩ := Option.bind_eq_some_iff.mp hout
  rw [hkey, Option.bind_some]
  cases key with
  | source ref => rw [outputOf, h.source ref output hout, Option.map_some, hn]
  | raw objGen => rw [outputOf, h.raw objGen output hout, Option.map_some, hn]
  | lengthHolder ref =>
    unfold ObjectHandle.sourceKey at hkey
    cases href : handle.objectRef <;> simp [href] at hkey

/-- Handles with one number have one key. -/
theorem sourceKey_of_number (h : Live q popped) (hnumber : q.handleNumber handle = some n)
    (hother : q.handleNumber other = some n) : handle.sourceKey = other.sourceKey := by
  rw [handleNumber_eq h] at hnumber hother
  obtain ⟨a, hout, ha⟩ := Option.map_eq_some_iff.mp hnumber
  obtain ⟨b, hout', hb⟩ := Option.map_eq_some_iff.mp hother
  obtain ⟨key, hkey, hout⟩ := Option.bind_eq_some_iff.mp hout
  obtain ⟨key', hkey', hout'⟩ := Option.bind_eq_some_iff.mp hout'
  have heq : a = b := by
    obtain ⟨i, _, _, rfl⟩ := h.numbering.range key a hout
    obtain ⟨j, _, _, rfl⟩ := h.numbering.range key' b hout'
    exact congrArg outputRef (ha.trans hb.symm)
  rw [hkey, hkey', h.numbering.injective key key' a hout (heq ▸ hout')]

theorem handleNumber_lt (h : Live q popped) (hnumber : q.handleNumber handle = some n) :
    n < q.nextObjid := by
  rw [handleNumber_eq h] at hnumber
  obtain ⟨output, hout, rfl⟩ := Option.map_eq_some_iff.mp hnumber
  obtain ⟨key, _, hout⟩ := Option.bind_eq_some_iff.mp hout
  obtain ⟨m, _, hlt, rfl⟩ := h.numbering.range key output hout
  exact hlt

/-! ## The holder map -/

/-- Each key holds the number after the last stream queued under it. -/
structure Holders (q : LiveQueue) (queued : List ObjectHandle) : Prop where
  numbered : ∀ handle ∈ queued, ∃ n, q.handleNumber handle = some n
  reserved : ∀ handle ∈ queued, q.Reserves handle → ∀ n, q.handleNumber handle = some n →
    ∃ m, n ≤ m ∧ q.streamLengthHolders[holderKey handle n]? = some (outputRef (m + 1))
  owned : ∀ key holder : ObjectRef, q.streamLengthHolders[key]? = some holder →
    ∃ handle ∈ queued, q.Reserves handle ∧ ∃ m, q.handleNumber handle = some m ∧
      holderKey handle m = key ∧ holder = outputRef (m + 1)

theorem Holders.grow (h : Holders q queued) (hlive : Live q popped) (hadvance : Advance popped q q')
    (hqdf : q'.qdf = q.qdf) (hholders : q'.streamLengthHolders = q.streamLengthHolders) :
    Holders q' queued where
  numbered := by
    intro handle hmem
    obtain ⟨n, hnumber⟩ := h.numbered handle hmem
    exact ⟨n, hadvance.handleNumber hlive hnumber⟩
  reserved := by
    intro handle hmem hreserves n hnumber
    obtain ⟨n', hold⟩ := h.numbered handle hmem
    obtain rfl : n' = n := Option.some.inj ((hadvance.handleNumber hlive hold).symm.trans hnumber)
    rw [hholders]
    exact h.reserved handle hmem
      ⟨hqdf ▸ hreserves.qdf, hreserves.stream, hadvance.container ▸ hreserves.single⟩ n' hold
  owned := by
    intro key holder hholder
    rw [hholders] at hholder
    obtain ⟨handle, hmem, hreserves, m, hnumber, hkey, rfl⟩ := h.owned key holder hholder
    refine ⟨handle, hmem, ⟨hqdf.trans hreserves.qdf, hreserves.stream, ?_⟩, m,
      hadvance.handleNumber hlive hnumber, hkey, rfl⟩
    rw [hadvance.container]
    exact hreserves.single

/-- A handle that reserves no holder joins the queue. -/
theorem Holders.push (h : Holders q queued) (hnumber : q.handleNumber handle = some n)
    (hplain : ¬q.Reserves handle) : Holders q (queued ++ [handle]) where
  numbered := by
    intro handle' hmem
    rcases List.mem_append.mp hmem with hold | hnew
    · exact h.numbered handle' hold
    · obtain rfl := List.mem_singleton.mp hnew
      exact ⟨n, hnumber⟩
  reserved := by
    intro handle' hmem hreserves
    rcases List.mem_append.mp hmem with hold | hnew
    · exact h.reserved handle' hold hreserves
    · obtain rfl := List.mem_singleton.mp hnew
      exact absurd hreserves hplain
  owned := by
    intro key holder hholder
    obtain ⟨handle', hmem, hrest⟩ := h.owned key holder hholder
    exact ⟨handle', List.mem_append_left _ hmem, hrest⟩

/-- A stream joins the queue and takes the next number for its holder. -/
theorem Holders.pushStream (h : Holders q queued) (hlive : Live q popped)
    (hnumber : q.handleNumber handle = some n) (hnext : q.nextObjid = n + 1)
    (hreserves : q.Reserves handle) :
    Holders (q.withLengthHolder (holderKey handle n)) (queued ++ [handle]) := by
  have hself : (q.withLengthHolder (holderKey handle n)).streamLengthHolders[holderKey handle n]? =
      some (outputRef (n + 1)) := by
    rw [← hnext]
    exact ExtTreeMap.getElem?_insert_self
  have hrest : ∀ key : ObjectRef, holderKey handle n ≠ key →
      (q.withLengthHolder (holderKey handle n)).streamLengthHolders[key]? =
        q.streamLengthHolders[key]? := by
    intro key hne
    rw [withLengthHolder, getElem?_insert_ite, if_neg hne]
  refine ⟨?_, ?_, ?_⟩
  · intro handle' hmem
    rcases List.mem_append.mp hmem with hold | hnew
    · exact h.numbered handle' hold
    · obtain rfl := List.mem_singleton.mp hnew
      exact ⟨n, hnumber⟩
  · intro handle' hmem hreserves' n' hnumber'
    have hle : n' ≤ n := by
      have hlt := handleNumber_lt hlive hnumber'
      omega
    by_cases hkey : holderKey handle n = holderKey handle' n'
    · exact ⟨n, hle, hkey ▸ hself⟩
    · rw [hrest _ hkey]
      rcases List.mem_append.mp hmem with hold | hnew
      · exact h.reserved handle' hold
          ⟨hreserves'.qdf, hreserves'.stream, hreserves'.single⟩ n' hnumber'
      · obtain rfl := List.mem_singleton.mp hnew
        obtain rfl := Option.some.inj (hnumber.symm.trans hnumber')
        exact absurd rfl hkey
  · intro key holder hholder
    by_cases hkey : holderKey handle n = key
    · subst hkey
      rw [hself] at hholder
      exact ⟨handle, List.mem_append_right _ List.mem_cons_self,
        ⟨hreserves.qdf, hreserves.stream, hreserves.single⟩, n, hnumber, rfl,
        (Option.some.inj hholder).symm⟩
    · rw [hrest _ hkey] at hholder
      obtain ⟨handle', hmem, hreserves', hown⟩ := h.owned key holder hholder
      exact ⟨handle', List.mem_append_left _ hmem,
        ⟨hreserves'.qdf, hreserves'.stream, hreserves'.single⟩, hown⟩

/-! ## Calls -/

/-- Numbering members changes the counter and the numbers of sources only. -/
theorem numberMembers_eq (members : List ObjectRef) (q : LiveQueue) :
    ∃ next numbers, q.nextObjid ≤ next ∧
      (numberMembers members q).2 = { q with nextObjid := next, oldToNew := numbers } := by
  induction members generalizing q with
  | nil => exact ⟨q.nextObjid, q.oldToNew, Nat.le_refl _, rfl⟩
  | cons member members ih =>
    rw [numberMembers]
    by_cases hold : member ∈ q.oldToNew
    · rw [if_pos hold]
      exact ih q
    · rw [if_neg hold]
      cases hreserve : q.reserveOutputNumber with
      | error e => exact ⟨q.nextObjid, q.oldToNew, Nat.le_refl _, rfl⟩
      | ok reserved =>
        obtain ⟨output, q₁⟩ := reserved
        obtain ⟨rfl, rfl⟩ := reserveOutputNumber_eq_ok hreserve
        obtain ⟨next, numbers, hle, heq⟩ := ih
          { q with nextObjid := q.nextObjid + 1, oldToNew := q.oldToNew.insert member _ }
        exact ⟨next, numbers, by simp only at hle; omega, heq⟩

/-- The call takes the next number for the holder of the stream just queued. -/
theorem reserveLengthHolder_holders (h : Holders q queued) (hlive : Live q popped)
    (hnumber : q.handleNumber handle = some n) (hnext : q.nextObjid = n + 1)
    (hreserves : q.Reserves handle)
    (hlimit : (q.reserveLengthHolder (holderKey handle n)).2.nextObjid + 1 < 2 ^ 32) :
    Holders (q.reserveLengthHolder (holderKey handle n)).2 (queued ++ [handle]) := by
  by_cases hbound : q.nextObjid + 1 < 2 ^ 32
  · rw [reserveLengthHolder, reserveOutputNumber, if_pos hbound]
    exact h.pushStream hlive hnumber hnext hreserves
  · rw [reserveLengthHolder, reserveOutputNumber, if_neg hbound] at hlimit
    exact absurd hlimit hbound

theorem reserveLengthHolder_pending (key : ObjectRef) :
    (q.reserveLengthHolder key).2.pending = q.pending := by
  unfold reserveLengthHolder
  cases hreserve : q.reserveOutputNumber with
  | error e => rfl
  | ok reserved =>
    obtain ⟨output, q₁⟩ := reserved
    obtain ⟨rfl, rfl⟩ := reserveOutputNumber_eq_ok hreserve
    rfl

theorem objectRef_of_raw (hkey : handle.sourceKey = some (.raw rawSource)) :
    handle.objectRef = none := by
  unfold ObjectHandle.sourceKey at hkey
  cases href : handle.objectRef with
  | none => rfl
  | some source =>
    rw [href] at hkey
    cases hkey

theorem enqueueRaw_holders (h : Holders q (popped ++ q.pending)) (hlive : Live q popped)
    (hkey : handle.sourceKey = some (.raw rawSource))
    (hlimit : (q.enqueueRaw handle rawSource).2.nextObjid + 1 < 2 ^ 32) :
    Holders (q.enqueueRaw handle rawSource).2
      (popped ++ (q.enqueueRaw handle rawSource).2.pending) := by
  have href := objectRef_of_raw hkey
  unfold enqueueRaw at hlimit ⊢
  cases hold : q.rawOldToNew[rawSource]? with
  | some output => exact h
  | none =>
    have hnew : rawSource ∉ q.rawOldToNew := by
      simpa using hold
    rw [hold] at hlimit
    dsimp only at hlimit ⊢
    by_cases hbound : q.nextObjid + 1 < 2 ^ 32
    · rw [reserveOutputNumber, if_pos hbound] at hlimit ⊢
      dsimp only at hlimit ⊢
      have hstep := advance_raw hlive hnew hkey
      have hgrown := h.grow hlive hstep rfl rfl
      have hnumber : ((q.withRaw rawSource).queued handle).handleNumber handle =
          some q.nextObjid :=
        handleNumber_of_key hstep.live hkey ExtTreeMap.getElem?_insert_self
      have hkeyEq : holderKey handle q.nextObjid = outputRef q.nextObjid := by
        rw [holderKey, href]
        rfl
      by_cases hstream : (q.qdf && handle.isStream) = true
      · rw [if_pos hstream] at hlimit ⊢
        obtain ⟨hqdf, hisStream⟩ := Bool.and_eq_true_iff.mp hstream
        dsimp only [outputRef] at hlimit ⊢
        rw [reserveLengthHolder_pending, ← List.append_assoc]
        have hreserved := reserveLengthHolder_holders hgrown hstep.live hnumber rfl
          ⟨hqdf, hisStream, fun source hsource => absurd (href.symm.trans hsource) (by simp)⟩
        rw [hkeyEq] at hreserved
        exact hreserved hlimit
      · rw [if_neg hstream]
        rw [← List.append_assoc]
        refine hgrown.push hnumber ?_
        intro hreserves
        exact hstream (Bool.and_eq_true_iff.mpr ⟨hreserves.qdf, hreserves.stream⟩)
    · rw [reserveOutputNumber, if_neg hbound] at hlimit
      exact absurd hlimit hbound

theorem enqueueSource_holders (h : Holders q (popped ++ q.pending)) (hlive : Live q popped)
    (href : handle.objectRef = some source) (hnew : q.oldToNew[source]? = none)
    (hfree : q.memberToContainer[source]? = none)
    (hlimit : (q.enqueueSource handle source).2.nextObjid + 1 < 2 ^ 32) :
    Holders (q.enqueueSource handle source).2
      (popped ++ (q.enqueueSource handle source).2.pending) := by
  have hnew' : source ∉ q.oldToNew := by
    simpa using hnew
  have hfree' : source ∉ q.memberToContainer := by
    simpa using hfree
  by_cases hbound : q.nextObjid + 1 < 2 ^ 32
  · have hkey := sourceKey_of_objectRef href
    have hstep := advance_source hlive hnew' hfree' hkey
    have hgrown := h.grow hlive hstep rfl rfl
    have hnumber : ((q.withSource source).queued handle).handleNumber handle =
        some q.nextObjid :=
      handleNumber_of_key hstep.live hkey ExtTreeMap.getElem?_insert_self
    cases hmembers : q.containerToMembers[source]? with
    | some members =>
      rw [enqueueSource_container hbound hmembers]
      obtain ⟨next, numbers, _, heq⟩ :=
        numberMembers_eq members ((q.withSource source).queued handle)
      have hadvance := numberMembers_advance members hstep.live
        (hlive.members source members hmembers)
      have hpushed : Holders ((q.withSource source).queued handle)
          (popped ++ (q.pending ++ [handle])) := by
        rw [← List.append_assoc]
        refine hgrown.push hnumber ?_
        intro hreserves
        apply hreserves.single source href
        rw [ExtTreeMap.mem_iff_isSome_getElem?]
        show q.containerToMembers[source]?.isSome = true
        rw [hmembers]
        rfl
      rw [heq] at hadvance ⊢
      exact hpushed.grow hstep.live hadvance rfl rfl
    | none =>
      have hsingle : ∀ ref, handle.objectRef = some ref → ref ∉ q.containerToMembers := by
        intro ref hsource hmem
        obtain rfl := Option.some.inj (href.symm.trans hsource)
        rw [ExtTreeMap.mem_iff_isSome_getElem?, hmembers] at hmem
        cases hmem
      have hkeyEq : holderKey handle q.nextObjid = source := by
        rw [holderKey, href]
        rfl
      rw [enqueueSource, reserveOutputNumber, if_pos hbound] at hlimit ⊢
      dsimp only at hlimit ⊢
      rw [hmembers] at hlimit ⊢
      dsimp only at hlimit ⊢
      by_cases hstream : (q.qdf && handle.isStream) = true
      · rw [if_pos hstream] at hlimit ⊢
        obtain ⟨hqdf, hisStream⟩ := Bool.and_eq_true_iff.mp hstream
        rw [reserveLengthHolder_pending, ← List.append_assoc]
        have hreserved := reserveLengthHolder_holders hgrown hstep.live hnumber rfl
          ⟨hqdf, hisStream, hsingle⟩
        rw [hkeyEq] at hreserved
        exact hreserved hlimit
      · rw [if_neg hstream, ← List.append_assoc]
        refine hgrown.push hnumber ?_
        intro hreserves
        exact hstream (Bool.and_eq_true_iff.mpr ⟨hreserves.qdf, hreserves.stream⟩)
  · rw [enqueueSource_overflow hbound] at hlimit
    exact absurd hlimit hbound

theorem enqueueFuel_holders (h : Holders q (popped ++ q.pending)) (hlive : Live q popped)
    (hcall : enqueueFuel pdf fuel handle q = some outcome)
    (hlimit : outcome.2.nextObjid + 1 < 2 ^ 32) :
    Holders outcome.2 (popped ++ outcome.2.pending) := by
  induction fuel generalizing q handle outcome with
  | zero => cases hcall
  | succ fuel ih =>
    rcases enqueueFuel_cases pdf fuel handle q with ⟨result, ignored, heq⟩ |
      ⟨rawSource, hkey, heq⟩ | ⟨source, hordinary, hnew, hfree, heq⟩ |
      ⟨source, container, _, _, _, _, heq⟩ <;> rw [heq] at hcall
    · cases hcall
      exact h.grow hlive ⟨hlive.ignoring ignored, fun _ _ hold => hold, fun _ _ hraw => hraw,
        rfl, rfl⟩ rfl rfl
    · cases hcall
      exact enqueueRaw_holders h hlive hkey hlimit
    · cases hcall
      exact enqueueSource_holders h hlive hordinary.ref hnew hfree hlimit
    · obtain ⟨inner, hinner, rfl⟩ := Option.map_eq_some_iff.mp hcall
      have hwaiting : Advance popped q (q.waiting source) :=
        ⟨hlive.resolving _, fun _ _ hold => hold, fun _ _ hraw => hraw, rfl, rfl⟩
      have hrest := ih (q := q.waiting source) (h.grow hlive hwaiting rfl rfl) hwaiting.live
        hinner hlimit
      exact hrest

/-! ## The counter -/

theorem reserveLengthHolder_next (key : ObjectRef) :
    q.nextObjid ≤ (q.reserveLengthHolder key).2.nextObjid := by
  unfold reserveLengthHolder
  cases hreserve : q.reserveOutputNumber with
  | error e => exact Nat.le_refl _
  | ok reserved =>
    obtain ⟨output, q₁⟩ := reserved
    obtain ⟨rfl, rfl⟩ := reserveOutputNumber_eq_ok hreserve
    exact Nat.le_succ _

theorem enqueueRaw_next : q.nextObjid ≤ (q.enqueueRaw handle rawSource).2.nextObjid := by
  unfold enqueueRaw
  cases hold : q.rawOldToNew[rawSource]? with
  | some output => exact Nat.le_refl _
  | none =>
    dsimp only
    cases hreserve : q.reserveOutputNumber with
    | error e => exact Nat.le_refl _
    | ok reserved =>
      obtain ⟨output, q₁⟩ := reserved
      obtain ⟨rfl, rfl⟩ := reserveOutputNumber_eq_ok hreserve
      dsimp only
      by_cases hstream : (q.qdf && handle.isStream) = true
      · rw [if_pos hstream]
        exact (Nat.le_succ q.nextObjid).trans
          (reserveLengthHolder_next (q := (q.withRaw rawSource).queued handle) _)
      · rw [if_neg hstream]
        exact Nat.le_succ _

theorem enqueueSource_next : q.nextObjid ≤ (q.enqueueSource handle source).2.nextObjid := by
  by_cases hbound : q.nextObjid + 1 < 2 ^ 32
  · cases hmembers : q.containerToMembers[source]? with
    | some members =>
      rw [enqueueSource_container hbound hmembers]
      obtain ⟨next, numbers, hle, heq⟩ :=
        numberMembers_eq members ((q.withSource source).queued handle)
      rw [heq]
      exact (Nat.le_succ q.nextObjid).trans hle
    | none =>
      rw [enqueueSource, reserveOutputNumber, if_pos hbound]
      dsimp only
      rw [hmembers]
      dsimp only
      by_cases hstream : (q.qdf && handle.isStream) = true
      · rw [if_pos hstream]
        exact (Nat.le_succ q.nextObjid).trans
          (reserveLengthHolder_next (q := (q.withSource source).queued handle) _)
      · rw [if_neg hstream]
        exact Nat.le_succ _
  · rw [enqueueSource_overflow hbound]

/-- The counter never goes back. -/
theorem enqueueFuel_next (hcall : enqueueFuel pdf fuel handle q = some outcome) :
    q.nextObjid ≤ outcome.2.nextObjid := by
  induction fuel generalizing q handle outcome with
  | zero => cases hcall
  | succ fuel ih =>
    rcases enqueueFuel_cases pdf fuel handle q with ⟨result, ignored, heq⟩ |
      ⟨rawSource, _, heq⟩ | ⟨source, _, _, _, heq⟩ |
      ⟨source, container, _, _, _, _, heq⟩ <;> rw [heq] at hcall
    · cases hcall
      exact Nat.le_refl _
    · cases hcall
      exact enqueueRaw_next
    · cases hcall
      exact enqueueSource_next
    · obtain ⟨inner, hinner, rfl⟩ := Option.map_eq_some_iff.mp hcall
      have hrest := ih hinner
      exact hrest

/-! ## Runs -/

variable {groups : List ObjectStreamGroup} {removedRefs : ExtTreeSet ObjectRef} {qdf : Bool}
  {state state' : LiveQueue × List ObjectHandle}

theorem Unnumbered.holders_nil (h : q.Unnumbered) : Holders q ([] ++ q.pending) := by
  rw [h.pending]
  refine ⟨fun _ hmem => absurd hmem List.not_mem_nil,
    fun _ hmem => absurd hmem List.not_mem_nil, ?_⟩
  intro key holder hholder
  rw [h.holders, ExtTreeMap.getElem?_empty] at hholder
  cases hholder

theorem Step.holders (hstep : Step state state') (hlive : Live state.1 state.2)
    (h : Holders state.1 (state.2 ++ state.1.pending))
    (hlimit : state'.1.nextObjid + 1 < 2 ^ 32) :
    Holders state'.1 (state'.2 ++ state'.1.pending) := by
  cases hstep with
  | enqueue pdf handle outcome hcall => exact enqueueFuel_holders h hlive hcall hlimit
  | @pop q popped handle q' hpop =>
    unfold LiveQueue.pop at hpop
    cases hpending : q.pending with
    | nil =>
      rw [hpending] at hpop
      cases hpop
    | cons first pending =>
      rw [hpending] at hpop
      cases hpop
      rw [List.append_assoc]
      rw [hpending] at h
      exact ⟨h.numbered, fun handle hmem hreserves => h.reserved handle hmem
        ⟨hreserves.qdf, hreserves.stream, hreserves.single⟩, fun key holder hholder => by
          obtain ⟨handle, hmem, hreserves, hown⟩ := h.owned key holder hholder
          exact ⟨handle, hmem, ⟨hreserves.qdf, hreserves.stream, hreserves.single⟩, hown⟩⟩

theorem Step.next (hstep : Step state state') : state.1.nextObjid ≤ state'.1.nextObjid := by
  cases hstep with
  | enqueue pdf handle outcome hcall => exact enqueueFuel_next hcall
  | @pop q popped handle q' hpop =>
    unfold LiveQueue.pop at hpop
    cases hpending : q.pending with
    | nil =>
      rw [hpending] at hpop
      cases hpop
    | cons first pending =>
      rw [hpending] at hpop
      cases hpop
      exact Nat.le_refl _

theorem Reachable.holders (h : Reachable pdf groups removedRefs qdf state)
    (hlimit : state.1.nextObjid + 1 < 2 ^ 32) :
    Holders state.1 (state.2 ++ state.1.pending) := by
  have hstart := (Unnumbered.new removedRefs qdf).registerObjectStreams pdf groups
  unfold Reachable at h
  induction h with
  | refl => exact hstart.holders_nil
  | tail hrun hstep ih =>
    have hlive : Live _ _ := Reachable.live hrun
    have hle := hstep.next
    exact hstep.holders hlive (ih (by omega)) hlimit

/-- Two streams with different numbers have one key only if they share it. -/
theorem sharesKey_iff {m : ℕ} (hlive : Live q popped) (hnumber : q.handleNumber handle = some n)
    (hother : q.handleNumber other = some m) (hne : n ≠ m) :
    holderKey handle n = holderKey other m ↔ q.SharesKey handle other := by
  unfold holderKey SharesKey
  cases ha : handle.objectRef with
  | some source =>
    cases hb : other.objectRef with
    | some source' =>
      simp only [Option.getD_some, reduceCtorEq, false_and, or_false, exists_false, iff_false]
      rintro rfl
      rw [handleNumber_eq hlive, sourceKey_of_objectRef ha] at hnumber
      rw [handleNumber_eq hlive, sourceKey_of_objectRef hb] at hother
      exact hne (Option.some.inj (hnumber.symm.trans hother))
    | none => simp [hother]
  | none =>
    cases hb : other.objectRef with
    | some source' => simp [hnumber, eq_comm]
    | none => simpa using fun h => hne (outputRef_injective h)

/-- A queued stream finds its own holder exactly when it is no container and
no stream queued later has overwritten the holder. -/
theorem findsOwnHolder_iff (hlive : Live q popped) (h : Holders q queued)
    (hqdf : q.qdf = true) (hmem : handle ∈ queued) (hstream : handle.isStream = true) :
    q.FindsOwnHolder handle ↔
      (∀ source, handle.objectRef = some source → source ∉ q.containerToMembers) ∧
        ∀ other ∈ queued, ¬q.Overwrites handle other := by
  obtain ⟨n, hnumber⟩ := h.numbered handle hmem
  constructor
  · rintro ⟨number, hnum, hfound, -⟩
    obtain rfl := Option.some.inj (hnumber.symm.trans hnum)
    rw [lengthHolder, hnumber, Option.bind_some] at hfound
    constructor
    · intro source href hcontainer
      -- The holder's owner has the same number, so it is queued under the same source.
      obtain ⟨owner, _, hreserves, m, hm, _, heq⟩ := h.owned _ _ hfound
      obtain rfl : n = m := by
        have := outputRef_injective heq
        omega
      have hkey := sourceKey_of_number hlive hnumber hm
      rw [sourceKey_of_objectRef href] at hkey
      cases howner : owner.objectRef with
      | some source' =>
        rw [sourceKey_of_objectRef howner] at hkey
        obtain rfl := OutputKey.source.inj (Option.some.inj hkey)
        exact hreserves.single source howner hcontainer
      | none =>
        simp [ObjectHandle.sourceKey, howner] at hkey
    · rintro other hother ⟨hreserves, hshares, n', m, hn, hm, hlt⟩
      obtain rfl := Option.some.inj (hnumber.symm.trans hn)
      obtain ⟨m', hle, hheld⟩ := h.reserved other hother hreserves m hm
      rw [← (sharesKey_iff hlive hnumber hm (Nat.ne_of_lt hlt)).mpr hshares, hfound] at hheld
      have := outputRef_injective (Option.some.inj hheld)
      omega
  · rintro ⟨hsingle, hlast⟩
    obtain ⟨m, hle, hheld⟩ := h.reserved handle hmem ⟨hqdf, hstream, hsingle⟩ n hnumber
    obtain ⟨owner, howner, hreserves, m', hm, hkey, heq⟩ := h.owned _ _ hheld
    obtain rfl : m = m' := by
      have := outputRef_injective heq
      omega
    have heqn : n = m := by
      by_contra hne
      exact hlast owner howner ⟨hreserves, (sharesKey_iff hlive hnumber hm hne).mp hkey.symm,
        n, m, hnumber, hm, by omega⟩
    subst heqn
    refine ⟨n, hnumber, ?_, ?_⟩
    · rw [lengthHolder, hnumber]
      exact hheld
    · intro key hout
      exact hlive.numbering.injective _ _ _ hout hheld

/-- The queue of a QDF run that has met a stream of raw identity, then the
stream whose reference is the output reference of the first. -/
def overwrittenHolder : Option LiveQueue := do
  let raw : ObjectHandle :=
    { owningPdfUniqueId := some 0, qpdfObjGen := some ⟨5, 65536⟩, isXrefStream := .ok false,
      isStream := true }
  let first ← enqueueHandle plainDocument raw (.new ∅ true)
  let second ← enqueueHandle plainDocument (plainDocument.getObjectHandle ⟨1, 0⟩) first.2
  some second.2

end Flpdf.LiveQueue
