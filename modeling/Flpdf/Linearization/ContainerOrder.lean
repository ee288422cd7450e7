import Flpdf.Linearization.ContainerPlacement
import Flpdf.Effects.Program
import Flpdf.Collections.FirstOccurrences
import Mathlib.Data.List.Infix
import Mathlib.Data.List.Perm.Basic

/-!
# The order of the containers

The containers of the open-document part and of the second half are recorded in the order of
their batches. Those of the first half are recorded when they are numbered, which is in the
order of the batches unless a plain object has a later batch numbered in front of it and no
object up to it has the earlier one.
-/

namespace Flpdf

/-! ## Batches that hold members -/

/-- The batch at an index has members. -/
def holdsMembers (batches : List RoutedObjStmBatch) (index : ℕ) : Bool :=
  batches[index]?.any fun batch => !batch.members.isEmpty

/-- The batches that have members, in order. -/
def heldIndexes (batches : List RoutedObjStmBatch) : List ℕ :=
  (List.range batches.length).filter (holdsMembers batches)

theorem pairwise_heldIndexes (batches : List RoutedObjStmBatch) :
    (heldIndexes batches).Pairwise (· < ·) :=
  List.pairwise_lt_range.filter _

theorem holdsMembers_eq_true {batches : List RoutedObjStmBatch} {index : ℕ} :
    holdsMembers batches index = true ↔
      ∃ batch, batches[index]? = some batch ∧ batch.members.isEmpty = false := by
  rw [holdsMembers, Option.any_eq_true]
  simp only [Bool.not_eq_true']

theorem heldIndexes_eq_nil {batches : List RoutedObjStmBatch}
    (h : batches.all (·.members.isEmpty) = true) : heldIndexes batches = [] := by
  rw [heldIndexes, List.filter_eq_nil_iff]
  intro index _ hholds
  obtain ⟨batch, hbatch, hmembers⟩ := holdsMembers_eq_true.mp hholds
  have hempty := List.all_eq_true.mp h batch (List.mem_of_getElem? hbatch)
  rw [hmembers] at hempty
  exact Bool.false_ne_true hempty

namespace PlacementInput

variable (input : PlacementInput)

/-- The batch that is at a place. -/
def batchAt : BatchPlace → Option RoutedObjStmBatch
  | .openDocument index => input.openDocumentBatches[index]?
  | .firstHalf index => input.firstHalfBatches[index]?
  | .secondHalf index => input.secondHalfBatches[index]?

/-- The batches that have members: open-document, first half and second half. -/
def heldPlaces : List BatchPlace :=
  (heldIndexes input.openDocumentBatches).map .openDocument ++
    (heldIndexes input.firstHalfBatches).map .firstHalf ++
    (heldIndexes input.secondHalfBatches).map .secondHalf

/-- The container of each batch is at the batch's position, and its slot has the source
container for its raw identity. -/
def InBatchOrder (map : RenumberMap) (relocation : ObjStmRelocation) : Prop :=
  relocation.containers.map Prod.fst = input.heldPlaces ∧
    ∀ place number, (place, number) ∈ relocation.containers → ∀ batch,
      input.batchAt place = some batch → ∀ source, batch.sourceContainer = some source →
        map.byNewRaw[number]? = some source

/-- The containers that are in the table stand there with the identity of their batch. -/
def SlotsIn (table : List NumberSlot) (containers : List (BatchPlace × ℕ)) : Prop :=
  ∀ place number, (place, number) ∈ containers →
    ∃ batch, input.batchAt place = some batch ∧ table[number]? = some batch.containerSlot

variable {input} {table table' : List NumberSlot} {containers containers' : List (BatchPlace × ℕ)}

theorem SlotsIn.mono (h : input.SlotsIn table containers) (htable : table <+: table') :
    input.SlotsIn table' containers := by
  intro place number hmem
  obtain ⟨batch, hbatch, hslot⟩ := h place number hmem
  obtain ⟨more, rfl⟩ := htable
  refine ⟨batch, hbatch, ?_⟩
  obtain ⟨hlt, _⟩ := List.getElem?_eq_some_iff.mp hslot
  rw [List.getElem?_append_left hlt, hslot]

theorem SlotsIn.append (h : input.SlotsIn table containers)
    (h' : input.SlotsIn table containers') : input.SlotsIn table (containers ++ containers') := by
  intro place number hmem
  rcases List.mem_append.mp hmem with hmem | hmem
  · exact h place number hmem
  · exact h' place number hmem

/-- A container that is put last in the table. -/
theorem SlotsIn.push (h : input.SlotsIn table containers) (place : BatchPlace)
    {batch : RoutedObjStmBatch} (hbatch : input.batchAt place = some batch) :
    input.SlotsIn (table ++ [batch.containerSlot]) (containers ++ [(place, table.length)]) := by
  apply SlotsIn.append (h.mono (List.prefix_append _ _))
  intro place' number hmem
  rw [List.mem_singleton, Prod.mk.injEq] at hmem
  obtain ⟨rfl, rfl⟩ := hmem
  exact ⟨batch, hbatch, List.getElem?_concat_length⟩

/-! ## The first half -/

variable (input)

/-- What holds of the recorded containers while the first half is numbered. -/
structure Recorded (s : FirstHalfState) : Prop where
  places : s.containers.map Prod.fst =
    (s.emitted.filter (holdsMembers input.firstHalfBatches)).map .firstHalf
  openPlaces : s.openDocumentContainers.map Prod.fst =
    ((List.range s.nextOpenDocument).filter (holdsMembers input.openDocumentBatches)).map
      .openDocument
  slots : input.SlotsIn s.table s.containers
  openSlots : input.SlotsIn s.table s.openDocumentContainers
  next_le : s.nextOpenDocument ≤ input.openDocumentBatches.length
  next_eq : s.openDocumentEmitted = true →
    s.nextOpenDocument = input.openDocumentBatches.length

/-- A part of the numbering that asks for batches of the first half; `root` when it meets the
outline root. -/
structure Emits (requests : List ℕ) (root : Bool) (s s' : FirstHalfState) : Prop where
  recorded : input.Recorded s → input.Recorded s'
  emitted : s'.emitted = requests.foldl insertLast s.emitted
  grows : s.table <+: s'.table
  opened : s.openDocumentEmitted = true → s'.openDocumentEmitted = true
  advances : s.nextOpenDocument ≤ s'.nextOpenDocument
  rooted : s'.outlineRootEmitted = (s.outlineRootEmitted || root)

variable {input} {requests requests' : List ℕ} {root root' : Bool} {s s' s'' : FirstHalfState}

theorem Emits.refl (s : FirstHalfState) : input.Emits [] false s s where
  recorded := id
  emitted := rfl
  grows := List.prefix_rfl
  opened := id
  advances := le_rfl
  rooted := (Bool.or_false _).symm

theorem Emits.trans (h : input.Emits requests root s s') (h' : input.Emits requests' root' s' s'') :
    input.Emits (requests ++ requests') (root || root') s s'' where
  recorded := h'.recorded ∘ h.recorded
  emitted := by rw [h'.emitted, h.emitted, List.foldl_append]
  grows := h.grows.trans h'.grows
  opened := h'.opened ∘ h.opened
  advances := h.advances.trans h'.advances
  rooted := by rw [h'.rooted, h.rooted, Bool.or_assoc]

/-- Rows that are no containers of a batch. -/
theorem Emits.rows (s : FirstHalfState) (rows : List NumberSlot) :
    input.Emits [] false s { s with table := s.table ++ rows } where
  recorded h :=
    { h with
      slots := h.slots.mono (List.prefix_append _ _)
      openSlots := h.openSlots.mono (List.prefix_append _ _) }
  emitted := rfl
  grows := List.prefix_append _ _
  opened := id
  advances := le_rfl
  rooted := (Bool.or_false _).symm

/-- A run over a list is a run over each of its elements. -/
theorem emits_foldl {α : Type*} {f : FirstHalfState → α → FirstHalfState} {r : α → List ℕ}
    {root : α → Bool} {l : List α}
    (h : ∀ a ∈ l, ∀ s, input.Emits (r a) (root a) s (f s a)) (s : FirstHalfState) :
    input.Emits (l.flatMap r) (l.any root) s (l.foldl f s) := by
  induction l generalizing s with
  | nil => exact Emits.refl s
  | cons a l ih =>
    have hhead := h a List.mem_cons_self s
    have htail := ih (fun b hb => h b (List.mem_cons_of_mem a hb)) (f s a)
    exact hhead.trans htail

theorem emits_batch {index : ℕ} (hindex : index < input.firstHalfBatches.length)
    (s : FirstHalfState) : input.Emits [index] false s (input.emitFirstHalfBatch s index) := by
  have hbatch := List.getElem?_eq_getElem hindex
  generalize input.firstHalfBatches[index] = batch at hbatch
  by_cases hmem : index ∈ s.emitted
  · rw [emitFirstHalfBatch, if_pos hmem]
    exact { Emits.refl s with emitted := (insertLast_of_mem hmem).symm }
  · have hemitted : s.emitted ++ [index] = [index].foldl insertLast s.emitted :=
      (insertLast_of_notMem hmem).symm
    simp only [emitFirstHalfBatch, if_neg hmem, hbatch]
    split
    next hempty =>
      have hholds : holdsMembers input.firstHalfBatches index = false := by
        rw [holdsMembers, hbatch, Option.any_some, hempty]
        rfl
      have hrefl : input.Emits [] false s s := Emits.refl s
      refine { hrefl with emitted := hemitted, recorded := fun h => { h with places := ?_ } }
      simp only [List.filter_append, List.filter_singleton, hholds, Bool.cond_false,
        List.append_nil]
      exact h.places
    next hempty =>
      have hholds : holdsMembers input.firstHalfBatches index = true :=
        holdsMembers_eq_true.mpr ⟨batch, hbatch, Bool.eq_false_iff.mpr hempty⟩
      have hrow : input.Emits [] false s _ := Emits.rows s [batch.containerSlot]
      refine { hrow with
        emitted := hemitted
        recorded := fun h => { h with places := ?_, slots := ?_, openSlots := ?_ } }
      · simp only [List.filter_append, List.filter_singleton, hholds, Bool.cond_true,
          List.map_append, h.places, List.map_cons, List.map_nil]
      · exact h.slots.push (.firstHalf index) hbatch
      · exact h.openSlots.mono (List.prefix_append _ _)

theorem emits_range (start : ℕ) {stop : ℕ} (hstop : stop ≤ input.firstHalfBatches.length)
    (s : FirstHalfState) :
    input.Emits (List.range' start (stop - start)) false s
      (input.emitFirstHalfBatchRange start stop s) := by
  have hbatches : ∀ index ∈ List.range' start (stop - start), ∀ s,
      input.Emits [index] false s (input.emitFirstHalfBatch s index) := by
    intro index hindex s
    rw [List.mem_range'_1] at hindex
    exact emits_batch (by omega) s
  have hrun := emits_foldl hbatches s
  have hroot : (List.range' start (stop - start)).any (fun _ => false) = false :=
    List.any_eq_false.mpr fun _ _ => Bool.false_ne_true
  rw [List.flatMap_singleton', hroot] at hrun
  exact hrun

/-- Open-document containers are numbered in order; with no plain object in view all of them
are. -/
theorem emits_openDocument (plainSourceNumber : Option ℕ) (fuel : ℕ) (s : FirstHalfState) :
    input.Emits [] false s (input.emitOpenDocumentContainersBefore plainSourceNumber fuel s) := by
  induction fuel generalizing s with
  | zero => exact Emits.refl s
  | succ fuel ih =>
    rw [emitOpenDocumentContainersBefore]
    split
    next => exact Emits.refl s
    next batch hbatch =>
      obtain ⟨hlt, _⟩ := List.getElem?_eq_some_iff.mp hbatch
      have hrefl : input.Emits [] false s s := Emits.refl s
      split
      next hempty =>
        have hholds : holdsMembers input.openDocumentBatches s.nextOpenDocument = false := by
          rw [holdsMembers, hbatch, Option.any_some, hempty]
          rfl
        have hskip : input.Emits [] false s
            { s with nextOpenDocument := s.nextOpenDocument + 1 } := by
          refine { hrefl with
            recorded := fun h => { h with openPlaces := ?_, next_le := hlt, next_eq := ?_ }
            advances := Nat.le_succ _ }
          · simp only [List.range_succ, List.filter_append, List.filter_singleton, hholds,
              Bool.cond_false, List.append_nil]
            exact h.openPlaces
          · intro hopened
            have := h.next_eq hopened
            omega
        exact hskip.trans (ih _)
      next hempty =>
        have hholds : holdsMembers input.openDocumentBatches s.nextOpenDocument = true :=
          holdsMembers_eq_true.mpr ⟨batch, hbatch, Bool.eq_false_iff.mpr hempty⟩
        have hrow : input.Emits [] false s _ := Emits.rows s [batch.containerSlot]
        have hpush : input.Emits [] false s { s with
            table := s.table ++ [batch.containerSlot]
            openDocumentContainers := s.openDocumentContainers ++
              [(BatchPlace.openDocument s.nextOpenDocument, s.table.length)]
            nextOpenDocument := s.nextOpenDocument + 1 } := by
          refine { hrow with
            recorded := fun h => { h with
              openPlaces := ?_, slots := ?_, openSlots := ?_, next_le := hlt, next_eq := ?_ }
            advances := Nat.le_succ _ }
          · simp only [List.range_succ, List.filter_append, List.filter_singleton, hholds,
              Bool.cond_true, List.map_append, h.openPlaces, List.map_cons, List.map_nil]
          · exact h.slots.mono (List.prefix_append _ _)
          · exact h.openSlots.push (.openDocument s.nextOpenDocument) hbatch
          · intro hopened
            have := h.next_eq hopened
            omega
        extract_lets emit
        by_cases hemit : emit = true
        · rw [if_pos hemit]
          exact hpush.trans (ih _)
        · rw [if_neg hemit]
          exact hrefl

theorem emitOpenDocumentContainersBefore_next (fuel : ℕ) (s : FirstHalfState)
    (hfuel : input.openDocumentBatches.length ≤ s.nextOpenDocument + fuel) :
    input.openDocumentBatches.length ≤
      (input.emitOpenDocumentContainersBefore none fuel s).nextOpenDocument := by
  induction fuel generalizing s with
  | zero => exact hfuel
  | succ fuel ih =>
    rw [emitOpenDocumentContainersBefore]
    split
    next hnone => exact List.getElem?_eq_none_iff.mp hnone
    next batch hbatch =>
      split
      next => exact ih _ (by simp only; omega)
      next =>
        rw [if_pos rfl]
        exact ih _ (by simp only; omega)

/-- All open-document containers are numbered. -/
theorem Recorded.next_eq_of_emitted (h : input.Recorded s) :
    (input.emitOpenDocumentContainers none s).nextOpenDocument =
      input.openDocumentBatches.length := by
  apply le_antisymm
  · exact ((emits_openDocument none _ s).recorded h).next_le
  · exact emitOpenDocumentContainersBefore_next _ s (Nat.le_add_left _ _)

theorem emits_hint (s : FirstHalfState) : input.Emits [] false s (input.emitHint s) := by
  have hopen : input.Emits [] false s (input.emitOpenDocumentContainers none s) :=
    emits_openDocument none _ s
  have hrow := hopen.trans (Emits.rows (input.emitOpenDocumentContainers none s) [sentinelSlot])
  exact { hrow with
    recorded := fun h =>
      { hrow.recorded h with next_eq := fun _ => h.next_eq_of_emitted }
    opened := fun _ => rfl }

theorem emits_lateHint (s : FirstHalfState) : input.Emits [] false s (input.emitLateHint s) := by
  rw [emitLateHint]
  split
  next hopened =>
    have hrow : input.Emits [] false s _ := Emits.rows s [sentinelSlot]
    exact { hrow with recorded := fun h => { hrow.recorded h with next_eq := h.next_eq } }
  next hopened =>
    have hopen : input.Emits [] false s (input.emitOpenDocumentContainers none s) :=
      emits_openDocument none _ s
    have hrow := hopen.trans (Emits.rows (input.emitOpenDocumentContainers none s) [sentinelSlot])
    exact { hrow with
      recorded := fun h => { hrow.recorded h with next_eq := fun _ => h.next_eq_of_emitted } }

theorem Recorded.next_eq_of_lateHint (h : input.Recorded s) :
    (input.emitLateHint s).nextOpenDocument = input.openDocumentBatches.length := by
  rw [emitLateHint]
  split
  next hopened => exact h.next_eq hopened
  next => exact h.next_eq_of_emitted

/-! ### The plain objects -/

variable (input)

/-- A plain object has the container of a batch numbered in front of it. -/
def forced (map : RenumberMap) (hintIndex : ℕ) (plain : QpdfObjGen × ℕ) (index : ℕ) : Bool :=
  input.firstHalfBatches[index]?.any fun batch => forces map hintIndex batch plain

/-- The batches that a plain object has numbered in front of it. -/
def forcedBy (map : RenumberMap) (hintIndex : ℕ) (plain : QpdfObjGen × ℕ) : List ℕ :=
  (List.range input.outlineBatchStart).filter (input.forced map hintIndex plain)

def isOutlineRoot (plain : QpdfObjGen × ℕ) : Bool := some plain.1 = input.outlineRootRaw

/-- The batches that are asked for at a plain object. -/
def requestedAt (map : RenumberMap) (hintIndex : ℕ) (plain : QpdfObjGen × ℕ) : List ℕ :=
  input.forcedBy map hintIndex plain ++
    if input.isOutlineRoot plain then List.range input.firstHalfBatches.length else []

/-- Open-document containers that are numbered in front of a plain object in front of the hint
stream. -/
def emitOpenBeforePlain (hintIndex : ℕ) (s : FirstHalfState) (plain : QpdfObjGen × ℕ) :
    FirstHalfState :=
  if (input.openDocumentBatches.any fun batch => batch.sourceContainerNumber.isSome) ∧
      0 < plain.2 ∧ plain.2 < hintIndex then
    input.emitOpenDocumentContainers (some ((sourceNumber plain.1).getD (2 ^ 32 - 1))) s
  else s

def emitBeforePlain (map : RenumberMap) (hintIndex : ℕ) (s : FirstHalfState)
    (plain : QpdfObjGen × ℕ) : FirstHalfState :=
  input.emitForced map hintIndex plain
    (input.emitOpenBeforePlain hintIndex
      (if plain.2 = hintIndex then input.emitHint s else s) plain)

theorem emitFirstHalfPlain_eq (map : RenumberMap) (hintIndex : ℕ) (s : FirstHalfState)
    (plain : QpdfObjGen × ℕ) :
    input.emitFirstHalfPlain map hintIndex s plain =
      if some plain.1 = input.outlineRootRaw then
        input.emitOutlineRoot plain.1 (input.emitBeforePlain map hintIndex s plain)
      else if plain.1 ∈ rawIdentities input.firstHalfPostPlain then
        { input.emitBeforePlain map hintIndex s plain with
          postContainerPlain :=
            (input.emitBeforePlain map hintIndex s plain).postContainerPlain ++ [plain.1] }
      else
        { input.emitBeforePlain map hintIndex s plain with
          table := (input.emitBeforePlain map hintIndex s plain).table ++ [originalSlot plain.1] } :=
  rfl

variable {input}

theorem outlineBatchStart_le : input.outlineBatchStart ≤ input.firstHalfBatches.length :=
  Nat.sub_le _ _

theorem emits_forced (map : RenumberMap) (hintIndex : ℕ) (plain : QpdfObjGen × ℕ)
    (s : FirstHalfState) :
    input.Emits (input.forcedBy map hintIndex plain) false s
      (input.emitForced map hintIndex plain s) := by
  rw [forcedBy, emitForced]
  have hlist : ∀ index ∈ List.range input.outlineBatchStart,
      index < input.firstHalfBatches.length := by
    intro index hindex
    exact lt_of_lt_of_le (List.mem_range.mp hindex) outlineBatchStart_le
  generalize List.range input.outlineBatchStart = indexes at hlist
  induction indexes generalizing s with
  | nil => exact Emits.refl s
  | cons index indexes ih =>
    have hlt := hlist index List.mem_cons_self
    have ih := fun s => ih s fun i hi => hlist i (List.mem_cons_of_mem index hi)
    have hbatch := List.getElem?_eq_getElem hlt
    have hforced : input.forced map hintIndex plain index =
        forces map hintIndex input.firstHalfBatches[index] plain := by
      rw [forced, hbatch, Option.any_some]
    simp only [List.foldl_cons, hbatch]
    split
    next hforces =>
      rw [List.filter_cons_of_pos (hforced.trans hforces)]
      have hone : input.Emits (List.range' index (index + 1 - index)) false s _ :=
        emits_range index hlt s
      rw [Nat.add_sub_cancel_left] at hone
      exact hone.trans (ih _)
    next hforces =>
      rw [List.filter_cons_of_neg (by rw [hforced]; exact hforces)]
      exact ih s

theorem emits_outlineRoot (input : PlacementInput) (original : QpdfObjGen) (s : FirstHalfState) :
    input.Emits (List.range input.firstHalfBatches.length) true s
      (input.emitOutlineRoot original s) := by
  have hstart : input.outlineBatchStart ≤ input.firstHalfBatches.length := outlineBatchStart_le
  have hbefore := emits_range 0 hstart s
  have hroot := hbefore.trans (Emits.rows _ [originalSlot original])
  have hbehind := hroot.trans (emits_range input.outlineBatchStart le_rfl _)
  have hrange : List.range' 0 (input.outlineBatchStart - 0) ++ [] ++
      List.range' input.outlineBatchStart
        (input.firstHalfBatches.length - input.outlineBatchStart) =
      List.range input.firstHalfBatches.length := by
    have happend := List.range'_append_1 (s := 0) (m := input.outlineBatchStart)
      (n := input.firstHalfBatches.length - input.outlineBatchStart)
    rw [Nat.zero_add, Nat.add_sub_cancel' hstart] at happend
    rw [Nat.sub_zero, List.append_nil, happend, List.range_eq_range']
  rw [hrange] at hbehind
  exact { hbehind with
    recorded := fun h =>
      { hbehind.recorded h with next_eq := (hbehind.recorded h).next_eq }
    rooted := (Bool.or_true _).symm }

/-- A plain object that is put off. -/
theorem emits_postPlain (input : PlacementInput) (original : QpdfObjGen) (s : FirstHalfState) :
    input.Emits [] false s
      { s with postContainerPlain := s.postContainerPlain ++ [original] } :=
  have hrefl : input.Emits [] false s s := Emits.refl s
  { hrefl with recorded := fun h => { h with next_eq := h.next_eq } }

/-- The containers that are numbered in front of a plain object. -/
theorem emits_beforePlain (input : PlacementInput) (map : RenumberMap) (hintIndex : ℕ)
    (plain : QpdfObjGen × ℕ) (s : FirstHalfState) :
    input.Emits (input.forcedBy map hintIndex plain) false s
        (input.emitBeforePlain map hintIndex s plain) ∧
      (plain.2 = hintIndex →
        (input.emitBeforePlain map hintIndex s plain).openDocumentEmitted = true) := by
  rw [emitBeforePlain]
  have hopen : ∀ s, input.Emits [] false s (input.emitOpenBeforePlain hintIndex s plain) := by
    intro s
    rw [emitOpenBeforePlain]
    split
    · exact emits_openDocument _ _ s
    · exact Emits.refl s
  by_cases hindex : plain.2 = hintIndex
  · rw [if_pos hindex]
    have hrest := (hopen (input.emitHint s)).trans (emits_forced map hintIndex plain _)
    exact ⟨(emits_hint s).trans hrest, fun _ => hrest.opened rfl⟩
  · rw [if_neg hindex]
    exact ⟨(hopen s).trans (emits_forced map hintIndex plain _), fun h => absurd h hindex⟩

theorem emits_plain (input : PlacementInput) (map : RenumberMap) (hintIndex : ℕ)
    (plain : QpdfObjGen × ℕ) (s : FirstHalfState) :
    input.Emits (input.requestedAt map hintIndex plain) (input.isOutlineRoot plain) s
        (input.emitFirstHalfPlain map hintIndex s plain) ∧
      (plain.2 = hintIndex →
        (input.emitFirstHalfPlain map hintIndex s plain).openDocumentEmitted = true) := by
  obtain ⟨hbefore, hopened⟩ := input.emits_beforePlain map hintIndex plain s
  rw [emitFirstHalfPlain_eq, requestedAt, isOutlineRoot]
  by_cases hroot : some plain.1 = input.outlineRootRaw
  · have hemits := input.emits_outlineRoot plain.1
      (input.emitBeforePlain map hintIndex s plain)
    rw [decide_eq_true hroot, if_pos rfl, if_pos hroot]
    exact ⟨hbefore.trans hemits, fun h => hemits.opened (hopened h)⟩
  · rw [decide_eq_false hroot, if_neg Bool.false_ne_true, if_neg hroot]
    split
    · have hemits := input.emits_postPlain plain.1
        (input.emitBeforePlain map hintIndex s plain)
      exact ⟨hbefore.trans hemits, fun h => hemits.opened (hopened h)⟩
    · have hemits : input.Emits [] false _ _ :=
        Emits.rows (input.emitBeforePlain map hintIndex s plain) [originalSlot plain.1]
      exact ⟨hbefore.trans hemits, fun h => hemits.opened (hopened h)⟩

/-- The hint stream is met among the plain objects. -/
theorem openDocumentEmitted_foldl (map : RenumberMap) {hintIndex : ℕ}
    {plains : List (QpdfObjGen × ℕ)} (h : ∃ plain ∈ plains, plain.2 = hintIndex)
    (s : FirstHalfState) :
    (plains.foldl (input.emitFirstHalfPlain map hintIndex) s).openDocumentEmitted = true := by
  induction plains generalizing s with
  | nil =>
    obtain ⟨plain, hmem, _⟩ := h
    exact absurd hmem List.not_mem_nil
  | cons plain plains ih =>
    rw [List.foldl_cons]
    by_cases hindex : plain.2 = hintIndex
    · have hrest := emits_foldl (l := plains)
        (fun plain _ s => (input.emits_plain map hintIndex plain s).1)
        (input.emitFirstHalfPlain map hintIndex s plain)
      exact hrest.opened ((input.emits_plain map hintIndex plain s).2 hindex)
    · apply ih
      obtain ⟨later, hmem, hlater⟩ := h
      rcases List.mem_cons.mp hmem with rfl | hmem
      · exact absurd hlater hindex
      · exact ⟨later, hmem, hlater⟩

theorem recorded_start (table : List NumberSlot) :
    input.Recorded { table := table } where
  places := rfl
  openPlaces := rfl
  slots := by
    intro place number hmem
    exact absurd hmem List.not_mem_nil
  openSlots := by
    intro place number hmem
    exact absurd hmem List.not_mem_nil
  next_le := Nat.zero_le _
  next_eq h := absurd h Bool.false_ne_true

variable (input)

/-- The plain objects of the first half, numbered from the front. -/
def firstHalfPlain (map : RenumberMap) : List (QpdfObjGen × ℕ) :=
  (input.plainObjects map).firstHalf.zipIdx

/-- The batches of the first half in the order they are asked for. -/
def requested (map : RenumberMap) : List ℕ :=
  (input.firstHalfPlain map).flatMap
      (input.requestedAt map (input.plainObjects map).hintIndex) ++
    if (input.firstHalfPlain map).any input.isOutlineRoot then []
    else List.range input.firstHalfBatches.length

variable {input}

theorem emitFirstHalf_spec (input : PlacementInput) (map : RenumberMap) (table : List NumberSlot) :
    let s := input.emitFirstHalf map (input.plainObjects map) table
    input.Recorded s ∧ s.emitted = firstOccurrences (input.requested map) ∧
      s.nextOpenDocument = input.openDocumentBatches.length ∧ table <+: s.table := by
  have hplains := emits_foldl (l := input.firstHalfPlain map)
    (fun plain _ s =>
      (input.emits_plain map (input.plainObjects map).hintIndex plain s).1)
    { table := table }
  set s₁ := (input.firstHalfPlain map).foldl
    (input.emitFirstHalfPlain map (input.plainObjects map).hintIndex) { table := table } with hs₁
  have hrecorded := hplains.recorded (recorded_start table)
  set s₂ := if (input.plainObjects map).firstHalf.length ≤ (input.plainObjects map).hintIndex then
    input.emitLateHint s₁ else s₁ with hs₂
  have hhint : input.Emits [] false s₁ s₂ ∧
      s₂.nextOpenDocument = input.openDocumentBatches.length := by
    rw [hs₂]
    split
    next => exact ⟨emits_lateHint s₁, hrecorded.next_eq_of_lateHint⟩
    next hindex =>
      refine ⟨Emits.refl s₁, hrecorded.next_eq (openDocumentEmitted_foldl map ?_ _)⟩
      rw [Nat.not_le] at hindex
      refine ⟨((input.plainObjects map).firstHalf[(input.plainObjects map).hintIndex],
        (input.plainObjects map).hintIndex), ?_, rfl⟩
      rw [firstHalfPlain, List.mk_mem_zipIdx_iff_getElem?]
      exact List.getElem?_eq_getElem hindex
  have hbefore := hplains.trans hhint.1
  set s₃ := if s₂.outlineRootEmitted then s₂
    else input.emitFirstHalfBatchRange 0 input.firstHalfBatches.length s₂ with hs₃
  have hrange : input.Emits (if (input.firstHalfPlain map).any input.isOutlineRoot then []
      else List.range input.firstHalfBatches.length) false s₂ s₃ := by
    have hrooted : s₂.outlineRootEmitted = (input.firstHalfPlain map).any input.isOutlineRoot := by
      rw [hbefore.rooted, Bool.false_or, Bool.or_false]
    rw [hs₃, hrooted]
    split
    next => exact Emits.refl s₂
    next =>
      have hall := emits_range 0 (le_refl input.firstHalfBatches.length) s₂
      rw [Nat.sub_zero, ← List.range_eq_range'] at hall
      exact hall
  have hafter := hrange.trans (Emits.rows s₃ (s₃.postContainerPlain.map originalSlot))
  have hall := hbefore.trans hafter
  have hfinal := hall.recorded (recorded_start table)
  refine ⟨hfinal, ?_, ?_, hall.grows⟩
  · rw [List.append_nil, List.append_nil] at hall
    exact hall.emitted
  · exact le_antisymm hfinal.next_le (hhint.2.symm.le.trans hafter.advances)

/-! ### The order of the first half -/

variable (input)

/-- The plain objects up to the outline root, at which all containers are numbered. -/
def upToOutlineRoot : List (QpdfObjGen × ℕ) → List (QpdfObjGen × ℕ)
  | [] => []
  | plain :: plains =>
    if input.isOutlineRoot plain then [plain] else plain :: upToOutlineRoot plains

/-- The plain object at a place, which is not behind the outline root, has the container of a
batch numbered in front of it. -/
def forcedAt (map : RenumberMap) (place index : ℕ) : Bool :=
  (input.upToOutlineRoot (input.firstHalfPlain map))[place]?.any fun plain =>
    input.forced map (input.plainObjects map).hintIndex plain index

/-- Where a plain object has the container of a batch numbered in front of it, each earlier
batch has had its own numbered so, there or before. -/
def NoneOvertakes (map : RenumberMap) : Prop :=
  ∀ earlier later, earlier < later → later < input.outlineBatchStart →
    holdsMembers input.firstHalfBatches earlier → holdsMembers input.firstHalfBatches later →
      ∀ place, input.forcedAt map place later → ∃ place' ≤ place, input.forcedAt map place' earlier

variable {input}

theorem mem_requestedAt {map : RenumberMap} {hintIndex index : ℕ} {plain : QpdfObjGen × ℕ}
    (h : index ∈ input.requestedAt map hintIndex plain) :
    index ∈ List.range input.firstHalfBatches.length := by
  rw [requestedAt, List.mem_append] at h
  rcases h with h | h
  · have hstart := List.mem_range.mp (List.mem_filter.mp h).1
    exact List.mem_range.mpr (lt_of_lt_of_le hstart outlineBatchStart_le)
  · split at h
    next => exact h
    next => exact absurd h List.not_mem_nil

/-- Behind the outline root nothing is left to number. -/
theorem foldl_requestedAt (map : RenumberMap) (hintIndex : ℕ) (plains : List (QpdfObjGen × ℕ))
    (served : List ℕ) :
    (plains.flatMap (input.requestedAt map hintIndex) ++
        if plains.any input.isOutlineRoot then []
        else List.range input.firstHalfBatches.length).foldl insertLast served =
      (((input.upToOutlineRoot plains).map (input.forcedBy map hintIndex)).flatten ++
        List.range input.firstHalfBatches.length).foldl insertLast served := by
  induction plains generalizing served with
  | nil => rfl
  | cons plain plains ih =>
    rw [List.flatMap_cons, List.any_cons, upToOutlineRoot, requestedAt]
    by_cases hroot : input.isOutlineRoot plain = true
    · rw [if_pos hroot, if_pos hroot, hroot, Bool.true_or, if_pos rfl, List.append_nil,
        List.foldl_append, List.map_singleton, List.flatten_singleton]
      apply foldl_insertLast_of_subset
      intro index hindex
      rw [mem_foldl_insertLast, List.mem_append]
      obtain ⟨later, _, hlater⟩ := List.mem_flatMap.mp hindex
      exact Or.inr (Or.inr (mem_requestedAt hlater))
    · rw [Bool.not_eq_true] at hroot
      rw [hroot, Bool.false_or, if_neg Bool.false_ne_true, if_neg Bool.false_ne_true,
        List.append_nil, List.map_cons, List.flatten_cons, List.append_assoc, List.append_assoc,
        List.foldl_append, ih, ← List.foldl_append]

variable (input)

/-- The batches that the plain objects up to the outline root ask for. -/
def rounds (map : RenumberMap) : List (List ℕ) :=
  (input.upToOutlineRoot (input.firstHalfPlain map)).map
    (input.forcedBy map (input.plainObjects map).hintIndex)

variable {input}

theorem firstOccurrences_requested (map : RenumberMap) :
    firstOccurrences (input.requested map) =
      firstOccurrences
        ((input.rounds map).flatten ++ List.range input.firstHalfBatches.length) :=
  foldl_requestedAt map _ _ []

theorem pairwise_round {map : RenumberMap} {round : List ℕ} (h : round ∈ input.rounds map) :
    round.Pairwise (· < ·) := by
  obtain ⟨plain, _, rfl⟩ := List.mem_map.mp h
  exact List.pairwise_lt_range.filter _

theorem lt_of_mem_round {map : RenumberMap} {round : List ℕ} (h : round ∈ input.rounds map)
    {index : ℕ} (hindex : index ∈ round) : index < input.outlineBatchStart := by
  obtain ⟨plain, _, rfl⟩ := List.mem_map.mp h
  exact List.mem_range.mp (List.mem_filter.mp hindex).1

theorem mem_rounds_append {map : RenumberMap} {index : ℕ} :
    index ∈ (input.rounds map).flatten ++ List.range input.firstHalfBatches.length ↔
      index < input.firstHalfBatches.length := by
  rw [List.mem_append, List.mem_range, or_iff_right_of_imp]
  intro h
  obtain ⟨round, hround, hmem⟩ := List.mem_flatten.mp h
  exact lt_of_lt_of_le (lt_of_mem_round hround hmem) outlineBatchStart_le

/-- A place where a batch is asked for. -/
theorem forcedAt_iff {map : RenumberMap} {place index : ℕ}
    (hindex : index < input.outlineBatchStart) :
    input.forcedAt map place index = true ↔
      ∃ round, (input.rounds map)[place]? = some round ∧ index ∈ round := by
  rw [forcedAt, Option.any_eq_true]
  simp only [rounds, List.getElem?_map, Option.map_eq_some_iff]
  constructor
  · rintro ⟨plain, hplain, hforced⟩
    exact ⟨_, ⟨plain, hplain, rfl⟩,
      List.mem_filter.mpr ⟨List.mem_range.mpr hindex, hforced⟩⟩
  · rintro ⟨round, ⟨plain, hplain, rfl⟩, hmem⟩
    exact ⟨plain, hplain, (List.mem_filter.mp hmem).2⟩

theorem idxOf_rounds_iff {map : RenumberMap} {earlier later : ℕ} (hlt : earlier < later)
    (hlater : later < input.firstHalfBatches.length) :
    ((input.rounds map).flatten ++ List.range input.firstHalfBatches.length).idxOf earlier <
        ((input.rounds map).flatten ++ List.range input.firstHalfBatches.length).idxOf later ↔
      ∀ (place : ℕ) (round : List ℕ), (input.rounds map)[place]? = some round → later ∈ round →
        ∃ place' ≤ place, ∃ round', (input.rounds map)[place']? = some round' ∧
          earlier ∈ round' := by
  have hearlier := List.mem_range.mpr (hlt.trans hlater)
  exact idxOf_lt_idxOf_rounds (fun _ hround => pairwise_round hround) List.pairwise_lt_range
    hearlier (List.mem_range.mpr hlater) hlt

/-- The containers of the first half ascend. -/
theorem pairwise_requested_iff (map : RenumberMap) :
    ((firstOccurrences (input.requested map)).filter
        (holdsMembers input.firstHalfBatches)).Pairwise (· < ·) ↔ input.NoneOvertakes map := by
  rw [firstOccurrences_requested, pairwise_lt_filter_firstOccurrences_iff]
  constructor
  · intro h earlier later hlt hlater hearlierHolds hlaterHolds place hforced
    have hlength := lt_of_lt_of_le hlater outlineBatchStart_le
    have hfirst := (idxOf_rounds_iff hlt hlength).mp
      (h earlier (mem_rounds_append.mpr (hlt.trans hlength)) later
        (mem_rounds_append.mpr hlength) hearlierHolds hlaterHolds hlt)
    obtain ⟨round, hround, hmem⟩ := (forcedAt_iff hlater).mp hforced
    obtain ⟨place', hplace', round', hround', hmem'⟩ := hfirst place round hround hmem
    exact ⟨place', hplace', (forcedAt_iff (hlt.trans hlater)).mpr ⟨round', hround', hmem'⟩⟩
  · intro h earlier _ later hlater hearlierHolds hlaterHolds hlt
    apply (idxOf_rounds_iff hlt (mem_rounds_append.mp hlater)).mpr
    intro place round hround hmem
    have hbound := lt_of_mem_round (List.mem_of_getElem? hround) hmem
    have hforced := (forcedAt_iff hbound).mpr ⟨round, hround, hmem⟩
    obtain ⟨place', hplace', hforced'⟩ :=
      h earlier later hlt hbound hearlierHolds hlaterHolds place hforced
    obtain ⟨round', hround', hmem'⟩ := (forcedAt_iff (hlt.trans hbound)).mp hforced'
    exact ⟨place', hplace', round', hround', hmem'⟩

/-- The containers of the first half are recorded in the order of their batches. -/
theorem filter_requested_eq_iff (map : RenumberMap) :
    (firstOccurrences (input.requested map)).filter (holdsMembers input.firstHalfBatches) =
      heldIndexes input.firstHalfBatches ↔ input.NoneOvertakes map := by
  rw [← pairwise_requested_iff]
  constructor
  · intro h
    rw [h]
    exact pairwise_heldIndexes _
  · intro hsorted
    have hheld := pairwise_heldIndexes input.firstHalfBatches
    have hmem : ∀ index, index ∈ (firstOccurrences (input.requested map)).filter
        (holdsMembers input.firstHalfBatches) ↔ index ∈ heldIndexes input.firstHalfBatches := by
      intro index
      rw [List.mem_filter, heldIndexes, List.mem_filter, firstOccurrences_requested,
        mem_firstOccurrences, mem_rounds_append, List.mem_range]
    have hperm := (List.perm_ext_iff_of_nodup hsorted.nodup hheld.nodup).mpr hmem
    exact hperm.eq_of_pairwise' hsorted hheld

/-! ## The second half -/

variable (input)

/-- The slots of the second half's containers have the identity of their batch. -/
structure Slotted (s : SecondHalfState) : Prop where
  slot : ∀ index number, s.containerSlot.getD index none = some number →
    ∃ batch, input.secondHalfBatches[index]? = some batch ∧
      s.table[number]? = some batch.containerSlot

variable {input} {t : SecondHalfState}

theorem Slotted.rows (h : input.Slotted t) (rows : List NumberSlot) :
    input.Slotted { t with table := t.table ++ rows } where
  slot := by
    intro index number hslot
    obtain ⟨batch, hbatch, hrow⟩ := h.slot index number hslot
    obtain ⟨hlt, _⟩ := List.getElem?_eq_some_iff.mp hrow
    exact ⟨batch, hbatch, by rw [List.getElem?_append_left hlt, hrow]⟩

theorem Slotted.container (h : input.Slotted t) (index : ℕ) :
    input.Slotted (input.emitContainer t index) := by
  rw [emitContainer]
  split
  next => exact h
  next batch hbatch =>
    split
    next => exact h
    next =>
      constructor
      intro index' number hslot
      rw [List.getD_eq_getElem?_getD, List.getElem?_set] at hslot
      by_cases hindex : index = index'
      · subst hindex
        refine ⟨batch, hbatch, ?_⟩
        rw [if_pos rfl] at hslot
        split at hslot
        next =>
          rw [Option.getD_some, Option.some.injEq] at hslot
          rw [← hslot]
          exact List.getElem?_concat_length
        next => exact absurd hslot (Option.some_ne_none number).symm
      · rw [if_neg hindex, ← List.getD_eq_getElem?_getD] at hslot
        exact (h.rows [batch.containerSlot]).slot index' number hslot

theorem Slotted.foldl {α : Type*} {f : SecondHalfState → α → SecondHalfState} {l : List α}
    (hf : ∀ t a, input.Slotted t → input.Slotted (f t a)) (h : input.Slotted t) :
    input.Slotted (l.foldl f t) := by
  induction l generalizing t with
  | nil => exact h
  | cons a l ih => exact ih (hf t a h)

theorem Slotted.anchored (h : input.Slotted t) (anchor : SecondHalfContainerAnchor) :
    input.Slotted (input.emitAnchored anchor t) := by
  rw [emitAnchored]
  apply h.foldl
  intro t index h
  split
  · exact h.container index
  · exact h

theorem slotted_emitSecondHalf (plain : List QpdfObjGen) :
    input.Slotted (input.emitSecondHalf plain) := by
  have hstart : input.Slotted
      { table := [sentinelSlot]
        containerSlot := List.replicate input.secondHalfBatches.length none } := by
    constructor
    intro index number hslot
    rw [List.getD_eq_getElem?_getD, List.getElem?_replicate] at hslot
    split at hslot
    · exact absurd hslot (Option.some_ne_none number).symm
    · exact absurd hslot (Option.some_ne_none number).symm
  rw [emitSecondHalf]
  apply Slotted.rows
  apply Slotted.foldl fun t index h => h.container index
  refine Slotted.foldl ?_ (hstart.anchored .beforeFirst)
  intro t original h
  rw [emitSecondHalfPlain]
  split
  · exact h
  · exact (h.rows [originalSlot original]).anchored (.after original)

theorem heldIndexes_eq (batches : List RoutedObjStmBatch) :
    (batches.zipIdx.filter fun entry => !entry.1.members.isEmpty).map Prod.snd =
      heldIndexes batches := by
  have hrange : List.range batches.length = batches.zipIdx.map Prod.snd := by
    rw [List.zipIdx_map_snd, List.range_eq_range']
  rw [heldIndexes, hrange, List.filter_map]
  congr 1
  apply List.filter_congr
  intro entry hentry
  rw [Function.comp_apply, holdsMembers, List.mem_zipIdx_iff_getElem?.mp hentry, Option.any_some]

theorem forall₂_of_mapM_ok {α β ε : Type*} {f : α → Except ε β} {l : List α} {r : List β}
    (h : l.mapM f = .ok r) : List.Forall₂ (fun a b => f a = .ok b) l r := by
  induction l generalizing r with
  | nil =>
    cases h
    exact List.Forall₂.nil
  | cons a l ih =>
    rw [List.mapM_cons] at h
    cases ha : f a with
    | error e =>
      rw [ha] at h
      cases h
    | ok b =>
      cases hl : l.mapM f with
      | error e =>
        rw [ha, hl] at h
        cases h
      | ok bs =>
        rw [ha, hl] at h
        cases h
        exact List.Forall₂.cons ha (ih hl)

/-- The containers of the second half are recorded in the order of their batches. -/
theorem secondHalfContainers_spec (ht : input.Slotted t) {containers : List (BatchPlace × ℕ)}
    (h : input.secondHalfContainers t = .ok containers) :
    containers.map Prod.fst = (heldIndexes input.secondHalfBatches).map .secondHalf ∧
      input.SlotsIn t.table containers := by
  have hrun := forall₂_of_mapM_ok h
  rw [← heldIndexes_eq]
  generalize input.secondHalfBatches.zipIdx.filter _ = entries at hrun
  clear h
  induction hrun with
  | nil => exact ⟨rfl, fun _ _ hmem => absurd hmem List.not_mem_nil⟩
  | @cons entry container entries containers hhead _ ih =>
    split at hhead
    next number hslot =>
      cases hhead
      obtain ⟨hplaces, hslots⟩ := ih
      constructor
      · rw [List.map_cons, List.map_cons, List.map_cons, hplaces]
      · intro place number' hmem
        rcases List.mem_cons.mp hmem with hmem | hmem
        · cases hmem
          exact ht.slot entry.2 number hslot
        · exact hslots place number' hmem
    next => cases hhead

/-! ## The relocation -/

/-- The containers are recorded with the open-document part first and the second half last. -/
theorem placed_spec {map map' : RenumberMap} {relocation : ObjStmRelocation}
    (h : input.placeObjstmMembersPerHalf map = .ok (map', relocation)) :
    relocation.containers.map Prod.fst =
        (heldIndexes input.openDocumentBatches).map .openDocument ++
          ((firstOccurrences (input.requested map)).filter
            (holdsMembers input.firstHalfBatches)).map .firstHalf ++
          (heldIndexes input.secondHalfBatches).map .secondHalf ∧
      ∀ place number, (place, number) ∈ relocation.containers →
        ∃ batch, input.batchAt place = some batch ∧
          map'.byNewRaw[number]? = some batch.containerSlot.raw := by
  rw [placeObjstmMembersPerHalf] at h
  split at h
  next hempty =>
    cases h
    rw [batches, List.all_append, List.all_append, Bool.and_eq_true, Bool.and_eq_true] at hempty
    obtain ⟨⟨hopen, hfirst⟩, hsecond⟩ := hempty
    have hheld : ∀ index ∈ firstOccurrences (input.requested map),
        ¬holdsMembers input.firstHalfBatches index = true := by
      intro index _ hholds
      obtain ⟨batch, hbatch, hmembers⟩ := holdsMembers_eq_true.mp hholds
      have hall := List.all_eq_true.mp hfirst batch (List.mem_of_getElem? hbatch)
      rw [hmembers] at hall
      exact Bool.false_ne_true hall
    constructor
    · rw [heldIndexes_eq_nil hopen, heldIndexes_eq_nil hsecond, List.filter_eq_nil_iff.mpr hheld]
      rfl
    · intro place number hmem
      exact absurd hmem List.not_mem_nil
  next =>
    obtain ⟨secondContainers, hsecond, h⟩ := bind_eq_ok.mp h
    obtain ⟨secondMembers, _, h⟩ := bind_eq_ok.mp h
    obtain ⟨openMembers, _, h⟩ := bind_eq_ok.mp h
    obtain ⟨firstMembers, _, h⟩ := bind_eq_ok.mp h
    obtain ⟨byOriginalRaw, _, h⟩ := bind_eq_ok.mp h
    cases h
    obtain ⟨hsecondPlaces, hsecondSlots⟩ :=
      secondHalfContainers_spec (slotted_emitSecondHalf _) hsecond
    obtain ⟨hrecorded, hemitted, hnext, hgrows⟩ := input.emitFirstHalf_spec map
      ((input.emitSecondHalf (input.plainObjects map).secondHalf).table ++
        sentinelSlot :: secondMembers ++ [sentinelSlot, sentinelSlot])
    constructor
    · simp only [List.map_append, hrecorded.openPlaces, hrecorded.places, hsecondPlaces, hnext,
        hemitted, heldIndexes]
    · have hslots := ((hrecorded.openSlots.append hrecorded.slots).append
        (hsecondSlots.mono ?_)).mono ((List.prefix_append _ openMembers).trans
          (List.prefix_append _ firstMembers))
      · intro place number hmem
        obtain ⟨batch, hbatch, hslot⟩ := hslots place number hmem
        refine ⟨batch, hbatch, ?_⟩
        simp only [List.getElem?_map, hslot, Option.map_some]
      · refine List.IsPrefix.trans ?_ hgrows
        rw [List.append_assoc]
        exact List.prefix_append _ _

variable (input)

end PlacementInput

/-- A map with the catalog in front of the hint stream and a private object, a shared object and
two members behind it. -/
def firstPageMap : RenumberMap where
  byNewNumber := [⟨0, 0⟩, ⟨0, 0⟩, ⟨1, 0⟩, ⟨0, 0⟩, ⟨3, 0⟩, ⟨8, 0⟩, ⟨20, 0⟩, ⟨21, 0⟩]
  byNewRaw := [⟨0, 0⟩, ⟨0, 0⟩, ⟨1, 0⟩, ⟨0, 0⟩, ⟨3, 0⟩, ⟨8, 0⟩, ⟨20, 0⟩, ⟨21, 0⟩]
  byOriginal := [(⟨1, 0⟩, ⟨2, 0⟩), (⟨3, 0⟩, ⟨4, 0⟩), (⟨8, 0⟩, ⟨5, 0⟩), (⟨20, 0⟩, ⟨6, 0⟩),
    (⟨21, 0⟩, ⟨7, 0⟩)]
  byOriginalRaw := [(⟨1, 0⟩, ⟨2, 0⟩), (⟨3, 0⟩, ⟨4, 0⟩), (⟨8, 0⟩, ⟨5, 0⟩), (⟨20, 0⟩, ⟨6, 0⟩),
    (⟨21, 0⟩, ⟨7, 0⟩)]
  paramDictSlot := 1
  hintStreamSlot := 3
  firstHalfCategory := [(⟨3, 0⟩, 0), (⟨8, 0⟩, 1)]

def firstHalfInput (batches : List RoutedObjStmBatch) : PlacementInput where
  openDocumentBatches := []
  firstHalfBatches := batches
  secondHalfBatches := []
  secondHalfAnchors := []
  secondHalfPostPlain := []
  firstHalfPostPlain := []
  firstHalfOutlineBatchCount := 0
  firstHalfOutlineRoot := none

end Flpdf
