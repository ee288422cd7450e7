import Flpdf.Parser.Grammar
import Flpdf.Parser.Turns

/-!
# Frames that take items

A frame takes the items of its container one after the other, and when the
container ends it has become the value that the grammar gives to the items.
-/

namespace Flpdf

namespace LiveFrame

variable {frame : LiveFrame} {item : Item} {key : Bytes} {value : ObjectValue}

def kind : LiveFrame → ContainerKind
  | .array _ => .array
  | .dictionary .. => .dictionary

/-- A name where no key waits for its value is a key. -/
def take : LiveFrame → Item → LiveFrame
  | .dictionary values orphanValues none frameOffset, .name text =>
    .dictionary values orphanValues (some text) frameOffset
  | frame, item => frame.accept item.value

@[simp] theorem kind_accept (frame : LiveFrame) (value : ObjectValue) :
    (frame.accept value).kind = frame.kind := by
  rcases frame with values | ⟨values, orphanValues, _ | key, frameOffset⟩ <;> rfl

@[simp] theorem kind_take (frame : LiveFrame) (item : Item) : (frame.take item).kind = frame.kind := by
  fun_cases take frame item with
  | case1 => rfl
  | case2 => exact kind_accept _ _

theorem kind_foldl_accept (frame : LiveFrame) (values : List ObjectValue) :
    (values.foldl accept frame).kind = frame.kind := by
  induction values generalizing frame with
  | nil => rfl
  | cons value values ih => rw [List.foldl_cons, ih, kind_accept]

theorem kind_foldl_take (frame : LiveFrame) (items : List Item) :
    (items.foldl take frame).kind = frame.kind := by
  induction items generalizing frame with
  | nil => rfl
  | cons item items ih => rw [List.foldl_cons, ih, kind_take]

/-- Only names are taken for keys. -/
theorem take_other (frame : LiveFrame) (h : ∀ text, item ≠ .name text) :
    frame.take item = frame.accept item.value := by
  fun_cases take frame item with
  | case1 values orphanValues frameOffset text => exact absurd rfl (h text)
  | case2 => rfl

theorem array_foldl_take (items : List Item) (values : List ObjectValue) :
    items.foldl take (.array values) = .array (values ++ items.map Item.value) := by
  induction items generalizing values with
  | nil => rw [List.foldl_nil, List.map_nil, List.append_nil]
  | cons item items ih =>
    rw [List.foldl_cons, take, accept, ih, List.map_cons, List.append_assoc, List.singleton_append]
    simp

/-! ## Dictionaries -/

/-- The entries and the values without a key, when a key that waits gets null. -/
def settled : LiveFrame → List (Bytes × ObjectValue) × List ObjectValue
  | .array values => ([], values)
  | .dictionary values orphanValues (some key) _ => (insertSorted key .null values, orphanValues)
  | .dictionary values orphanValues none _ => (values, orphanValues)

/-- Insertion of all entries. -/
def insertAll (entries map : List (Bytes × ObjectValue)) : List (Bytes × ObjectValue) :=
  entries.foldl (fun map e => insertSorted e.1 e.2 map) map

theorem dictionary_foldl_take (items : List Item) (values : List (Bytes × ObjectValue))
    (orphanValues : List ObjectValue) (frameOffset : ℕ) :
    (items.foldl take (.dictionary values orphanValues none frameOffset)).settled =
      (insertAll (keyed items) values, orphanValues ++ keyless items) := by
  induction items using entriesOf.induct generalizing values orphanValues with
  | case1 key =>
    rw [keyless, keyed, entriesOf]
    simp [take, settled, insertAll]
  | case2 key item items ih =>
    have hkeyed : keyed (.name key :: item :: items) = (key, item.value) :: keyed items := by
      simp [keyed, entriesOf]
    have hkeyless : keyless (.name key :: item :: items) = keyless items := by
      simp [keyless, entriesOf]
    have hvalue : take (.dictionary values orphanValues (some key) frameOffset) item =
        .dictionary (insertSorted key item.value values) orphanValues none frameOffset := by
      rw [take, accept]
      simp
    rw [List.foldl_cons, List.foldl_cons, take, hvalue, ih, hkeyed, hkeyless, insertAll, insertAll,
      List.foldl_cons]
  | case3 item items hlast hname ih =>
    have hitem : ∀ text, item ≠ .name text := by
      rintro text rfl
      cases items with
      | nil => exact hlast text rfl rfl
      | cons item items => exact hname text item items rfl rfl
    have hkeyed : keyed (item :: items) = keyed items := by
      rw [keyed, keyed, entriesOf]
      · rfl
      all_goals assumption
    have hkeyless : keyless (item :: items) = item.value :: keyless items := by
      rw [keyless, keyless, entriesOf]
      · rfl
      all_goals assumption
    rw [List.foldl_cons, take_other _ hitem, accept, ih, hkeyed, hkeyless, List.append_assoc,
      List.singleton_append]
  | case4 => simp [settled, insertAll, keyed, keyless, entriesOf]

end LiveFrame

open LiveFrame

namespace LiveParser

variable {p : LiveParser} {start fuel n : ℕ}

/-! ## Keys that are made up -/

theorem fakeKey_eq {taken : Bytes → Bool} (hle : start ≤ n) (hfuel : n ≤ start + fuel)
    (hfree : taken (fakeName n) = false)
    (hbefore : ∀ m, start ≤ m → m < n → taken (fakeName m) = true) :
    fakeKey taken fuel start = (fakeName n, n + 1) := by
  induction fuel generalizing start with
  | zero =>
    obtain rfl : n = start := by omega
    rfl
  | succ fuel ih =>
    rw [fakeKey, ← fakeName]
    by_cases heq : start = n
    · rw [heq, if_neg (by rw [hfree]; exact Bool.false_ne_true)]
    · rw [if_pos (hbefore start le_rfl (by omega))]
      exact ih (by omega) (by omega) fun m hm => hbefore m (by omega)

/-- The next key is the one of the least free number. -/
theorem fakeKey_nextFree {taken : List Bytes} {values : List (Bytes × ObjectValue)}
    {orphanNames : List Bytes} (htaken : ∀ n, start ≤ n →
      ((values.lookup (fakeName n)).isSome || orphanNames.contains (fakeName n)) =
        decide (fakeName n ∈ taken)) :
    fakeKey (fun key => (values.lookup key).isSome || orphanNames.contains key)
        (values.length + orphanNames.length) start =
      (fakeName (nextFree taken start), nextFree taken start + 1) := by
  obtain ⟨hstart, hfree⟩ := nextFree_spec taken start
  apply fakeKey_eq hstart
  · obtain ⟨n, hn, hle, hnot⟩ := exists_free (values.map Prod.fst ++ orphanNames) start
    rw [List.length_append, List.length_map] at hle
    have hlookup : ((values.lookup (fakeName n)).isSome || orphanNames.contains (fakeName n)) =
        false := by
      rw [List.mem_append, not_or] at hnot
      rw [Bool.or_eq_false_iff]
      refine ⟨?_, by simpa using hnot.2⟩
      rw [Option.isSome_eq_false_iff, Option.isNone_iff_eq_none, List.lookup_eq_none_iff]
      intro e he
      apply bne_iff_ne.mpr
      rintro heq
      exact hnot.1 (List.mem_map.mpr ⟨e, he, heq.symm⟩)
    rw [htaken n hn, decide_eq_false_iff_not] at hlookup
    have hmin : nextFree taken start ≤ n := Nat.find_min' _ ⟨hn, hlookup⟩
    omega
  · rw [htaken _ hstart, decide_eq_false hfree]
  · intro m hm hlt
    rw [htaken m hm, decide_eq_true (taken_of_lt hm hlt)]

theorem insertOrphans_eq {taken orphanNames : List Bytes} (frameOffset : ℕ)
    (orphanValues : List ObjectValue) {values : List (Bytes × ObjectValue)}
    (hcontext : p.hasContext = true) (htaken : ∀ n, start ≤ n →
      ((values.lookup (fakeName n)).isSome || orphanNames.contains (fakeName n)) =
        decide (fakeName n ∈ taken)) :
    ∃ warnings, insertOrphans orphanNames frameOffset orphanValues start values p =
      .ok (insertAll (((freeNumbers taken orphanValues.length start).map fakeName).zip orphanValues)
        values, p.noted warnings) := by
  induction orphanValues generalizing start values p with
  | nil =>
    refine ⟨[], ?_⟩
    rw [insertOrphans, noted_nil]
    rfl
  | cons value orphanValues ih =>
    have hinserted : ∀ n, nextFree taken start + 1 ≤ n →
        (((insertSorted (fakeName (nextFree taken start)) value values).lookup
          (fakeName n)).isSome || orphanNames.contains (fakeName n)) =
            decide (fakeName n ∈ taken) := by
      intro n hn
      have hne : (fakeName n == fakeName (nextFree taken start)) = false := by
        apply beq_eq_false_iff_ne.mpr
        intro heq
        have := fakeName_injective heq
        omega
      have hstart := (nextFree_spec taken start).1
      rw [lookup_insertSorted, hne]
      exact htaken n (by omega)
    obtain ⟨warnings, hrest⟩ := ih (p := p.noted [(frameOffset,
      ascii "expected dictionary key but found non-name object; inserting key " ++
        fakeName (nextFree taken start))]) hcontext hinserted
    refine ⟨[(frameOffset, ascii "expected dictionary key but found non-name object; inserting key " ++
      fakeName (nextFree taken start))] ++ warnings, ?_⟩
    rw [insertOrphans]
    dsimp only
    rw [fakeKey_nextFree htaken]
    dsimp only
    rw [warn_noted hcontext]
    dsimp only [bind, Except.bind]
    rw [hrest, noted_noted]
    rfl

/-- A dictionary ends as the grammar has it. -/
theorem finishDictionary_eq {values : List (Bytes × ObjectValue)} {orphanValues : List ObjectValue}
    {pendingKey : Option Bytes} {frameOffset : ℕ} {items : List Item}
    (hcontext : p.hasContext = true)
    (hsettled : (LiveFrame.dictionary values orphanValues pendingKey frameOffset).settled =
      (insertAll (keyed items) [], keyless items)) :
    ∃ warnings, p.finishDictionary values orphanValues pendingKey frameOffset =
      .ok (.dictionary (dictionaryOf items), p.noted warnings) := by
  have htaken : ∀ n, 1 ≤ n → (((insertAll (keyed items) []).lookup (fakeName n)).isSome ||
      (((keyless items).filterMap asName).map (0x2f :: ·)).contains (fakeName n)) =
        decide (fakeName n ∈ takenKeys items) := by
    intro n _
    rw [insertAll, lookup_foldl_insertSorted, List.append_nil, takenKeys, Bool.eq_iff_iff,
      Bool.or_eq_true, List.lookup_isSome_iff, List.contains_iff_mem, decide_eq_true_iff,
      List.mem_append, List.mem_map]
    apply or_congr_left
    rw [List.mem_map]
    simp only [List.mem_reverse, beq_iff_eq, @eq_comm Bytes (fakeName n)]
  have hbuilt : dictionaryOf items = insertAll ((fakeNames items).zip (keyless items))
      (insertAll (keyed items) []) := by
    rw [dictionaryOf, insertAll, insertAll, List.foldl_append]
  cases pendingKey with
  | none =>
    obtain ⟨rfl, rfl⟩ := Prod.mk.inj hsettled
    obtain ⟨warnings, horphans⟩ := insertOrphans_eq (p := p) frameOffset (keyless items) hcontext
      htaken
    refine ⟨warnings, ?_⟩
    rw [finishDictionary]
    dsimp only [bind, Except.bind, pure, Except.pure]
    rw [horphans, hbuilt]
    rfl
  | some key =>
    obtain ⟨hvalues, rfl⟩ := Prod.mk.inj hsettled
    obtain ⟨warnings, horphans⟩ := insertOrphans_eq
      (p := p.noted [(frameOffset,
        ascii "dictionary ended prematurely; using null as value for last key")])
      frameOffset (keyless items) hcontext htaken
    refine ⟨[(frameOffset,
      ascii "dictionary ended prematurely; using null as value for last key")] ++ warnings, ?_⟩
    rw [finishDictionary]
    dsimp only [bind, Except.bind, pure, Except.pure]
    rw [warn_noted hcontext]
    dsimp only
    rw [hvalues, horphans, hbuilt, noted_noted]
    rfl

end LiveParser

end Flpdf
