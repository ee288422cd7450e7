import Flpdf.Optimization.ObjectWalk

/-!
# Reachability and object users

What the users say about the pages: an object is used by a page or its thumbnail
when the followed edges lead to it from the page. Compressed objects hand their
users to their container.
-/

namespace Flpdf

open Std DepthFirst

variable {pdf : Pdf} {skip : SkipStreamParameters} {user : ObjectUser}
  {object start : ObjectValue} {objectGen : QpdfObjGen} {fuel : ℕ}

/-- A value together with the way it is met: at the start of a walk, in an array
slot, or as an entry. -/
structure Place where
  object : ObjectValue
  top : Bool
  viaArray : Bool

def Pending.place (p : Pending) : Place := ⟨p.object, p.top, p.viaArray⟩

namespace Pdf

/-- The edges of the object graph that the walk follows. -/
inductive Follows (pdf : Pdf) (skip : SkipStreamParameters) (a : Place) : Place → Prop
  | item {items : List ObjectValue} {item : ObjectValue}
    (hvalue : pdf.dereference a.object = .array items) (hitem : item ∈ items) :
    Follows pdf skip a ⟨item, false, true⟩
  | streamEntry {entries : List (Bytes × ObjectValue)} {key : Bytes} {child : ObjectValue}
    (hvalue : pdf.dereference a.object = .stream (.dictionary entries))
    (hentry : (key, child) ∈ entries) (hvisible : pdf.isNull child = false)
    (hskip : skipped (skip a.object.qpdfObjGen (pdf.dereference a.object)) key = false) :
    Follows pdf skip a ⟨child, false, false⟩
  | entry {entries : List (Bytes × ObjectValue)} {key : Bytes} {child : ObjectValue}
    (hvalue : pdf.dereference a.object = .dictionary entries)
    (hentry : (key, child) ∈ entries) (hvisible : pdf.isNull child = false)
    (hparent : ¬ (pdf.isPage a.object = true ∧ key = ascii "/Parent")) :
    Follows pdf skip a ⟨child, false, false⟩

/-- A page is entered only where the walk starts. -/
def Entered (pdf : Pdf) (a : Place) : Prop :=
  pdf.isNull a.object = false ∧ (pdf.isPage a.object = true → a.top = true)

/-- Where the followed edges lead. -/
inductive Leads (pdf : Pdf) (skip : SkipStreamParameters) (start : ObjectValue) : Place → Prop
  | start : Leads pdf skip start ⟨start, true, false⟩
  | step {a b : Place} (ha : Leads pdf skip start a) (hentered : pdf.Entered a)
    (hedge : pdf.Follows skip a b) : Leads pdf skip start b

/-- An object is reached at a place that is entered, or as a null in an array
slot. -/
def ReachableFrom (pdf : Pdf) (skip : SkipStreamParameters) (start : ObjectValue)
    (objectGen : QpdfObjGen) : Prop :=
  ∃ a, pdf.Leads skip start a ∧ a.object = .indirect objectGen ∧
    (pdf.Entered a ∨ pdf.isNull a.object = true ∧ a.viaArray = true ∧ 0 < objectGen.object)

/-! ## The search over places -/

/-- A pending value whose user does not matter. -/
def pendingAt (a : Place) : Pending := ⟨a.object, .root, a.top, a.viaArray⟩

def placeSearch (pdf : Pdf) (skip : SkipStreamParameters) : Search Place QpdfObjGen :=
  ⟨fun a => pdf.placeEntry a.object a.top a.viaArray,
    fun a => (pdf.pendingChildren skip (pendingAt a)).map Pending.place⟩

theorem placeSearch_maps : (pdf.pendingSearch skip).Maps (pdf.placeSearch skip) Pending.place where
  entry p := rfl
  children p := by
    simp only [placeSearch, pendingSearch, pendingChildren, pendingAt, Pending.place]
    cases pdf.dereference p.object with
    | array items =>
      simp only [List.map_map]
      rfl
    | dictionary entries =>
      simp only [List.map_map]
      rfl
    | stream streamDict =>
      cases streamDict with
      | dictionary entries =>
        simp only [List.map_map]
        rfl
      | _ => rfl
    | _ => rfl

theorem placeSearch_coherent : (pdf.placeSearch skip).Coherent := by
  intro a b objectGen ha hb
  have hobject : a.object = b.object :=
    (indirect_of_mark (p := pendingAt a) ha).trans (indirect_of_mark (p := pendingAt b) hb).symm
  simp only [placeSearch, pendingChildren, pendingAt, hobject]

/-- The children of a place are the ends of the edges that leave it. -/
theorem mem_children_iff {a b : Place} :
    b ∈ (pdf.placeSearch skip).children a ↔ pdf.Follows skip a b := by
  have hvisible : ∀ (entries : List (Bytes × ObjectValue)) (entry : Bytes × ObjectValue),
      entry ∈ pdf.visibleChildren entries ↔ entry ∈ entries ∧ pdf.isNull entry.2 = false := by
    intro entries entry
    rw [visibleChildren, List.mem_filter, Bool.not_eq_true']
  simp only [placeSearch, pendingChildren, pendingAt]
  constructor
  · intro h
    split at h
    · rename_i items hvalue
      rw [List.map_map] at h
      obtain ⟨item, hitem, rfl⟩ := List.mem_map.mp h
      exact .item hvalue hitem
    · rename_i entries hvalue
      rw [List.map_map] at h
      obtain ⟨entry, hentry, rfl⟩ := List.mem_map.mp h
      rw [List.mem_filter, hvisible, Bool.not_eq_true'] at hentry
      exact .streamEntry hvalue hentry.1.1 hentry.1.2 hentry.2
    · rename_i entries hvalue
      rw [List.map_map] at h
      obtain ⟨entry, hentry, rfl⟩ := List.mem_map.mp h
      rw [List.mem_filter, hvisible, Bool.not_eq_true', Bool.and_eq_false_iff,
        beq_eq_false_iff_ne] at hentry
      apply Follows.entry hvalue hentry.1.1 hentry.1.2
      rintro ⟨hpage, hkey⟩
      rcases hentry.2 with h | h
      · rw [hpage] at h
        cases h
      · exact h hkey
    · cases h
  · intro h
    cases h with
    | item hvalue hitem =>
      simp only [hvalue]
      exact List.mem_map.mpr ⟨_, List.mem_map_of_mem hitem, rfl⟩
    | @streamEntry entries key child hvalue hentry hnull hskip =>
      simp only [hvalue]
      rw [hvalue] at hskip
      rw [List.map_map]
      refine List.mem_map.mpr ⟨(key, child), List.mem_filter.mpr ⟨?_, ?_⟩, rfl⟩
      · exact (hvisible _ _).mpr ⟨hentry, hnull⟩
      · rw [hskip]
        rfl
    | @entry entries key child hvalue hentry hnull hparent =>
      simp only [hvalue]
      have hkeep : (!(pdf.isPage a.object && key == ascii "/Parent")) = true := by
        rw [Bool.not_eq_true', Bool.and_eq_false_iff, beq_eq_false_iff_ne, ← Bool.not_eq_true]
        exact not_and_or.mp hparent
      rw [List.map_map]
      refine List.mem_map.mpr ⟨(key, child), List.mem_filter.mpr ⟨?_, hkeep⟩, rfl⟩
      exact (hvisible _ _).mpr ⟨hentry, hnull⟩

theorem follows_of_isNull {a b : Place} (h : pdf.isNull a.object = true) :
    ¬ pdf.Follows skip a b := by
  rw [← mem_children_iff]
  simp only [placeSearch, pendingChildren_of_isNull (p := pendingAt a) h]
  exact List.not_mem_nil

theorem entry_eq_skip_of_not_entered (skip : SkipStreamParameters) {a : Place}
    (hnull : pdf.isNull a.object = false) :
    (pdf.placeSearch skip).entry a = .skip ↔ ¬ pdf.Entered a := by
  simp only [placeSearch, placeEntry, hnull, Bool.false_eq_true, if_false, Entered, true_and]
  by_cases hpage : (pdf.isPage a.object && !a.top) = true
  · simp only [hpage, if_true, true_iff]
    rw [Bool.and_eq_true, Bool.not_eq_true'] at hpage
    intro h
    rw [h hpage.1] at hpage
    cases hpage.2
  · rw [if_neg hpage]
    constructor
    · intro h
      cases hid : a.object.qpdfObjGen <;> simp [hid] at h
    · intro h
      rw [Bool.not_eq_true, Bool.and_eq_false_iff, Bool.not_eq_false'] at hpage
      rcases hpage with hpage | htop
      · exact absurd (fun hp => by rw [hpage] at hp; cases hp) h
      · exact absurd (fun _ => htop) h

theorem reached_iff {a : Place} :
    (pdf.placeSearch skip).Reached [⟨start, true, false⟩] a ↔ pdf.Leads skip start a := by
  constructor
  · intro h
    induction h with
    | root hb =>
      rw [List.mem_singleton.mp hb]
      exact .start
    | child _ hentry hc ih =>
      have hedge := mem_children_iff.mp hc
      have hnull := Bool.eq_false_iff.mpr fun h => follows_of_isNull h hedge
      exact .step ih (not_not.mp (mt (entry_eq_skip_of_not_entered skip hnull).mpr hentry)) hedge
  · intro h
    induction h with
    | start => exact .root List.mem_cons_self
    | step _ hentered hedge ih =>
      exact .child ih (mt (entry_eq_skip_of_not_entered skip hentered.1).mp (not_not.mpr hentered))
        (mem_children_iff.mpr hedge)

theorem entry_eq_mark_iff {a : Place} :
    (pdf.placeSearch skip).entry a = .mark objectGen ↔
      a.object = .indirect objectGen ∧
        (pdf.Entered a ∨ pdf.isNull a.object = true ∧ a.viaArray = true ∧ 0 < objectGen.object) := by
  by_cases hnull : pdf.isNull a.object = true
  · simp only [placeSearch, placeEntry, hnull, if_true, Entered, Bool.true_eq_false, false_and,
      false_or, true_and]
    cases hobject : a.object with
    | indirect other =>
      simp only [ObjectValue.qpdfObjGen, ObjectValue.indirect.injEq]
      by_cases h : (a.viaArray && decide (0 < other.object)) = true
      · rw [if_pos h]
        simp only [Entry.mark.injEq]
        constructor
        · rintro rfl
          exact ⟨rfl, by simpa using h⟩
        · exact fun h => h.1
      · rw [if_neg h]
        simp only [reduceCtorEq, false_iff]
        rintro ⟨rfl, hslot⟩
        exact h (by rw [hslot.1, decide_eq_true hslot.2]; rfl)
    | _ => simp [ObjectValue.qpdfObjGen]
  · rw [Bool.not_eq_true] at hnull
    have hskip := entry_eq_skip_of_not_entered skip hnull
    simp only [hnull, Bool.false_eq_true, false_and, or_false]
    constructor
    · intro h
      refine ⟨indirect_of_mark (p := pendingAt a) h, ?_⟩
      apply not_not.mp
      intro hnot
      rw [hskip.mpr hnot] at h
      cases h
    · rintro ⟨hobject, hentered⟩
      have hgo : ¬ (pdf.isPage a.object && !a.top) = true := by
        rw [Bool.and_eq_true, Bool.not_eq_true']
        rintro ⟨hpage, htop⟩
        rw [hentered.2 hpage] at htop
        cases htop
      simp only [placeSearch, placeEntry, hnull, Bool.false_eq_true, if_false]
      rw [if_neg hgo, hobject]
      rfl

/-- A finished walk has logged what can be reached from its start. -/
theorem mem_log_iff {log : List (QpdfObjGen × Pending)}
    (h : (pdf.pendingSearch skip).loop fuel [] [⟨start, user, true, false⟩] = some log) :
    objectGen ∈ log.map Prod.fst ↔ pdf.ReachableFrom skip start objectGen := by
  have hplaces := placeSearch_maps.loop h
  have hkeys : (log.map (Prod.map id Pending.place)).map Prod.fst = log.map Prod.fst := by
    rw [List.map_map]
    rfl
  rw [← hkeys, Search.mem_loop_iff placeSearch_coherent hplaces, ReachableFrom]
  constructor
  · rintro ⟨a, hreached, hentry⟩
    exact ⟨a, reached_iff.mp hreached, entry_eq_mark_iff.mp hentry⟩
  · rintro ⟨a, hleads, hmark⟩
    exact ⟨a, reached_iff.mpr hleads, entry_eq_mark_iff.mpr hmark⟩

end Pdf

end Flpdf
