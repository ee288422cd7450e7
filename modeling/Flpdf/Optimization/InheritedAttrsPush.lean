import Flpdf.Optimization.InheritedAttrsWalk

/-!
# What a push leaves behind

Every page tree is walked to the end, with the stacks empty. Its attributes are
pushed without loss exactly when nothing stands in or below a direct node whose
parent is indirect.
-/

namespace Flpdf

open Std PageTree

variable {heap : Heap} {root : PageTreeRoot} {tree : PageTree} {node : Handle}
  {kids : List PageTree}

/-- The root of the page tree: an indirect node, or the direct one of the catalog. -/
def PageTreeRoot.IsNode (heap : Heap) (node : Handle) : PageTreeRoot → Prop
  | indirect root => root = node ∧ heap.isIndirect node = true
  | direct catalog => heap.getKey catalog (ascii "/Pages") = some node ∧
      heap.isIndirect node = false

/-- The push comes to an end with empty stacks. Every page has the nearest value, no node keeps
an inheritable key, and nothing else changes but direct containers that become indirect. -/
def PushesWithoutLoss (heap : Heap) (root : PageTreeRoot) (tree : PageTree) : Prop :=
  ∃ bound final, (∀ fuel, bound ≤ fuel → pushInheritedAttributes heap root fuel = some final) ∧
    final.keyAncestors = ∅ ∧ Effect heap final.heap tree.handles ∧
    tree.Pushed heap final.heap fun _ => none

theorem walkInheritedFrames_nil (fuel : ℕ) (st : PushState) :
    PushState.walkInheritedFrames fuel [] st = some st := by
  cases fuel <;> rfl

/-- The first frame is the one of the root as a kid. -/
theorem pushInheritedAttributes_eq (hroot : root.IsNode heap node)
    (hpages : heap.isPagesDictionary node = true) (hkids : heap.hasKey node (ascii "/Kids") = true) :
    ∃ kind, (kind = .indirect → heap.isIndirect node = true) ∧ ∀ fuel,
      pushInheritedAttributes heap root fuel = PushState.walkInheritedFrames fuel
        ((PushState.visitKid ⟨heap, ∅, ∅⟩ kind node).1.toList ++ [])
        (PushState.visitKid ⟨heap, ∅, ∅⟩ kind node).2 := by
  have hdictionary : heap.isDictionary node = true := by
    rw [Heap.isPagesDictionary, Heap.isDictionaryOfType, Bool.and_eq_true] at hpages
    exact hpages.1
  cases root with
  | indirect root =>
    obtain ⟨rfl, hindirect⟩ := hroot
    refine ⟨.indirect, fun _ => hindirect, ?_⟩
    intro fuel
    have hvisit : PushState.visitKid ⟨heap, ∅, ∅⟩ .indirect root =
        PushState.enterIndirectFrame ⟨heap, ∅, ∅⟩ root := by
      simp only [PushState.visitKid, PushState.pushChildReference, hindirect, hpages, if_true]
    rw [pushInheritedAttributes, hvisit, List.append_nil]
  | direct catalog =>
    obtain ⟨hget, hdirect⟩ := hroot
    refine ⟨.direct, ?_, ?_⟩
    · intro h
      cases h
    intro fuel
    have hvisit : PushState.visitKid ⟨heap, ∅, ∅⟩ .direct node =
        PushState.enterDirectFrame ⟨heap, ∅, ∅⟩ node := by
      simp only [PushState.visitKid, hdirect, hdictionary, hkids, Bool.and_self, if_true,
        Bool.false_eq_true, if_false]
    simp only [pushInheritedAttributes, hget, hdictionary, if_true, hvisit, List.append_nil]

/-- The run of a push over a page tree. -/
theorem pushInheritedAttributes_spec (hroot : root.IsNode heap node)
    (hready : PushReady heap ∅ [.pages node kids]) :
    ∃ bound final, (∀ fuel, bound ≤ fuel → pushInheritedAttributes heap root fuel = some final) ∧
      final.keyAncestors = ∅ ∧ Effect heap final.heap (PageTree.pages node kids).handles ∧
      (PageTree.Pushed heap final.heap (fun _ => none) (.pages node kids) ↔
        PageTree.DirectKidsSettled heap (fun _ => none) (.pages node kids)) := by
  obtain ⟨hpages, hitems, -, -, -⟩ := hready.pages
  obtain ⟨kind, hkind, hrun⟩ := pushInheritedAttributes_eq hroot hpages (Heap.hasKey_of_arrayAt hitems)
  have hstacked : Stacked heap ∅ := by
    intro key stack hget
    rw [ExtTreeMap.getElem?_empty] at hget
    cases hget
  obtain ⟨steps, final, hwalk, hwalked, hpushed⟩ :=
    walksKid (.pages node kids) kind ⟨heap, ∅, ∅⟩ hready hstacked
  have hkid : ¬(kind = .indirect ∧ heap.isIndirect node = false) := by
    rintro ⟨rfl, hdirect⟩
    rw [hkind rfl] at hdirect
    cases hdirect
  have henv : envOf (∅ : KeyAncestors) = fun _ => none := by
    funext key
    rw [envOf, ExtTreeMap.getD_eq_getD_getElem?, ExtTreeMap.getElem?_empty]
    rfl
  refine ⟨steps, final, ?_, hwalked.ancestors_eq, hwalked.effect, ?_⟩
  · intro fuel hfuel
    have hsteps := hwalk (fuel - steps) []
    rw [Nat.sub_add_cancel hfuel] at hsteps
    rw [hrun]
    exact hsteps.trans (walkInheritedFrames_nil _ final)
  · rw [← henv]
    exact hpushed.trans (iff_of_eq (if_neg hkid))

theorem PushesWithoutLoss.directKidsSettled (h : PushesWithoutLoss heap root (.pages node kids))
    (hroot : root.IsNode heap node) (hready : PushReady heap ∅ [.pages node kids]) :
    PageTree.DirectKidsSettled heap (fun _ => none) (.pages node kids) := by
  obtain ⟨bound, final, hrun, -, -, hpushed⟩ := pushInheritedAttributes_spec hroot hready
  obtain ⟨bound', final', hrun', -, -, hpushed'⟩ := h
  have hsame := (hrun (max bound bound') (Nat.le_max_left _ _)).symm.trans
    (hrun' (max bound bound') (Nat.le_max_right _ _))
  rw [← hpushed, Option.some.inj hsame]
  exact hpushed'

/-- Nothing is lost exactly when every direct node under an indirect one is settled. -/
theorem pushesWithoutLoss_iff (heap : Heap) (root : PageTreeRoot) (node : Handle)
    (kids : List PageTree) (hroot : root.IsNode heap node)
    (hready : PushReady heap ∅ [.pages node kids]) :
    PushesWithoutLoss heap root (.pages node kids) ↔
      PageTree.DirectKidsSettled heap (fun _ => none) (.pages node kids) := by
  constructor
  · intro h
    exact h.directKidsSettled hroot hready
  · intro hsettled
    obtain ⟨bound, final, hrun, hancestors, heffect, hpushed⟩ :=
      pushInheritedAttributes_spec hroot hready
    exact ⟨bound, final, hrun, hancestors, heffect, hpushed.mpr hsettled⟩

/-- A node with `/Rotate`, a direct node in its `/Kids`, and a page below that one. -/
def rotatedHeap (node : Option QpdfObjGen) : Heap where
  slot
    | 0 => ⟨some ⟨1, 0⟩, .dictionary (.ofList [(ascii "/Pages", 1)])⟩
    | 1 => ⟨node, .dictionary
        (.ofList [(ascii "/Type", 6), (ascii "/Kids", 2), (ascii "/Rotate", 8)])⟩
    | 2 => ⟨none, .array [3]⟩
    | 3 => ⟨none, .dictionary (.ofList [(ascii "/Type", 6), (ascii "/Kids", 4)])⟩
    | 4 => ⟨none, .array [5]⟩
    | 5 => ⟨some ⟨2, 0⟩, .dictionary (.ofList [(ascii "/Type", 7)])⟩
    | 6 => ⟨none, .name (ascii "Pages")⟩
    | 7 => ⟨none, .name (ascii "Page")⟩
    | _ => ⟨none, .integer 90⟩
  size := 9
  objectCount := 3

def rotatedTree : PageTree := .pages 1 [.pages 3 [.page 5]]

theorem rotatedHeap_ready (node : Option QpdfObjGen) (hnode : node = none ∨ node = some ⟨3, 0⟩) :
    PushReady (rotatedHeap node) ∅ [rotatedTree] := by
  have hshared : ∀ a ∈ handlesAll [rotatedTree], ∀ key ∈ inheritableKeys,
      ∀ v ∈ handlesAll [rotatedTree], (rotatedHeap node).visible a key ≠ some v := by
    rcases hnode with rfl | rfl <;> decide
  constructor
  · simp only [rotatedTree, RepresentsAll, Represents, and_true]
    rcases hnode with rfl | rfl <;> decide
  · decide
  · rcases hnode with rfl | rfl <;> decide
  · exact fun _ _ _ _ => ExtTreeSet.not_mem_empty
  · intro a ha key hkey v hvisible hv
    exact absurd hvisible (hshared a ha key hkey v hv)

/-- The indirect root passes over its direct kid, and the page gets no `/Rotate`. -/
theorem rotatedHeap_loses :
    PushReady (rotatedHeap (some ⟨3, 0⟩)) ∅ [rotatedTree] ∧
      (PageTreeRoot.indirect 1).IsNode (rotatedHeap (some ⟨3, 0⟩)) 1 ∧
      ¬ PushesWithoutLoss (rotatedHeap (some ⟨3, 0⟩)) (.indirect 1) rotatedTree := by
  refine ⟨rotatedHeap_ready _ (.inr rfl), ⟨rfl, by decide⟩, ?_⟩
  intro h
  have hsettled := h.directKidsSettled ⟨rfl, by decide⟩ (rotatedHeap_ready _ (.inr rfl))
  have hroot : (rotatedHeap (some ⟨3, 0⟩)).isIndirect 1 = true := by
    decide
  have hkid : (rotatedHeap (some ⟨3, 0⟩)).isIndirect 3 = false := by
    decide
  simp only [PageTree.DirectKidsSettled, PageTree.DirectKidsSettledAll, PageTree.handle, hroot,
    hkid, and_self, if_true, PageTree.Settled, PageTree.SettledAll, and_true] at hsettled
  have hpage := hsettled.2 (ascii "/Rotate") (by decide)
  revert hpage
  decide

/-- Under a direct root the direct kid is entered. -/
theorem rotatedHeap_direct :
    PushesWithoutLoss (rotatedHeap none) (.direct 0) rotatedTree := by
  apply (pushesWithoutLoss_iff (rotatedHeap none) (.direct 0) 1 [.pages 3 [.page 5]]
    ⟨by decide, by decide⟩ (rotatedHeap_ready none (.inl rfl))).mpr
  have hroot : (rotatedHeap none).isIndirect 1 = false := by
    decide
  have hkid : (rotatedHeap none).isIndirect 3 = false := by
    decide
  simp only [PageTree.DirectKidsSettled, PageTree.DirectKidsSettledAll, hroot, hkid,
    Bool.false_eq_true, false_and, if_false, and_true]

end Flpdf
