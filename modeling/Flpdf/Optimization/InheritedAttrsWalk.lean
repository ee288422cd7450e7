import Flpdf.Optimization.InheritedAttrsSteps
import Flpdf.Pages.Tree

/-!
# The inherited-attribute walk over a page tree

The frames of the walk follow the page tree. Every page that is reached gets the
values of the nodes above it; a direct node under an indirect one is passed over.
-/

namespace Flpdf

open Std

namespace PageTree

mutual

/-- The heap holds this page tree: indirect pages, and nodes that are direct or
indirect. -/
def Represents (heap : Heap) : PageTree → Prop
  | page p => heap.isIndirect p = true ∧ heap.isDictionaryOfType p (ascii "Page") = true
  | pages node kids => heap.isPagesDictionary node = true ∧
      heap.arrayAt node (ascii "/Kids") = some (kids.map handle) ∧ RepresentsAll heap kids

def RepresentsAll (heap : Heap) : List PageTree → Prop
  | [] => True
  | tree :: trees => tree.Represents heap ∧ RepresentsAll heap trees

end

/-- The nearest value: the own one, or the one from above. -/
def nearest (heap : Heap) (env : Bytes → Option Handle) (node : Handle) (key : Bytes) :
    Option Handle :=
  (heap.visible node key).or (env key)

mutual

/-- Every page has the nearest value, and no node has an inheritable key. -/
def Pushed (heap heap' : Heap) (env : Bytes → Option Handle) : PageTree → Prop
  | page p => ∀ key ∈ inheritableKeys, heap'.visible p key = nearest heap env p key
  | pages node kids => (∀ key ∈ inheritableKeys, heap'.visible node key = none) ∧
      PushedAll heap heap' (nearest heap env node) kids

def PushedAll (heap heap' : Heap) (env : Bytes → Option Handle) : List PageTree → Prop
  | [] => True
  | tree :: trees => tree.Pushed heap heap' env ∧ PushedAll heap heap' env trees

end

mutual

/-- Nothing to hand down and nothing to receive. -/
def Settled (heap : Heap) (env : Bytes → Option Handle) : PageTree → Prop
  | page p => ∀ key ∈ inheritableKeys, heap.visible p key ≠ none ∨ env key = none
  | pages node kids => (∀ key ∈ inheritableKeys, heap.visible node key = none) ∧
      SettledAll heap env kids

def SettledAll (heap : Heap) (env : Bytes → Option Handle) : List PageTree → Prop
  | [] => True
  | tree :: trees => tree.Settled heap env ∧ SettledAll heap env trees

end

mutual

/-- Every direct node under an indirect one is settled. -/
def DirectKidsSettled (heap : Heap) (env : Bytes → Option Handle) : PageTree → Prop
  | page _ => True
  | pages node kids =>
    DirectKidsSettledAll heap (heap.isIndirect node) (nearest heap env node) kids

def DirectKidsSettledAll (heap : Heap) (underIndirect : Bool) (env : Bytes → Option Handle) :
    List PageTree → Prop
  | [] => True
  | tree :: trees =>
    (if underIndirect = true ∧ heap.isIndirect tree.handle = false then tree.Settled heap env
      else tree.DirectKidsSettled heap env) ∧
    DirectKidsSettledAll heap underIndirect env trees

end

end PageTree

open PageTree

variable {heap heap' h h' g g' : Heap} {env : Bytes → Option Handle} {targets : List Handle}

/-! ## What the properties depend on -/

mutual

theorem PageTree.Represents.of_effect (heffect : Effect heap heap' targets) :
    ∀ tree : PageTree, tree.Represents heap → tree.Represents heap'
  | .page p, hrep => by
    rw [Represents] at hrep ⊢
    rw [heffect.isDictionaryOfType_eq]
    exact ⟨(heffect.isIndirect_of hrep.1).1, hrep.2⟩
  | .pages node kids, hrep => by
    rw [Represents] at hrep ⊢
    rw [Heap.isPagesDictionary, heffect.isDictionaryOfType_eq, heffect.arrayAt_eq]
    exact ⟨hrep.1, hrep.2.1, RepresentsAll.of_effect heffect kids hrep.2.2⟩

theorem PageTree.RepresentsAll.of_effect (heffect : Effect heap heap' targets) :
    ∀ trees : List PageTree, RepresentsAll heap trees → RepresentsAll heap' trees
  | [], _ => by
    rw [RepresentsAll]
    trivial
  | tree :: trees, hrep => by
    rw [RepresentsAll] at hrep ⊢
    exact ⟨Represents.of_effect heffect tree hrep.1, RepresentsAll.of_effect heffect trees hrep.2⟩

end

/-- Two environments that agree on the inheritable keys, in two heaps with the same own
values, give the same nearest values. -/
theorem nearest_congr {env' : Bytes → Option Handle} {node : Handle}
    (henv : ∀ key ∈ inheritableKeys, env key = env' key)
    (hown : ∀ key, h.visible node key = g.visible node key) :
    ∀ key ∈ inheritableKeys, nearest h env node key = nearest g env' node key := by
  intro key hkey
  rw [nearest, nearest, hown key, henv key hkey]

mutual

theorem PageTree.pushed_congr : ∀ (tree : PageTree) (env env' : Bytes → Option Handle),
    (∀ key ∈ inheritableKeys, env key = env' key) →
    (∀ a ∈ tree.handles, ∀ key, h.visible a key = g.visible a key) →
    (tree.Pushed h h' env ↔ tree.Pushed g h' env')
  | .page p, env, env', henv, hown => by
    rw [Pushed, Pushed]
    apply forall₂_congr
    intro key hkey
    rw [nearest_congr henv (hown p List.mem_cons_self) key hkey]
  | .pages node kids, env, env', henv, hown => by
    rw [Pushed, Pushed]
    apply and_congr_right
    intro _
    apply pushedAll_congr kids
    · exact nearest_congr henv (hown node List.mem_cons_self)
    · exact fun a ha => hown a (List.mem_cons_of_mem _ ha)

theorem PageTree.pushedAll_congr : ∀ (trees : List PageTree) (env env' : Bytes → Option Handle),
    (∀ key ∈ inheritableKeys, env key = env' key) →
    (∀ a ∈ handlesAll trees, ∀ key, h.visible a key = g.visible a key) →
    (PushedAll h h' env trees ↔ PushedAll g h' env' trees)
  | [], _, _, _, _ => by simp only [PushedAll]
  | tree :: trees, env, env', henv, hown => by
    simp only [handlesAll, List.mem_append] at hown
    rw [PushedAll, PushedAll, pushed_congr tree env env' henv fun a ha => hown a (.inl ha),
      pushedAll_congr trees env env' henv fun a ha => hown a (.inr ha)]

end

mutual

/-- The trees that are walked next do not matter for what happened to this one. -/
theorem PageTree.pushed_after : ∀ (tree : PageTree) (env : Bytes → Option Handle),
    (∀ a ∈ tree.handles, ∀ key, h'.visible a key = g'.visible a key) →
    (tree.Pushed h h' env ↔ tree.Pushed h g' env)
  | .page p, env, hown => by
    simp only [Pushed, hown p List.mem_cons_self]
  | .pages node kids, env, hown => by
    simp only [Pushed, hown node List.mem_cons_self]
    rw [pushedAll_after kids _ fun a ha => hown a (List.mem_cons_of_mem _ ha)]

theorem PageTree.pushedAll_after : ∀ (trees : List PageTree) (env : Bytes → Option Handle),
    (∀ a ∈ handlesAll trees, ∀ key, h'.visible a key = g'.visible a key) →
    (PushedAll h h' env trees ↔ PushedAll h g' env trees)
  | [], _, _ => by simp only [PushedAll]
  | tree :: trees, env, hown => by
    simp only [handlesAll, List.mem_append] at hown
    rw [PushedAll, PushedAll, pushed_after tree env fun a ha => hown a (.inl ha),
      pushedAll_after trees env fun a ha => hown a (.inr ha)]

end

mutual

theorem PageTree.settled_congr : ∀ (tree : PageTree) (env env' : Bytes → Option Handle),
    (∀ key ∈ inheritableKeys, env key = env' key) →
    (∀ a ∈ tree.handles, ∀ key, h.visible a key = g.visible a key) →
    (tree.Settled h env ↔ tree.Settled g env')
  | .page p, env, env', henv, hown => by
    rw [Settled, Settled]
    apply forall₂_congr
    intro key hkey
    rw [hown p List.mem_cons_self, henv key hkey]
  | .pages node kids, env, env', henv, hown => by
    have hnode : node ∈ handles (.pages node kids) := List.mem_cons_self
    simp only [Settled, hown node hnode]
    rw [settledAll_congr kids env env' henv fun a ha => hown a (List.mem_cons_of_mem _ ha)]

theorem PageTree.settledAll_congr : ∀ (trees : List PageTree) (env env' : Bytes → Option Handle),
    (∀ key ∈ inheritableKeys, env key = env' key) →
    (∀ a ∈ handlesAll trees, ∀ key, h.visible a key = g.visible a key) →
    (SettledAll h env trees ↔ SettledAll g env' trees)
  | [], _, _, _, _ => by simp only [SettledAll]
  | tree :: trees, env, env', henv, hown => by
    simp only [handlesAll, List.mem_append] at hown
    rw [SettledAll, SettledAll, settled_congr tree env env' henv fun a ha => hown a (.inl ha),
      settledAll_congr trees env env' henv fun a ha => hown a (.inr ha)]

end

mutual

theorem PageTree.directKidsSettled_congr : ∀ (tree : PageTree) (env env' : Bytes → Option Handle),
    (∀ key ∈ inheritableKeys, env key = env' key) →
    (∀ a ∈ tree.handles, ∀ key, h.visible a key = g.visible a key) →
    (∀ a ∈ tree.handles, h.isIndirect a = g.isIndirect a) →
    (tree.DirectKidsSettled h env ↔ tree.DirectKidsSettled g env')
  | .page p, _, _, _, _, _ => by simp only [DirectKidsSettled]
  | .pages node kids, env, env', henv, hown, hindirect => by
    have hnode : node ∈ handles (.pages node kids) := List.mem_cons_self
    rw [DirectKidsSettled, DirectKidsSettled, hindirect node hnode]
    apply directKidsSettledAll_congr kids
    · exact nearest_congr henv (hown node hnode)
    · exact fun a ha => hown a (List.mem_cons_of_mem _ ha)
    · exact fun a ha => hindirect a (List.mem_cons_of_mem _ ha)

theorem PageTree.directKidsSettledAll_congr :
    ∀ (trees : List PageTree) (underIndirect : Bool) (env env' : Bytes → Option Handle),
    (∀ key ∈ inheritableKeys, env key = env' key) →
    (∀ a ∈ handlesAll trees, ∀ key, h.visible a key = g.visible a key) →
    (∀ a ∈ handlesAll trees, h.isIndirect a = g.isIndirect a) →
    (DirectKidsSettledAll h underIndirect env trees ↔
      DirectKidsSettledAll g underIndirect env' trees)
  | [], _, _, _, _, _, _ => by simp only [DirectKidsSettledAll]
  | tree :: trees, underIndirect, env, env', henv, hown, hindirect => by
    simp only [handlesAll, List.mem_append] at hown hindirect
    simp only [DirectKidsSettledAll, hindirect tree.handle (.inl tree.handle_mem_handles)]
    rw [settled_congr tree env env' henv fun a ha => hown a (.inl ha),
      directKidsSettled_congr tree env env' henv (fun a ha => hown a (.inl ha))
        (fun a ha => hindirect a (.inl ha)),
      directKidsSettledAll_congr trees underIndirect env env' henv (fun a ha => hown a (.inr ha))
        (fun a ha => hindirect a (.inr ha))]

end

mutual

/-- A tree that is left as it is has everything pushed when it is settled. -/
theorem PageTree.pushed_self_iff : ∀ (tree : PageTree) (env : Bytes → Option Handle),
    tree.Pushed h h env ↔ tree.Settled h env
  | .page p, env => by
    rw [Pushed, Settled]
    apply forall₂_congr
    intro key _
    rw [nearest]
    cases h.visible p key with
    | none => simp [eq_comm]
    | some v => simp
  | .pages node kids, env => by
    rw [Pushed, Settled]
    apply and_congr_right
    intro hnone
    have hnearest : ∀ key ∈ inheritableKeys, nearest h env node key = env key := by
      intro key hkey
      rw [nearest, hnone key hkey, Option.none_or]
    rw [pushedAll_self_iff kids, settledAll_congr kids _ _ hnearest fun _ _ _ => rfl]

theorem PageTree.pushedAll_self_iff : ∀ (trees : List PageTree) (env : Bytes → Option Handle),
    PushedAll h h env trees ↔ SettledAll h env trees
  | [], _ => by simp only [PushedAll, SettledAll]
  | tree :: trees, env => by
    rw [PushedAll, SettledAll, pushed_self_iff tree env, pushedAll_self_iff trees env]

end

/-! ## The walk -/

/-- What the walk needs of the trees that are still to come. -/
structure PushReady (heap : Heap) (visited : ExtTreeSet QpdfObjGen) (trees : List PageTree) :
    Prop where
  represents : RepresentsAll heap trees
  nodup : (handlesAll trees).Nodup
  identities : ∀ a ∈ handlesAll trees, ∀ b ∈ handlesAll trees,
    heap.isIndirect a = true → heap.identity a = heap.identity b → a = b
  unvisited : ∀ a ∈ handlesAll trees, ∀ objectGen, heap.identity a = some objectGen →
    objectGen ∉ visited
  apart : ∀ a ∈ handlesAll trees, ∀ key ∈ inheritableKeys, ∀ v, heap.visible a key = some v →
    v ∈ handlesAll trees → heap.isIndirect v = true

/-- The identities that a part of the walk has visited. -/
def VisitedFrom (heap : Heap) (visited visited' : ExtTreeSet QpdfObjGen) (handles : List Handle) :
    Prop :=
  ∀ objectGen ∈ visited', objectGen ∈ visited ∨ ∃ a ∈ handles, heap.identity a = some objectGen

/-- Behind a part of the walk the trees that are still to come are as before. -/
theorem PushReady.after {trees small : List PageTree} {visited visited' : ExtTreeSet QpdfObjGen}
    (hready : PushReady heap visited trees) (heffect : Effect heap heap' targets)
    (hvisited : VisitedFrom heap visited visited' targets) (hrep : RepresentsAll heap small)
    (hnodup : (handlesAll small).Nodup)
    (hsmall : ∀ a ∈ handlesAll small, a ∈ handlesAll trees ∧ a ∉ targets)
    (htargets : ∀ a ∈ targets, a ∈ handlesAll trees) :
    PushReady heap' visited' small ∧ ∀ a ∈ handlesAll small, heap'.identity a = heap.identity a := by
  have hidentity : ∀ a ∈ handlesAll small, heap'.identity a = heap.identity a := by
    intro a ha
    rcases heffect.identity_eq a with hsame | ⟨hnone, -, n, hn, key, hkey, hvisible⟩
    · exact hsame
    · have hindirect := hready.apart n (htargets n hn) key hkey a hvisible (hsmall a ha).1
      rw [Heap.isIndirect, hnone] at hindirect
      cases hindirect
  refine ⟨⟨hrep.of_effect heffect small, hnodup, ?_, ?_, ?_⟩, hidentity⟩
  · intro a ha b hb hindirect heq
    rw [hidentity a ha, hidentity b hb] at heq
    rw [Heap.isIndirect, hidentity a ha] at hindirect
    exact hready.identities a (hsmall a ha).1 b (hsmall b hb).1 hindirect heq
  · intro a ha objectGen hget hmem
    rw [hidentity a ha] at hget
    rcases hvisited objectGen hmem with hold | ⟨b, hb, hother⟩
    · exact hready.unvisited a (hsmall a ha).1 objectGen hget hold
    · have hindirect : heap.isIndirect a = true := by
        rw [Heap.isIndirect, hget]
        rfl
      have hab := hready.identities a (hsmall a ha).1 b (htargets b hb) hindirect
        (hget.trans hother.symm)
      exact (hsmall a ha).2 (hab ▸ hb)
  · intro a ha key hkey v hvisible hv
    rw [heffect.visible_eq (hsmall a ha).2] at hvisible
    have hindirect := hready.apart a (hsmall a ha).1 key hkey v hvisible (hsmall v hv).1
    exact (heffect.isIndirect_of hindirect).1

/-- What a part of the walk leaves behind. -/
structure Walked (st st' : PushState) (handles : List Handle) : Prop where
  ancestors_eq : st'.keyAncestors = st.keyAncestors
  effect : Effect st.heap st'.heap handles
  visited : VisitedFrom st.heap st.visited st'.visited handles

/-- The walk gets through the kids of a frame. -/
def WalksKids (trees : List PageTree) : Prop :=
  ∀ (kind : InheritedFrameKind) (st : PushState), PushReady st.heap st.visited trees →
    Stacked st.heap st.keyAncestors →
    ∃ steps st', (∀ fuel ownKeys frames,
        PushState.walkInheritedFrames (fuel + steps) (⟨kind, trees.map handle, ownKeys⟩ :: frames) st =
          PushState.walkInheritedFrames fuel (⟨kind, [], ownKeys⟩ :: frames) st') ∧
      Walked st st' (handlesAll trees) ∧
      (PushedAll st.heap st'.heap (envOf st.keyAncestors) trees ↔
        DirectKidsSettledAll st.heap (kind = .indirect) (envOf st.keyAncestors) trees)

/-- The walk gets through one kid of a frame. -/
def WalksKid (tree : PageTree) : Prop :=
  ∀ (kind : InheritedFrameKind) (st : PushState), PushReady st.heap st.visited [tree] →
    Stacked st.heap st.keyAncestors →
    ∃ steps st', (∀ fuel frames, PushState.walkInheritedFrames (fuel + steps)
          ((st.visitKid kind tree.handle).1.toList ++ frames) (st.visitKid kind tree.handle).2 =
        PushState.walkInheritedFrames fuel frames st') ∧
      Walked st st' tree.handles ∧
      (tree.Pushed st.heap st'.heap (envOf st.keyAncestors) ↔
        if kind = .indirect ∧ st.heap.isIndirect tree.handle = false then
          tree.Settled st.heap (envOf st.keyAncestors)
        else tree.DirectKidsSettled st.heap (envOf st.keyAncestors))

section

variable {node p : Handle} {kids trees : List PageTree} {tree : PageTree} {st : PushState}
  {visited visited' : ExtTreeSet QpdfObjGen}

theorem PushReady.pages (hready : PushReady heap visited [.pages node kids]) :
    heap.isPagesDictionary node = true ∧
      heap.arrayAt node (ascii "/Kids") = some (kids.map handle) ∧ RepresentsAll heap kids ∧
      node ∉ handlesAll kids ∧ (handlesAll kids).Nodup := by
  have hrep := hready.represents
  have hnodup := hready.nodup
  simp only [RepresentsAll, Represents, and_true] at hrep
  simp only [handlesAll, handles, List.append_nil, List.nodup_cons] at hnodup
  exact ⟨hrep.1, hrep.2.1, hrep.2.2, hnodup.1, hnodup.2⟩

/-- A node is opened, its kids are walked, and its attributes are popped. -/
theorem walk_opened (hkids : WalksKids kids) (kind : InheritedFrameKind)
    (hready : PushReady st.heap st.visited [.pages node kids])
    (hvisited : VisitedFrom st.heap st.visited visited' [node])
    (hstacked : Stacked st.heap st.keyAncestors) :
    ∃ steps st', (∀ fuel frames, PushState.walkInheritedFrames (fuel + steps)
          ((PushState.openFrame { st with visited := visited' } kind node).1.toList ++ frames)
          (PushState.openFrame { st with visited := visited' } kind node).2 =
        PushState.walkInheritedFrames fuel frames st') ∧
      Walked st st' (node :: handlesAll kids) ∧
      (PageTree.Pushed st.heap st'.heap (envOf st.keyAncestors) (.pages node kids) ↔
        DirectKidsSettledAll st.heap (kind = .indirect)
          (nearest st.heap (envOf st.keyAncestors) node) kids) := by
  obtain ⟨-, hitems, hrep, hnotMem, hnodup⟩ := hready.pages
  have htaken := taken_pushNodeAttributes st.heap node st.keyAncestors
  have hsub : ∀ a ∈ handlesAll kids, a ∈ handlesAll [.pages node kids] ∧ a ∉ [node] := by
    intro a ha
    simp only [handlesAll, handles, List.append_nil, List.mem_singleton]
    exact ⟨List.mem_cons_of_mem _ ha, fun h => hnotMem (h ▸ ha)⟩
  have htargets : ∀ a ∈ [node], a ∈ handlesAll [.pages node kids] := by
    intro a ha
    rw [List.mem_singleton.mp ha]
    exact List.mem_append_left _ List.mem_cons_self
  obtain ⟨hready', hidentity⟩ :=
    hready.after htaken.effect hvisited hrep hnodup hsub htargets
  obtain ⟨steps, st', hrun, hwalked, hpushed⟩ := hkids kind
    { st with
      heap := (st.heap.pushNodeAttributes node st.keyAncestors).1
      keyAncestors := (st.heap.pushNodeAttributes node st.keyAncestors).2.1
      visited := visited' }
    hready' (hstacked.taken htaken)
  have hpop := htaken.pop hstacked
  have heffect : Effect st.heap st'.heap (node :: handlesAll kids) :=
    htaken.effect.trans hwalked.effect fun n hn => (hsub n hn).2
  refine ⟨steps + 1, { st' with keyAncestors := st.keyAncestors }, ?_, ?_, ?_⟩
  · intro fuel frames
    have hitems' := (htaken.effect.arrayAt_eq node).trans hitems
    have hopened := hrun (fuel + 1) (st.heap.pushNodeAttributes node st.keyAncestors).2.2 frames
    simp only [PushState.openFrame, hitems', Option.getD_some, Option.toList_some,
      List.singleton_append]
    rw [show fuel + (steps + 1) = fuel + 1 + steps by omega, hopened,
      PushState.walkInheritedFrames, hwalked.ancestors_eq, hpop]
  · refine ⟨rfl, heffect, ?_⟩
    intro objectGen hmem
    rcases hwalked.visited objectGen hmem with hold | ⟨a, ha, hget⟩
    · rcases hvisited objectGen hold with hold | ⟨a, ha, hget⟩
      · exact .inl hold
      · rw [List.mem_singleton] at ha
        exact .inr ⟨a, by rw [ha]; exact List.mem_cons_self, hget⟩
    · exact .inr ⟨a, List.mem_cons_of_mem _ ha, (hidentity a ha) ▸ hget⟩
  · have hvisible : ∀ a ∈ handlesAll kids, ∀ key, st.heap.visible a key =
        (st.heap.pushNodeAttributes node st.keyAncestors).1.visible a key :=
      fun a ha key => (htaken.effect.visible_eq (hsub a ha).2 key).symm
    have hnone : ∀ key ∈ inheritableKeys, st'.heap.visible node key = none := by
      intro key hkey
      rw [hwalked.effect.visible_eq hnotMem]
      exact htaken.visible_done key hkey
    have henv : ∀ key ∈ inheritableKeys, nearest st.heap (envOf st.keyAncestors) node key =
        envOf (st.heap.pushNodeAttributes node st.keyAncestors).2.1 key :=
      fun key hkey => (htaken.envOf hkey).symm
    have hindirect : ∀ a ∈ handlesAll kids, st.heap.isIndirect a =
        (st.heap.pushNodeAttributes node st.keyAncestors).1.isIndirect a := by
      intro a ha
      rw [Heap.isIndirect, Heap.isIndirect, hidentity a ha]
    rw [PageTree.Pushed, and_iff_right hnone, pushedAll_congr kids _ _ henv hvisible,
      directKidsSettledAll_congr kids _ _ _ henv hvisible hindirect]
    exact hpushed

theorem isPagesDictionary_of_page (hpage : heap.isDictionaryOfType p (ascii "Page") = true) :
    heap.isPagesDictionary p = false ∧ heap.isDictionary p = true := by
  rw [Heap.isDictionaryOfType, Bool.and_eq_true] at hpage
  refine ⟨?_, hpage.1⟩
  rw [Heap.isPagesDictionary, Heap.isDictionaryOfType, hpage.1, Bool.true_and]
  cases hget : heap.getKey p (ascii "/Type") with
  | none => rfl
  | some type =>
    have hname := hpage.2
    rw [hget, Option.any_some, Heap.isNameAndEquals] at hname
    rw [Option.any_some, Heap.isNameAndEquals]
    cases hvalue : heap.value type with
    | name value =>
      simp only [hvalue, beq_iff_eq] at hname
      simp only [hname]
      decide
    | _ => rfl

theorem walksKid_page (p : Handle) : WalksKid (.page p) := by
  intro kind st hready hstacked
  have hrep := hready.represents
  simp only [RepresentsAll, Represents, and_true] at hrep
  obtain ⟨hpages, hdictionary⟩ := isPagesDictionary_of_page hrep.2
  obtain ⟨heffect, hvisible⟩ := visible_install_keyAncestors hstacked hdictionary
  have hvisit : st.visitKid kind p = (none, { st with
      heap := st.keyAncestors.toList.foldl (Heap.installInherited p) st.heap }) := by
    cases kind <;>
      simp [PushState.visitKid, PushState.pushChildReference, hrep.1, hpages, hdictionary]
  refine ⟨0, { st with heap := st.keyAncestors.toList.foldl (Heap.installInherited p) st.heap },
    ?_, ⟨rfl, ?_, ?_⟩, ?_⟩
  · intro fuel frames
    rw [PageTree.handle, hvisit]
    rfl
  · rw [handles]
    exact heffect
  · exact fun objectGen hmem => .inl hmem
  · have hindirect : ¬(kind = .indirect ∧ st.heap.isIndirect p = false) := by
      simp [hrep.1]
    rw [PageTree.handle, if_neg hindirect, PageTree.Pushed, DirectKidsSettled, iff_true]
    intro key _
    exact hvisible key

/-- A node of the page tree as a kid: an indirect one is entered, a direct one only under a
direct one. -/
theorem walksKid_pages (hkids : WalksKids kids) : WalksKid (.pages node kids) := by
  intro kind st hready hstacked
  obtain ⟨hpages, hitems, -, -, -⟩ := hready.pages
  cases hidentity : st.heap.identity node with
  | some objectGen =>
    have hindirect : st.heap.isIndirect node = true := by
      rw [Heap.isIndirect, hidentity]
      rfl
    have hnew : objectGen ∉ st.visited :=
      hready.unvisited node (List.mem_append_left _ List.mem_cons_self) objectGen hidentity
    have hvisited : VisitedFrom st.heap st.visited (st.visited.insert objectGen) [node] := by
      intro other hother
      rw [ExtTreeSet.mem_insert, LawfulEqCmp.compare_eq_iff_eq] at hother
      rcases hother with rfl | hother
      · exact .inr ⟨node, List.mem_cons_self, hidentity⟩
      · exact .inl hother
    obtain ⟨steps, st', hrun, hwalked, hpushed⟩ :=
      walk_opened hkids .indirect hready hvisited hstacked
    have hvisit : st.visitKid kind node =
        PushState.openFrame { st with visited := st.visited.insert objectGen } .indirect node := by
      have hcontains : st.visited.contains objectGen = false := by
        rw [← Bool.not_eq_true]
        exact hnew
      cases kind <;>
        simp [PushState.visitKid, PushState.pushChildReference, PushState.enterIndirectFrame,
          hindirect, hpages, hidentity, hcontains]
    refine ⟨steps, st', ?_, hwalked, ?_⟩
    · intro fuel frames
      rw [PageTree.handle, hvisit]
      exact hrun fuel frames
    · rw [PageTree.handle, hindirect, if_neg (by simp), hpushed, DirectKidsSettled, hindirect]
      simp
  | none =>
    have hindirect : st.heap.isIndirect node = false := by
      rw [Heap.isIndirect, hidentity]
      rfl
    cases kind with
    | direct =>
      obtain ⟨steps, st', hrun, hwalked, hpushed⟩ :=
        walk_opened hkids .direct hready (fun objectGen hmem => .inl hmem) hstacked
      have hdictionary : st.heap.isDictionary node = true := by
        rw [Heap.isPagesDictionary, Heap.isDictionaryOfType, Bool.and_eq_true] at hpages
        exact hpages.1
      have hvisit : st.visitKid .direct node = st.openFrame .direct node := by
        simp [PushState.visitKid, PushState.enterDirectFrame, hindirect, hdictionary, hpages,
          Heap.hasKey_of_arrayAt hitems]
      refine ⟨steps, st', ?_, hwalked, ?_⟩
      · intro fuel frames
        rw [PageTree.handle, hvisit]
        exact hrun fuel frames
      · rw [if_neg (by simp), hpushed, DirectKidsSettled, hindirect]
        simp
    | indirect =>
      refine ⟨0, st, ?_, ⟨rfl, .refl _ _, fun _ hmem => .inl hmem⟩, ?_⟩
      · intro fuel frames
        have hvisit : st.visitKid .indirect node = (none, st) := by
          simp [PushState.visitKid, hindirect]
        rw [PageTree.handle, hvisit]
        rfl
      · rw [PageTree.handle, if_pos ⟨rfl, hindirect⟩]
        exact pushed_self_iff _ _

theorem PushReady.cons (hready : PushReady heap visited (tree :: trees)) :
    PushReady heap visited [tree] ∧ RepresentsAll heap trees ∧ (handlesAll trees).Nodup ∧
      (∀ a ∈ handlesAll trees, a ∈ handlesAll (tree :: trees) ∧ a ∉ tree.handles) ∧
      ∀ a ∈ tree.handles, a ∈ handlesAll (tree :: trees) := by
  obtain ⟨hrep, hnodup, hidentities, hunvisited, hapart⟩ := hready
  rw [RepresentsAll] at hrep
  rw [handlesAll, List.nodup_append] at hnodup
  have hhead : ∀ a ∈ handlesAll [tree], a ∈ handlesAll (tree :: trees) := by
    intro a ha
    simp only [handlesAll, List.append_nil, List.mem_append] at ha ⊢
    exact .inl ha
  refine ⟨⟨?_, ?_, ?_, ?_, ?_⟩, hrep.2, hnodup.2.1, ?_, ?_⟩
  · simp only [RepresentsAll, and_true]
    exact hrep.1
  · simp only [handlesAll, List.append_nil]
    exact hnodup.1
  · exact fun a ha b hb => hidentities a (hhead a ha) b (hhead b hb)
  · exact fun a ha => hunvisited a (hhead a ha)
  · exact fun a ha key hkey v hvisible hv => hapart a (hhead a ha) key hkey v hvisible (hhead v hv)
  · intro a ha
    refine ⟨List.mem_append_right _ ha, ?_⟩
    exact fun hmem => hnodup.2.2 a hmem a ha rfl
  · exact fun a ha => List.mem_append_left _ ha

theorem walksKids_cons (htree : WalksKid tree) (htrees : WalksKids trees) :
    WalksKids (tree :: trees) := by
  intro kind st hready hstacked
  obtain ⟨hhead, hrep, hnodup, hsub, htargets⟩ := hready.cons
  obtain ⟨steps, st₁, hrun, hwalked, hpushed⟩ := htree kind st hhead hstacked
  obtain ⟨hready', hidentity⟩ :=
    hready.after hwalked.effect hwalked.visited hrep hnodup hsub htargets
  have hstacked' : Stacked st₁.heap st₁.keyAncestors := by
    rw [hwalked.ancestors_eq]
    exact hstacked.of_effect hwalked.effect
  obtain ⟨steps', st₂, hrun', hwalked', hpushed'⟩ := htrees kind st₁ hready' hstacked'
  have hdisjoint : ∀ a ∈ handlesAll trees, a ∉ tree.handles := fun a ha => (hsub a ha).2
  refine ⟨steps' + steps + 1, st₂, ?_, ⟨?_, ?_, ?_⟩, ?_⟩
  · intro fuel ownKeys frames
    have hfirst := hrun (fuel + steps') (⟨kind, trees.map handle, ownKeys⟩ :: frames)
    rw [show fuel + (steps' + steps + 1) = fuel + steps' + steps + 1 by omega]
    exact hfirst.trans (hrun' fuel ownKeys frames)
  · rw [hwalked'.ancestors_eq, hwalked.ancestors_eq]
  · rw [handlesAll]
    exact hwalked.effect.trans hwalked'.effect hdisjoint
  · intro objectGen hmem
    rcases hwalked'.visited objectGen hmem with hold | ⟨a, ha, hget⟩
    · rcases hwalked.visited objectGen hold with hold | ⟨a, ha, hget⟩
      · exact .inl hold
      · exact .inr ⟨a, List.mem_append_left _ ha, hget⟩
    · exact .inr ⟨a, List.mem_append_right _ ha, (hidentity a ha) ▸ hget⟩
  · have hvisible : ∀ a ∈ handlesAll trees, ∀ key,
        st.heap.visible a key = st₁.heap.visible a key :=
      fun a ha key => (hwalked.effect.visible_eq (hdisjoint a ha) key).symm
    have hindirect : ∀ a ∈ handlesAll trees, st.heap.isIndirect a = st₁.heap.isIndirect a := by
      intro a ha
      rw [Heap.isIndirect, Heap.isIndirect, hidentity a ha]
    have hafter : ∀ a ∈ tree.handles, ∀ key,
        st₂.heap.visible a key = st₁.heap.visible a key := by
      intro a ha key
      exact hwalked'.effect.visible_eq (fun hmem => hdisjoint a hmem ha) key
    have henv : ∀ key ∈ inheritableKeys,
        envOf st.keyAncestors key = envOf st₁.keyAncestors key := by
      intro key _
      rw [hwalked.ancestors_eq]
    rw [PushedAll, DirectKidsSettledAll, pushed_after tree _ hafter, hpushed,
      pushedAll_congr trees _ _ henv hvisible, hpushed',
      directKidsSettledAll_congr trees _ _ _ henv hvisible hindirect]
    simp only [decide_eq_true_eq]

mutual

theorem walksKid : ∀ tree : PageTree, WalksKid tree
  | .page p => walksKid_page p
  | .pages _ kids => walksKid_pages (walksKids kids)

theorem walksKids : ∀ trees : List PageTree, WalksKids trees
  | [] => by
    intro kind st _ _
    refine ⟨0, st, fun _ _ _ => rfl, ⟨rfl, .refl _ _, fun _ hmem => .inl hmem⟩, ?_⟩
    simp only [PushedAll, DirectKidsSettledAll]
  | tree :: trees => walksKids_cons (walksKid tree) (walksKids trees)

end

end

end Flpdf
