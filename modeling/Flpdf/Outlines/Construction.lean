import Flpdf.Outlines.Tree
import Mathlib.Data.Finset.Card
import Mathlib.Data.Finset.Range

/-!
# The outline tree is the forest of the recursion

A frame on top of the stack reads its chain of siblings and comes back to the frames below it,
with the forest of the chain laid out behind the arena. The rounds of a frame are counted by the
objects it has not met, the frames by the levels that may still be expanded.
-/

namespace Flpdf.Outlines

open Program

variable {ε : Type} {doc : Document ε} {f kids others : Forest} {h owner start levels : ℕ}
  {tree : OutlineTree} {b b' : Building} {met : List Identity} {seen seen' : SiblingSeen}

/-! ## The arena -/

namespace Forest

theorem length_items (f : Forest) (parent : Option ℕ) (start : ℕ) :
    (f.items parent start).length = f.size := by
  induction f generalizing parent start with
  | nil => rfl
  | cons object kids others hkids hothers =>
    rw [items, List.length_cons, List.length_append, hkids, hothers, size]
    omega

end Forest

theorem modify_append_left {α : Type} (g : α → α) {l l' : List α} {i : ℕ} (h : i < l.length) :
    (l ++ l').modify i g = l.modify i g ++ l' := by
  induction l generalizing i with
  | nil => exact absurd h (Nat.not_lt_zero i)
  | cons a l ih =>
    cases i with
    | zero => rfl
    | succ i =>
      rw [List.cons_append, List.modify_succ_cons, List.modify_succ_cons,
        ih (Nat.lt_of_succ_lt_succ h)]
      rfl

theorem modify_append_length {α : Type} (g : α → α) (l : List α) (a : α) :
    (l ++ [a]).modify l.length g = l ++ [g a] := by
  induction l with
  | nil => rfl
  | cons b l ih =>
    rw [List.cons_append, List.length_cons, List.modify_succ_cons, ih]
    rfl

def OutlineItem.addKids (ids : List ℕ) (item : OutlineItem) : OutlineItem :=
  { item with kids := item.kids ++ ids }

/-- The arena with a forest below an item. -/
def OutlineTree.append (tree : OutlineTree) (owner : ℕ) (f : Forest) : OutlineTree where
  items := tree.items.modify owner (OutlineItem.addKids (f.ids tree.items.length)) ++
    f.items (some owner) tree.items.length
  roots := tree.roots

/-- The arena with one more item, a kid of its parent if it has one. -/
def OutlineTree.addItem (tree : OutlineTree) (owner h : ℕ) : OutlineTree where
  items := tree.items.modify owner (OutlineItem.addKids [tree.items.length]) ++
    [⟨some owner, [], h⟩]
  roots := tree.roots

theorem OutlineTree.append_nil (tree : OutlineTree) (owner : ℕ) :
    tree.append owner .nil = tree := by
  have hsame : OutlineItem.addKids (Forest.nil.ids tree.items.length) = id := by
    funext item
    rw [OutlineItem.addKids, Forest.ids, List.append_nil]
    rfl
  rw [append, hsame, List.modify_id, Forest.items, List.append_nil]

theorem OutlineTree.append_cons (howner : owner < tree.items.length) (h : ℕ)
    (kids others : Forest) :
    tree.append owner (.cons h kids others) =
      ((tree.addItem owner h).append tree.items.length kids).append owner others := by
  have hlength : (tree.items.modify owner (OutlineItem.addKids [tree.items.length])).length =
      tree.items.length := List.length_modify _ _ _
  have hitem : (tree.addItem owner h).append tree.items.length kids =
      ⟨tree.items.modify owner (OutlineItem.addKids [tree.items.length]) ++
        (⟨some owner, kids.ids (tree.items.length + 1), h⟩ ::
          kids.items (some tree.items.length) (tree.items.length + 1)), tree.roots⟩ := by
    have hsize : (tree.addItem owner h).items.length = tree.items.length + 1 := by
      rw [addItem, List.length_append, hlength]
      rfl
    have hmodify := modify_append_length (OutlineItem.addKids (kids.ids (tree.items.length + 1)))
      (tree.items.modify owner (OutlineItem.addKids [tree.items.length])) ⟨some owner, [], h⟩
    rw [hlength] at hmodify
    rw [append, hsize, addItem, hmodify, List.append_assoc]
    rfl
  have htwice : OutlineItem.addKids (others.ids (tree.items.length + 1 + kids.size)) ∘
      OutlineItem.addKids [tree.items.length] =
      OutlineItem.addKids ((Forest.cons h kids others).ids tree.items.length) := by
    funext item
    rw [Function.comp_apply, OutlineItem.addKids, OutlineItem.addKids, OutlineItem.addKids,
      List.append_assoc]
    rfl
  have hend : (tree.items.modify owner (OutlineItem.addKids [tree.items.length]) ++
      (⟨some owner, kids.ids (tree.items.length + 1), h⟩ ::
        kids.items (some tree.items.length) (tree.items.length + 1))).length =
      tree.items.length + 1 + kids.size := by
    rw [List.length_append, List.length_cons, Forest.length_items, hlength]
    omega
  rw [hitem, append, append]
  dsimp only
  rw [hend, modify_append_left _ (by rw [hlength]; exact howner), List.modify_modify_eq, htwice,
    List.append_assoc]
  rfl

/-! ## Siblings -/

/-- The failures of a document: that of its first outline, and those of its links. -/
def Document.Fails (doc : Document ε) (e : ε) : Prop :=
  doc.firstOutline = .error e ∨ ∃ h key, doc.objectKey h key = .error e

/-- A handle that resolves, and not to null. -/
def Document.Live (doc : Document ε) (h : ℕ) : Prop := doc.isNull h = .ok false

theorem Document.Live.dereference (hlive : doc.Live h) :
    ∃ value, doc.dereference h = .ok value := by
  rw [Live, isNull] at hlive
  cases hvalue : doc.dereference h with
  | error e =>
    rw [hvalue] at hlive
    cases hlive
  | ok value => exact ⟨value, rfl⟩

theorem Document.Live.lt_length (hlive : doc.Live h) : h < doc.cells.length := by
  by_contra hle
  rw [Live, isNull, Document.dereference, cell, List.getD_eq_getElem?_getD,
    List.getElem?_eq_none (not_lt.mp hle)] at hlive
  cases hlive

theorem Document.nonNull_live {child : Option ℕ} {r : ℕ} (hr : doc.nonNull child = .ok (some r)) :
    doc.Live r := by
  cases child with
  | none => cases hr
  | some c =>
    rw [nonNull] at hr
    rw [Live]
    cases hnull : doc.isNull c with
    | error e =>
      rw [hnull] at hr
      cases hr
    | ok null =>
      rw [hnull] at hr
      cases null
      · cases hr
        exact hnull
      · cases hr

theorem Document.objectKey_live {key : Bytes} {r : ℕ} (hr : doc.objectKey h key = .ok (some r)) :
    doc.Live r := by
  obtain ⟨child, -, hchild⟩ := bind_eq_ok.mp hr
  exact nonNull_live hchild

theorem Document.firstOutline_live {r : ℕ} (hr : doc.firstOutline = .ok (some r)) :
    doc.Live r := by
  obtain ⟨outlines, -, hfirst⟩ := bind_eq_ok.mp hr
  cases outlines with
  | none => cases hfirst
  | some outlines =>
    obtain ⟨child, -, hchild⟩ := bind_eq_ok.mp hfirst
    exact nonNull_live hchild

/-- The frame has seen the objects that the chain has met. -/
def Tracks (doc : Document ε) (met : List Identity) (seen : SiblingSeen) : Prop :=
  ∀ h, doc.identity h ∈ met ↔
    match doc.indirectObjGen h with
    | some g => g ∈ seen.seen
    | none => h ∈ seen.directSeen

theorem tracks_nil (doc : Document ε) : Tracks doc [] {} := by
  intro h
  cases doc.indirectObjGen h <;> simp

/-- A cursor that was met ends the chain. -/
theorem chaseAndMarkSeen_met (htracks : Tracks doc met seen) (hlive : doc.Live h)
    (hmet : doc.identity h ∈ met) : doc.chaseAndMarkSeen h seen = .ok (none, seen) := by
  obtain ⟨value, hvalue⟩ := hlive.dereference
  rw [htracks h] at hmet
  rw [Document.chaseAndMarkSeen, hvalue, Except.map]
  cases hgen : doc.indirectObjGen h with
  | some g =>
    rw [hgen] at hmet
    exact congrArg Except.ok (if_pos hmet)
  | none =>
    rw [hgen] at hmet
    simp only [Document.markDirectSiblingSeen, hgen, Option.isSome_none, Bool.false_eq_true,
      if_false]
    rw [if_pos hmet]
    rfl

/-- A cursor that was not met is put on record. -/
theorem chaseAndMarkSeen_new (htracks : Tracks doc met seen) (hlive : doc.Live h)
    (hmet : doc.identity h ∉ met) : ∃ seen', doc.chaseAndMarkSeen h seen = .ok (some h, seen') ∧
      Tracks doc (doc.identity h :: met) seen' := by
  obtain ⟨value, hvalue⟩ := hlive.dereference
  have hnew := hmet
  rw [htracks h] at hnew
  rw [Document.chaseAndMarkSeen, hvalue, Except.map]
  cases hgen : doc.indirectObjGen h with
  | some g =>
    rw [hgen] at hnew
    refine ⟨_, congrArg Except.ok (if_neg hnew), fun h' => ?_⟩
    have htracks' := htracks h'
    rw [List.mem_cons, htracks', Document.identity, Document.identity, hgen]
    cases hgen' : doc.indirectObjGen h' with
    | some g' => simp
    | none => simp
  | none =>
    rw [hgen] at hnew
    simp only [Document.markDirectSiblingSeen, hgen, Option.isSome_none, Bool.false_eq_true,
      if_false]
    rw [if_neg hnew]
    refine ⟨_, rfl, fun h' => ?_⟩
    have htracks' := htracks h'
    rw [List.mem_cons, htracks', Document.identity, Document.identity, hgen]
    cases hgen' : doc.indirectObjGen h' with
    | some g' => simp
    | none => simp [or_comm]

/-- The handles whose objects were not met. -/
def remaining (doc : Document ε) (met : List Identity) : ℕ :=
  ((Finset.range doc.cells.length).filter fun h => doc.identity h ∉ met).card

theorem remaining_lt (hlive : doc.Live h) (hmet : doc.identity h ∉ met) :
    remaining doc (doc.identity h :: met) < remaining doc met := by
  apply Finset.card_lt_card
  rw [Finset.ssubset_iff_of_subset]
  · refine ⟨h, ?_, ?_⟩
    · rw [Finset.mem_filter, Finset.mem_range]
      exact ⟨hlive.lt_length, hmet⟩
    · rw [Finset.mem_filter, not_and, not_not]
      exact fun _ => List.mem_cons_self
  · intro h' hh'
    rw [Finset.mem_filter] at hh' ⊢
    exact ⟨hh'.1, fun hin => hh'.2 (List.mem_cons_of_mem _ hin)⟩

theorem remaining_nil_le (doc : Document ε) : remaining doc [] ≤ doc.cells.length := by
  rw [remaining]
  exact (Finset.card_filter_le _ _).trans (Finset.card_range _).le

/-! ## Frames -/

/-- The loop comes from some frames to others, or fails as the document does. -/
def Reaches (doc : Document ε) (frames : List Frame) (b : Building) (frames' : List Frame)
    (b' : Building) : Prop :=
  (∃ k, ∀ m, doc.framesLoop (m + k) frames b = doc.framesLoop m frames' b') ∨
    ∃ k e, doc.Fails e ∧ ∀ m, (doc.framesLoop (m + k) frames).FailsWith b e

section Reaching

variable {frame : Frame} {frames frames' frames'' : List Frame} {b'' : Building}

theorem Reaches.trans (h : Reaches doc frames b frames' b')
    (h' : Reaches doc frames' b' frames'' b'') : Reaches doc frames b frames'' b'' := by
  rcases h with ⟨k, hk⟩ | hfails
  · rcases h' with ⟨k', hk'⟩ | ⟨k', e, he, hk'⟩
    · refine .inl ⟨k' + k, fun m => ?_⟩
      rw [← Nat.add_assoc, hk, hk']
    · refine .inr ⟨k' + k, e, he, fun m => ?_⟩
      obtain ⟨s, hs⟩ := hk' m
      refine ⟨s, ?_⟩
      rw [← Nat.add_assoc, hk, hs]
  · exact .inr hfails

theorem reaches_of_step (h : doc.frameStep frame frames b = some (.ok frames', b')) :
    Reaches doc (frame :: frames) b frames' b' := by
  refine .inl ⟨1, fun m => ?_⟩
  change Program.bind _ _ b = _
  rw [Program.bind, h]

theorem reaches_of_fails {e : ε} (he : doc.Fails e)
    (h : (doc.frameStep frame frames).FailsWith b e) :
    Reaches doc (frame :: frames) b frames' b' :=
  .inr ⟨1, e, he, fun _ => h.bind⟩

/-- A frame whose chain has ended gives way to the frames below it. -/
theorem reaches_of_ended (hnext : frame.next = none) :
    Reaches doc (frame :: frames) b frames b := by
  apply reaches_of_step
  rw [Document.frameStep, hnext]
  rfl

end Reaching

/-- What building a forest below an item leaves. -/
def Building.grown (b : Building) (owner : ℕ) (r : Forest × List QpdfObjGen) : Building :=
  ⟨b.tree.append owner r.1, r.2⟩

theorem Building.grown_nil (b : Building) (owner : ℕ) :
    b.grown owner (.nil, b.constructorSeen) = b := by
  rw [grown, OutlineTree.append_nil]

/-- A frame at the level reads its chain and puts the forest of the chain below its owner. -/
def FrameRuns (doc : Document ε) (levels : ℕ) : Prop :=
  ∀ (frame : Frame) frames b met n, frame.depth + levels = maxExpandedOutlineDepth + 1 →
    remaining doc met < n → Tracks doc met frame.seen → (∀ h ∈ frame.next, doc.Live h) →
    frame.owner < b.tree.items.length →
    Reaches doc (frame :: frames) b frames (b.grown frame.owner
      (Document.grow (doc.below levels) b.constructorSeen (doc.siblings n met frame.next)))

section Frames

variable {frame : Frame} {frames : List Frame}

/-- Opening the frame for the children of an expanded item. -/
theorem childFrames_cases {item depth : ℕ} (hruns : FrameRuns doc levels)
    (hdepth : depth + levels = maxExpandedOutlineDepth + 1) (hitem : item < b.tree.items.length) :
    (∃ e, doc.Fails e ∧ (doc.childFrames true item h depth).FailsWith b e) ∨
      ∃ below, doc.childFrames true item h depth b = some (.ok below, b) ∧
        ∀ frames, Reaches doc (below ++ frames) b frames (b.grown item
          (Document.grow (doc.below levels) b.constructorSeen (doc.children h))) := by
  cases hkey : doc.objectKey h (ascii "/First") with
  | error e =>
    refine .inl ⟨e, .inr ⟨h, _, hkey⟩, b, ?_⟩
    rw [Document.childFrames, if_pos rfl, hkey]
    rfl
  | ok first =>
    have hlink : doc.link (ascii "/First") h = first := by rw [Document.link, hkey]
    right
    rw [Document.children, hlink]
    cases first with
    | none =>
      refine ⟨[], ?_, fun frames => ?_⟩
      · rw [Document.childFrames, if_pos rfl, hkey]
        rfl
      · refine .inl ⟨0, fun m => ?_⟩
        change doc.framesLoop m frames b = doc.framesLoop m frames (b.grown item (.nil, _))
        rw [Building.grown_nil]
    | some first =>
      refine ⟨[⟨item, some first, depth, {}⟩], ?_, fun frames => ?_⟩
      · rw [Document.childFrames, if_pos rfl, hkey]
        rfl
      · refine hruns ⟨item, some first, depth, {}⟩ frames b [] _ hdepth
          (Nat.lt_succ_of_le (remaining_nil_le doc)) (tracks_nil doc) ?_ hitem
        intro r hr
        cases hr
        exact Document.objectKey_live hkey

theorem insertConstructorSeen_run (b : Building) (h : ℕ) :
    doc.insertConstructorSeen h b =
      some (.ok (doc.expand b.constructorSeen h).1,
        ⟨b.tree, (doc.expand b.constructorSeen h).2⟩) := by
  rw [Document.insertConstructorSeen, Document.expand]
  cases doc.indirectObjGen h with
  | none => rfl
  | some g =>
    change (if g ∈ b.constructorSeen then _ else _ : Program Building ε Bool) b = _
    dsimp only
    split_ifs <;> rfl

/-- The children of a new item are read, if it is to be expanded, before its next sibling. -/
theorem below_reaches {item depth : ℕ} (hruns : ∀ l, levels = l + 1 → FrameRuns doc l)
    (hdepth : depth + levels = maxExpandedOutlineDepth + 1) (hitem : item < b.tree.items.length) :
    ∃ expand b₁, doc.expandChild depth h b = some (.ok expand, b₁) ∧ b₁.tree = b.tree ∧
      ((∃ e, doc.Fails e ∧ (doc.childFrames expand item h (depth + 1)).FailsWith b₁ e) ∨
        ∃ below, doc.childFrames expand item h (depth + 1) b₁ = some (.ok below, b₁) ∧
          ∀ frames, Reaches doc (below ++ frames) b₁ frames
            (b.grown item (doc.below levels b.constructorSeen h))) := by
  rw [Document.expandChild]
  cases levels with
  | zero =>
    rw [if_pos (by omega)]
    refine ⟨false, b, rfl, rfl, .inr ⟨[], rfl, fun frames => .inl ⟨0, fun m => ?_⟩⟩⟩
    change doc.framesLoop m frames b = doc.framesLoop m frames (b.grown item (.nil, _))
    rw [Building.grown_nil]
  | succ l =>
    rw [if_neg (by omega)]
    refine ⟨_, _, insertConstructorSeen_run b h, rfl, ?_⟩
    rw [Document.below]
    generalize hexpand : doc.expand b.constructorSeen h = r
    obtain ⟨fresh, expanded⟩ := r
    cases fresh with
    | false =>
      refine .inr ⟨[], rfl, fun frames => .inl ⟨0, fun m => ?_⟩⟩
      change doc.framesLoop m frames ⟨b.tree, expanded⟩ =
        doc.framesLoop m frames (Building.grown ⟨b.tree, expanded⟩ item (.nil, expanded))
      rw [Building.grown_nil ⟨b.tree, expanded⟩]
    | true =>
      exact childFrames_cases (b := ⟨b.tree, expanded⟩) (hruns l rfl) (by omega) hitem

/-- One round with a cursor that was not met. -/
theorem child_reaches (frames : List Frame) (hruns : ∀ l, levels = l + 1 → FrameRuns doc l)
    (hdepth : frame.depth + levels = maxExpandedOutlineDepth + 1)
    (howner : frame.owner < b.tree.items.length) (hnext : frame.next = some h)
    (hlive : doc.Live h) (hchase : doc.chaseAndMarkSeen h frame.seen = .ok (some h, seen)) :
    Reaches doc (frame :: frames) b
      ({ frame with next := doc.link (ascii "/Next") h, seen := seen } :: frames)
      (Building.grown ⟨b.tree.addItem frame.owner h, b.constructorSeen⟩ b.tree.items.length
        (doc.below levels b.constructorSeen h)) := by
  have hlength : b.tree.items.length < (b.tree.addItem frame.owner h).items.length := by
    rw [OutlineTree.addItem, List.length_append, List.length_modify]
    exact Nat.lt_succ_self _
  have hmaterialize : doc.materializeItem h (some frame.owner) b =
      some (.ok (some b.tree.items.length),
        { b with tree := b.tree.pushItem ⟨some frame.owner, [], h⟩ }) := by
    rw [Document.materializeItem, run_ofExcept_bind hlive]
    rfl
  have hpush : (b.tree.pushItem ⟨some frame.owner, [], h⟩).pushKid frame.owner
      b.tree.items.length = b.tree.addItem frame.owner h := by
    rw [OutlineTree.pushKid, OutlineTree.pushItem, OutlineTree.addItem]
    exact congrArg (OutlineTree.mk · _) (modify_append_left _ howner)
  obtain ⟨expand, b₁, hexpand, htree, hbelow⟩ :=
    below_reaches (h := h) (b := ⟨b.tree.addItem frame.owner h, b.constructorSeen⟩)
      hruns hdepth hlength
  have hround : doc.frameStep frame frames b =
      (do
        let next ← ofExcept (doc.objectKey h (ascii "/Next"))
        let below ← doc.childFrames expand b.tree.items.length h (frame.depth + 1)
        pure (below ++ { frame with next := next, seen := seen } :: frames) :
          Program Building ε (List Frame)) b₁ := by
    rw [Document.frameStep, hnext]
    dsimp only
    rw [run_ofExcept_bind hchase]
    dsimp only
    rw [Document.addChild, run_bind hmaterialize]
    dsimp only
    rw [run_modify_bind (congrArg (Building.mk · b.constructorSeen) hpush), run_bind hexpand]
  cases hkey : doc.objectKey h (ascii "/Next") with
  | error e =>
    refine reaches_of_fails (.inr ⟨h, _, hkey⟩) ⟨b₁, ?_⟩
    rw [hround, hkey]
    rfl
  | ok next =>
    have hlink : doc.link (ascii "/Next") h = next := by rw [Document.link, hkey]
    rw [run_ofExcept_bind hkey] at hround
    rw [hlink]
    rcases hbelow with ⟨e, he, hfails⟩ | ⟨below, hframes, hreaches⟩
    · refine reaches_of_fails he ?_
      obtain ⟨t, ht⟩ := hfails.bind
      exact ⟨t, hround.trans ht⟩
    · rw [run_bind hframes] at hround
      exact (reaches_of_step hround).trans (hreaches _)

/-- A chain grows from its first sibling. -/
theorem siblings_new {n : ℕ} (hmet : doc.identity h ∉ met) :
    doc.siblings (n + 1) met (some h) =
      h :: doc.siblings n (doc.identity h :: met) (doc.link (ascii "/Next") h) := by
  rw [Document.siblings, if_neg hmet]

theorem grown_cons (howner : owner < b.tree.items.length) (expanded : List QpdfObjGen)
    (below others : Forest × List QpdfObjGen) :
    (Building.grown ⟨b.tree.addItem owner h, expanded⟩ b.tree.items.length below).grown owner
        others = b.grown owner (.cons h below.1 others.1, others.2) := by
  rw [Building.grown, Building.grown, Building.grown, OutlineTree.append_cons howner]

theorem length_append_items (tree : OutlineTree) (owner : ℕ) (f : Forest) :
    tree.items.length ≤ (tree.append owner f).items.length := by
  rw [OutlineTree.append, List.length_append, List.length_modify]
  exact Nat.le_add_right _ _

theorem live_link {key : Bytes} : ∀ r ∈ doc.link key h, doc.Live r := by
  intro r hr
  rw [Document.link] at hr
  cases hkey : doc.objectKey h key with
  | error e =>
    rw [hkey] at hr
    cases hr
  | ok child =>
    rw [hkey] at hr
    cases hr
    exact Document.objectKey_live hkey

/-- The loop over the frames is the recursion over chains and levels. -/
theorem frameRuns (doc : Document ε) (levels : ℕ) : FrameRuns doc levels := by
  induction levels using Nat.strong_induction_on with
  | h levels hlevels =>
    intro frame frames b met n hdepth hn htracks hlive howner
    induction n generalizing frame b met with
    | zero => exact absurd hn (Nat.not_lt_zero _)
    | succ n ih =>
      cases hnext : frame.next with
      | none =>
        rw [Document.siblings, Document.grow, Building.grown_nil]
        exact reaches_of_ended hnext
      | some h =>
        have hlive := hlive h hnext
        by_cases hmet : doc.identity h ∈ met
        · rw [Document.siblings, if_pos hmet, Document.grow, Building.grown_nil]
          have hstep : doc.frameStep frame frames b =
              some (.ok ({ frame with next := none, seen := frame.seen } :: frames), b) := by
            rw [Document.frameStep, hnext]
            exact run_ofExcept_bind (chaseAndMarkSeen_met htracks hlive hmet)
          exact (reaches_of_step hstep).trans (reaches_of_ended rfl)
        · obtain ⟨seen, hchase, htracks'⟩ := chaseAndMarkSeen_new htracks hlive hmet
          have hruns : ∀ l, levels = l + 1 → FrameRuns doc l :=
            fun l hl => hlevels l (by omega)
          have hchild := child_reaches frames hruns hdepth howner hnext hlive hchase
          have hremaining := remaining_lt hlive hmet
          have hsize := length_append_items (b.tree.addItem frame.owner h) b.tree.items.length
            (doc.below levels b.constructorSeen h).1
          have hitem : (b.tree.addItem frame.owner h).items.length = b.tree.items.length + 1 := by
            rw [OutlineTree.addItem, List.length_append, List.length_modify]
            rfl
          have hrest := ih { frame with next := doc.link (ascii "/Next") h, seen := seen }
            (Building.grown ⟨b.tree.addItem frame.owner h, b.constructorSeen⟩ b.tree.items.length
              (doc.below levels b.constructorSeen h)) (doc.identity h :: met) hdepth (by omega)
            htracks' live_link (lt_of_lt_of_le (by dsimp only; omega) hsize)
          rw [siblings_new hmet]
          refine hchild.trans ?_
          rw [grown_cons howner] at hrest
          exact hrest

end Frames

/-! ## Roots -/

/-- The arena with a forest of roots. -/
def Building.rooted (b : Building) (r : Forest × List QpdfObjGen) : Building :=
  ⟨⟨b.tree.items ++ r.1.items none b.tree.items.length,
      b.tree.roots ++ r.1.ids b.tree.items.length⟩,
    r.2⟩

theorem Building.rooted_nil (b : Building) : b.rooted (.nil, b.constructorSeen) = b := by
  rw [rooted, Forest.items, Forest.ids, List.append_nil, List.append_nil]

/-- The arena with a root that has a forest below it. -/
def Building.addRoot (b : Building) (h : ℕ) (r : Forest × List QpdfObjGen) : Building :=
  let b' := Building.grown ⟨b.tree.pushItem ⟨none, [], h⟩, b.constructorSeen⟩ b.tree.items.length r
  { b' with tree := b'.tree.pushRoot b.tree.items.length }

theorem Building.rooted_cons (b : Building) (h : ℕ) (below others : Forest × List QpdfObjGen) :
    (b.addRoot h below).rooted others = b.rooted (.cons h below.1 others.1, others.2) := by
  have hitems : (b.addRoot h below).tree.items = b.tree.items ++
      (⟨none, below.1.ids (b.tree.items.length + 1), h⟩ ::
        below.1.items (some b.tree.items.length) (b.tree.items.length + 1)) := by
    have hsize : (b.tree.pushItem ⟨none, [], h⟩).items.length = b.tree.items.length + 1 :=
      List.length_append
    change (OutlineTree.append _ _ _).items = _
    rw [OutlineTree.append, hsize]
    dsimp only
    rw [OutlineTree.pushItem, modify_append_length, List.append_assoc]
    rfl
  have hlength : (b.addRoot h below).tree.items.length =
      b.tree.items.length + 1 + below.1.size := by
    rw [hitems, List.length_append, List.length_cons, Forest.length_items]
    omega
  have hroots : (b.addRoot h below).tree.roots = b.tree.roots ++ [b.tree.items.length] := rfl
  rw [rooted, rooted, hlength, hitems, hroots, List.append_assoc, List.append_assoc]
  rfl

theorem buildItem_settles (b : Building) (hlive : doc.Live h) : ∃ n,
    (∀ fuel, n ≤ fuel → ∃ b',
      doc.buildItem fuel h none b = some (.ok (some b.tree.items.length), b') ∧
      { b' with tree := b'.tree.pushRoot b.tree.items.length } =
        b.addRoot h (doc.below maxExpandedOutlineDepth b.constructorSeen h)) ∨
    ∃ e, doc.Fails e ∧ ∀ fuel, n ≤ fuel → (doc.buildItem fuel h none).FailsWith b e := by
  have hmaterialize : doc.materializeItem h none b = some (.ok (some b.tree.items.length),
      { b with tree := b.tree.pushItem ⟨none, [], h⟩ }) := by
    rw [Document.materializeItem, run_ofExcept_bind hlive]
    rfl
  have hitem : b.tree.items.length < (b.tree.pushItem ⟨none, [], h⟩).items.length := by
    rw [OutlineTree.pushItem, List.length_append]
    exact Nat.lt_succ_self _
  obtain ⟨expand, b₁, hexpand, -, hbelow⟩ := below_reaches (h := h)
    (b := ⟨b.tree.pushItem ⟨none, [], h⟩, b.constructorSeen⟩)
    (fun l _ => frameRuns doc l) (Nat.add_comm 1 maxExpandedOutlineDepth) hitem
  rw [Document.expandChild, if_neg (by decide)] at hexpand
  have hrun : ∀ fuel, doc.buildItem fuel h none b =
      (do
        let frames ← doc.childFrames expand b.tree.items.length h 2
        doc.framesLoop fuel frames
        pure (some b.tree.items.length) : Program Building ε (Option ℕ)) b₁ := by
    intro fuel
    rw [Document.buildItem, run_bind hmaterialize]
    exact run_bind hexpand
  rcases hbelow with ⟨e, he, hfails⟩ | ⟨below, hframes, hreaches⟩
  · refine ⟨0, .inr ⟨e, he, fun fuel _ => ?_⟩⟩
    obtain ⟨t, ht⟩ := hfails.bind
    exact ⟨t, (hrun fuel).trans ht⟩
  · have hreaches := hreaches []
    rw [List.append_nil] at hreaches
    rcases hreaches with ⟨k, hk⟩ | ⟨k, e, he, hk⟩
    · refine ⟨k + 1, .inl fun fuel hfuel => ?_⟩
      obtain ⟨m, rfl⟩ := Nat.exists_eq_add_of_le' hfuel
      have hloop := hk (m + 1)
      rw [Nat.add_assoc, Nat.add_comm 1] at hloop
      refine ⟨_, ?_, rfl⟩
      rw [hrun, run_bind hframes, run_bind hloop]
      rfl
    · refine ⟨k, .inr ⟨e, he, fun fuel hfuel => ?_⟩⟩
      obtain ⟨m, rfl⟩ := Nat.exists_eq_add_of_le' hfuel
      obtain ⟨t, ht⟩ := (hk m).bind
      refine ⟨t, ?_⟩
      rw [hrun, run_bind hframes]
      exact ht

theorem siblings_none (n : ℕ) (met : List Identity) : doc.siblings n met none = [] := by
  cases n <;> rfl

/-- A round of the loop over the roots with a cursor that was not met. -/
theorem rootsLoop_new {framesFuel fuel : ℕ} {b₁ : Building}
    (hchase : doc.chaseAndMarkSeen h seen = .ok (some h, seen'))
    (hitem : doc.buildItem framesFuel h none b = some (.ok (some b.tree.items.length), b₁)) :
    doc.rootsLoop framesFuel (fuel + 1) h seen b =
      (do
        let next ← ofExcept (doc.objectKey h (ascii "/Next"))
        match next with
        | none => pure ()
        | some next => doc.rootsLoop framesFuel fuel next seen' : Program Building ε Unit)
        { b₁ with tree := b₁.tree.pushRoot b.tree.items.length } := by
  rw [Document.rootsLoop, run_ofExcept_bind hchase]
  dsimp only
  rw [run_bind hitem]
  exact run_modify_bind rfl

theorem rootsLoop_settles {n : ℕ} (hn : remaining doc met < n) (htracks : Tracks doc met seen)
    (hlive : doc.Live h) : ∃ k,
    (∀ framesFuel fuel, k ≤ framesFuel → n ≤ fuel →
      doc.rootsLoop framesFuel fuel h seen b =
        some (.ok (), b.rooted (Document.grow (doc.below maxExpandedOutlineDepth)
          b.constructorSeen (doc.siblings n met (some h))))) ∨
    ∃ e, doc.Fails e ∧ ∀ framesFuel fuel, k ≤ framesFuel → n ≤ fuel →
      (doc.rootsLoop framesFuel fuel h seen).FailsWith b e := by
  induction n generalizing h seen met b with
  | zero => exact absurd hn (Nat.not_lt_zero _)
  | succ n ih =>
    by_cases hmet : doc.identity h ∈ met
    · refine ⟨0, .inl fun framesFuel fuel _ hfuel => ?_⟩
      obtain ⟨m, rfl⟩ := Nat.exists_eq_add_of_le' hfuel
      rw [Document.siblings, if_pos hmet, Document.grow, Building.rooted_nil]
      exact run_ofExcept_bind (chaseAndMarkSeen_met htracks hlive hmet)
    obtain ⟨seen', hchase, htracks'⟩ := chaseAndMarkSeen_new htracks hlive hmet
    obtain ⟨k, ⟨hitem⟩ | ⟨e, he, hitem⟩⟩ := buildItem_settles b hlive
    · have hround : ∀ framesFuel fuel, k ≤ framesFuel →
          doc.rootsLoop framesFuel (fuel + 1) h seen b =
            (do
              let next ← ofExcept (doc.objectKey h (ascii "/Next"))
              match next with
              | none => pure ()
              | some next => doc.rootsLoop framesFuel fuel next seen' : Program Building ε Unit)
              (b.addRoot h (doc.below maxExpandedOutlineDepth b.constructorSeen h)) := by
        intro framesFuel fuel hframes
        obtain ⟨b₁, hrun, hroot⟩ := hitem framesFuel hframes
        rw [rootsLoop_new hchase hrun, hroot]
      have hcons := b.rooted_cons h (doc.below maxExpandedOutlineDepth b.constructorSeen h)
      rw [siblings_new hmet]
      cases hkey : doc.objectKey h (ascii "/Next") with
      | error e =>
        refine ⟨k, .inr ⟨e, .inr ⟨h, _, hkey⟩, fun framesFuel fuel hframes hfuel => ?_⟩⟩
        obtain ⟨m, rfl⟩ := Nat.exists_eq_add_of_le' hfuel
        refine ⟨b.addRoot h (doc.below maxExpandedOutlineDepth b.constructorSeen h), ?_⟩
        rw [← Nat.add_assoc, hround framesFuel (m + n) hframes, hkey]
        rfl
      | ok next =>
        have hlink : doc.link (ascii "/Next") h = next := by rw [Document.link, hkey]
        rw [hlink]
        cases next with
        | none =>
          refine ⟨k, .inl fun framesFuel fuel hframes hfuel => ?_⟩
          obtain ⟨m, rfl⟩ := Nat.exists_eq_add_of_le' hfuel
          rw [← Nat.add_assoc, hround framesFuel (m + n) hframes, run_ofExcept_bind hkey,
            siblings_none]
          have hlast := hcons
            (.nil, (doc.below maxExpandedOutlineDepth b.constructorSeen h).2)
          exact congrArg (fun b => some (Except.ok (ε := ε) (), b))
            ((Building.rooted_nil _).symm.trans hlast)
        | some next =>
          have hremaining := remaining_lt hlive hmet
          obtain ⟨k', ⟨hrest⟩ | ⟨e, he, hrest⟩⟩ := ih
            (b := b.addRoot h (doc.below maxExpandedOutlineDepth b.constructorSeen h))
            (by omega) htracks' (Document.objectKey_live hkey)
          · refine ⟨max k k', .inl fun framesFuel fuel hframes hfuel => ?_⟩
            obtain ⟨m, rfl⟩ := Nat.exists_eq_add_of_le' hfuel
            rw [← Nat.add_assoc, hround framesFuel (m + n) (le_of_max_le_left hframes),
              run_ofExcept_bind hkey]
            dsimp only
            rw [hrest framesFuel (m + n) (le_of_max_le_right hframes) (Nat.le_add_left _ _),
              hcons]
            rfl
          · refine ⟨max k k', .inr ⟨e, he, fun framesFuel fuel hframes hfuel => ?_⟩⟩
            obtain ⟨m, rfl⟩ := Nat.exists_eq_add_of_le' hfuel
            obtain ⟨t, ht⟩ := hrest framesFuel (m + n) (le_of_max_le_right hframes)
              (Nat.le_add_left _ _)
            refine ⟨t, ?_⟩
            rw [← Nat.add_assoc, hround framesFuel (m + n) (le_of_max_le_left hframes),
              run_ofExcept_bind hkey]
            exact ht
    · refine ⟨k, .inr ⟨e, he, fun framesFuel fuel hframes hfuel => ?_⟩⟩
      obtain ⟨m, rfl⟩ := Nat.exists_eq_add_of_le' hfuel
      obtain ⟨t, ht⟩ := (hitem framesFuel hframes).bind
      refine ⟨t, ?_⟩
      rw [← Nat.add_assoc, Document.rootsLoop, run_ofExcept_bind hchase]
      exact ht

theorem getTree_settles (doc : Document ε) : ∃ n,
    (∀ fuel, n ≤ fuel → ∃ b, doc.getTree fuel {} = some (.ok doc.outline.arena, b)) ∨
    ∃ e, doc.Fails e ∧ ∀ fuel, n ≤ fuel → (doc.getTree fuel).FailsWith {} e := by
  cases hfirst : doc.firstOutline with
  | error e =>
    refine ⟨0, .inr ⟨e, .inl hfirst, fun fuel _ => ⟨{}, ?_⟩⟩⟩
    rw [Document.getTree, hfirst]
    rfl
  | ok first =>
    cases first with
    | none =>
      refine ⟨0, .inl fun fuel _ => ⟨{}, ?_⟩⟩
      have houtline : doc.outline = .nil := by
        rw [Document.outline, hfirst]
        rfl
      rw [Document.getTree, run_ofExcept_bind hfirst, houtline]
      rfl
    | some first =>
      have houtline : doc.outline = (Document.grow (doc.below maxExpandedOutlineDepth) []
          (doc.siblings (doc.cells.length + 1) [] (some first))).1 := by
        rw [Document.outline, hfirst]
        rfl
      obtain ⟨k, ⟨hroots⟩ | ⟨e, he, hroots⟩⟩ := rootsLoop_settles (b := {})
        (Nat.lt_succ_of_le (remaining_nil_le doc)) (tracks_nil doc)
        (Document.firstOutline_live hfirst)
      · refine ⟨max k (doc.cells.length + 1), .inl fun fuel hfuel => ⟨({} : Building).rooted
          (Document.grow (doc.below maxExpandedOutlineDepth) []
            (doc.siblings (doc.cells.length + 1) [] (some first))), ?_⟩⟩
        rw [Document.getTree, run_ofExcept_bind hfirst]
        dsimp only
        rw [run_bind (hroots fuel fuel (le_of_max_le_left hfuel) (le_of_max_le_right hfuel)),
          houtline]
        rfl
      · refine ⟨max k (doc.cells.length + 1), .inr ⟨e, he, fun fuel hfuel => ?_⟩⟩
        obtain ⟨t, ht⟩ :=
          (hroots fuel fuel (le_of_max_le_left hfuel) (le_of_max_le_right hfuel)).bind
        refine ⟨t, ?_⟩
        rw [Document.getTree, run_ofExcept_bind hfirst]
        exact ht

/-! ## Kids and parents -/

namespace Forest

variable {i j : ℕ} {parent : Option ℕ} {item : OutlineItem}

theorem mem_ids (hi : i ∈ f.ids start) : start ≤ i ∧ i < start + f.size := by
  induction f generalizing start with
  | nil => cases hi
  | cons object kids others _ hothers =>
    rw [ids, List.mem_cons] at hi
    rw [size]
    rcases hi with rfl | hi
    · omega
    · have := hothers hi
      omega

theorem nodup_ids (f : Forest) (start : ℕ) : (f.ids start).Nodup := by
  induction f generalizing start with
  | nil => exact List.nodup_nil
  | cons object kids others _ hothers =>
    rw [ids, List.nodup_cons]
    refine ⟨fun hin => ?_, hothers _⟩
    have := mem_ids hin
    omega

theorem nodup_kids (hitem : item ∈ f.items parent start) : item.kids.Nodup := by
  induction f generalizing parent start with
  | nil => cases hitem
  | cons object kids others hkids hothers =>
    rw [items, List.mem_cons, List.mem_append] at hitem
    rcases hitem with rfl | hitem | hitem
    · exact kids.nodup_ids _
    · exact hkids hitem
    · exact hothers hitem

/-- An item is a top item, with the parent of the forest, or a kid of its parent. -/
theorem parent_of_items (hitem : (f.items parent start)[j]? = some item) :
    (item.parent = parent ∧ start + j ∈ f.ids start) ∨
      ∃ k owner, item.parent = some (start + k) ∧ (f.items parent start)[k]? = some owner ∧
        start + j ∈ owner.kids := by
  induction f generalizing parent start j with
  | nil => cases hitem
  | cons object kids others hkids hothers =>
    rw [items] at hitem ⊢
    rw [ids]
    cases j with
    | zero =>
      cases hitem
      exact .inl ⟨rfl, List.mem_cons_self⟩
    | succ j =>
      have hlength := kids.length_items (some start) (start + 1)
      rw [List.getElem?_cons_succ] at hitem
      by_cases hj : j < kids.size
      · rw [List.getElem?_append_left (by omega)] at hitem
        right
        rcases hkids hitem with ⟨hparent, hin⟩ | ⟨k, owner, hparent, howner, hin⟩
        · refine ⟨0, _, hparent, rfl, ?_⟩
          rw [Nat.add_comm j 1, ← Nat.add_assoc]
          exact hin
        · have hk := (List.getElem?_eq_some_iff.mp howner).1
          refine ⟨k + 1, owner, ?_, ?_, ?_⟩
          · rw [hparent, Nat.add_comm k 1, Nat.add_assoc]
          · rw [List.getElem?_cons_succ, List.getElem?_append_left hk, howner]
          · rw [Nat.add_comm j 1, ← Nat.add_assoc]
            exact hin
      · rw [List.getElem?_append_right (by omega), hlength] at hitem
        have hplace : start + 1 + kids.size + (j - kids.size) = start + (j + 1) := by omega
        rcases hothers hitem with ⟨hparent, hin⟩ | ⟨k, owner, hparent, howner, hin⟩
        · rw [hplace] at hin
          exact .inl ⟨hparent, List.mem_cons_of_mem _ hin⟩
        · rw [hplace] at hin
          refine .inr ⟨kids.size + k + 1, owner, ?_, ?_, hin⟩
          · rw [hparent]
            congr 1
            omega
          · rw [List.getElem?_cons_succ, List.getElem?_append_right (by omega), hlength,
              Nat.add_sub_cancel_left, howner]

/-- The top items have the parent of the forest. -/
theorem items_of_ids (hi : i ∈ f.ids start) :
    ∃ item, (f.items parent start)[i - start]? = some item ∧ item.parent = parent := by
  induction f generalizing start with
  | nil => cases hi
  | cons object kids others _ hothers =>
    rw [ids, List.mem_cons] at hi
    rw [items]
    rcases hi with rfl | hi
    · rw [Nat.sub_self]
      exact ⟨_, rfl, rfl⟩
    · obtain ⟨item, hitem, hparent⟩ := hothers hi
      have hlength := kids.length_items (some start) (start + 1)
      have hle := mem_ids hi
      have hplace : i - start = (i - (start + 1 + kids.size)) + kids.size + 1 := by omega
      refine ⟨item, ?_, hparent⟩
      rw [hplace, List.getElem?_cons_succ, List.getElem?_append_right (by omega), hlength,
        Nat.add_sub_cancel, hitem]

end Forest

/-! ## Expanded objects -/

/-- The indirect objects of the items that have kids. -/
def OutlineTree.expandedObjects (doc : Document ε) (tree : OutlineTree) : List QpdfObjGen :=
  tree.items.filterMap fun item =>
    if item.kids = [] then none else doc.indirectObjGen item.object

/-- The indirect object of an item, if there is a forest below it. -/
def expandedObject (doc : Document ε) (h : ℕ) (kids : Forest) : List QpdfObjGen :=
  match kids with
  | .nil => []
  | .cons .. => (doc.indirectObjGen h).toList

def Forest.expandedObjects (doc : Document ε) : Forest → List QpdfObjGen
  | nil => []
  | cons object kids others =>
    expandedObject doc object kids ++ kids.expandedObjects doc ++ others.expandedObjects doc

theorem filterMap_items (f : Forest) (parent : Option ℕ) (start : ℕ) :
    ((f.items parent start).filterMap fun item =>
      if item.kids = [] then none else doc.indirectObjGen item.object) =
        f.expandedObjects doc := by
  induction f generalizing parent start with
  | nil => rfl
  | cons object kids others hkids hothers =>
    rw [Forest.items, Forest.expandedObjects, List.filterMap_cons, List.filterMap_append, hkids,
      hothers, List.append_assoc]
    cases kids with
    | nil => rfl
    | cons =>
      rw [expandedObject]
      cases doc.indirectObjGen object <;> simp [Forest.ids]

/-- What is expanded has not been expanded before, is expanded once, and stays on record. -/
structure Expands (expanded objects expanded' : List QpdfObjGen) : Prop where
  subset : expanded ⊆ expanded'
  nodup : objects.Nodup
  fresh : ∀ g ∈ objects, g ∉ expanded
  recorded : objects ⊆ expanded'

theorem Expands.nothing (expanded : List QpdfObjGen) : Expands expanded [] expanded :=
  ⟨List.Subset.refl _, List.nodup_nil, nofun, nofun⟩

theorem Expands.append {expanded expanded' expanded'' l l' : List QpdfObjGen}
    (h : Expands expanded l expanded') (h' : Expands expanded' l' expanded'') :
    Expands expanded (l ++ l') expanded'' := by
  refine ⟨fun g hg => h'.subset (h.subset hg), ?_, ?_, ?_⟩
  · rw [List.nodup_append]
    refine ⟨h.nodup, h'.nodup, ?_⟩
    rintro g hg _ hg' rfl
    exact h'.fresh g hg' (h.recorded hg)
  · intro g hg
    rcases List.mem_append.mp hg with hg | hg
    · exact h.fresh g hg
    · exact fun hin => h'.fresh g hg (h.subset hin)
  · intro g hg
    rcases List.mem_append.mp hg with hg | hg
    · exact h'.subset (h.recorded hg)
    · exact h'.recorded hg

/-- Fewer objects are expanded as well. -/
theorem Expands.sublist {expanded expanded' l l' : List QpdfObjGen}
    (h : Expands expanded l expanded') (hl : l'.Sublist l) : Expands expanded l' expanded' :=
  ⟨h.subset, hl.nodup h.nodup, fun g hg => h.fresh g (hl.subset hg),
    fun _ hg => h.recorded (hl.subset hg)⟩

theorem expand_expands {fresh : Bool} {expanded expanded' : List QpdfObjGen}
    (hexpand : doc.expand expanded h = (fresh, expanded')) : Expands expanded
      (if fresh then (doc.indirectObjGen h).toList else []) expanded' := by
  rw [Document.expand] at hexpand
  cases hgen : doc.indirectObjGen h with
  | none =>
    rw [hgen] at hexpand
    cases hexpand
    exact Expands.nothing expanded
  | some g =>
    rw [hgen] at hexpand
    dsimp only at hexpand
    split_ifs at hexpand with hin
    · cases hexpand
      exact Expands.nothing expanded
    · cases hexpand
      refine ⟨List.subset_cons_self _ _, List.nodup_singleton g, ?_, ?_⟩
      · intro g' hg'
        rwa [List.mem_singleton.mp hg']
      · intro g' hg'
        rw [List.mem_singleton.mp hg']
        exact List.mem_cons_self

theorem grow_expands {below : List QpdfObjGen → ℕ → Forest × List QpdfObjGen}
    (hbelow : ∀ expanded h, Expands expanded
      (expandedObject doc h (below expanded h).1 ++ (below expanded h).1.expandedObjects doc)
      (below expanded h).2) (expanded : List QpdfObjGen) (l : List ℕ) :
    Expands expanded ((Document.grow below expanded l).1.expandedObjects doc)
      (Document.grow below expanded l).2 := by
  induction l generalizing expanded with
  | nil => exact Expands.nothing expanded
  | cons h l ih => exact (hbelow expanded h).append (ih (below expanded h).2)

theorem below_expands (levels : ℕ) (expanded : List QpdfObjGen) (h : ℕ) : Expands expanded
    (expandedObject doc h (doc.below levels expanded h).1 ++
      (doc.below levels expanded h).1.expandedObjects doc) (doc.below levels expanded h).2 := by
  induction levels generalizing expanded h with
  | zero => exact Expands.nothing expanded
  | succ levels ih =>
    rw [Document.below]
    generalize hexpand : doc.expand expanded h = r
    obtain ⟨fresh, expanded'⟩ := r
    have hfirst := expand_expands hexpand
    cases fresh with
    | false => exact hfirst
    | true =>
      dsimp only
      rw [if_pos rfl] at hfirst ⊢
      refine (hfirst.append (grow_expands ih expanded' (doc.children h))).sublist ?_
      rw [List.append_sublist_append_right]
      cases (Document.grow (doc.below levels) expanded' (doc.children h)).1 with
      | nil => exact List.nil_sublist _
      | cons => exact List.Sublist.refl _

/-! ## The outcome -/

/-- Every item but a root is once among the kids of its parent, the roots have no parent, and no
indirect object is expanded twice. -/
structure OutlineTree.WellFormed (doc : Document ε) (tree : OutlineTree) : Prop where
  kid : ∀ (i : ℕ) (item : OutlineItem) (p : ℕ), tree.items[i]? = some item → item.parent = some p →
    ∃ owner : OutlineItem, tree.items[p]? = some owner ∧ owner.kids.count i = 1
  root : ∀ i ∈ tree.roots, ∃ item : OutlineItem, tree.items[i]? = some item ∧ item.parent = none
  rooted : ∀ (i : ℕ) (item : OutlineItem), tree.items[i]? = some item → item.parent = none →
    tree.roots.count i = 1
  expandedOnce : (tree.expandedObjects doc).Nodup

theorem outline_wellFormed (doc : Document ε) : doc.outline.arena.WellFormed doc := by
  constructor
  · intro i item p hitem hparent
    have hplace : (doc.outline.items none 0)[i]? = some item := hitem
    rcases Forest.parent_of_items hplace with ⟨hnone, -⟩ | ⟨k, owner, hsome, howner, hin⟩
    · rw [hnone] at hparent
      cases hparent
    · rw [hparent, Option.some.injEq, Nat.zero_add] at hsome
      subst hsome
      rw [Nat.zero_add] at hin
      exact ⟨owner, howner, List.count_eq_one_of_mem
        (Forest.nodup_kids (List.mem_of_getElem? howner)) hin⟩
  · intro i hi
    exact Forest.items_of_ids hi
  · intro i item hitem hparent
    have hplace : (doc.outline.items none 0)[i]? = some item := hitem
    rcases Forest.parent_of_items hplace with ⟨-, hin⟩ | ⟨k, owner, hsome, -, -⟩
    · rw [Nat.zero_add] at hin
      exact List.count_eq_one_of_mem (Forest.nodup_ids _ _) hin
    · rw [hparent] at hsome
      cases hsome
  · rw [OutlineTree.expandedObjects, Forest.arena, filterMap_items, Document.outline]
    split
    · exact (grow_expands (below_expands maxExpandedOutlineDepth) [] _).nodup
    · exact List.nodup_nil

/-- What `get_tree` may end with: the arena of the recursive definition, or a failure of the
document. -/
def Settles (doc : Document ε) : Option (Except ε OutlineTree × Building) → Prop
  | some (.ok tree, _) => tree = doc.outline.arena ∧ tree.WellFormed doc
  | some (.error e, _) => doc.Fails e
  | none => False

end Flpdf.Outlines
