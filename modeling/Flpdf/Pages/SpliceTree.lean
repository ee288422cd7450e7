import Flpdf.Pages.Splice

/-!
# Splicing a tree

The splice as a function on page trees. Its leaves are those before the range, the
inserted pages and the leaves behind the range, and a node without leaves is only
left where it had none before.
-/

namespace Flpdf

open PageTree

namespace Splice

variable (splice : Splice)

/-- The inserted pages with the node that takes them, when the range starts here. -/
def place (node : Handle) (offset : ℕ) (placed : Option Handle) : List PageTree × Option Handle :=
  if placed.isNone ∧ splice.start = offset then (splice.insert.map page, some node) else ([], placed)

mutual

def spliceKid (offset : ℕ) (placed : Option Handle) : PageTree → List PageTree × Option Handle
  | .page p => (if offset + 1 > splice.start ∧ offset < splice.stop then [] else [.page p], placed)
  | .pages node kids =>
    if offset + (leavesAll kids).length > splice.start ∧ offset < splice.stop then
      let before := spliceLoop node offset placed kids
      let last := splice.place node (offset + (leavesAll kids).length) before.2
      (if leavesAll (before.1 ++ last.1) = [] then [] else [.pages node (before.1 ++ last.1)], last.2)
    else ([.pages node kids], placed)

def spliceLoop (node : Handle) (offset : ℕ) (placed : Option Handle) :
    List PageTree → List PageTree × Option Handle
  | [] => ([], placed)
  | kid :: kids =>
    let before := splice.place node offset placed
    let kid' := spliceKid offset before.2 kid
    let rest := spliceLoop node (offset + kid.leaves.length) kid'.2 kids
    (before.1 ++ kid'.1 ++ rest.1, rest.2)

end

/-- The new kids of a node. -/
def spliceNode (node : Handle) (offset : ℕ) (placed : Option Handle) (kids : List PageTree) :
    List PageTree × Option Handle :=
  let before := splice.spliceLoop node offset placed kids
  let last := splice.place node (offset + (leavesAll kids).length) before.2
  (before.1 ++ last.1, last.2)

theorem spliceKid_pages (offset : ℕ) (placed : Option Handle) (node : Handle) (kids : List PageTree) :
    splice.spliceKid offset placed (.pages node kids) =
      if offset + (leavesAll kids).length > splice.start ∧ offset < splice.stop then
        (if leavesAll (splice.spliceNode node offset placed kids).1 = [] then []
          else [.pages node (splice.spliceNode node offset placed kids).1],
          (splice.spliceNode node offset placed kids).2)
      else ([.pages node kids], placed) := by
  rw [spliceKid]
  rfl

/-! ## The leaves -/

/-- What is left of a run of pages, with the pages that are inserted into it. -/
def cut (offset : ℕ) (old fresh : List Handle) : List Handle :=
  old.take (splice.start - offset) ++ fresh ++ old.drop (splice.stop - offset)

/-- The pages that one part of the walk inserts. -/
def placedHere (placed placed' : Option Handle) : List Handle :=
  if placed = none ∧ placed' ≠ none then splice.insert else []

/-- The pages have been placed exactly when the walk is past the start. -/
structure Started (offset : ℕ) (placed : Option Handle) : Prop where
  before : placed = none → offset ≤ splice.start
  behind : placed ≠ none → splice.start ≤ offset

variable {splice} {offset : ℕ} {placed placed₁ placed₂ : Option Handle} {old old' : List Handle}

/-- Two runs that follow each other are cut as one. -/
theorem cut_append (hrange : splice.start ≤ splice.stop)
    (hmiddle : splice.Started (offset + old.length) placed₁)
    (hkeep : placed ≠ none → placed₁ ≠ none) (hkeep' : placed₁ ≠ none → placed₂ ≠ none) :
    splice.cut offset old (splice.placedHere placed placed₁) ++
        splice.cut (offset + old.length) old' (splice.placedHere placed₁ placed₂) =
      splice.cut offset (old ++ old') (splice.placedHere placed placed₂) := by
  by_cases h : placed₁ = none
  · have hplaced : placed = none := by
      by_contra hne
      exact hkeep hne h
    have hle := hmiddle.before h
    have hfresh : splice.placedHere placed placed₁ = [] := by
      rw [placedHere, if_neg fun hboth => hboth.2 h]
    have htake : old.take (splice.start - offset) = old := List.take_of_length_le (by omega)
    have hdrop : old.drop (splice.stop - offset) = [] := List.drop_of_length_le (by omega)
    have htake' : (old ++ old').take (splice.start - offset) =
        old ++ old'.take (splice.start - (offset + old.length)) := by
      rw [List.take_append, htake, Nat.sub_add_eq]
    have hdrop' : (old ++ old').drop (splice.stop - offset) =
        old'.drop (splice.stop - (offset + old.length)) := by
      rw [List.drop_append, hdrop, List.nil_append, Nat.sub_add_eq]
    rw [cut, cut, cut, hfresh, htake, hdrop, htake', hdrop', h, hplaced]
    simp only [List.append_nil, List.append_assoc]
  · have hle := hmiddle.behind h
    have hfresh : splice.placedHere placed₁ placed₂ = [] := by
      rw [placedHere, if_neg fun hboth => h hboth.1]
    have hsame : splice.placedHere placed placed₂ = splice.placedHere placed placed₁ := by
      rw [placedHere, placedHere]
      simp only [hkeep' h, h, ne_eq, not_false_eq_true, and_true]
    have htake : old'.take (splice.start - (offset + old.length)) = [] := by
      rw [Nat.sub_eq_zero_of_le hle, List.take_zero]
    have htake' : (old ++ old').take (splice.start - offset) = old.take (splice.start - offset) := by
      rw [List.take_append_of_le_length (by omega)]
    have hdrop' : (old ++ old').drop (splice.stop - offset) =
        old.drop (splice.stop - offset) ++ old'.drop (splice.stop - (offset + old.length)) := by
      rw [List.drop_append, Nat.sub_add_eq]
    rw [cut, cut, cut, hfresh, htake, htake', hdrop', hsame]
    simp only [List.nil_append, List.append_assoc]

theorem place_spec (hstarted : splice.Started offset placed) (node : Handle) :
    leavesAll (splice.place node offset placed).1 =
        splice.placedHere placed (splice.place node offset placed).2 ∧
      splice.Started offset (splice.place node offset placed).2 ∧
      (placed ≠ none → (splice.place node offset placed).2 = placed) ∧
      ((splice.place node offset placed).2 = none → offset < splice.start) := by
  rw [place]
  split
  · rename_i h
    have hnone := Option.isNone_iff_eq_none.mp h.1
    refine ⟨?_, ⟨?_, ?_⟩, ?_, ?_⟩
    · rw [leavesAll_map_page, placedHere, if_pos ⟨hnone, Option.some_ne_none node⟩]
    · exact fun hsome => absurd hsome (Option.some_ne_none node)
    · exact fun _ => Nat.le_of_eq h.2
    · exact fun hne => absurd hnone hne
    · exact fun hsome => absurd hsome (Option.some_ne_none node)
  · rename_i h
    refine ⟨?_, hstarted, fun _ => rfl, ?_⟩
    · rw [leavesAll, placedHere, if_neg]
      rintro ⟨hnone, hne⟩
      exact hne hnone
    · intro hnone
      have hnone : placed = none := hnone
      have hle := hstarted.before hnone
      rw [hnone, Option.isNone_none] at h
      have hne : splice.start ≠ offset := fun heq => h ⟨rfl, heq⟩
      omega

/-- What a part of the walk makes of the leaves it passes. -/
structure Cuts (splice : Splice) (offset : ℕ) (placed : Option Handle) (old : List Handle)
    (new : List PageTree) (placed' : Option Handle) : Prop where
  leaves_eq : leavesAll new = splice.cut offset old (splice.placedHere placed placed')
  started : splice.Started (offset + old.length) placed'
  keep : placed ≠ none → placed' ≠ none

theorem cut_nil (fresh : List Handle) : splice.cut offset [] fresh = fresh := by
  rw [cut, List.take_nil, List.drop_nil, List.nil_append, List.append_nil]

theorem Cuts.append {new new' : List PageTree} (hrange : splice.start ≤ splice.stop)
    (h : splice.Cuts offset placed old new placed₁)
    (h' : splice.Cuts (offset + old.length) placed₁ old' new' placed₂) :
    splice.Cuts offset placed (old ++ old') (new ++ new') placed₂ where
  leaves_eq := by
    rw [leavesAll_append, h.leaves_eq, h'.leaves_eq, cut_append hrange h.started h.keep h'.keep]
  started := by
    rw [List.length_append, ← Nat.add_assoc]
    exact h'.started
  keep hne := h'.keep (h.keep hne)

theorem cuts_place (hstarted : splice.Started offset placed) (node : Handle) :
    splice.Cuts offset placed [] (splice.place node offset placed).1
      (splice.place node offset placed).2 := by
  obtain ⟨hleaves, hstarted', hkeep, -⟩ := place_spec hstarted node
  refine ⟨?_, hstarted', ?_⟩
  · rw [hleaves, cut_nil]
  · intro hne
    rw [hkeep hne]
    exact hne

theorem cuts_spliceNode {node : Handle} {kids : List PageTree}
    (hrange : splice.start ≤ splice.stop)
    (hloop : splice.Cuts offset placed (leavesAll kids) (splice.spliceLoop node offset placed kids).1
      (splice.spliceLoop node offset placed kids).2) :
    splice.Cuts offset placed (leavesAll kids) (splice.spliceNode node offset placed kids).1
      (splice.spliceNode node offset placed kids).2 := by
  have hboth := hloop.append hrange (cuts_place hloop.started node)
  rw [List.append_nil] at hboth
  exact hboth

/-- A kid that the range does not touch stays. -/
theorem cuts_kept {tree : PageTree} (hrange : splice.start ≤ splice.stop)
    (hstarted : splice.Started offset placed) (hbefore : placed = none → offset < splice.start)
    (hnot : ¬(offset + tree.leaves.length > splice.start ∧ offset < splice.stop)) :
    splice.Cuts offset placed tree.leaves [tree] placed := by
  have hfresh : splice.placedHere placed placed = [] := by
    rw [placedHere, if_neg fun hboth => hboth.2 hboth.1]
  have hleaves : leavesAll [tree] = tree.leaves := by
    rw [leavesAll, leavesAll, List.append_nil]
  by_cases hplaced : placed = none
  · have hlt := hbefore hplaced
    have hle : offset + tree.leaves.length ≤ splice.start := by
      omega
    refine ⟨?_, ⟨fun _ => hle, fun hne => absurd hplaced hne⟩, id⟩
    rw [hleaves, cut, hfresh, List.take_of_length_le (by omega), List.drop_of_length_le (by omega),
      List.append_nil, List.append_nil]
  · have hle := hstarted.behind hplaced
    refine ⟨?_, ⟨fun hnone => absurd hnone hplaced, fun _ => by omega⟩, id⟩
    by_cases hempty : tree.leaves.length = 0
    · rw [hleaves, cut, hfresh, List.eq_nil_of_length_eq_zero hempty, List.take_nil, List.drop_nil]
      rfl
    · have hstop : splice.stop - offset = 0 := by
        omega
      rw [hleaves, cut, hfresh, hstop, Nat.sub_eq_zero_of_le hle, List.take_zero, List.drop_zero]
      rfl

mutual

theorem cuts_spliceKid (hrange : splice.start ≤ splice.stop) :
    ∀ (tree : PageTree) (offset : ℕ) (placed : Option Handle), splice.Started offset placed →
      (placed = none → offset < splice.start) →
      splice.Cuts offset placed tree.leaves (splice.spliceKid offset placed tree).1
        (splice.spliceKid offset placed tree).2
  | .page p, offset, placed, hstarted, hbefore => by
    rw [spliceKid]
    by_cases h : offset + 1 > splice.start ∧ offset < splice.stop
    · rw [if_pos h]
      have hplaced : placed ≠ none := by
        intro hnone
        have hlt := hbefore hnone
        omega
      have hle := hstarted.behind hplaced
      refine ⟨?_, ⟨fun hnone => absurd hnone hplaced, fun _ => by omega⟩, id⟩
      rw [leaves, cut, placedHere, if_neg fun hboth => hplaced hboth.1, Nat.sub_eq_zero_of_le hle,
        List.take_zero, List.drop_of_length_le (by rw [List.length_singleton]; omega)]
      rfl
    · rw [if_neg h]
      exact cuts_kept hrange hstarted hbefore h
  | .pages node kids, offset, placed, hstarted, hbefore => by
    rw [spliceKid_pages]
    by_cases h : offset + (leavesAll kids).length > splice.start ∧ offset < splice.stop
    · rw [if_pos h]
      obtain ⟨hleaves, hstarted', hkeep⟩ :=
        cuts_spliceNode hrange (cuts_spliceLoop hrange kids node offset placed hstarted)
      refine ⟨?_, hstarted', hkeep⟩
      rw [leaves, ← hleaves]
      split
      · rename_i hempty
        rw [hempty]
        rfl
      · rw [leavesAll, leavesAll, leaves, List.append_nil]
    · rw [if_neg h]
      exact cuts_kept hrange hstarted hbefore h

theorem cuts_spliceLoop (hrange : splice.start ≤ splice.stop) :
    ∀ (kids : List PageTree) (node : Handle) (offset : ℕ) (placed : Option Handle),
      splice.Started offset placed →
      splice.Cuts offset placed (leavesAll kids) (splice.spliceLoop node offset placed kids).1
        (splice.spliceLoop node offset placed kids).2
  | [], node, offset, placed, hstarted => by
    rw [spliceLoop]
    refine ⟨?_, hstarted, id⟩
    rw [leavesAll, cut_nil, placedHere, if_neg fun hboth => hboth.2 hboth.1]
  | kid :: kids, node, offset, placed, hstarted => by
    have hplace := cuts_place hstarted node
    obtain ⟨-, hstarted', -, hbefore⟩ := place_spec hstarted node
    have hkid := cuts_spliceKid hrange kid offset _ hstarted' hbefore
    have hrest := cuts_spliceLoop hrange kids node (offset + kid.leaves.length) _ hkid.started
    have hall := (hplace.append hrange hkid).append hrange hrest
    rw [spliceLoop, leavesAll]
    exact hall

end

/-! ## The nodes -/

theorem nodesAll_place (node : Handle) : nodesAll (splice.place node offset placed).1 = [] := by
  rw [place]
  split
  · exact nodesAll_map_page _
  · rfl

theorem nodesAll_spliceNode (node : Handle) (kids : List PageTree) :
    nodesAll (splice.spliceNode node offset placed kids).1 =
      nodesAll (splice.spliceLoop node offset placed kids).1 := by
  rw [spliceNode, nodesAll_append, nodesAll_place, List.append_nil]

mutual

theorem nodes_spliceKid : ∀ (tree : PageTree) (offset : ℕ) (placed : Option Handle),
    (nodesAll (splice.spliceKid offset placed tree).1).Sublist tree.nodes
  | .page p, offset, placed => by
    rw [spliceKid]
    split
    · exact List.nil_sublist _
    · exact List.Sublist.refl _
  | .pages node kids, offset, placed => by
    rw [spliceKid_pages]
    split
    · split
      · exact List.nil_sublist _
      · rw [nodesAll, nodesAll, nodes, nodes, List.append_nil, nodesAll_spliceNode]
        exact (nodes_spliceLoop kids node offset placed).cons_cons node
    · rw [nodesAll, nodesAll, List.append_nil]

theorem nodes_spliceLoop : ∀ (kids : List PageTree) (node : Handle) (offset : ℕ)
    (placed : Option Handle),
    (nodesAll (splice.spliceLoop node offset placed kids).1).Sublist (nodesAll kids)
  | [], node, offset, placed => by
    rw [spliceLoop]
  | kid :: kids, node, offset, placed => by
    rw [spliceLoop, nodesAll_append, nodesAll_append, nodesAll_place, List.nil_append, nodesAll]
    exact (nodes_spliceKid kid offset _).append (nodes_spliceLoop kids node _ _)

end

/-- What has no leaves was there before. -/
def KeepsEmpty (new old : List PageTree) : Prop :=
  ∀ tree ∈ subtreesAll new, tree.leaves = [] → tree ∈ subtreesAll old

theorem KeepsEmpty.append {new new' old old' : List PageTree} (h : KeepsEmpty new old)
    (h' : KeepsEmpty new' old') : KeepsEmpty (new ++ new') (old ++ old') := by
  intro tree htree hempty
  rw [subtreesAll_append, List.mem_append] at htree ⊢
  rcases htree with htree | htree
  · exact .inl (h tree htree hempty)
  · exact .inr (h' tree htree hempty)

theorem keepsEmpty_place (splice : Splice) (node : Handle) (offset : ℕ) (placed : Option Handle) :
    KeepsEmpty (splice.place node offset placed).1 [] := by
  rw [place]
  split
  · intro tree htree hempty
    rw [subtreesAll_map_page, List.mem_map] at htree
    obtain ⟨p, -, rfl⟩ := htree
    rw [leaves] at hempty
    cases hempty
  · exact fun tree htree _ => htree

theorem keepsEmpty_append_place {node : Handle} {new old : List PageTree} (h : KeepsEmpty new old) :
    KeepsEmpty (new ++ (splice.place node offset placed).1) old := by
  have hboth := h.append (keepsEmpty_place splice node offset placed)
  rw [List.append_nil] at hboth
  exact hboth

mutual

theorem keepsEmpty_spliceKid : ∀ (tree : PageTree) (offset : ℕ) (placed : Option Handle),
    KeepsEmpty (splice.spliceKid offset placed tree).1 [tree]
  | .page p, offset, placed => by
    rw [spliceKid]
    split
    · exact fun tree htree _ => absurd htree List.not_mem_nil
    · exact fun tree htree _ => htree
  | .pages node kids, offset, placed => by
    rw [spliceKid_pages]
    split
    · split
      · exact fun tree htree _ => absurd htree List.not_mem_nil
      · rename_i hleaves
        intro tree htree hempty
        rw [subtreesAll, subtreesAll, List.append_nil, subtrees, List.mem_cons] at htree ⊢
        rcases htree with rfl | htree
        · exact absurd hempty hleaves
        · right
          exact (keepsEmpty_append_place (keepsEmpty_spliceLoop kids node offset placed)) tree htree
            hempty
    · exact fun tree htree _ => htree

theorem keepsEmpty_spliceLoop : ∀ (kids : List PageTree) (node : Handle) (offset : ℕ)
    (placed : Option Handle), KeepsEmpty (splice.spliceLoop node offset placed kids).1 kids
  | [], node, offset, placed => by
    rw [spliceLoop]
    exact fun tree htree _ => htree
  | kid :: kids, node, offset, placed => by
    rw [spliceLoop]
    exact ((keepsEmpty_place splice node _ _).append (keepsEmpty_spliceKid kid offset _)).append
      (keepsEmpty_spliceLoop kids node _ _)

end

theorem keepsEmpty_spliceNode (node : Handle) (kids : List PageTree) :
    KeepsEmpty (splice.spliceNode node offset placed kids).1 kids :=
  keepsEmpty_append_place (keepsEmpty_spliceLoop kids node offset placed)

/-! ## Where the inserted pages stand -/

/-- The inserted pages are kids of the node that takes them. -/
def PlacesUnder (splice : Splice) (placed placed' : Option Handle) (parent : Handle)
    (new : List PageTree) : Prop :=
  ∀ node, placed = none → placed' = some node → ∀ p ∈ splice.insert,
    (node, p) ∈ edgesAll parent new ∧ p ∈ leavesAll new

theorem PlacesUnder.append {parent : Handle} {new new' : List PageTree}
    (h : splice.PlacesUnder placed placed₁ parent new)
    (h' : splice.PlacesUnder placed₁ placed₂ parent new')
    (hkeep : placed₁ ≠ none → placed₂ = placed₁) :
    splice.PlacesUnder placed placed₂ parent (new ++ new') := by
  intro node hnone hsome p hp
  rw [edgesAll_append, leavesAll_append, List.mem_append, List.mem_append]
  by_cases hplaced : placed₁ = none
  · obtain ⟨hedge, hleaf⟩ := h' node hplaced hsome p hp
    exact ⟨.inr hedge, .inr hleaf⟩
  · obtain ⟨hedge, hleaf⟩ := h node hnone ((hkeep hplaced).symm.trans hsome) p hp
    exact ⟨.inl hedge, .inl hleaf⟩

theorem placesUnder_place (splice : Splice) (node : Handle) (offset : ℕ) (placed : Option Handle) :
    splice.PlacesUnder placed (splice.place node offset placed).2 node
      (splice.place node offset placed).1 := by
  rw [place]
  split
  · intro other _ hsome p hp
    cases hsome
    rw [edgesAll_map_page, leavesAll_map_page]
    exact ⟨List.mem_map.mpr ⟨p, hp, rfl⟩, hp⟩
  · intro other hnone hsome
    rw [hnone] at hsome
    cases hsome

theorem place_keep (splice : Splice) (node : Handle) (offset : ℕ) (h : placed ≠ none) :
    (splice.place node offset placed).2 = placed := by
  rw [place, if_neg]
  exact fun hboth => h (Option.isNone_iff_eq_none.mp hboth.1)

mutual

theorem placesUnder_spliceKid : ∀ (tree : PageTree) (parent : Handle) (offset : ℕ)
    (placed : Option Handle),
    splice.PlacesUnder placed (splice.spliceKid offset placed tree).2 parent
        (splice.spliceKid offset placed tree).1 ∧
      (placed ≠ none → (splice.spliceKid offset placed tree).2 = placed)
  | .page p, parent, offset, placed => by
    rw [spliceKid]
    refine ⟨?_, fun _ => rfl⟩
    intro node hnone hsome
    rw [hnone] at hsome
    cases hsome
  | .pages node kids, parent, offset, placed => by
    rw [spliceKid_pages]
    split
    · obtain ⟨hloop, hkeep⟩ := placesUnder_spliceLoop kids node offset placed
      have hnode := hloop.append (placesUnder_place splice node (offset + (leavesAll kids).length) _)
        (place_keep splice node _)
      refine ⟨?_, fun hne => (place_keep splice node _ ?_).trans (hkeep hne)⟩
      · intro other hnone hsome p hp
        obtain ⟨hedge, hleaf⟩ := hnode other hnone hsome p hp
        split
        · rename_i hempty
          change p ∈ leavesAll (splice.spliceNode node offset placed kids).1 at hleaf
          rw [hempty] at hleaf
          cases hleaf
        · rw [edgesAll, edgesAll, leavesAll, leavesAll, leaves, List.append_nil, List.append_nil]
          exact ⟨List.mem_cons_of_mem _ hedge, hleaf⟩
      · rw [hkeep hne]
        exact hne
    · refine ⟨?_, fun _ => rfl⟩
      intro node hnone hsome
      rw [hnone] at hsome
      cases hsome

theorem placesUnder_spliceLoop : ∀ (kids : List PageTree) (node : Handle) (offset : ℕ)
    (placed : Option Handle),
    splice.PlacesUnder placed (splice.spliceLoop node offset placed kids).2 node
        (splice.spliceLoop node offset placed kids).1 ∧
      (placed ≠ none → (splice.spliceLoop node offset placed kids).2 = placed)
  | [], node, offset, placed => by
    rw [spliceLoop]
    refine ⟨?_, fun _ => rfl⟩
    intro other hnone hsome
    rw [hnone] at hsome
    cases hsome
  | kid :: kids, node, offset, placed => by
    rw [spliceLoop]
    have hplace := placesUnder_place splice node offset placed
    have hkeep : placed ≠ none → (splice.place node offset placed).2 = placed :=
      place_keep splice node offset
    obtain ⟨hkid, hkeep₁⟩ :=
      placesUnder_spliceKid kid node offset (splice.place node offset placed).2
    obtain ⟨hrest, hkeep₂⟩ := placesUnder_spliceLoop kids node (offset + kid.leaves.length)
      (splice.spliceKid offset (splice.place node offset placed).2 kid).2
    refine ⟨(hplace.append hkid hkeep₁).append hrest hkeep₂, ?_⟩
    intro hne
    have hplaced : (splice.place node offset placed).2 ≠ none := by
      rw [hkeep hne]
      exact hne
    have hplaced₁ : (splice.spliceKid offset (splice.place node offset placed).2 kid).2 ≠ none := by
      rw [hkeep₁ hplaced]
      exact hplaced
    exact (hkeep₂ hplaced₁).trans ((hkeep₁ hplaced).trans (hkeep hne))

end

end Splice

end Flpdf
