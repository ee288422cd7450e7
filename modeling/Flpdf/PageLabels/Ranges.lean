import Flpdf.PageLabels.CarriedOver

/-! # Ranges and selections of pages

The list that is built for the output pages is right up to the page that has been reached.
A page adds an entry of its own, or goes on from the page before it.
-/

namespace Flpdf

/-! ## Source documents -/

/-- The entries of a source, all of them dictionaries; a document without labels has none. -/
def LabelSource.Carries (source : LabelSource) (labels : List (ℤ × RawLabel)) : Prop :=
  match source.tree with
  | none => labels = []
  | some tree =>
    NumberTree.Holds tree source.store (labels.map fun e => (e.1, LabelNode.dictionary e.2))

/-- What an output page takes over from a source page. -/
def carried (document : ℕ) (labels : List (ℤ × RawLabel)) (page out : ℤ) : PageLabel :=
  (pageLabel labels page).getD (.position document out)

/-- The label begun anew at a distance. -/
def RawLabel.restarted (label : RawLabel) (distance : ℤ) : RawLabel :=
  { label with start := some (label.start.getD 1 + distance) }

theorem RawLabel.restarted_behind (label : RawLabel) (distance : ℤ) :
    (label.restarted distance).behind 0 = label.behind distance := by
  simp only [restarted, behind, Option.getD_some, Int.add_zero]
  rfl

theorem governing_map {α β : Type} (f : α → β) (entries : List (ℤ × α)) (n : ℤ) :
    governing (entries.map fun e => (e.1, f e.2)) n =
      (governing entries n).map fun e => (e.1, f e.2) := by
  rw [governing, governing, List.filter_map, List.getLast?_map]
  rfl

theorem checkedOr_eq_ok {value result : ℤ} {message : String}
    (h : checkedOr value message = .ok result) : result = value := by
  rw [checkedOr] at h
  cases hvalue : checkedI64 value with
  | none =>
    rw [hvalue] at h
    cases h
  | some checked =>
    rw [hvalue] at h
    cases h
    exact checkedI64_eq_some hvalue

section Source

variable {source : LabelSource} {tree : NNTree} {store store' : NodeStore ℤ LabelNode}
  {labels : List (ℤ × RawLabel)} {page out : ℤ}
  {resolve : ℕ → QpdfObjGen → Except Bytes ObjectValue}

theorem getLabelForPageFromTree_eq
    (h : NumberTree.Holds tree store (labels.map fun e => (e.1, LabelNode.dictionary e.2)))
    {found : Option RawLabel}
    (hfound : source.getLabelForPageFromTree tree store page = .ok (store', found)) :
    store' = store ∧
      found = (governing labels page).map fun e => e.2.restarted (page - e.1) := by
  obtain ⟨lookup, hlookup, hfound⟩ := bind_eq_ok.mp hfound
  have hpair := NumberTree.findObjectAtOrBelow_eq h hlookup
  rw [governing_map, Option.map_map] at hpair
  subst hpair
  cases hgoverning : governing labels page with
  | none =>
    simp only [hgoverning, Option.map_none] at hfound
    cases hfound
    exact ⟨rfl, rfl⟩
  | some e =>
    simp only [hgoverning, Option.map_some, Function.comp_apply] at hfound
    obtain ⟨start, hstart, hfound⟩ := bind_eq_ok.mp hfound
    cases hfound
    rw [checkedOr_eq_ok hstart]
    exact ⟨rfl, rfl⟩

/-- The first label that a page contributes. -/
theorem firstLabel_eq (h : source.Carries labels) {label label' : RawLabel}
    (hlabel : source.labelOrEmpty source.store page = .ok (store', label))
    (hstart : LabelSource.withDefaultStart label out = .ok label') :
    store' = source.store ∧ label'.behind 0 = carried source.document labels page out := by
  have hempty : label = { document := source.document } →
      label'.behind 0 = .position source.document out := by
    rintro rfl
    rw [LabelSource.withDefaultStart] at hstart
    obtain ⟨start, hchecked, hstart⟩ := bind_eq_ok.mp hstart
    cases hstart
    rw [checkedOr_eq_ok hchecked]
    simp only [RawLabel.behind, Option.getD_some, Int.add_zero]
    rfl
  rw [LabelSource.Carries] at h
  rw [LabelSource.labelOrEmpty] at hlabel
  cases htree : source.tree with
  | none =>
    simp only [htree] at h hlabel
    cases hlabel
    rw [h]
    exact ⟨rfl, hempty rfl⟩
  | some tree =>
    simp only [htree] at h hlabel
    obtain ⟨⟨store'', found⟩, hfound, hlabel⟩ := bind_eq_ok.mp hlabel
    obtain ⟨rfl, rfl⟩ := getLabelForPageFromTree_eq h hfound
    cases hgoverning : governing labels page with
    | none =>
      rw [hgoverning] at hlabel
      cases hlabel
      rw [carried, pageLabel, hgoverning]
      exact ⟨rfl, hempty rfl⟩
    | some e =>
      rw [hgoverning] at hlabel
      cases hlabel
      cases hstart
      rw [carried, pageLabel, hgoverning, Option.map_some, Option.getD_some, Option.map_some,
        Option.getD_some, RawLabel.restarted_behind]
      exact ⟨rfl, rfl⟩

theorem carried_succ (document : ℕ)
    (h : ∀ e, governing labels (page + 1) = some e → e.1 ≠ page + 1) :
    carried document labels (page + 1) (out + 1) = (carried document labels page out).next := by
  rw [carried, carried, pageLabel_succ h]
  cases pageLabel labels page with
  | none => rfl
  | some label => rfl

/-- A later page of a range adds its entry, if the source has one for it. -/
theorem rangeStep_cases
    (h : NumberTree.Holds tree store (labels.map fun e => (e.1, LabelNode.dictionary e.2)))
    {idxOffset : ℤ} {collected collected' : List (ℤ × RawLabel)}
    (hstep : source.rangeStep tree idxOffset (store, collected) page = .ok (store', collected')) :
    store' = store ∧
      (collected' = collected ∧ (∀ e, governing labels page = some e → e.1 ≠ page) ∨
        ∃ e, governing labels page = some e ∧ e.1 = page ∧
          collected' = collected ++ [(page + idxOffset, e.2.restarted 0)]) := by
  obtain ⟨lookup, hlookup, hstep⟩ := bind_eq_ok.mp hstep
  have hpair := NumberTree.hasIndex_eq h hlookup
  rw [governing_map, Option.any_map] at hpair
  subst hpair
  cases hgoverning : governing labels page with
  | none =>
    simp only [hgoverning, Option.any_none] at hstep
    cases hstep
    exact ⟨rfl, .inl ⟨rfl, by simp⟩⟩
  | some e =>
    simp only [hgoverning, Option.any_some] at hstep
    by_cases hkey : e.1 = page
    · rw [if_neg (by simp [hkey])] at hstep
      obtain ⟨⟨store'', found⟩, hfound, hstep⟩ := bind_eq_ok.mp hstep
      obtain ⟨rfl, rfl⟩ := getLabelForPageFromTree_eq h hfound
      simp only [hgoverning, Option.map_some] at hstep
      obtain ⟨outputIdx, hoffset, hstep⟩ := bind_eq_ok.mp hstep
      cases hstep
      refine ⟨rfl, .inr ⟨e, rfl, hkey, ?_⟩⟩
      rw [checkedOr_eq_ok hoffset, hkey, Int.sub_self]
    · rw [if_pos (by simp [hkey])] at hstep
      cases hstep
      refine ⟨rfl, .inl ⟨rfl, ?_⟩⟩
      intro e' he'
      rwa [← Option.some.inj he']

end Source

/-! ## The list for the output -/

section Follows

variable {β : Type} {f : PageLabel → β} {entries : List (ℤ × RawLabel)}
  {outs : List (ℤ × PageLabel)} {hi : ℤ}

variable (f) in
/-- The entries are in order, and right for the output pages so far, as far as `f` tells. -/
structure Follows (entries : List (ℤ × RawLabel)) (outs : List (ℤ × PageLabel)) (hi : ℤ) :
    Prop where
  keys : ∀ e ∈ entries, e.1 < hi
  increasing : entries.Pairwise fun e e' => e.1 < e'.1
  right : ∀ o ∈ outs, o.1 < hi ∧ (pageLabel entries o.1).map f = some (f o.2)

theorem Follows.nil (hi : ℤ) : Follows f [] [] hi :=
  ⟨List.forall_mem_nil _, List.Pairwise.nil, List.forall_mem_nil _⟩

/-- The next page follows from the entries as they are. -/
theorem Follows.goOn (h : Follows f entries outs hi) {label : PageLabel}
    (hlabel : (pageLabel entries hi).map f = some (f label)) :
    Follows f entries (outs ++ [(hi, label)]) (hi + 1) where
  keys e he := (h.keys e he).trans (Int.lt_succ hi)
  increasing := h.increasing
  right o ho := by
    rcases List.mem_append.mp ho with ho | ho
    · exact ⟨(h.right o ho).1.trans (Int.lt_succ hi), (h.right o ho).2⟩
    · rw [List.mem_singleton.mp ho]
      exact ⟨Int.lt_succ hi, hlabel⟩

/-- The next page has an entry of its own. -/
theorem Follows.push (h : Follows f entries outs hi) {raw : RawLabel} {label : PageLabel}
    (hlabel : raw.behind 0 = label) :
    Follows f (entries ++ [(hi, raw)]) (outs ++ [(hi, label)]) (hi + 1) where
  keys e he := by
    rcases List.mem_append.mp he with he | he
    · exact (h.keys e he).trans (Int.lt_succ hi)
    · rw [List.mem_singleton.mp he]
      exact Int.lt_succ hi
  increasing := by
    rw [List.pairwise_append]
    refine ⟨h.increasing, List.pairwise_singleton _ _, ?_⟩
    intro e he e' he'
    rw [List.mem_singleton.mp he']
    exact h.keys e he
  right o ho := by
    rw [pageLabel_concat]
    rcases List.mem_append.mp ho with ho | ho
    · have hless := (h.right o ho).1
      rw [if_neg (not_le.mpr hless)]
      exact ⟨hless.trans (Int.lt_succ hi), (h.right o ho).2⟩
    · rw [List.mem_singleton.mp ho, if_pos le_rfl, Int.sub_self, hlabel]
      exact ⟨Int.lt_succ hi, rfl⟩

/-- A page without an entry is labelled one higher than the page before it. -/
theorem Follows.succ (h : Follows f entries outs (hi + 1)) {label : PageLabel}
    (hnext : ∀ label label', f label = f label' → f label.next = f label'.next)
    (hmem : (hi, label) ∈ outs) :
    Follows f entries (outs ++ [(hi + 1, label.next)]) (hi + 1 + 1) := by
  apply h.goOn
  have hkeys : ∀ e, governing entries (hi + 1) = some e → e.1 ≠ hi + 1 :=
    fun e he => (h.keys e (governing_mem he).1).ne
  have hlast := (h.right _ hmem).2
  rw [pageLabel_succ hkeys]
  obtain ⟨found, hfound, himage⟩ := Option.map_eq_some_iff.mp hlast
  rw [hfound, Option.map_some, Option.map_some, hnext _ _ himage]

end Follows

/-! ## Ranges -/

/-- The output pages for the first source pages of a range, with the labels they take over. -/
def rangeOutputs (document : ℕ) (labels : List (ℤ × RawLabel)) (startIdx newStartIdx : ℤ) (count : ℕ) :
    List (ℤ × PageLabel) :=
  (List.range count).map fun i : ℕ =>
    (newStartIdx + i, carried document labels (startIdx + i) (newStartIdx + i))

theorem rangeOutputs_succ (document : ℕ) (labels : List (ℤ × RawLabel))
    (startIdx newStartIdx : ℤ) (count : ℕ) :
    rangeOutputs document labels startIdx newStartIdx (count + 1) =
      rangeOutputs document labels startIdx newStartIdx count ++
        [(newStartIdx + count, carried document labels (startIdx + count)
          (newStartIdx + count))] := by
  rw [rangeOutputs, List.range_succ, List.map_append, List.map_singleton]
  rfl

section Ranges

variable {source : LabelSource} {tree : NNTree} {store store' : NodeStore ℤ LabelNode}
  {labels entries entries' : List (ℤ × RawLabel)} {startIdx endIdx newStartIdx : ℤ}
  {resolve : ℕ → QpdfObjGen → Except Bytes ObjectValue} {outs : List (ℤ × PageLabel)}

/-- A page that the source has no entry for. -/
theorem Follows.rangeSucc {count : ℕ}
    (h : Follows (PageLabel.image resolve) entries
      (outs ++ rangeOutputs source.document labels startIdx newStartIdx (count + 1)) (newStartIdx + count + 1))
    (hsource : ∀ e, governing labels (startIdx + count + 1) = some e →
      e.1 ≠ startIdx + count + 1) :
    Follows (PageLabel.image resolve) entries
      (outs ++ rangeOutputs source.document labels startIdx newStartIdx (count + 2))
      (newStartIdx + count + 1 + 1) := by
  have hmem : (newStartIdx + count, carried source.document labels (startIdx + count) (newStartIdx + count)) ∈
      outs ++ rangeOutputs source.document labels startIdx newStartIdx (count + 1) := by
    rw [rangeOutputs_succ]
    simp
  have hnext := h.succ (fun _ _ => PageLabel.image_next resolve) hmem
  rw [← carried_succ source.document hsource, List.append_assoc] at hnext
  rw [rangeOutputs_succ source.document labels startIdx newStartIdx (count + 1)]
  push_cast
  simp only [← Int.add_assoc]
  exact hnext

theorem foldlM_rangeStep
    (h : NumberTree.Holds tree store (labels.map fun e => (e.1, LabelNode.dictionary e.2)))
    (count : ℕ)
    (hfollows : Follows (PageLabel.image resolve) entries (outs ++ rangeOutputs source.document labels startIdx newStartIdx 1)
      (newStartIdx + 1))
    (hloop : ((List.range count).map fun i : ℕ => startIdx + (i + 1 : ℕ)).foldlM
      (source.rangeStep tree (newStartIdx - startIdx)) (store, entries) = .ok (store', entries')) :
    store' = store ∧ Follows (PageLabel.image resolve) entries'
      (outs ++ rangeOutputs source.document labels startIdx newStartIdx (count + 1)) (newStartIdx + count + 1) := by
  induction count generalizing store' entries' with
  | zero =>
    cases hloop
    exact ⟨rfl, by simpa using hfollows⟩
  | succ count ih =>
    rw [List.range_succ, List.map_append, List.foldlM_append] at hloop
    obtain ⟨⟨store'', entries''⟩, hloop, hlast⟩ := bind_eq_ok.mp hloop
    obtain ⟨rfl, hreached⟩ := ih hloop
    rw [List.map_singleton, List.foldlM_cons] at hlast
    obtain ⟨reached, hstep, hnil⟩ := bind_eq_ok.mp hlast
    cases hnil
    have hindex : startIdx + ((count + 1 : ℕ) : ℤ) = startIdx + count + 1 := by
      push_cast
      omega
    rw [hindex] at hstep
    obtain ⟨rfl, ⟨rfl, hsource⟩ | ⟨e, hgoverning, hkey, rfl⟩⟩ := rangeStep_cases h hstep
    · refine ⟨rfl, ?_⟩
      push_cast
      rw [← Int.add_assoc]
      exact hreached.rangeSucc hsource
    · have hout : startIdx + count + 1 + (newStartIdx - startIdx) = newStartIdx + count + 1 := by
        omega
      have hlabel : (e.2.restarted 0).behind 0 = carried source.document labels
          (startIdx + count + 1) (newStartIdx + count + 1) := by
        rw [RawLabel.restarted_behind, carried, pageLabel, hgoverning, Option.map_some,
          Option.getD_some, hkey, Int.sub_self]
      refine ⟨rfl, ?_⟩
      rw [hout, rangeOutputs_succ source.document labels startIdx newStartIdx (count + 1), ← List.append_assoc]
      push_cast
      simp only [← Int.add_assoc]
      exact hreached.push hlabel

/-- One range behind the pages that are done. -/
theorem getLabelsForPageRange_follows (h : source.Carries labels) (hle : startIdx ≤ endIdx)
    (hfollows : Follows (PageLabel.image resolve) entries outs newStartIdx)
    (hcall : source.getLabelsForPageRange resolve startIdx endIdx newStartIdx entries =
      .ok entries') :
    Follows (PageLabel.image resolve) entries'
      (outs ++ rangeOutputs source.document labels startIdx newStartIdx (endIdx - startIdx + 1).toNat)
      (newStartIdx + (endIdx - startIdx + 1)) := by
  obtain ⟨idxOffset, hoffset, hcall⟩ := bind_eq_ok.mp hcall
  obtain ⟨⟨store, label⟩, hlabel, hcall⟩ := bind_eq_ok.mp hcall
  obtain ⟨firstLabel, hstart, hcall⟩ := bind_eq_ok.mp hcall
  obtain ⟨skip, hskip, hcall⟩ := bind_eq_ok.mp hcall
  obtain ⟨rfl, hbehind⟩ := firstLabel_eq h hlabel hstart
  have hfirst : Follows (PageLabel.image resolve) (if skip then entries else entries ++ [(newStartIdx, firstLabel)])
      (outs ++ rangeOutputs source.document labels startIdx newStartIdx 1) (newStartIdx + 1) := by
    have hone : rangeOutputs source.document labels startIdx newStartIdx 1 =
        [(newStartIdx, carried source.document labels startIdx newStartIdx)] := by
      simp [rangeOutputs]
    rw [hone]
    cases skip with
    | false => exact hfollows.push hbehind
    | true =>
      obtain ⟨e, hlast, hrepeats⟩ := repeats_of_skipFirst hskip
      apply hfollows.goOn
      have hrepeated := pageImage_of_repeats hlast hfollows.keys hrepeats newStartIdx
      rw [pageImage_concat, if_pos le_rfl, Int.sub_self, hbehind] at hrepeated
      exact hrepeated
  obtain ⟨count, hcount⟩ := Int.eq_ofNat_of_zero_le (Int.sub_nonneg.mpr hle)
  have hpages : (endIdx - startIdx + 1).toNat = count + 1 := by omega
  have hend : newStartIdx + (endIdx - startIdx + 1) = newStartIdx + count + 1 := by omega
  rw [hpages, hend]
  rw [LabelSource.Carries] at h
  cases htree : source.tree with
  | none =>
    simp only [htree] at h hcall
    cases hcall
    subst h
    clear hpages hend hcount
    induction count with
    | zero => simpa using hfirst
    | succ count ih =>
      push_cast
      rw [← Int.add_assoc]
      exact ih.rangeSucc (by simp [governing])
  | some tree =>
    simp only [htree] at h hcall
    obtain ⟨⟨store', collected⟩, hloop, hcall⟩ := bind_eq_ok.mp hcall
    cases hcall
    have hindices : LabelSource.laterIndices startIdx endIdx =
        (List.range count).map fun i : ℕ => startIdx + (i + 1 : ℕ) := by
      rw [LabelSource.laterIndices, hcount, Int.toNat_natCast]
    rw [hindices, checkedOr_eq_ok hoffset] at hloop
    exact (foldlM_rangeStep h count hfirst hloop).2

end Ranges

/-- A range of pages of a source whose entries are known. -/
structure LabelledRange where
  source : LabelSource
  labels : List (ℤ × RawLabel)
  carries : source.Carries labels
  startIdx : ℤ
  endIdx : ℤ
  startIdx_le : startIdx ≤ endIdx

namespace LabelledRange

def length (range : LabelledRange) : ℤ := range.endIdx - range.startIdx + 1

variable (resolve : ℕ → QpdfObjGen → Except Bytes ObjectValue)

/-- One call after the other; each goes on where the last one stopped. -/
def collect : ℤ → List (ℤ × RawLabel) → List LabelledRange →
    Except NNTreeError (List (ℤ × RawLabel))
  | _, entries, [] => .ok entries
  | newStartIdx, entries, range :: ranges => do
    let entries ← range.source.getLabelsForPageRange resolve range.startIdx range.endIdx newStartIdx
      entries
    collect (newStartIdx + range.length) entries ranges

/-- The output pages with the labels that they take over. -/
def outputs : ℤ → List LabelledRange → List (ℤ × PageLabel)
  | _, [] => []
  | newStartIdx, range :: ranges =>
    rangeOutputs range.source.document range.labels range.startIdx newStartIdx
        range.length.toNat ++
      outputs (newStartIdx + range.length) ranges

variable {resolve}

theorem collect_follows {ranges : List LabelledRange} {newStartIdx : ℤ}
    {entries entries' : List (ℤ × RawLabel)} {outs : List (ℤ × PageLabel)}
    (hfollows : Follows (PageLabel.image resolve) entries outs newStartIdx)
    (hcollect : collect resolve newStartIdx entries ranges = .ok entries') :
    ∃ hi, Follows (PageLabel.image resolve) entries' (outs ++ outputs newStartIdx ranges) hi := by
  induction ranges generalizing newStartIdx entries outs with
  | nil =>
    cases hcollect
    exact ⟨newStartIdx, by rwa [outputs, List.append_nil]⟩
  | cons range ranges ih =>
    obtain ⟨collected, hcall, hcollect⟩ := bind_eq_ok.mp hcollect
    rw [outputs, ← List.append_assoc]
    exact ih (getLabelsForPageRange_follows range.carries range.startIdx_le hfollows hcall) hcollect

end LabelledRange

/-! ## Selections -/

section Selections

variable {source : LabelSource} {labels out : List (ℤ × RawLabel)} {outStartIdx : ℤ}
  {store' : NodeStore ℤ LabelNode}

/-- The output pages for some source pages. -/
def selectionOutputs (document : ℕ) (labels : List (ℤ × RawLabel)) (outStartIdx : ℤ)
    (srcIndices : List ℤ) : List (ℤ × PageLabel) :=
  srcIndices.zipIdx.map fun (srcIdx, i) =>
    (outStartIdx + i, carried document labels srcIdx (outStartIdx + i))

theorem foldlM_selectionStep (h : source.Carries labels) {srcIndices : List ℤ}
    (hloop : srcIndices.foldlM (source.selectionStep outStartIdx) (source.store, []) =
      .ok (store', out)) :
    store' = source.store ∧ out.length = srcIndices.length ∧
      Follows id out (selectionOutputs source.document labels outStartIdx srcIndices)
        (outStartIdx + srcIndices.length) := by
  induction srcIndices using List.reverseRecOn generalizing store' out with
  | nil =>
    cases hloop
    exact ⟨rfl, rfl, Follows.nil _⟩
  | append_singleton srcIndices srcIdx ih =>
    rw [List.foldlM_append] at hloop
    obtain ⟨⟨store, collected⟩, hloop, hlast⟩ := bind_eq_ok.mp hloop
    obtain ⟨rfl, hlength, hfollows⟩ := ih hloop
    rw [List.foldlM_cons] at hlast
    obtain ⟨reached, hstep, hnil⟩ := bind_eq_ok.mp hlast
    cases hnil
    obtain ⟨outIdx, hout, hstep⟩ := bind_eq_ok.mp hstep
    obtain ⟨⟨store'', label⟩, hlabel, hstep⟩ := bind_eq_ok.mp hstep
    obtain ⟨label', hstart, hstep⟩ := bind_eq_ok.mp hstep
    obtain ⟨rfl, hlabel'⟩ := firstLabel_eq h hlabel hstart
    cases hstep
    have hout' := checkedOr_eq_ok hout
    rw [hlength] at hout'
    subst hout'
    refine ⟨rfl, by simp [hlength], ?_⟩
    have houtputs : selectionOutputs source.document labels outStartIdx (srcIndices ++ [srcIdx]) =
        selectionOutputs source.document labels outStartIdx srcIndices ++
          [(outStartIdx + srcIndices.length,
            carried source.document labels srcIdx (outStartIdx + srcIndices.length))] := by
      simp [selectionOutputs, List.zipIdx_append]
    rw [houtputs, List.length_append, List.length_singleton]
    push_cast
    rw [← Int.add_assoc]
    exact hfollows.push hlabel'

theorem labelsForSelectionRaw_follows (h : source.Carries labels) {srcIndices : List ℤ}
    (hcall : source.labelsForSelectionRaw srcIndices outStartIdx = .ok out) :
    Follows id out (selectionOutputs source.document labels outStartIdx srcIndices)
      (outStartIdx + srcIndices.length) := by
  obtain ⟨⟨store, collected⟩, hloop, hcall⟩ := bind_eq_ok.mp hcall
  cases hcall
  exact (foldlM_selectionStep h hloop).2.2

end Selections

/-! ## Carried over -/

/-- The keys of a list of entries become greater. -/
def Increasing (entries : List (ℤ × RawLabel)) : Prop :=
  entries.Pairwise fun e e' => e.1 < e'.1

def RawPageLabelEntry.entry (range : RawPageLabelEntry) : ℤ × RawLabel := (range.index, range.label)

/-- What a reader of the output sees of a label. -/
def PageLabel.shown (resolve : ℕ → QpdfObjGen → Except Bytes ObjectValue) (label : PageLabel) :
    Except Bytes ObjectValue × Except Bytes ObjectValue × ℤ :=
  let shownValue := fun v : LabelValue =>
    match v.value with
    | .indirect objectGen => resolve v.document objectGen
    | value => .ok value
  (shownValue label.style, shownValue label.labelPrefix, label.number)

/-- A label with its prefix in object 5. -/
def sampleLabel (document : ℕ) (start : ℤ) : RawLabel :=
  { document, labelPrefix := .indirect ⟨5, 0⟩, start := some start }

/-- A document whose first page has this label. -/
def sampleSource (document : ℕ) (start : ℤ) : LabelSource where
  document := document
  tree := some { root := 1, maxDepth := some 100 }
  repair := fun _ => .error (.structural none [])
  store :=
    { node := fun id =>
        if id = 1 then some { items := some [⟨0, .dictionary (sampleLabel document start)⟩] }
        else none
      next := 2 }

theorem sampleSource_carries (document : ℕ) (start : ℤ) :
    (sampleSource document start).Carries [(0, sampleLabel document start)] := by
  let items : List (TreeItem ℤ LabelNode) := [⟨0, .dictionary (sampleLabel document start)⟩]
  have hholds : NumberTree.Holds { root := 1, maxDepth := some 100 }
      (sampleSource document start).store (items.map NumberTree.helper.entry) :=
    NumberTree.holds_leaf rfl Nat.one_lt_two (List.pairwise_singleton _ _)
  exact hholds

def sampleRange (document : ℕ) (start : ℤ) : LabelledRange where
  source := sampleSource document start
  labels := [(0, sampleLabel document start)]
  carries := sampleSource_carries document start
  startIdx := 0
  endIdx := 0
  startIdx_le := le_rfl

/-- Object 5 is a prefix of its own in each document. -/
def samplePrefixes (document : ℕ) (_ : QpdfObjGen) : Except Bytes ObjectValue :=
  .ok (.string [document.toUInt8])

end Flpdf
