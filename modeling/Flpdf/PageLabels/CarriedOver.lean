import Flpdf.PageLabels.Labels

/-! # Labels that are carried over

The label of a page is what the last entry at or before it says.  A list of entries is
followed from one output page to the next: an entry that is left out would have said what
the one before it already says.
-/

namespace Flpdf

/-! ## The last entry at or before a number -/

section Governing

variable {α : Type} {entries : List (ℤ × α)} {e : ℤ × α} {n : ℤ}

theorem governing_concat (entries : List (ℤ × α)) (e : ℤ × α) (n : ℤ) :
    governing (entries ++ [e]) n = if e.1 ≤ n then some e else governing entries n := by
  rw [governing, governing, List.filter_append]
  by_cases hle : e.1 ≤ n
  · rw [if_pos hle, List.filter_cons_of_pos (by simpa using hle), List.filter_nil,
      List.getLast?_concat]
  · rw [if_neg hle, List.filter_cons_of_neg (by simpa using hle), List.filter_nil,
      List.append_nil]

theorem governing_mem (h : governing entries n = some e) : e ∈ entries ∧ e.1 ≤ n := by
  have hmem := List.mem_filter.mp (List.mem_of_getLast? h)
  exact ⟨hmem.1, by simpa using hmem.2⟩

/-- Only an entry of its own gives a number another one than the number before it. -/
theorem governing_succ (h : ∀ e, governing entries (n + 1) = some e → e.1 ≠ n + 1) :
    governing entries (n + 1) = governing entries n := by
  cases hgoverning : governing entries (n + 1) with
  | none =>
    symm
    rw [governing_eq_none] at hgoverning ⊢
    intro e he
    have hless := hgoverning e he
    omega
  | some e =>
    obtain ⟨before, after, rfl, hle, hafter⟩ := governing_exists_split hgoverning
    have hne := h e hgoverning
    symm
    apply governing_split (by omega)
    intro e' he'
    have hless := hafter e' he'
    omega

/-- Behind the last key nothing changes any more. -/
theorem governing_of_keys (h : ∀ e ∈ entries, e.1 ≤ n) : governing entries n = entries.getLast? := by
  rw [governing, List.filter_eq_self.mpr (by simpa using h)]

end Governing

/-! ## Labels -/

section Images

variable (resolve : ℕ → QpdfObjGen → Except Bytes ObjectValue)

/-- What a value unparses to, or the value itself when that fails. -/
def LabelValue.image (v : LabelValue) : Except LabelValue Bytes :=
  match v.unparse resolve with
  | .ok text => .ok text
  | .error _ => .error v

/-- Direct values with one image are the same, null entries apart. -/
theorem kept_eq_of_image {v w : LabelValue} (himage : v.image resolve = w.image resolve)
    (hreadable : Readable maxParseDepth v.value) (hreadable' : Readable maxParseDepth w.value)
    (hdirect : LiveParser.IsDirect v.value) (hdirect' : LiveParser.IsDirect w.value) :
    kept (isNullHandle (resolve v.document)) v.value =
      kept (isNullHandle (resolve w.document)) w.value := by
  have hunparse : ∀ v : LabelValue, LiveParser.IsDirect v.value →
      v.unparse resolve = unparseResolvedValue (resolve v.document) v.value := by
    rintro ⟨document, value⟩ hdirect
    cases value with
    | indirect objectGen => exact hdirect.elim
    | _ => rfl
  rw [LabelValue.image, LabelValue.image, hunparse v hdirect, hunparse w hdirect'] at himage
  cases hv : unparseResolvedValue (resolve v.document) v.value with
  | error error =>
    cases hw : unparseResolvedValue (resolve w.document) w.value with
    | error error' =>
      rw [hv, hw] at himage
      rw [Except.error.inj himage]
    | ok text =>
      rw [hv, hw] at himage
      cases himage
  | ok text =>
    cases hw : unparseResolvedValue (resolve w.document) w.value with
    | error error' =>
      rw [hv, hw] at himage
      cases himage
    | ok text' =>
      rw [hv, hw] at himage
      obtain rfl := Except.ok.inj himage
      exact kept_eq_of_unparse hreadable hreadable' hdirect hdirect' hv hw

end Images

/-- The label of a page. -/
structure PageLabel where
  style : LabelValue
  labelPrefix : LabelValue
  number : ℤ

namespace PageLabel

variable (resolve : ℕ → QpdfObjGen → Except Bytes ObjectValue)

/-- The label with its values as they unparse. -/
def image (label : PageLabel) : Except LabelValue Bytes × Except LabelValue Bytes × ℤ :=
  (label.style.image resolve, label.labelPrefix.image resolve, label.number)

def next (label : PageLabel) : PageLabel := { label with number := label.number + 1 }

/-- A bare output position, counted from 1. -/
def position (document : ℕ) (out : ℤ) : PageLabel :=
  ⟨⟨document, .null⟩, ⟨document, .null⟩, out + 1⟩

theorem image_next {label label' : PageLabel} (h : label.image resolve = label'.image resolve) :
    label.next.image resolve = label'.next.image resolve := by
  simp only [image, Prod.mk.injEq] at h
  simp only [image, next, h.1, h.2.1, h.2.2]

end PageLabel

/-- The label at a distance behind the entry. -/
def RawLabel.behind (label : RawLabel) (distance : ℤ) : PageLabel :=
  ⟨label.styleValue, label.prefixValue, label.start.getD 1 + distance⟩

/-- The label of a page under some entries. -/
def pageLabel (entries : List (ℤ × RawLabel)) (page : ℤ) : Option PageLabel :=
  (governing entries page).map fun e => e.2.behind (page - e.1)

section PageLabels

variable {entries : List (ℤ × RawLabel)} {n : ℤ}

theorem pageLabel_concat (entries : List (ℤ × RawLabel)) (e : ℤ × RawLabel) (n : ℤ) :
    pageLabel (entries ++ [e]) n =
      if e.1 ≤ n then some (e.2.behind (n - e.1)) else pageLabel entries n := by
  rw [pageLabel, governing_concat]
  split
  · rfl
  · rfl

theorem behind_succ (label : RawLabel) (distance : ℤ) :
    label.behind (distance + 1) = (label.behind distance).next := by
  simp only [RawLabel.behind, PageLabel.next, Int.add_assoc]

theorem pageLabel_succ (h : ∀ e, governing entries (n + 1) = some e → e.1 ≠ n + 1) :
    pageLabel entries (n + 1) = (pageLabel entries n).map PageLabel.next := by
  rw [pageLabel, pageLabel, governing_succ h, Option.map_map]
  congr 1
  funext e
  rw [Function.comp_apply, ← behind_succ]
  congr 1
  omega

end PageLabels

/-! ## Entries that say nothing new -/

section Redundancy

variable {resolve : ℕ → QpdfObjGen → Except Bytes ObjectValue}

/-- From here on the later entry says what the earlier one does. -/
def Repeats (resolve : ℕ → QpdfObjGen → Except Bytes ObjectValue) (e e' : ℤ × RawLabel) : Prop :=
  ∀ n, (e'.2.behind (n - e'.1)).image resolve = (e.2.behind (n - e.1)).image resolve

theorem image_eq_of_sameUnparsed {v w : LabelValue} (h : sameUnparsed resolve v w = .ok true) :
    v.image resolve = w.image resolve := by
  rw [sameUnparsed] at h
  cases hv : v.unparse resolve with
  | error error =>
    rw [hv] at h
    cases h
  | ok text =>
    cases hw : w.unparse resolve with
    | error error =>
      rw [hv, hw] at h
      cases h
    | ok text' =>
      rw [hv, hw] at h
      have hsame : (text == text') = true := Except.ok.inj h
      rw [LabelValue.image, LabelValue.image, hv, hw, beq_iff_eq.mp hsame]

theorem repeats_of_same {k k' start start' : ℤ} {label label' : RawLabel}
    (hstart : label.start = some start) (hstart' : label'.start = some start')
    (hgap : start' - start = k' - k) (h : sameStyleAndPrefix resolve label label' = .ok true) :
    Repeats resolve (k, label) (k', label') := by
  obtain ⟨same, hstyle, h⟩ := bind_eq_ok.mp h
  cases same with
  | false => cases h
  | true =>
    intro n
    simp only [PageLabel.image, RawLabel.behind, hstart, hstart', Option.getD_some, Prod.mk.injEq]
    refine ⟨(image_eq_of_sameUnparsed hstyle).symm, (image_eq_of_sameUnparsed h).symm, ?_⟩
    omega

theorem repeats_of_redundant {k k' : ℤ} {label label' : RawLabel}
    (h : rawPageLabelsAreRedundant resolve k label k' label' = .ok true) :
    Repeats resolve (k, label) (k', label') := by
  rw [rawPageLabelsAreRedundant] at h
  cases hgap : checkedI64 (k' - k) with
  | none =>
    rw [hgap] at h
    cases h
  | some gap =>
    cases hstart : label.start with
    | none =>
      rw [hgap, hstart] at h
      cases h
    | some start =>
      cases hsum : checkedI64 (start + gap) with
      | none =>
        simp only [hgap, hstart, Option.bind_some, hsum] at h
        cases h
      | some expected =>
        cases hstart' : label'.start with
        | none =>
          simp only [hgap, hstart, Option.bind_some, hsum, hstart'] at h
          cases h
        | some start' =>
          simp only [hgap, hstart, Option.bind_some, hsum, hstart'] at h
          split at h
          · case isTrue heq =>
              have hexpected := checkedI64_eq_some hsum
              have hgap' := checkedI64_eq_some hgap
              exact repeats_of_same hstart hstart' (by omega) h
          · cases h

theorem repeats_of_skipFirst {labels : List (ℤ × RawLabel)} {k' : ℤ} {label' : RawLabel}
    (h : LabelSource.skipFirst resolve labels k' label' = .ok true) :
    ∃ e, labels.getLast? = some e ∧ Repeats resolve e (k', label') := by
  rw [LabelSource.skipFirst] at h
  cases hlast : labels.getLast? with
  | none =>
    rw [hlast] at h
    cases h
  | some e =>
    refine ⟨e, rfl, ?_⟩
    simp only [hlast] at h
    cases hidx : checkedI64 (k' - e.1) with
    | none =>
      simp only [hidx] at h
      cases h
    | some idx =>
      cases hstart' : label'.start with
      | none =>
        simp only [hidx, hstart', Option.bind_none] at h
        cases h
      | some start' =>
        cases hstart : e.2.start with
        | none =>
          simp only [hidx, hstart', hstart, Option.bind_some, Option.bind_none] at h
          cases h
        | some start =>
          cases hst : checkedI64 (start' - start) with
          | none =>
            simp only [hidx, hstart', hstart, Option.bind_some, hst] at h
            cases h
          | some st =>
            simp only [hidx, hstart', hstart, Option.bind_some, hst] at h
            split at h
            · case isTrue heq =>
                have hidx' := checkedI64_eq_some hidx
                have hst' := checkedI64_eq_some hst
                exact repeats_of_same hstart hstart' (by omega) h
            · cases h

end Redundancy

/-! ## Merging -/

section Merging

variable {resolve : ℕ → QpdfObjGen → Except Bytes ObjectValue} {α : Type} {entry : α → ℤ × RawLabel}
  {ranges out : List α} {range : α}

/-- The label of a page, with its values as they unparse. -/
def pageImage (resolve : ℕ → QpdfObjGen → Except Bytes ObjectValue)
    (entries : List (ℤ × RawLabel)) (n : ℤ) :
    Option (Except LabelValue Bytes × Except LabelValue Bytes × ℤ) :=
  (pageLabel entries n).map (PageLabel.image resolve)

theorem pageImage_concat (entries : List (ℤ × RawLabel)) (e : ℤ × RawLabel) (n : ℤ) :
    pageImage resolve (entries ++ [e]) n =
      if e.1 ≤ n then some ((e.2.behind (n - e.1)).image resolve)
      else pageImage resolve entries n := by
  rw [pageImage, pageLabel_concat]
  split
  · rfl
  · rfl

/-- An entry that repeats the last one need not be there. -/
theorem pageImage_of_repeats {entries : List (ℤ × RawLabel)} {e e' : ℤ × RawLabel}
    (hlast : entries.getLast? = some e) (hkeys : ∀ e ∈ entries, e.1 < e'.1)
    (hrepeats : Repeats resolve e e') (n : ℤ) :
    pageImage resolve entries n = pageImage resolve (entries ++ [e']) n := by
  rw [pageImage_concat]
  split
  · case isTrue hle =>
      have hgoverning : governing entries n = some e := by
        rw [governing_of_keys fun e he => ((hkeys e he).trans_le hle).le, hlast]
      rw [pageImage, pageLabel, hgoverning, hrepeats]
      rfl
  · rfl

theorem mergeRange_cases (h : mergeRange resolve entry out range = .ok ranges) :
    ranges = out ++ [range] ∨
      ranges = out ∧ ∃ previous, out.getLast? = some previous ∧
        Repeats resolve (entry previous) (entry range) := by
  rw [mergeRange] at h
  cases hlast : out.getLast? with
  | none =>
    simp only [hlast] at h
    exact .inl (Except.ok.inj h).symm
  | some previous =>
    simp only [hlast] at h
    obtain ⟨redundant, hredundant, h⟩ := bind_eq_ok.mp h
    cases redundant with
    | false => exact .inl (Except.ok.inj h).symm
    | true => exact .inr ⟨(Except.ok.inj h).symm, previous, rfl, repeats_of_redundant hredundant⟩

/-- Entries are left out, and every page keeps its label. -/
theorem foldlM_mergeRange (h : ranges.foldlM (mergeRange resolve entry) [] = .ok out)
    (hincreasing : (ranges.map entry).Pairwise fun e e' => e.1 < e'.1) :
    out.Sublist ranges ∧
      ∀ n, pageImage resolve (out.map entry) n = pageImage resolve (ranges.map entry) n := by
  induction ranges using List.reverseRecOn generalizing out with
  | nil =>
    cases h
    exact ⟨List.Sublist.refl _, fun _ => rfl⟩
  | append_singleton ranges range ih =>
    rw [List.map_append, List.map_singleton] at hincreasing
    rw [List.foldlM_append] at h
    obtain ⟨out', hout', hrange⟩ := bind_eq_ok.mp h
    obtain ⟨hsublist, himage⟩ := ih hout' (List.pairwise_append.mp hincreasing).1
    rw [List.foldlM_cons] at hrange
    obtain ⟨out'', hout'', hnil⟩ := bind_eq_ok.mp hrange
    cases hnil
    have hboth : ∀ n, pageImage resolve (out'.map entry ++ [entry range]) n =
        pageImage resolve (ranges.map entry ++ [entry range]) n := by
      intro n
      rw [pageImage_concat, pageImage_concat, himage]
    rcases mergeRange_cases hout'' with rfl | ⟨rfl, previous, hlast, hrepeats⟩
    · refine ⟨hsublist.append (List.Sublist.refl _), fun n => ?_⟩
      rw [List.map_append, List.map_append]
      exact hboth n
    · refine ⟨hsublist.trans (List.sublist_append_left _ _), fun n => ?_⟩
      have hkeys : ∀ e ∈ out.map entry, e.1 < (entry range).1 := by
        intro e he
        exact (List.pairwise_append.mp hincreasing).2.2 e
          ((hsublist.map entry).subset he) _ (List.mem_singleton.mpr rfl)
      have hlast' : (out.map entry).getLast? = some (entry previous) := by
        rw [List.getLast?_map, hlast]
        rfl
      rw [pageImage_of_repeats hlast' hkeys hrepeats, hboth, List.map_append, List.map_singleton]

end Merging

end Flpdf
