import Flpdf.Optimization.Reachability

/-!
# The object-user maps of a document

`build_maps` records what the recursive definition records, and from the users
of an object one reads off from which pages it is reached.
-/

namespace Flpdf

open Std DepthFirst

variable {pdf : Pdf} {skip : SkipStreamParameters} {pages : List ObjectValue}
  {rootEntries : List (Bytes × ObjectValue)} {start : ObjectUser × ObjectValue}
  {starts : List (ObjectUser × ObjectValue)} {objectGen : QpdfObjGen} {n : UInt32}

namespace Pdf

/-- A page with a visible `/Thumb`. -/
def HasThumbnail (pdf : Pdf) (object : ObjectValue) : Prop :=
  pdf.isPage object = true ∧ ∃ entries thumb, pdf.dereference object = .dictionary entries ∧
    (ascii "/Thumb", thumb) ∈ entries ∧ pdf.isNull thumb = false

theorem user_of_mem_pendingChildren {p child : Pending} (h : child ∈ pdf.pendingChildren skip p) :
    child.top = false ∧ (child.user = p.user ∨
      child.user = .thumbnail p.user.pageNumber ∧ pdf.HasThumbnail p.object) := by
  rw [pendingChildren] at h
  split at h
  · obtain ⟨item, -, rfl⟩ := List.mem_map.mp h
    exact ⟨rfl, .inl rfl⟩
  · obtain ⟨entry, -, rfl⟩ := List.mem_map.mp h
    exact ⟨rfl, .inl rfl⟩
  · rename_i entries hvalue
    obtain ⟨entry, hentry, rfl⟩ := List.mem_map.mp h
    refine ⟨rfl, ?_⟩
    by_cases hthumb : (pdf.isPage p.object && entry.1 == ascii "/Thumb") = true
    · right
      dsimp only [childUser]
      rw [if_pos hthumb]
      rw [Bool.and_eq_true, beq_iff_eq] at hthumb
      rw [List.mem_filter, visibleChildren, List.mem_filter, Bool.not_eq_true'] at hentry
      exact ⟨rfl, hthumb.1, entries, entry.2, hvalue, hthumb.2 ▸ hentry.1.1, hentry.1.2⟩
    · left
      dsimp only [childUser]
      rw [if_neg hthumb]
  · cases h

/-- The users of a walk: the one it starts with, and the thumbnail of its page. -/
theorem user_of_reached {object : ObjectValue} {user : ObjectUser} {p : Pending}
    (h : (pdf.pendingSearch skip).Reached [⟨object, user, true, false⟩] p) :
    (p.top = true → p.object = object) ∧
      (p.user = user ∨ p.user = .thumbnail user.pageNumber ∧ pdf.HasThumbnail object) := by
  induction h with
  | root hp =>
    rw [List.mem_singleton.mp hp]
    exact ⟨fun _ => rfl, .inl rfl⟩
  | @child p child _ hentry hchild ih =>
    obtain ⟨htop, huser⟩ := user_of_mem_pendingChildren hchild
    refine ⟨fun h => absurd h (by rw [htop]; exact Bool.false_ne_true), ?_⟩
    rcases huser with huser | ⟨huser, hthumb⟩
    · rw [huser]
      exact ih.2
    · right
      -- a page is entered at the start only, so the thumbnail is that of the start
      have hpage : p.top = true := by
        have hentered : ¬ (pdf.isPage p.object && !p.top) = true := by
          intro hstop
          apply hentry
          have hnull : pdf.isNull p.object = false := by
            obtain ⟨-, entries, thumb, hvalue, -⟩ := hthumb
            rw [isNull, hvalue]
            rfl
          simp only [pendingSearch, pendingEntry, placeEntry, hnull, Bool.false_eq_true, if_false]
          rw [if_pos hstop]
        rw [hthumb.1, Bool.true_and, Bool.not_eq_true', Bool.not_eq_false] at hentered
        exact hentered
      rw [ih.1 hpage] at hthumb
      refine ⟨?_, hthumb⟩
      rw [huser]
      rcases ih.2 with hp | ⟨hp, -⟩
      · rw [hp]
      · rw [hp]
        rfl

/-- What one walk records. -/
structure WalkOf (pdf : Pdf) (skip : SkipStreamParameters) (start : ObjectUser × ObjectValue)
    (records : List (ObjectUser × QpdfObjGen)) : Prop where
  run : ∃ bound, ∀ fuel, bound ≤ fuel → ∀ maps : Optimization,
    pdf.updateObjectMaps skip fuel maps start.1 start.2 = some (maps.recordAll records)
  recursion : ∃ bound, ∀ depth, bound ≤ depth →
    pdf.recordBelow skip depth [] ⟨start.2, start.1, true, false⟩ = some records
  reaches : ∀ objectGen, objectGen ∈ records.map Prod.snd ↔ pdf.ReachableFrom skip start.2 objectGen
  users : ∀ record ∈ records, record.1 = start.1 ∨
    record.1 = .thumbnail start.1.pageNumber ∧ pdf.HasThumbnail start.2

theorem exists_walkOf (pdf : Pdf) (skip : SkipStreamParameters) (start : ObjectUser × ObjectValue) :
    ∃ records, pdf.WalkOf skip start records := by
  obtain ⟨log, depth, hloop, hwalk⟩ := pdf.exists_log skip ⟨start.2, start.1, true, false⟩
  have hlast := hloop _ (Nat.le_refl _)
  refine ⟨log.map recordOf, ⟨pdf.walkBound skip start.2, ?_⟩, ⟨depth, ?_⟩, ?_, ?_⟩
  · intro fuel hfuel maps
    rw [updateObjectMaps_eq, hloop fuel hfuel]
    rfl
  · intro n hn
    have h := recordBelow_eq pdf skip n [] ⟨start.2, start.1, true, false⟩
    rw [hwalk n hn] at h
    exact h
  · intro objectGen
    rw [← mem_log_iff hlast, List.map_map]
    rfl
  · intro record hrecord
    obtain ⟨e, he, rfl⟩ := List.mem_map.mp hrecord
    have hsound := Search.loop_sound hlast (fun _ h => absurd h List.not_mem_nil)
      (fun _ h => .root h) e he
    exact (user_of_reached hsound.1).2

/-- The recursive definition of the records: one walk for every start, then the
root itself. -/
def recordsOf (pdf : Pdf) (skip : SkipStreamParameters) (depth : ℕ)
    (starts : List (ObjectUser × ObjectValue)) : Option (List (ObjectUser × QpdfObjGen)) := do
  let walks ← starts.mapM fun start =>
    pdf.recordBelow skip depth [] ⟨start.2, start.1, true, false⟩
  return walks.flatten ++ pdf.rootRecord

theorem exists_run {walk : ObjectUser × ObjectValue → List (ObjectUser × QpdfObjGen)}
    (hwalk : ∀ start, pdf.WalkOf skip start (walk start))
    (starts : List (ObjectUser × ObjectValue)) :
    ∃ bound, ∀ fuel, bound ≤ fuel → ∀ maps : Optimization,
      starts.foldlM (fun maps start => pdf.updateObjectMaps skip fuel maps start.1 start.2) maps =
        some (maps.recordAll (starts.flatMap walk)) := by
  induction starts with
  | nil => exact ⟨0, fun _ _ _ => rfl⟩
  | cons start starts ih =>
    obtain ⟨bound, hrun⟩ := ih
    obtain ⟨bound', hrun'⟩ := (hwalk start).run
    refine ⟨max bound bound', ?_⟩
    intro fuel hfuel maps
    rw [List.foldlM_cons, hrun' fuel (by omega), List.flatMap_cons, Optimization.recordAll_append]
    exact hrun fuel (by omega) _

theorem exists_recursion {walk : ObjectUser × ObjectValue → List (ObjectUser × QpdfObjGen)}
    (hwalk : ∀ start, pdf.WalkOf skip start (walk start))
    (starts : List (ObjectUser × ObjectValue)) :
    ∃ bound, ∀ depth, bound ≤ depth →
      starts.mapM (fun start => pdf.recordBelow skip depth [] ⟨start.2, start.1, true, false⟩) =
        some (starts.map walk) := by
  induction starts with
  | nil => exact ⟨0, fun _ _ => rfl⟩
  | cons start starts ih =>
    obtain ⟨bound, hrecursion⟩ := ih
    obtain ⟨bound', hrecursion'⟩ := (hwalk start).recursion
    refine ⟨max bound bound', ?_⟩
    intro depth hdepth
    rw [List.mapM_cons, hrecursion' depth (by omega), hrecursion depth (by omega)]
    rfl

/-! ## Pages -/

/-- Reached from a page with this number. -/
def ReachableFromPage (pdf : Pdf) (skip : SkipStreamParameters) (pages : List ObjectValue)
    (n : UInt32) (objectGen : QpdfObjGen) : Prop :=
  ∃ i page, pages[i]? = some page ∧ UInt32.ofNat i = n ∧ pdf.ReachableFrom skip page objectGen

/-- The value of a trailer key or of a root key is itself a page with a thumbnail. -/
def KeyThumbnail (pdf : Pdf) (rootEntries : List (Bytes × ObjectValue)) : Prop :=
  ∃ start ∈ pdf.keyStarts rootEntries, pdf.HasThumbnail start.2

theorem mem_pageStarts : start ∈ pageStarts pages ↔
    ∃ i, pages[i]? = some start.2 ∧ start.1 = .page (UInt32.ofNat i) := by
  obtain ⟨user, object⟩ := start
  rw [pageStarts, List.mem_map]
  constructor
  · rintro ⟨⟨page, i⟩, hmem, heq⟩
    cases heq
    exact ⟨i, List.mem_zipIdx_iff_getElem?.mp hmem, rfl⟩
  · rintro ⟨i, hget, rfl⟩
    exact ⟨(object, i), List.mem_zipIdx_iff_getElem?.mpr hget, rfl⟩

theorem keyStarts_user (h : start ∈ pdf.keyStarts rootEntries) :
    start.1.pageNumber = 0 ∧ start.1 ≠ .page n ∧ start.1 ≠ .thumbnail n := by
  rw [keyStarts, List.mem_append, List.mem_map, List.mem_map] at h
  rcases h with ⟨entry, -, rfl⟩ | ⟨entry, -, rfl⟩
  · exact ⟨rfl, by simp, by simp⟩
  · exact ⟨rfl, by simp, by simp⟩

theorem not_mem_rootRecord (h : (user, objectGen) ∈ pdf.rootRecord) : user = .root := by
  rw [rootRecord] at h
  split at h
  · split at h
    · cases List.mem_singleton.mp h
      rfl
    · cases h
  · cases h

/-- The users of the pages and what is reached from the pages. -/
theorem page_users {walk : ObjectUser × ObjectValue → List (ObjectUser × QpdfObjGen)}
    (hwalk : ∀ start, pdf.WalkOf skip start (walk start)) (n : UInt32) (objectGen : QpdfObjGen) :
    (pdf.ReachableFromPage skip pages n objectGen →
      ∃ user ∈ [.page n, .thumbnail n], (user, objectGen) ∈
        (pageStarts pages ++ pdf.keyStarts rootEntries).flatMap walk ++ pdf.rootRecord) ∧
    (n ≠ 0 ∨ ¬ pdf.KeyThumbnail rootEntries → ∀ user ∈ [.page n, .thumbnail n],
      (user, objectGen) ∈
        (pageStarts pages ++ pdf.keyStarts rootEntries).flatMap walk ++ pdf.rootRecord →
      pdf.ReachableFromPage skip pages n objectGen) := by
  constructor
  · rintro ⟨i, page, hget, rfl, hreach⟩
    have hstart : (.page (UInt32.ofNat i), page) ∈ pageStarts pages :=
      mem_pageStarts.mpr ⟨i, hget, rfl⟩
    have hmem := ((hwalk (.page (UInt32.ofNat i), page)).reaches objectGen).mpr hreach
    obtain ⟨⟨user, object⟩, hrecord, rfl⟩ := List.mem_map.mp hmem
    refine ⟨user, ?_, List.mem_append_left _ (List.mem_flatMap.mpr
      ⟨_, List.mem_append_left _ hstart, hrecord⟩)⟩
    rcases (hwalk (.page (UInt32.ofNat i), page)).users _ hrecord with huser | ⟨huser, -⟩
    · rw [show user = .page (UInt32.ofNat i) from huser]
      exact List.mem_cons_self
    · rw [show user = .thumbnail (UInt32.ofNat i) from huser]
      exact List.mem_cons_of_mem _ List.mem_cons_self
  · intro hn user huser hmem
    have hnumber : user.pageNumber = n ∧ (user = .page n ∨ user = .thumbnail n) := by
      rcases List.mem_cons.mp huser with rfl | huser
      · exact ⟨rfl, .inl rfl⟩
      · rw [List.mem_singleton.mp huser]
        exact ⟨rfl, .inr rfl⟩
    rcases List.mem_append.mp hmem with hmem | hroot
    · obtain ⟨start, hstart, hrecord⟩ := List.mem_flatMap.mp hmem
      have hreach := ((hwalk start).reaches objectGen).mp (List.mem_map_of_mem hrecord)
      have husers := (hwalk start).users _ hrecord
      rcases List.mem_append.mp hstart with hpage | hkey
      · obtain ⟨i, hget, hfirst⟩ := mem_pageStarts.mp hpage
        refine ⟨i, start.2, hget, ?_, hreach⟩
        rw [hfirst] at husers
        rw [← hnumber.1]
        rcases husers with h | ⟨h, -⟩
        · rw [show user = .page (UInt32.ofNat i) from h]
          rfl
        · rw [show user = .thumbnail (UInt32.ofNat i) from h]
          rfl
      · obtain ⟨hzero, hnotPage, hnotThumbnail⟩ := keyStarts_user (n := n) hkey
        rcases husers with h | ⟨h, hthumb⟩
        · rcases hnumber.2 with hu | hu
          · exact absurd (h.symm.trans hu) hnotPage
          · exact absurd (h.symm.trans hu) hnotThumbnail
        · rcases hn with hn | hn
          · have hpageNumber : user.pageNumber = 0 := by
              rw [show user = _ from h, hzero]
              rfl
            exact absurd (hnumber.1.symm.trans hpageNumber) hn
          · exact absurd ⟨start, hkey, hthumb⟩ hn
    · rw [not_mem_rootRecord hroot] at hnumber
      rcases hnumber.2 with h | h <;> cases h

end Pdf

/-! ## Containers -/

namespace Optimization

variable {maps : Optimization} {objectStreamData : ExtTreeMap UInt32 UInt32} {stream : UInt32}
  {user : ObjectUser} {object : QpdfObjGen}

def streamOf (objectStreamData : ExtTreeMap UInt32 UInt32) (object : QpdfObjGen) : Option UInt32 :=
  (memberNumber object).bind fun number => objectStreamData[number]?

theorem container_injective {stream' : UInt32} (h : container stream = container stream') :
    stream = stream' := by
  have hobject : stream.toInt32.toInt = stream'.toInt32.toInt :=
    congrArg QpdfObjGen.object h
  have hint : stream.toInt32 = stream'.toInt32 := Int32.toInt_inj.mp hobject
  exact congrArg Int32.toUInt32 hint

theorem filterTarget_eq (objectStreamData : ExtTreeMap UInt32 UInt32) (object : QpdfObjGen) :
    filterTarget objectStreamData object =
      ((streamOf objectStreamData object).map container).getD object := rfl

theorem mem_rawObjectsFor_container :
    container stream ∈ (maps.filterCompressedObjects objectStreamData).rawObjectsFor user ↔
      (∃ object ∈ maps.rawObjectsFor user, streamOf objectStreamData object = some stream) ∨
        streamOf objectStreamData (container stream) = none ∧
          container stream ∈ maps.rawObjectsFor user := by
  rw [mem_rawObjectsFor_filterCompressedObjects]
  constructor
  · rintro ⟨object, hmem, htarget⟩
    rw [filterTarget_eq] at htarget
    cases hstream : streamOf objectStreamData object with
    | none =>
      rw [hstream] at htarget
      cases htarget
      exact .inr ⟨hstream, hmem⟩
    | some other =>
      rw [hstream] at htarget
      exact .inl ⟨object, hmem, by rw [hstream, container_injective htarget]⟩
  · rintro (⟨object, hmem, hstream⟩ | ⟨hnone, hmem⟩)
    · refine ⟨object, hmem, ?_⟩
      rw [filterTarget_eq, hstream]
      rfl
    · refine ⟨container stream, hmem, ?_⟩
      rw [filterTarget_eq, hnone]
      rfl

/-- The users of a container: those of its members, and its own when it is not
itself a member. -/
theorem users_of_container (h : maps.MutuallyInverse) :
    user ∈ ((maps.filterCompressedObjects objectStreamData).rawUsersFor (container stream)).toList ↔
      (∃ object, streamOf objectStreamData object = some stream ∧
        user ∈ (maps.rawUsersFor object).toList) ∨
      streamOf objectStreamData (container stream) = none ∧
        user ∈ (maps.rawUsersFor (container stream)).toList := by
  have hfiltered := h.filterCompressedObjects objectStreamData
  simp only [CompactObjectUserSet.mem_toList]
  rw [← hfiltered user (container stream), mem_rawObjectsFor_container, h user (container stream)]
  constructor
  · rintro (⟨object, hmem, hstream⟩ | hown)
    · exact .inl ⟨object, hstream, (h user object).mp hmem⟩
    · exact .inr hown
  · rintro (⟨object, hstream, hmem⟩ | hown)
    · exact .inl ⟨object, (h user object).mpr hmem, hstream⟩
    · exact .inr hown

end Optimization

namespace Pdf

/-- One page; `/Info` is another page with a thumbnail. -/
def infoPagePdf : Pdf where
  objects :=
    [(⟨1, 0⟩, .dictionary [(ascii "/Type", .name (ascii "Catalog"))]),
      (⟨2, 0⟩, .dictionary
        [(ascii "/Thumb", .indirect ⟨3, 0⟩), (ascii "/Type", .name (ascii "Page"))]),
      (⟨3, 0⟩, .dictionary []),
      (⟨4, 0⟩, .dictionary [(ascii "/Type", .name (ascii "Page"))])]
  trailer := [(ascii "/Info", .indirect ⟨2, 0⟩), (ascii "/Root", .indirect ⟨1, 0⟩)]

theorem infoPagePdf_page {objectGen : QpdfObjGen}
    (h : infoPagePdf.ReachableFromPage (fun _ _ => 0) [.indirect ⟨4, 0⟩] n objectGen) :
    objectGen = ⟨4, 0⟩ := by
  obtain ⟨i, page, hget, -, hreach⟩ := h
  have hpage : page = .indirect ⟨4, 0⟩ := List.mem_singleton.mp (List.mem_of_getElem? hget)
  have hloop : (infoPagePdf.pendingSearch fun _ _ => 0).loop 10 []
      [⟨.indirect ⟨4, 0⟩, .page 0, true, false⟩] =
        some [(⟨4, 0⟩, ⟨.indirect ⟨4, 0⟩, .page 0, true, false⟩)] := by
    rfl
  rw [hpage, ← mem_log_iff hloop] at hreach
  exact List.mem_singleton.mp hreach

def infoPageMaps : Optimization :=
  Optimization.default.recordAll
    [(.page 0, ⟨4, 0⟩), (.trailerKey (ascii "Info"), ⟨2, 0⟩), (.thumbnail 0, ⟨3, 0⟩),
      (.root, ⟨1, 0⟩)]

/-- Object 3 in container 2, which is itself in container 5. -/
def nestedStreamData : ExtTreeMap UInt32 UInt32 := ((∅ : ExtTreeMap UInt32 UInt32).insert 3 2).insert 2 5

end Pdf

end Flpdf
