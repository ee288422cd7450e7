import Flpdf.Linearization.SharedSections
import Mathlib.Data.Finset.Card

/-!
# The header of the shared object hints

The header counts the units of Part 8 and takes the rest of the list for the first-page
section. The count and the list part ways over two kinds of containers, and over no others.
-/

namespace Flpdf

namespace LinearizationPlan

variable {plan : LinearizationPlan} {map : MemberToContainer} {renumber : RenumberMap}
  {sections : ContainerSections} {container : ℕ}

/-! ## The containers of Part 8 -/

theorem mem_laterPages {optimization : Optimization} {members : List ObjectRef} {page : UInt32} :
    page ∈ optimization.laterPages members ↔
      page ≠ 0 ∧ ∃ member ∈ members, page ∈ optimization.pageUsers member := by
  rw [Optimization.laterPages, (List.perm_insertionSort _ _).mem_iff, List.mem_dedup,
    List.mem_filter, List.mem_flatMap, decide_eq_true_eq, and_comm]

theorem nodup_laterPages {optimization : Optimization} {members : List ObjectRef} :
    (optimization.laterPages members).Nodup :=
  (List.perm_insertionSort _ _).nodup_iff.mpr (List.nodup_dedup _)

theorem two_le_length_iff {α : Type*} [DecidableEq α] {l : List α} (h : l.Nodup) :
    2 ≤ l.length ↔ ∃ a b, a ≠ b ∧ a ∈ l ∧ b ∈ l := by
  rw [← List.toFinset_card_of_nodup h, Nat.succ_le_iff, Finset.one_lt_card]
  simp only [List.mem_toFinset]
  constructor
  · rintro ⟨a, ha, b, hb, hne⟩
    exact ⟨a, b, hne, ha, hb⟩
  · rintro ⟨a, b, hne, ha, hb⟩
    exact ⟨a, ha, b, hb, hne⟩

theorem two_le_containerPages : 2 ≤ (plan.containerPages map container).length ↔
    ∃ optimization, plan.optimization = some optimization ∧ ∃ page page' : UInt32,
      page ≠ page' ∧ page ≠ 0 ∧ page' ≠ 0 ∧
      (∃ member, map.containerOf member = some container ∧ page ∈ optimization.pageUsers member) ∧
      ∃ member, map.containerOf member = some container ∧
        page' ∈ optimization.pageUsers member := by
  rw [containerPages]
  cases plan.optimization with
  | none => simp
  | some optimization =>
    simp only [two_le_length_iff nodup_laterPages, mem_laterPages,
      MemberToContainer.mem_membersOf, Option.some.injEq, exists_eq_left']
    constructor
    · rintro ⟨page, page', hne, ⟨hpage, hmember⟩, hpage', hmember'⟩
      exact ⟨page, page', hne, hpage, hpage', hmember, hmember'⟩
    · rintro ⟨page, page', hne, hpage, hpage', hmember, hmember'⟩
      exact ⟨page, page', hne, ⟨hpage, hmember⟩, hpage', hmember'⟩

theorem hasFirstPageMember_iff : plan.hasFirstPageMember map container ↔
    ∃ member, map.containerOf member = some container ∧
      member ∈ plan.part2Objects ++ plan.part3Objects := by
  simp only [hasFirstPageMember, List.any_eq_true, MemberToContainer.mem_membersOf,
    decide_eq_true_eq]

theorem hasSharedMember_iff : plan.hasSharedMember map container ↔
    ∃ member, map.containerOf member = some container ∧ member ∈ plan.part4OtherPagesShared := by
  simp only [hasSharedMember, List.any_eq_true, MemberToContainer.mem_membersOf,
    decide_eq_true_eq]

/-- The helper finds the containers that later pages share. -/
theorem mem_part8ContainerNums : container ∈ plan.part8ContainerNums map ↔
    plan.SharedByLaterPages map container := by
  rw [part8ContainerNums, List.mem_filter, MemberToContainer.mem_containers, Bool.and_eq_true,
    Bool.or_eq_true, Bool.not_eq_true', Bool.eq_false_iff, ne_eq, hasFirstPageMember_iff,
    hasSharedMember_iff, decide_eq_true_eq, two_le_containerPages, SharedByLaterPages]
  constructor
  · rintro ⟨-, hfirst, hshared⟩
    exact ⟨fun member hmember hmem => hfirst ⟨member, hmember, hmem⟩, hshared⟩
  · rintro ⟨hfirst, hshared⟩
    refine ⟨?_, ?_, hshared⟩
    · rcases hshared with ⟨member, hmember, -⟩ | ⟨_, -, _, _, -, -, -, ⟨member, hmember, -⟩, -⟩
      · exact ⟨member, hmember⟩
      · exact ⟨member, hmember⟩
    · rintro ⟨member, hmember, hmem⟩
      exact hfirst member hmember hmem

/-! ## The count -/

/-- The units that the header counts for Part 8. -/
def countedUnits (plan : LinearizationPlan) (map : MemberToContainer)
    (sections : ContainerSections) : List SharedUnit :=
  (SharedObjectHintTable.part8Containers plan map sections).map .container ++
    (plan.otherPagesShared.filter fun object => map.unitOf object = .object object).map .object

theorem mem_part8Containers : container ∈ SharedObjectHintTable.part8Containers plan map sections ↔
    container ∈ plan.part8ContainerNums map ∧ container ∉ sections.openDocument ∧
      container ∉ plan.restContainerNums map := by
  simp [SharedObjectHintTable.part8Containers]

theorem object_mem_countedUnits {object : QpdfObjGen} :
    .object object ∈ plan.countedUnits map sections ↔
      object ∈ plan.otherPagesShared ∧ map.unitOf object = .object object := by
  simp [countedUnits]

theorem container_mem_countedUnits : .container container ∈ plan.countedUnits map sections ↔
    container ∈ plan.part8ContainerNums map ∧ container ∉ sections.openDocument ∧
      container ∉ plan.restContainerNums map := by
  rw [← mem_part8Containers]
  simp [countedUnits]

theorem Consistent.nodup_countedUnits (hc : plan.Consistent) (map : MemberToContainer)
    (sections : ContainerSections) :
    (plan.countedUnits map sections).Nodup := by
  have hshared := (List.nodup_append'.mp hc.nodup_objects).2.1
  rw [countedUnits, List.nodup_append']
  refine ⟨?_, ?_, ?_⟩
  · exact ((MemberToContainer.nodup_containers.filter _).filter _).map
      fun _ _ h => SharedUnit.container.inj h
  · exact (hshared.filter _).map fun _ _ h => SharedUnit.object.inj h
  · intro unit hmem hmem'
    obtain ⟨container, -, rfl⟩ := List.mem_map.mp hmem
    obtain ⟨object, -, heq⟩ := List.mem_map.mp hmem'
    cases heq

theorem Consistent.part8Plain_eq (hc : plan.Consistent) :
    SharedObjectHintTable.part8Plain plan map =
      (plan.otherPagesShared.filter fun object => map.unitOf object = .object object).length := by
  have hplain : ∀ object : QpdfObjGen, decide (map.unitOf object = .object object) =
      object.toObjectRef.all fun ref => (map.containerOf ref).isNone := by
    intro object
    rw [Bool.eq_iff_iff, decide_eq_true_eq, MemberToContainer.unitOf_eq_object]
    cases object.toObjectRef <;> simp
  simp only [hplain]
  rw [SharedObjectHintTable.part8Plain]
  by_cases hgap : plan.hasRawProjectionGap
  · rw [if_pos hgap, otherPagesShared, if_pos hgap]
  · rw [if_neg hgap, otherPagesShared, if_neg hgap, rawIdentities_of_valid hc.shared.valid,
      List.filter_map, List.length_map]
    congr 1
    apply List.filter_congr
    intro ref hmem
    rw [Function.comp, (hc.shared.valid ref hmem).toObjectRef]
    rfl

theorem length_containers_le (map : MemberToContainer) :
    map.containers.length ≤ map.rows.length := by
  rw [MemberToContainer.containers, (List.perm_insertionSort _ _).length_eq]
  refine (List.dedup_sublist _).length_le.trans ?_
  rw [List.length_map]

theorem Consistent.length_objects_le (hc : plan.Consistent) :
    (plan.firstPageObjects ++ plan.otherPagesShared).length ≤
      plan.sharedHints.length + plan.raw.sharedHints.length := by
  by_cases hgap : plan.hasRawProjectionGap
  · have hlength := congrArg List.length (hc.rawHints hgap)
    rw [List.length_map, List.length_map] at hlength
    omega
  · have hlength := congrArg List.length hc.hints
    rw [List.length_map, List.length_append] at hlength
    rw [firstPageObjects, otherPagesShared, if_neg hgap, if_neg hgap,
      rawIdentities_of_valid hc.firstPage.valid, rawIdentities_of_valid hc.shared.valid,
      List.length_append, List.length_map, List.length_map]
    omega

theorem Numbers.length_countedUnits_lt (hn : Numbers renumber plan map) (hc : plan.Consistent)
    (sections : ContainerSections) :
    (SharedObjectHintTable.part8Containers plan map sections).length +
      SharedObjectHintTable.part8Plain plan map < 2 ^ 32 := by
  have hcontainers : (SharedObjectHintTable.part8Containers plan map sections).length ≤
      map.containers.length :=
    ((List.filter_sublist).trans List.filter_sublist).length_le
  have hplain : SharedObjectHintTable.part8Plain plan map ≤ plan.otherPagesShared.length := by
    rw [hc.part8Plain_eq]
    exact List.length_filter_le _ _
  have hrows := length_containers_le map
  have hobjects := hc.length_objects_le
  have hfits := hn.fits
  rw [List.length_append] at hobjects
  omega

theorem Numbers.part8Entries_eq (hn : Numbers renumber plan map) (hc : plan.Consistent) :
    SharedObjectHintTable.part8Entries plan map sections =
      (plan.countedUnits map sections).length := by
  have hlt := hn.length_countedUnits_lt hc sections
  have hcontainers : (SharedObjectHintTable.part8Containers plan map sections).length < 2 ^ 32 := by
    omega
  have hplain : SharedObjectHintTable.part8Plain plan map < 2 ^ 32 := by
    omega
  rw [SharedObjectHintTable.part8Entries, Nat.mod_eq_of_lt hcontainers, Nat.mod_eq_of_lt hplain,
    Nat.mod_eq_of_lt hlt, hc.part8Plain_eq, countedUnits, List.length_append, List.length_map,
    List.length_map]

/-- Every unit of the list is a container or a plain object of the plan. -/
theorem HasSections.length_lt {front back : List RawSharedObjectHintEntry}
    (h : HasSections plan map renumber sections front back) (hc : plan.Consistent)
    (hn : Numbers renumber plan map) : (front ++ back).length < 2 ^ 32 := by
  have hcontainer : ∀ container,
      plan.FirstPageUnit map sections (.container container) ∨
        plan.ListedBehind map sections (.container container) → container ∈ map.containers := by
    rintro container (hunit | hunit)
    · obtain ⟨ref, -, hmember⟩ := hc.firstPage.exists_container.mp hunit.1
      exact MemberToContainer.mem_containers.mpr ⟨ref, hmember⟩
    · rcases hunit.1 with ⟨ref, -, hmember⟩ | hpart8
      · exact MemberToContainer.mem_containers.mpr ⟨ref, hmember⟩
      · exact (List.mem_filter.mp hpart8).1
  have hsub : (front ++ back).map (·.unit) ⊆
      ((plan.firstPageObjects ++ plan.otherPagesShared).map SharedUnit.object ++
        map.containers.map SharedUnit.container).map some := by
    intro unit hunit
    obtain ⟨entry, hentry, rfl⟩ := List.mem_map.mp hunit
    obtain ⟨unit, heq⟩ := Option.isSome_iff_exists.mp (h.units entry hentry)
    rw [heq, List.map_append, List.mem_append, h.first, h.behind] at hunit
    rw [heq]
    apply List.mem_map_of_mem
    cases unit with
    | object object =>
      apply List.mem_append_left
      apply List.mem_map_of_mem
      rcases hunit with hunit | hunit
      · exact List.mem_append_left _ hunit.1
      · exact List.mem_append_right _ hunit.1
    | container container =>
      apply List.mem_append_right
      exact List.mem_map_of_mem (hcontainer container hunit)
  have hle := (List.subperm_of_subset h.nodup hsub).length_le
  have hrows := length_containers_le map
  have hobjects := hc.length_objects_le
  have hfits := hn.fits
  simp only [List.length_map, List.length_append] at hle hobjects ⊢
  omega

/-- The header of a list that fits the counts. -/
theorem HasSections.fromPlan_eq {front back : List RawSharedObjectHintEntry}
    (h : HasSections plan map renumber sections front back) (hc : plan.Consistent)
    (hn : Numbers renumber plan map) :
    (SharedObjectHintTable.fromPlan plan map renumber sections).header.sectionEntries =
        (front ++ back).length ∧
      (SharedObjectHintTable.fromPlan plan map renumber sections).objects.length =
        (front ++ back).length ∧
      (SharedObjectHintTable.fromPlan plan map renumber sections).header.firstPageEntries =
        (front ++ back).length - (plan.countedUnits map sections).length ∧
      (SharedObjectHintTable.fromPlan plan map renumber sections).header.firstObjectNumber =
        (((front ++ back)[(front ++ back).length - (plan.countedUnits map sections).length]?).map
          (SharedObjectHintTable.hintNumber renumber)).getD 0 := by
  rw [SharedObjectHintTable.fromPlan, h.list, Nat.mod_eq_of_lt (h.length_lt hc hn),
    hn.part8Entries_eq hc]
  by_cases hempty : (front ++ back).length = 0
  · rw [if_pos hempty, List.length_eq_zero_iff.mp hempty]
    simp
  · rw [if_neg hempty]
    refine ⟨rfl, ?_, rfl, rfl⟩
    rw [List.length_map]

/-! ## The two kinds of containers -/

/-- A container of the first-page section, through its outline objects alone, that later pages
share: it is counted for Part 8, but listed in the first-page section. -/
def CountedAway (plan : LinearizationPlan) (map : MemberToContainer)
    (sections : ContainerSections) (container : ℕ) : Prop :=
  container ∈ plan.part8ContainerNums map ∧ container ∉ sections.openDocument ∧
    container ∉ plan.restContainerNums map ∧ container ∉ sections.secondHalf ∧
    ∃ member ∈ plan.outlineFirstPageMembers, map.containerOf member = some container

/-- A container of the second half with an object of Part 2 or Part 3 and one that later pages
share: it is listed behind the first-page section, but not counted for Part 8. -/
def ListedUncounted (plan : LinearizationPlan) (map : MemberToContainer)
    (sections : ContainerSections) (container : ℕ) : Prop :=
  plan.hasFirstPageMember map container ∧ plan.hasSharedMember map container ∧
    container ∉ sections.openDocument ∧ container ∉ plan.restContainerNums map ∧
    container ∈ sections.secondHalf

/-- The count takes a unit of the first-page section exactly when it is a container of the
first kind. -/
theorem Consistent.counted_front_iff (hc : plan.Consistent) :
    (∃ unit ∈ plan.countedUnits map sections, plan.FirstPageUnit map sections unit) ↔
      ∃ container, plan.CountedAway map sections container := by
  constructor
  · rintro ⟨unit, hcounted, hfirst⟩
    cases unit with
    | object object =>
      have hdisjoint := (List.nodup_append'.mp hc.nodup_objects).2.2
      exact absurd (object_mem_countedUnits.mp hcounted).1 (hdisjoint hfirst.1)
    | container container =>
      obtain ⟨hpart8, hopen, hrest⟩ := container_mem_countedUnits.mp hcounted
      obtain ⟨hobject, -, hsecond⟩ := hfirst
      obtain ⟨ref, hmem, hmember⟩ := hc.firstPage.exists_container.mp hobject
      refine ⟨container, hpart8, hopen, hrest, hsecond, ref, ?_, hmember⟩
      have hnot := (mem_part8ContainerNums.mp hpart8).1 ref hmember
      exact (List.mem_append.mp hmem).resolve_left hnot
  · rintro ⟨container, hpart8, hopen, hrest, hsecond, ref, hmem, hmember⟩
    refine ⟨.container container, container_mem_countedUnits.mpr ⟨hpart8, hopen, hrest⟩, ?_, hopen,
      hsecond⟩
    exact hc.firstPage.exists_container.mpr ⟨ref, List.mem_append_right _ hmem, hmember⟩

/-- The list has a unit behind the first-page section that is not counted exactly when it is a
container of the second kind. -/
theorem Consistent.uncounted_behind_iff (hc : plan.Consistent) :
    (∃ unit, plan.ListedBehind map sections unit ∧ unit ∉ plan.countedUnits map sections) ↔
      ∃ container, plan.ListedUncounted map sections container := by
  constructor
  · rintro ⟨unit, hlisted, hnot⟩
    cases unit with
    | object object => exact absurd (object_mem_countedUnits.mpr hlisted) hnot
    | container container =>
      obtain ⟨hshared, hopen, hrest, hfront⟩ := hlisted
      rw [container_mem_countedUnits] at hnot
      have hpart8 : container ∉ plan.part8ContainerNums map := fun h => hnot ⟨h, hopen, hrest⟩
      obtain ⟨ref, hmem, hmember⟩ := hshared.resolve_right hpart8
      have hfirst : ∃ member, map.containerOf member = some container ∧
          member ∈ plan.part2Objects ++ plan.part3Objects := by
        by_contra hfirst
        apply hpart8
        rw [mem_part8ContainerNums]
        exact ⟨fun member hmember hmem => hfirst ⟨member, hmember, hmem⟩,
          .inl ⟨ref, hmember, hmem⟩⟩
      refine ⟨container, hasFirstPageMember_iff.mpr hfirst,
        hasSharedMember_iff.mpr ⟨ref, hmember, hmem⟩, hopen, hrest, ?_⟩
      by_contra hsecond
      obtain ⟨member, hmember, hmem⟩ := hfirst
      exact hfront ⟨hc.firstPage.exists_container.mpr
        ⟨member, List.mem_append_left _ hmem, hmember⟩, hopen, hsecond⟩
  · rintro ⟨container, hfirst, hshared, hopen, hrest, hsecond⟩
    obtain ⟨ref, hmember, hmem⟩ := hasSharedMember_iff.mp hshared
    refine ⟨.container container, ⟨.inl ⟨ref, hmem, hmember⟩, hopen, hrest, ?_⟩, ?_⟩
    · exact fun h => h.2.2 hsecond
    · rw [container_mem_countedUnits, mem_part8ContainerNums]
      obtain ⟨member, hmember, hmem⟩ := hasFirstPageMember_iff.mp hfirst
      exact fun h => h.1.1 member hmember hmem

/-- The units of Part 8 are counted, and are not in the first-page section. -/
theorem Consistent.part8Unit_iff (hc : plan.Consistent) {unit : SharedUnit} :
    plan.Part8Unit map sections unit ↔
      unit ∈ plan.countedUnits map sections ∧ ¬plan.FirstPageUnit map sections unit := by
  cases unit with
  | object object =>
    have hdisjoint := (List.nodup_append'.mp hc.nodup_objects).2.2
    rw [Part8Unit, object_mem_countedUnits]
    constructor
    · intro h
      exact ⟨h, fun hfirst => hdisjoint hfirst.1 h.1⟩
    · exact And.left
  | container container =>
    rw [Part8Unit, container_mem_countedUnits, mem_part8ContainerNums]
    tauto

theorem HasSections.countedUnits_subset {front back : List RawSharedObjectHintEntry}
    (h : HasSections plan map renumber sections front back) :
    (plan.countedUnits map sections).map some ⊆ front.map (·.unit) ++ back.map (·.unit) := by
  intro unit hunit
  obtain ⟨unit, hcounted, rfl⟩ := List.mem_map.mp hunit
  rw [List.mem_append, h.first, h.behind]
  cases unit with
  | object object => exact .inr (object_mem_countedUnits.mp hcounted)
  | container container =>
    by_cases hfirst : plan.FirstPageUnit map sections (.container container)
    · exact .inl hfirst
    · obtain ⟨hpart8, hopen, hrest⟩ := container_mem_countedUnits.mp hcounted
      exact .inr ⟨.inr hpart8, hopen, hrest, hfirst⟩

/-- The count is of the units behind the first-page section exactly when there is no container
of the two kinds. -/
theorem HasSections.counted_iff {front back : List RawSharedObjectHintEntry}
    (h : HasSections plan map renumber sections front back) (hc : plan.Consistent) :
    (∀ unit, unit ∈ (plan.countedUnits map sections).map some ↔ unit ∈ back.map (·.unit)) ↔
      ∀ container, ¬plan.CountedAway map sections container ∧
        ¬plan.ListedUncounted map sections container := by
  have hnodup := h.nodup
  rw [List.map_append] at hnodup
  have hdisjoint := (List.nodup_append'.mp hnodup).2.2
  constructor
  · intro hsame container
    constructor
    · intro haway
      obtain ⟨unit, hcounted, hfirst⟩ := hc.counted_front_iff.mpr ⟨container, haway⟩
      exact hdisjoint ((h.first unit).mpr hfirst)
        ((hsame (some unit)).mp (List.mem_map_of_mem hcounted))
    · intro huncounted
      obtain ⟨unit, hlisted, hnot⟩ := hc.uncounted_behind_iff.mpr ⟨container, huncounted⟩
      have hmem := (hsame (some unit)).mpr ((h.behind unit).mpr hlisted)
      rw [List.mem_map_of_injective (Option.some_injective _)] at hmem
      exact hnot hmem
  · intro hnone unit
    constructor
    · intro hcounted
      rcases List.mem_append.mp (h.countedUnits_subset hcounted) with hfront | hback
      · obtain ⟨unit, hmem, rfl⟩ := List.mem_map.mp hcounted
        obtain ⟨container, haway⟩ := hc.counted_front_iff.mp ⟨unit, hmem, (h.first unit).mp hfront⟩
        exact absurd haway (hnone container).1
      · exact hback
    · intro hback
      obtain ⟨entry, hentry, rfl⟩ := List.mem_map.mp hback
      obtain ⟨unit, heq⟩ := Option.isSome_iff_exists.mp
        (h.units entry (List.mem_append_right _ hentry))
      rw [heq] at hback ⊢
      rw [List.mem_map_of_injective (Option.some_injective _)]
      by_contra hnot
      obtain ⟨container, huncounted⟩ :=
        hc.uncounted_behind_iff.mp ⟨unit, (h.behind unit).mp hback, hnot⟩
      exact (hnone container).2 huncounted

/-! ## The header and the list -/

/-- The header of the table agrees with the folded list. -/
structure HeaderAgrees (plan : LinearizationPlan) (map : MemberToContainer)
    (renumber : RenumberMap) (sections : ContainerSections)
    (table : SharedObjectHintTable) (folded : List RawSharedObjectHintEntry) : Prop where
  sectionEntries : table.header.sectionEntries = folded.length
  entries : table.objects.length = folded.length
  firstPage : ∀ unit, some unit ∈ (folded.take table.header.firstPageEntries).map (·.unit) ↔
    plan.FirstPageUnit map sections unit
  part8 : ∀ unit, some unit ∈ (folded.drop table.header.firstPageEntries).map (·.unit) ↔
    plan.Part8Unit map sections unit
  units : ∀ entry ∈ folded, entry.unit.isSome
  nodup : (folded.map (·.unit)).Nodup
  firstPageOrder : (folded.take table.header.firstPageEntries).Pairwise fun a b =>
    SharedObjectHintTable.hintNumber renumber a ≤ SharedObjectHintTable.hintNumber renumber b
  part8Order : (folded.drop table.header.firstPageEntries).Pairwise fun a b =>
    SharedObjectHintTable.hintNumber renumber a ≤ SharedObjectHintTable.hintNumber renumber b
  firstObject : ∀ entry, folded[table.header.firstPageEntries]? = some entry →
    table.header.firstObjectNumber = SharedObjectHintTable.hintNumber renumber entry

/-- What the two sections of a list say of the units they have. -/
theorem HasSections.split_iff {front back : List RawSharedObjectHintEntry}
    (h : HasSections plan map renumber sections front back) (hc : plan.Consistent) {count : ℕ} :
    ((∀ unit, unit ∈ ((front ++ back).take count).map (·.unit) ↔ unit ∈ front.map (·.unit)) ∧
      (∀ unit, unit ∈ ((front ++ back).drop count).map (·.unit) ↔
        unit ∈ (plan.countedUnits map sections).map some ∧ unit ∉ front.map (·.unit))) ↔
      (∀ unit, some unit ∈ ((front ++ back).take count).map (·.unit) ↔
        plan.FirstPageUnit map sections unit) ∧
      ∀ unit, some unit ∈ ((front ++ back).drop count).map (·.unit) ↔
        plan.Part8Unit map sections unit := by
  have hnone : ∀ entries : List RawSharedObjectHintEntry, entries ⊆ front ++ back →
      none ∉ entries.map (·.unit) := by
    intro entries hsub hmem
    obtain ⟨entry, hentry, hunit⟩ := List.mem_map.mp hmem
    have hsome := h.units entry (hsub hentry)
    rw [hunit] at hsome
    cases hsome
  constructor
  · rintro ⟨htake, hdrop⟩
    constructor
    · intro unit
      rw [htake, h.first]
    · intro unit
      rw [hdrop, List.mem_map_of_injective (Option.some_injective _), h.first,
        hc.part8Unit_iff]
  · rintro ⟨htake, hdrop⟩
    constructor
    · intro unit
      cases unit with
      | none =>
        exact iff_of_false (hnone _ (List.take_subset _ _))
          (hnone _ (List.subset_append_left _ _))
      | some unit => rw [htake, h.first]
    · intro unit
      cases unit with
      | none =>
        refine iff_of_false (hnone _ (List.drop_subset _ _)) ?_
        simp
      | some unit =>
        rw [hdrop, List.mem_map_of_injective (Option.some_injective _), h.first,
          hc.part8Unit_iff]

/-- The header agrees with the list exactly when every container that is counted for Part 8 is
listed there, and the other way round. -/
theorem fromPlan_headerAgrees_iff (plan : LinearizationPlan) (map : MemberToContainer)
    (renumber : RenumberMap) (sections : ContainerSections) (hc : plan.Consistent)
    (hn : Numbers renumber plan map) :
    HeaderAgrees plan map renumber sections
        (SharedObjectHintTable.fromPlan plan map renumber sections)
        (plan.canonicalRawSharedHints map renumber sections) ↔
      ∀ container, ¬plan.CountedAway map sections container ∧
        ¬plan.ListedUncounted map sections container := by
  obtain ⟨front, back, h⟩ := exists_hasSections sections hc hn
  obtain ⟨hentries, hobjects, hcount, hfirst⟩ := h.fromPlan_eq hc hn
  have hcounted := (hc.nodup_countedUnits map sections).map
    (Option.some_injective _)
  have hsections := sections_iff_counted (List.map_append ▸ h.nodup) hcounted
    h.countedUnits_subset
  rw [← List.map_append, List.length_map, List.length_map, ← hcount, ← List.map_take,
    ← List.map_drop, h.split_iff hc] at hsections
  rw [← h.counted_iff hc, h.list]
  constructor
  · intro hagrees
    exact hsections.mp ⟨hagrees.firstPage, hagrees.part8⟩
  · intro hsame
    have hback : (back.map (·.unit)).Nodup := by
      have hnodup := h.nodup
      rw [List.map_append, List.nodup_append'] at hnodup
      exact hnodup.2.1
    have hlength := ((List.perm_ext_iff_of_nodup hcounted hback).mpr hsame).length_eq
    rw [List.length_map, List.length_map] at hlength
    have hfront : (SharedObjectHintTable.fromPlan plan map renumber
        sections).header.firstPageEntries = front.length := by
      rw [hcount, hlength, List.length_append, Nat.add_sub_cancel]
    obtain ⟨hfirstPage, hpart8⟩ := hsections.mpr hsame
    refine ⟨hentries, hobjects, hfirstPage, hpart8, h.units, h.nodup, ?_, ?_, ?_⟩
    · rw [hfront, List.take_left]
      exact h.frontOrder
    · rw [hfront, List.drop_left]
      exact h.backOrder
    · intro entry hentry
      rw [hfirst, ← hcount, hentry]
      rfl

/-! ## Two plans -/

/-- The hints of a plan from its references. -/
def plainHints (refs : List ObjectRef) : List SharedObjectHintEntry :=
  refs.map fun ref => ⟨ref, []⟩

/-- The renumbering that gives the references these numbers. -/
def renumberingOf (rows : List (ObjectRef × ℕ)) : RenumberMap where
  byNewNumber := []
  byNewRaw := []
  byOriginal := rows.map fun row => (row.1, ⟨row.2, 0⟩)
  byOriginalRaw := rows.map fun row => (⟨row.1.number, row.1.generation⟩, ⟨row.2, 0⟩)
  paramDictSlot := 0
  hintStreamSlot := 0
  firstHalfCategory := []

/-- Both indices are made from the same rows. -/
theorem renumberingOf_agrees (rows : List (ObjectRef × ℕ)) (ref : ObjectRef) :
    (renumberingOf rows).newForOriginal ref =
      (renumberingOf rows).newForRaw ⟨ref.number, ref.generation⟩ := by
  rw [RenumberMap.newForOriginal, RenumberMap.newForRaw, renumberingOf]
  induction rows with
  | nil => rfl
  | cons row rows ih =>
    rw [List.map_cons, List.map_cons, List.lookup_cons, List.lookup_cons, ih]
    have hkey : (ref == row.1) = ((⟨ref.number, ref.generation⟩ : QpdfObjGen) ==
        ⟨row.1.number, row.1.generation⟩) := by
      obtain ⟨number, generation⟩ := ref
      rw [Bool.eq_iff_iff, beq_iff_eq, beq_iff_eq]
      cases row.1
      simp
    rw [hkey]

/-- A page in front, and two objects that two other pages share, of which the first is
compressed in a container of the second half. -/
def pagesPlan : LinearizationPlan where
  part2Objects := [⟨3, 0⟩]
  part3Objects := [⟨4, 0⟩]
  outlineFirstPageMembers := []
  part4OtherPagesShared := [⟨21, 0⟩, ⟨22, 0⟩]
  part9OutlineObjects := []
  sharedHints := plainHints [⟨3, 0⟩, ⟨4, 0⟩, ⟨21, 0⟩, ⟨22, 0⟩]

def pagesMembers : MemberToContainer := ⟨[(⟨4, 0⟩, 12, 0), (⟨21, 0⟩, 2, 0)], by decide⟩

theorem fromPlan_headerAgrees_iff_pagesPlan :
    HeaderAgrees pagesPlan pagesMembers
      (renumberingOf [(⟨3, 0⟩, 11), (⟨4, 0⟩, 13), (⟨21, 0⟩, 3), (⟨22, 0⟩, 1)]) ⟨[2], []⟩
      (SharedObjectHintTable.fromPlan pagesPlan pagesMembers
        (renumberingOf [(⟨3, 0⟩, 11), (⟨4, 0⟩, 13), (⟨21, 0⟩, 3), (⟨22, 0⟩, 1)]) ⟨[2], []⟩)
      (pagesPlan.canonicalRawSharedHints pagesMembers
        (renumberingOf [(⟨3, 0⟩, 11), (⟨4, 0⟩, 13), (⟨21, 0⟩, 3), (⟨22, 0⟩, 1)]) ⟨[2], []⟩) := by
  refine (fromPlan_headerAgrees_iff pagesPlan pagesMembers _ ⟨[2], []⟩ ?_ ?_).mpr ?_
  · refine ⟨rfl, by decide, by decide, ?_, ?_, ?_, ?_⟩ <;> intro h <;> cases h
  · refine ⟨fun ref _ => renumberingOf_agrees _ ref, by decide, ?_, ?_, by decide⟩ <;>
      intro h <;> cases h
  · intro container
    constructor
    · rintro ⟨-, -, -, -, member, hmem, -⟩
      cases hmem
    · rintro ⟨hfirst, -, -, -, hsecond⟩
      obtain rfl := List.mem_singleton.mp hsecond
      exact absurd hfirst (by decide)

/-- An outline object of the first page in one container with an object that two later pages
share. -/
def outlinePlan : LinearizationPlan where
  part2Objects := [⟨3, 0⟩]
  part3Objects := []
  outlineFirstPageMembers := [⟨20, 0⟩]
  part4OtherPagesShared := [⟨21, 0⟩]
  part9OutlineObjects := []
  sharedHints := plainHints [⟨3, 0⟩, ⟨20, 0⟩, ⟨21, 0⟩]
  optimization := some (Optimization.default.recordAll
    [(.page 0, ⟨3, 0⟩), (.page 1, ⟨21, 0⟩), (.page 2, ⟨21, 0⟩)])

def outlineMembers : MemberToContainer := ⟨[(⟨20, 0⟩, 12, 0), (⟨21, 0⟩, 12, 1)], by decide⟩

/-- The container is the second unit of the first-page section, which the header takes to have
one. -/
theorem fromPlan_outlinePlan : outlinePlan.Consistent ∧
    Numbers (renumberingOf [(⟨3, 0⟩, 11), (⟨20, 0⟩, 13), (⟨21, 0⟩, 14)]) outlinePlan
      outlineMembers ∧
    ¬HeaderAgrees outlinePlan outlineMembers
      (renumberingOf [(⟨3, 0⟩, 11), (⟨20, 0⟩, 13), (⟨21, 0⟩, 14)]) ⟨[], []⟩
      (SharedObjectHintTable.fromPlan outlinePlan outlineMembers
        (renumberingOf [(⟨3, 0⟩, 11), (⟨20, 0⟩, 13), (⟨21, 0⟩, 14)]) ⟨[], []⟩)
      (outlinePlan.canonicalRawSharedHints outlineMembers
        (renumberingOf [(⟨3, 0⟩, 11), (⟨20, 0⟩, 13), (⟨21, 0⟩, 14)]) ⟨[], []⟩) := by
  refine ⟨?_, ?_, ?_⟩
  · refine ⟨rfl, by decide, by decide, ?_, ?_, ?_, ?_⟩ <;> intro h <;> cases h
  · refine ⟨fun ref _ => renumberingOf_agrees _ ref, by decide, ?_, ?_, by decide⟩ <;>
      intro h <;> cases h
  · intro hagrees
    have hunit : outlinePlan.FirstPageUnit outlineMembers ⟨[], []⟩ (.container 12) :=
      ⟨⟨⟨20, 0⟩, by decide, by decide⟩, List.not_mem_nil, List.not_mem_nil⟩
    have hlisted := (hagrees.firstPage (.container 12)).mpr hunit
    revert hlisted
    decide

end LinearizationPlan

end Flpdf
