import Flpdf.Bytes.Decimal
import Flpdf.Job.Numrange
import Mathlib.Data.List.Induction

/-! # The grammar of page ranges

An expression is a list of blocks, each a span of pages with the exclusions behind
it, and at its end possibly a choice of positions.  The numbers are unbounded here.
-/

namespace Flpdf

/-- `digit+`. -/
structure RangeDigits where
  text : Bytes
  ne_nil : text ≠ []
  isAsciiDigit : ∀ b ∈ text, isAsciiDigit b = true

/-- `endpoint ::= "z" | "r" digit+ | digit+`. -/
inductive RangeEndpoint where
  | lastPage
  | fromEnd (count : RangeDigits)
  | page (number : RangeDigits)

/-- The pages from one endpoint to another one, or one page. -/
structure RangeSpan where
  first : RangeEndpoint
  last : Option RangeEndpoint

/-- `group ::= "x"? endpoint ("-" endpoint)?`. -/
structure RangeGroup where
  exclude : Bool
  span : RangeSpan

/-- A positive group with the exclusions behind it. -/
structure RangeBlock where
  span : RangeSpan
  exclusions : List RangeSpan

inductive RangeSuffix where
  | odd
  | even

structure RangeExpression where
  blocks : List RangeBlock
  suffix : Option RangeSuffix

/-! ## Spellings -/

def RangeEndpoint.spelling : RangeEndpoint → Bytes
  | lastPage => ascii "z"
  | fromEnd count => ascii "r" ++ count.text
  | page number => number.text

def RangeSpan.spelling (span : RangeSpan) : Bytes :=
  span.first.spelling ++
    match span.last with
    | none => []
    | some last => ascii "-" ++ last.spelling

def RangeGroup.spelling (group : RangeGroup) : Bytes :=
  (if group.exclude then ascii "x" else []) ++ group.span.spelling

def RangeBlock.groups (block : RangeBlock) : List RangeGroup :=
  { exclude := false, span := block.span } ::
    block.exclusions.map fun span => { exclude := true, span := span }

def RangeSuffix.spelling : RangeSuffix → Bytes
  | odd => ascii ":odd"
  | even => ascii ":even"

def RangeExpression.groups (e : RangeExpression) : List RangeGroup := e.blocks.flatMap RangeBlock.groups

/-- Groups with a comma between them. -/
def spellGroups : List RangeGroup → Bytes
  | [] => []
  | [group] => group.spelling
  | group :: groups => group.spelling ++ ascii "," ++ spellGroups groups

def RangeExpression.spelling (e : RangeExpression) : Bytes :=
  spellGroups e.groups ++
    match e.suffix with
    | none => []
    | some suffix => suffix.spelling

/-- `range ::= "" | group ("," group)* (":odd" | ":even")?`. -/
def RangeExpression.Documented (e : RangeExpression) : Prop := e.blocks = [] → e.suffix = none

/-! ## Pages -/

def RangeEndpoint.value (max : ℤ) : RangeEndpoint → ℤ
  | lastPage => max
  | fromEnd count => max + 1 - decimalValue count.text
  | page number => decimalValue number.text

/-- The numbers between two pages and these, upwards or downwards. -/
def pageSpan (first last : ℤ) : List ℤ :=
  if first ≤ last then intRange first (last + 1) else (intRange last (first + 1)).reverse

def RangeSpan.pages (max : ℤ) (span : RangeSpan) : List ℤ :=
  match span.last with
  | none => [span.first.value max]
  | some last => pageSpan (span.first.value max) (last.value max)

/-- The pages of the positive group that no exclusion names. -/
def RangeBlock.pages (max : ℤ) (block : RangeBlock) : List ℤ :=
  (block.span.pages max).filter fun page => block.exclusions.all fun span => page ∉ span.pages max

/-- The items whose positions, counted from 1, leave the remainder. -/
def selectPositions {α : Type} (remainder : ℕ) (items : List α) : List α :=
  ((items.zipIdx 1).filter fun item => item.2 % 2 = remainder).map Prod.fst

def RangeExpression.pages (max : ℤ) (e : RangeExpression) : List ℤ :=
  let pages := e.blocks.flatMap (RangeBlock.pages max)
  match e.suffix with
  | none => pages
  | some .odd => selectPositions 1 pages
  | some .even => selectPositions 0 pages

def RangeEndpoint.InRange (max : ℤ) (endpoint : RangeEndpoint) : Prop :=
  1 ≤ endpoint.value max ∧ endpoint.value max ≤ max

def RangeSpan.InRange (max : ℤ) (span : RangeSpan) : Prop :=
  span.first.InRange max ∧ ∀ last ∈ span.last, last.InRange max

def RangeExpression.InRange (max : ℤ) (e : RangeExpression) : Prop :=
  ∀ group ∈ e.groups, group.span.InRange max

/-! ## The bytes of a spelling -/

/-- The bytes of a group. -/
def isRangeByte (b : UInt8) : Bool :=
  isAsciiDigit b || b == 0x78 || b == 0x7a || b == 0x72 || b == 0x2d

theorem isRangeByte_ne (b : UInt8) (h : isRangeByte b = true) : b ≠ 0x2c ∧ b ≠ 0x3a ∧ b ≠ 0 :=
  forall_byte (p := fun b => isRangeByte b = true → b ≠ 0x2c ∧ b ≠ 0x3a ∧ b ≠ 0)
    (by decide) b h

theorem isRangeByte_of_digit {b : UInt8} (h : isAsciiDigit b = true) : isRangeByte b = true := by
  simp only [isRangeByte, h, Bool.true_or]

theorem RangeEndpoint.spelling_bytes (endpoint : RangeEndpoint) :
    ∀ b ∈ endpoint.spelling, isRangeByte b = true := by
  intro b hb
  cases endpoint with
  | lastPage =>
    obtain rfl := List.mem_singleton.mp hb
    decide
  | fromEnd count =>
    rcases List.mem_cons.mp hb with rfl | hb
    · decide
    · exact isRangeByte_of_digit (count.isAsciiDigit b hb)
  | page number => exact isRangeByte_of_digit (number.isAsciiDigit b hb)

theorem RangeGroup.spelling_bytes (group : RangeGroup) :
    ∀ b ∈ group.spelling, isRangeByte b = true := by
  intro b hb
  obtain ⟨exclude, first, last⟩ := group
  rw [RangeGroup.spelling, RangeSpan.spelling] at hb
  rcases List.mem_append.mp hb with hb | hb
  · cases exclude with
    | true =>
      obtain rfl := List.mem_singleton.mp hb
      decide
    | false => cases hb
  · rcases List.mem_append.mp hb with hb | hb
    · exact first.spelling_bytes b hb
    · cases last with
      | none => cases hb
      | some last =>
        rcases List.mem_cons.mp hb with rfl | hb
        · decide
        · exact last.spelling_bytes b hb

theorem RangeEndpoint.spelling_ne_nil (endpoint : RangeEndpoint) : endpoint.spelling ≠ [] := by
  cases endpoint with
  | lastPage => exact List.cons_ne_nil _ _
  | fromEnd count => exact List.cons_ne_nil _ _
  | page number => exact number.ne_nil

theorem RangeGroup.spelling_ne_nil (group : RangeGroup) : group.spelling ≠ [] := by
  rw [RangeGroup.spelling, RangeSpan.spelling]
  exact List.append_ne_nil_of_right_ne_nil _
    (List.append_ne_nil_of_left_ne_nil group.span.first.spelling_ne_nil _)

theorem spellGroups_cons (group : RangeGroup) {groups : List RangeGroup} (h : groups ≠ []) :
    spellGroups (group :: groups) = group.spelling ++ ascii "," ++ spellGroups groups := by
  cases groups with
  | nil => exact absurd rfl h
  | cons next groups => rfl

theorem spellGroups_ne_nil {groups : List RangeGroup} (h : groups ≠ []) : spellGroups groups ≠ [] := by
  cases groups with
  | nil => exact absurd rfl h
  | cons group groups =>
    by_cases hgroups : groups = []
    · rw [hgroups]
      exact group.spelling_ne_nil
    · rw [spellGroups_cons group hgroups, List.append_assoc]
      exact List.append_ne_nil_of_left_ne_nil group.spelling_ne_nil _

/-- Only group bytes and commas are in a list of groups. -/
theorem spellGroups_bytes (groups : List RangeGroup) :
    ∀ b ∈ spellGroups groups, b ≠ 0x3a ∧ b ≠ 0 := by
  induction groups with
  | nil => exact nofun
  | cons group groups ih =>
    intro b hb
    have hgroup : b ∈ group.spelling → b ≠ 0x3a ∧ b ≠ 0 := fun hmem =>
      (isRangeByte_ne b (group.spelling_bytes b hmem)).2
    by_cases hgroups : groups = []
    · rw [hgroups] at hb
      exact hgroup hb
    · rw [spellGroups_cons group hgroups, List.append_assoc] at hb
      rcases List.mem_append.mp hb with hb | hb
      · exact hgroup hb
      · rcases List.mem_cons.mp hb with rfl | hb
        · decide
        · exact ih b hb

/-! ## Blocks -/

/-- Groups are some exclusions and then blocks. -/
theorem exists_blocks (groups : List RangeGroup) :
    ∃ (exclusions : List RangeSpan) (blocks : List RangeBlock), groups =
      exclusions.map (fun span => { exclude := true, span := span }) ++
        blocks.flatMap RangeBlock.groups := by
  induction groups with
  | nil => exact ⟨[], [], rfl⟩
  | cons group groups ih =>
    obtain ⟨exclusions, blocks, hgroups⟩ := ih
    obtain ⟨exclude, span⟩ := group
    cases exclude with
    | true => exact ⟨span :: exclusions, blocks, congrArg (List.cons _) hgroups⟩
    | false => exact ⟨[], { span := span, exclusions := exclusions } :: blocks, congrArg (List.cons _) hgroups⟩

theorem exists_blocks_of_head {groups : List RangeGroup}
    (h : ∀ group ∈ groups.head?, group.exclude = false) :
    ∃ blocks : List RangeBlock, blocks.flatMap RangeBlock.groups = groups := by
  obtain ⟨exclusions, blocks, rfl⟩ := exists_blocks groups
  cases exclusions with
  | nil => exact ⟨blocks, rfl⟩
  | cons span exclusions => cases h _ rfl

theorem RangeExpression.head_groups (e : RangeExpression) :
    ∀ group ∈ e.groups.head?, group.exclude = false := by
  intro group hgroup
  obtain ⟨blocks, suffix⟩ := e
  cases blocks with
  | nil => cases hgroup
  | cons block blocks =>
    cases hgroup
    rfl

/-! ## Bounds -/

theorem mem_intRange {first stop n : ℤ} : n ∈ intRange first stop ↔ first ≤ n ∧ n < stop := by
  rw [intRange, List.mem_map]
  constructor
  · rintro ⟨k, hk, rfl⟩
    rw [List.mem_range] at hk
    omega
  · rintro ⟨hfirst, hstop⟩
    refine ⟨(n - first).toNat, List.mem_range.mpr (by omega), by omega⟩

theorem intRange_of_lt {first stop : ℤ} (h : first < stop) :
    intRange first stop = first :: intRange (first + 1) stop := by
  obtain ⟨count, hcount⟩ : ∃ count : ℕ, stop = first + 1 + count := ⟨(stop - first - 1).toNat, by omega⟩
  subst hcount
  rw [intRange, intRange, show (first + 1 + count - first).toNat = count + 1 by omega,
    show (first + 1 + count - (first + 1)).toNat = count by omega, List.range_succ_eq_map,
    List.map_cons, List.map_map, Nat.cast_zero, add_zero]
  refine congrArg (List.cons first) (List.map_congr_left fun k _ => ?_)
  rw [Function.comp_apply, Nat.cast_succ, add_assoc, add_comm (k : ℤ)]

theorem intRange_succ {first stop : ℤ} (h : first ≤ stop) :
    intRange first (stop + 1) = intRange first stop ++ [stop] := by
  rw [intRange, intRange, show (stop + 1 - first).toNat = (stop - first).toNat + 1 by omega,
    List.range_succ, List.map_append, List.map_singleton, Int.toNat_of_nonneg (by omega),
    add_sub_cancel]

theorem RangeSpan.InRange.bounds {max : ℤ} {span : RangeSpan} (h : span.InRange max) :
    ∀ page ∈ span.pages max, 1 ≤ page ∧ page ≤ max := by
  intro page hpage
  obtain ⟨first, last⟩ := span
  have hfirst := h.1
  unfold RangeEndpoint.InRange at hfirst
  rw [RangeSpan.pages] at hpage
  cases last with
  | none =>
    obtain rfl := List.mem_singleton.mp hpage
    exact hfirst
  | some last =>
    have hlast := h.2 last rfl
    unfold RangeEndpoint.InRange at hlast
    dsimp only at hpage hfirst
    rw [pageSpan] at hpage
    split_ifs at hpage
    · rw [mem_intRange] at hpage
      omega
    · rw [List.mem_reverse, mem_intRange] at hpage
      omega

theorem mem_of_mem_selectPositions {α : Type} {remainder : ℕ} {items : List α} {item : α}
    (h : item ∈ selectPositions remainder items) : item ∈ items := by
  obtain ⟨⟨found, position⟩, hfound, rfl⟩ := List.mem_map.mp h
  exact List.fst_mem_of_mem_zipIdx (List.mem_filter.mp hfound).1

/-- Every page of an expression is a page of the document. -/
theorem RangeExpression.InRange.bounds {max : ℤ} {e : RangeExpression} (h : e.InRange max) :
    ∀ page ∈ e.pages max, 1 ≤ page ∧ page ≤ max := by
  have hblocks : ∀ page ∈ e.blocks.flatMap (RangeBlock.pages max), 1 ≤ page ∧ page ≤ max := by
    intro page hpage
    obtain ⟨block, hblock, hpage⟩ := List.mem_flatMap.mp hpage
    refine (h { exclude := false, span := block.span } ?_).bounds page (List.mem_filter.mp hpage).1
    exact List.mem_flatMap.mpr ⟨block, hblock, List.mem_cons_self⟩
  intro page hpage
  obtain ⟨blocks, suffix⟩ := e
  rcases suffix with _ | _ | _
  · exact hblocks page hpage
  · exact hblocks page (mem_of_mem_selectPositions hpage)
  · exact hblocks page (mem_of_mem_selectPositions hpage)

end Flpdf
