import Flpdf.ObjectStreams.BodyIndex
import Flpdf.ObjectStreams.Members
import Flpdf.Writer.RefMaps

/-!
# The walks of the writer agree

The QDF walk differs from the compact one in white space.  What they write is read back as the value
with the references of the output in it, without the entries that are null or removed; so is what
the members of an object stream are written as.
-/

namespace Flpdf

open Tokenizer

/-! ## The tokens that are written -/

section Rows

variable (resolve : QpdfObjGen → Except Bytes ObjectValue)
  (map : QpdfObjGen → Except Bytes ObjectRef) (removed : List QpdfObjGen)

/-- The entry is not written. -/
def isAbsent (child : ObjectValue) : Bool := isRemoved removed child || isNullHandle resolve child

/-- The dictionary is a signature whose `/Contents` is written in hexadecimal. -/
def isSignature (entries : List (Bytes × ObjectValue)) : Bool :=
  match dictIsSigWithByteRangeHandle resolve entries with
  | .ok isSig => isSig
  | .error _ => false

mutual

/-- The value as it stands in the output. -/
def mapped : ObjectValue → ObjectValue
  | .indirect objectGen =>
    if !objectGen.isIndirect || objectGen ∈ removed then .null
    else match map objectGen with
      | .ok ref => .indirect ⟨ref.number, ref.generation⟩
      | .error _ => .null
  | .array items => .array (mappedItems items)
  | .dictionary entries => .dictionary (mappedEntries entries)
  | value => value

def mappedItems : List ObjectValue → List ObjectValue
  | [] => []
  | item :: items => mapped item :: mappedItems items

def mappedEntries : List (Bytes × ObjectValue) → List (Bytes × ObjectValue)
  | [] => []
  | (key, value) :: entries =>
    if isAbsent resolve removed value then mappedEntries entries
    else (key, mapped value) :: mappedEntries entries

end

def referenceRow (ref : ObjectRef) : List Spelled :=
  [plain (intDecimal ref.number) .integer, plain (intDecimal ref.generation) .integer,
    plain (ascii "R") .word]

def nullRow : List Spelled := [plain (ascii "null") .null]

/-- A signature's `/Contents`, if it is a string. -/
def contentsRow : Bool → ObjectValue → Option (List Spelled)
  | true, .string value => some [⟨writeHexString value, .string, value⟩]
  | _, _ => none

mutual

def spelledRow : ObjectValue → List Spelled
  | .null => nullRow
  | .boolean value => [plain (boolText value) .bool]
  | .integer value => [plain (intDecimal value) .integer]
  | .real encoded => [plain encoded .real]
  | .name value => [nameSpelled value]
  | .string value => [⟨writeStringValue value, .string, value⟩]
  | .indirect objectGen =>
    if !objectGen.isIndirect || objectGen ∈ removed then nullRow
    else match map objectGen with
      | .ok ref => referenceRow ref
      | .error _ => nullRow
  | .array items => plain [0x5b] .arrayOpen :: (spelledItems items ++ [plain [0x5d] .arrayClose])
  | .dictionary entries =>
    plain [0x3c, 0x3c] .dictOpen :: (spelledEntries (isSignature resolve entries) entries ++
      [plain [0x3e, 0x3e] .dictClose])
  | _ => nullRow

def spelledItems : List ObjectValue → List Spelled
  | [] => []
  | item :: items => spelledRow item ++ spelledItems items

def spelledEntries (isSig : Bool) : List (Bytes × ObjectValue) → List Spelled
  | [] => []
  | (key, value) :: entries =>
    if isAbsent resolve removed value then spelledEntries isSig entries
    else
      nameSpelled key.tail ::
        ((contentsRow (isSig && key == ascii "/Contents") value).getD (spelledRow value) ++
          spelledEntries isSig entries)

end

end Rows

section Walks

variable {resolve : QpdfObjGen → Except Bytes ObjectValue}
  {map : QpdfObjGen → Except Bytes ObjectRef} {removed : List QpdfObjGen} {d indent : ℕ}
  {value child : ObjectValue} {items : List ObjectValue} {entries : List (Bytes × ObjectValue)}
  {text before : Bytes} {layout : Layout} {hidden : ObjectValue → Except Bytes Bool}

theorem keys_mappedEntries (entries : List (Bytes × ObjectValue)) :
    ((mappedEntries resolve map removed entries).map Prod.fst).Sublist (entries.map Prod.fst) := by
  induction entries with
  | nil => exact List.Sublist.refl _
  | cons e entries ih =>
    rw [mappedEntries]
    split_ifs
    · exact ih.cons _
    · exact ih.cons_cons _

theorem spells_items
    (h : ∀ item ∈ items, Spells d (.value (mapped resolve map removed item))
      (spelledRow resolve map removed item)) :
    Spells d (.items (mappedItems resolve map removed items))
      (spelledItems resolve map removed items) := by
  induction items with
  | nil => exact .noItems
  | cons item items ih =>
    exact .item (h item List.mem_cons_self) (ih fun item hitem => h item (List.mem_cons_of_mem _ hitem))

theorem spells_contents {force : Bool} {row : List Spelled}
    (h : contentsRow force value = some row) :
    Spells d (.value (mapped resolve map removed value)) row := by
  cases force <;> cases value <;> simp only [contentsRow, reduceCtorEq, Option.some.injEq] at h
  subst h
  exact .string (.hex _)

theorem spells_entries (isSig : Bool)
    (hkeys : ∀ e ∈ entries, ∃ n : Bytes, e.1 = 0x2f :: n ∧ 0 ∉ n)
    (h : ∀ e ∈ entries, Spells d (.value (mapped resolve map removed e.2))
      (spelledRow resolve map removed e.2)) :
    Spells d (.entries (mappedEntries resolve map removed entries))
      (spelledEntries resolve map removed isSig entries) := by
  induction entries with
  | nil => exact .noEntries
  | cons e entries ih =>
    obtain ⟨key, child⟩ := e
    obtain ⟨n, rfl, hn⟩ := hkeys (key, child) List.mem_cons_self
    have hrest := ih (fun e he => hkeys e (List.mem_cons_of_mem _ he))
      fun e he => h e (List.mem_cons_of_mem _ he)
    rw [mappedEntries, spelledEntries]
    split_ifs
    · exact hrest
    · refine .entry hn ?_ hrest
      cases hcontents : contentsRow (isSig && (0x2f :: n) == ascii "/Contents") child with
      | none => exact h _ List.mem_cons_self
      | some row => exact spells_contents hcontents

/-- The tokens spell the value of the output. -/
theorem spells_mapped (hmap : ∀ objectGen ref, map objectGen = .ok ref → ref.Valid)
    (h : Readable d value) :
    Spells d (.value (mapped resolve map removed value)) (spelledRow resolve map removed value) := by
  induction h with
  | null => exact .null
  | boolean value => exact .boolean value
  | integer hlower hupper => exact .integer hlower hupper
  | real hreal => exact .real (.real hreal)
  | name hn => exact .name hn
  | string value => exact .string (.writeStringValue value)
  | @reference d number generation hnumber hgeneration =>
    rw [mapped, spelledRow]
    split_ifs
    · exact .null
    · cases href : map ⟨number, generation⟩ with
      | error e => exact .null
      | ok ref =>
        obtain ⟨hone, hlimit, hgen⟩ := hmap _ ref href
        exact .reference ⟨by omega, by omega⟩ ⟨by omega, by omega⟩
  | array hitems ih => exact .array (spells_items ih)
  | @dictionary d entries hascending hkeys hentries ih =>
    exact .dictionary (ascending_iff.mpr ((ascending_iff.mp hascending).sublist
      (keys_mappedEntries entries))) (spells_entries _ hkeys ih)

/-! ## What is written of the tokens -/

/-- White space, and some of it. -/
def IsSpacing (gap : Bytes) : Prop := gap ≠ [] ∧ ∀ b ∈ gap, isWs b = true

/-- A layout keeps the tokens of a container apart. -/
def Layout.Separates (layout : Layout) : Prop :=
  ∀ before ∈ [layout.head, layout.trail], ∀ indent,
    IsSpacing (before ++ layout.lead indent) ∧ IsSpacing (before ++ layout.foot indent)

theorem compactLayout_separates : compactLayout.Separates := by
  have hspace : IsSpacing (ascii " ") := ⟨by decide, List.all_eq_true.mp rfl⟩
  intro before hbefore indent
  simp only [compactLayout, List.mem_cons, List.not_mem_nil, or_false, or_self] at hbefore
  subst hbefore
  exact ⟨hspace, hspace⟩

theorem qdfLayout_separates : qdfLayout.Separates := by
  have hline (indent : ℕ) : IsSpacing (ascii "\n" ++ spaces indent) := by
    refine ⟨by simp [ascii], ?_⟩
    intro b hb
    rcases List.mem_append.mp hb with hb | hb
    · exact List.all_eq_true.mp (rfl : (ascii "\n").all isWs = true) b hb
    · rw [List.eq_of_mem_replicate hb]
      rfl
  intro before hbefore indent
  simp only [qdfLayout, List.mem_cons, List.not_mem_nil, or_false, or_self] at hbefore
  subst hbefore
  exact ⟨hline indent, hline indent⟩

/-- White space, and then the text of a row. -/
def WritesAfter (row : List Spelled) (text : Bytes) : Prop :=
  ∃ gap rest, text = gap ++ rest ∧ IsSpacing gap ∧ Writes row rest

theorem Writes.append_after {row row' : List Spelled} {text text' : Bytes} (h : Writes row text)
    (h' : WritesAfter row' text') (hrow : row' ≠ []) : Writes (row ++ row') (text ++ text') := by
  obtain ⟨gap, rest, rfl, hgap, hrest⟩ := h'
  have happend := h.append gap hrest hgap.2 hgap.1 hrow
  rwa [List.append_assoc] at happend

theorem writes_nullRow : Writes nullRow (ascii "null") :=
  writes_plain (spelling_run (by decide) (List.all_eq_true.mp rfl) (by decide))

theorem writes_referenceRow (ref : ObjectRef) : Writes (referenceRow ref) (writeObjectRef ref) :=
  writes_reference ref.number ref.generation

theorem force_eq {force : Bool} {key : Bytes}
    (h : forceHexString (dictIsSigWithByteRangeHandle resolve entries) key = .ok force) :
    force = (isSignature resolve entries && key == ascii "/Contents") := by
  rw [forceHexString] at h
  rw [isSignature]
  split_ifs at h with hkey
  · rw [h, hkey]
    simp
  · obtain rfl : false = force := by simpa using h
    simp [hkey]

theorem writes_entryValue {force : Bool} {walk : Except Bytes Bytes}
    (hwalk : ∀ text, walk = .ok text → Writes (spelledRow resolve map removed child) text)
    (h : writtenOr (trySigContentsHexString force child) walk = .ok text) :
    Writes ((contentsRow force child).getD (spelledRow resolve map removed child)) text := by
  cases htry : trySigContentsHexString force child with
  | some written =>
    rw [htry] at h
    obtain rfl : written = text := by simpa [writtenOr] using h
    cases force <;> cases child <;> simp only [trySigContentsHexString, reduceCtorEq,
      Option.some.injEq] at htry
    subst htry
    exact Spelled.writes ⟨_, _, _⟩ (.hex _)
  | none =>
    rw [htry] at h
    have hnone : contentsRow force child = none := by
      cases force <;> cases child <;> first | rfl | simp [trySigContentsHexString] at htry
    rw [hnone]
    exact hwalk text h

theorem writes_entry {n : Bytes} (hn : 0 ∉ n) {row row' : List Spelled} {text' : Bytes}
    (h : Writes row text) (h' : WritesAfter row' text') (hrow : row' ≠ []) :
    Writes (nameSpelled n :: (row ++ row'))
      (writeDictionaryKey (0x2f :: n) ++ ascii " " ++ (text ++ text')) :=
  (writes_name hn).append (ascii " ") (h.append_after h' hrow) (List.all_eq_true.mp rfl)
    (by decide) (by simp [hrow])

/-- A value without children. -/
def isDirectScalar : ObjectValue → Bool
  | .array _ | .dictionary _ | .stream _ | .indirect _ => false
  | _ => true

/-- The values without children are written alike in every layout. -/
theorem scalar_writes (h : Readable d value) (hscalar : isDirectScalar value = true) :
    Writes (spelledRow resolve map removed value) (unparseObjectValue value) := by
  cases h with
  | null => exact writes_nullRow
  | boolean value =>
    refine writes_plain ?_
    cases value <;> exact spelling_run (by decide) (List.all_eq_true.mp rfl) (by decide)
  | integer hlower hupper => exact writes_integer _
  | real hreal => exact writes_plain (.real hreal)
  | name hn => exact writes_name hn
  | string value => exact Spelled.writes ⟨_, _, _⟩ (.writeStringValue value)
  | _ => simp [isDirectScalar] at hscalar

theorem laid_scalar (h : isDirectScalar value = true) :
    unparseChildLaid resolve map removed layout hidden indent value =
      .ok (unparseObjectValue value) := by
  cases value <;> first | rfl | simp [isDirectScalar] at h

theorem writes_items (hlayout : layout.Separates)
    (h : ∀ item ∈ items, ∀ text, unparseChildLaid resolve map removed layout hidden indent item =
      .ok text → Writes (spelledRow resolve map removed item) text)
    (htext : unparseItemsLaid resolve map removed layout hidden indent items = .ok text)
    (outer : ℕ) (hbefore : before ∈ [layout.head, layout.trail]) :
    WritesAfter (spelledItems resolve map removed items ++ [plain [0x5d] .arrayClose])
      (before ++ text ++ (layout.foot outer ++ ascii "]")) := by
  induction items generalizing text before with
  | nil =>
    obtain rfl : ([] : Bytes) = text := by simpa [unparseItemsLaid] using htext
    exact ⟨before ++ layout.foot outer, ascii "]", by simp, (hlayout before hbefore outer).2,
      writes_plain .arrayClose⟩
  | cons item items ih =>
    rw [unparseItemsLaid] at htext
    obtain ⟨first, hfirst, htext⟩ := bind_eq_ok.mp htext
    obtain ⟨rest, hrest, htext⟩ := bind_eq_ok.mp htext
    obtain rfl : layout.lead indent ++ first ++ layout.trail ++ rest = text := by
      simpa [pure, Except.pure] using htext
    have hitem := h item List.mem_cons_self first hfirst
    have hothers :=
      ih (fun item hitem => h item (List.mem_cons_of_mem _ hitem)) hrest (.tail _ (.head _))
    refine ⟨before ++ layout.lead indent,
      first ++ (layout.trail ++ rest ++ (layout.foot outer ++ ascii "]")), by simp,
      (hlayout before hbefore indent).1, ?_⟩
    rw [spelledItems, List.append_assoc]
    exact hitem.append_after hothers (by simp)

theorem writes_entries (hlayout : layout.Separates)
    (hhidden : ∀ child isHidden, hidden child = .ok isHidden →
      isAbsent resolve removed child = isHidden)
    (hkeys : ∀ e ∈ entries, ∃ n : Bytes, e.1 = 0x2f :: n ∧ 0 ∉ n)
    {all : List (Bytes × ObjectValue)}
    (h : ∀ e ∈ entries, ∀ text, unparseChildLaid resolve map removed layout hidden indent e.2 =
      .ok text → Writes (spelledRow resolve map removed e.2) text)
    (htext : unparseEntriesLaid resolve map removed layout hidden indent
      (dictIsSigWithByteRangeHandle resolve all) entries = .ok text)
    (outer : ℕ) (hbefore : before ∈ [layout.head, layout.trail]) :
    WritesAfter (spelledEntries resolve map removed (isSignature resolve all) entries ++
      [plain [0x3e, 0x3e] .dictClose]) (before ++ text ++ (layout.foot outer ++ ascii ">>")) := by
  induction entries generalizing text before with
  | nil =>
    obtain rfl : ([] : Bytes) = text := by simpa [unparseEntriesLaid] using htext
    exact ⟨before ++ layout.foot outer, ascii ">>", by simp, (hlayout before hbefore outer).2,
      writes_plain .dictClose⟩
  | cons e entries ih =>
    obtain ⟨key, child⟩ := e
    have hrestKeys : ∀ e ∈ entries, ∃ n : Bytes, e.1 = 0x2f :: n ∧ 0 ∉ n :=
      fun e he => hkeys e (List.mem_cons_of_mem _ he)
    have hrestValues := fun e he => h e (List.mem_cons_of_mem (key, child) he)
    rw [unparseEntriesLaid] at htext
    obtain ⟨isHidden, hisHidden, htext⟩ := bind_eq_ok.mp htext
    rw [spelledEntries, hhidden child isHidden hisHidden]
    split_ifs at htext ⊢
    · exact ih hrestKeys hrestValues htext hbefore
    · obtain ⟨force, hforce, htext⟩ := bind_eq_ok.mp htext
      obtain ⟨first, hfirst, htext⟩ := bind_eq_ok.mp htext
      obtain ⟨rest, hrest, htext⟩ := bind_eq_ok.mp htext
      obtain rfl : layout.lead indent ++ (writeDictionaryKey key ++ ascii " " ++ first) ++
          layout.trail ++ rest = text := by
        simpa [pure, Except.pure] using htext
      obtain ⟨n, rfl, hn⟩ := hkeys (key, child) List.mem_cons_self
      have hvalue := writes_entryValue (h _ List.mem_cons_self) hfirst
      have hothers := ih hrestKeys hrestValues hrest (.tail _ (.head _))
      have hentry := writes_entry hn hvalue hothers (by simp)
      rw [← force_eq hforce]
      refine ⟨before ++ layout.lead indent, writeDictionaryKey (0x2f :: n) ++ ascii " " ++
        (first ++ (layout.trail ++ rest ++ (layout.foot outer ++ ascii ">>"))), by simp,
        (hlayout before hbefore indent).1, ?_⟩
      simpa [List.append_assoc] using hentry

/-- A walk writes the tokens of the value, whatever its layout. -/
theorem laid_writes (hlayout : layout.Separates)
    (hhidden : ∀ child isHidden, hidden child = .ok isHidden →
      isAbsent resolve removed child = isHidden)
    (h : Readable d value)
    (htext : unparseChildLaid resolve map removed layout hidden indent value = .ok text) :
    Writes (spelledRow resolve map removed value) text := by
  induction h generalizing text indent with
  | @reference d number generation hnumber hgeneration =>
    rw [unparseChildLaid] at htext
    rw [spelledRow]
    split_ifs at htext ⊢
    · obtain rfl := Except.ok.inj htext
      exact writes_nullRow
    · cases href : map ⟨number, generation⟩ with
      | error e =>
        rw [href] at htext
        cases htext
      | ok ref =>
        rw [href] at htext
        obtain rfl := Except.ok.inj htext
        exact writes_referenceRow ref
  | array hitems ih =>
    rw [unparseChildLaid] at htext
    obtain ⟨inner, hinner, htext⟩ := bind_eq_ok.mp htext
    obtain rfl := Except.ok.inj htext
    exact (writes_plain .arrayOpen).append_after (writes_items hlayout
      (fun item hitem text => ih item hitem) hinner indent (by simp)) (by simp)
  | dictionary hascending hkeys hentries ih =>
    rw [unparseChildLaid] at htext
    obtain ⟨inner, hinner, htext⟩ := bind_eq_ok.mp htext
    obtain rfl := Except.ok.inj htext
    exact (writes_plain .dictOpen).append_after (writes_entries hlayout hhidden hkeys
      (fun e he text => ih e he) hinner indent (by simp)) (by simp)
  | _ =>
    rw [laid_scalar rfl] at htext
    obtain rfl := Except.ok.inj htext
    exact scalar_writes (d := 0) (by constructor <;> assumption) rfl

theorem isAbsent_of_isNullOrRemoved {isHidden : Bool}
    (h : isNullOrRemoved resolve removed child = .ok isHidden) :
    isAbsent resolve removed child = isHidden := by
  rw [isNullOrRemoved] at h
  cases hnull : tryIsNull resolve child <;> rw [hnull] at h <;> cases h
  rw [isAbsent, isNullHandle, hnull, Bool.or_comm]

theorem isAbsent_of_isRemovedOrNull {isHidden : Bool}
    (h : isRemovedOrNull resolve removed child = .ok isHidden) :
    isAbsent resolve removed child = isHidden := by
  rw [isRemovedOrNull] at h
  rw [isAbsent]
  split_ifs at h with hremoved
  · obtain rfl := Except.ok.inj h
    rw [hremoved, Bool.true_or]
  · rw [isNullHandle, h, Bool.eq_false_iff.mpr hremoved, Bool.false_or]

/-! ## The walks come to an end -/

theorem isSig_total (hresolve : ∀ objectGen, ∃ value, resolve objectGen = .ok value)
    (entries : List (Bytes × ObjectValue)) :
    ∃ isSig, dictIsSigWithByteRangeHandle resolve entries = .ok isSig := by
  have htype : ∃ type, dereference resolve ((entries.lookup (ascii "/Type")).getD .null) =
      .ok type := by
    cases (entries.lookup (ascii "/Type")).getD .null with
    | indirect objectGen => exact hresolve objectGen
    | _ => exact ⟨_, rfl⟩
  obtain ⟨type, htype⟩ := htype
  obtain ⟨isNull, hnull⟩ :=
    tryIsNull_total hresolve ((entries.lookup (ascii "/ByteRange")).getD .null)
  rw [dictIsSigWithByteRangeHandle, htype, hnull]
  cases type with
  | name name => by_cases hname : name = ascii "Sig" <;>
      simp [hname, bind, Except.bind, Except.map, pure, Except.pure]
  | _ => exact ⟨false, rfl⟩

theorem forceHexString_ok (isSig : Bool) (key : Bytes) :
    forceHexString (.ok isSig) key = .ok (isSig && key == ascii "/Contents") := by
  by_cases hkey : key = ascii "/Contents" <;> simp [forceHexString, hkey]

theorem laid_items_total
    (h : ∀ item ∈ items, ∃ text,
      unparseChildLaid resolve map removed layout hidden indent item = .ok text) :
    ∃ text, unparseItemsLaid resolve map removed layout hidden indent items = .ok text := by
  induction items with
  | nil => exact ⟨[], rfl⟩
  | cons item items ih =>
    obtain ⟨first, hfirst⟩ := h item List.mem_cons_self
    obtain ⟨rest, hrest⟩ := ih fun item hitem => h item (List.mem_cons_of_mem _ hitem)
    exact ⟨_, by rw [unparseItemsLaid, hfirst, hrest]; rfl⟩

theorem laid_entries_total (hhidden : ∀ child, ∃ isHidden, hidden child = .ok isHidden)
    (isSig : Bool)
    (h : ∀ e ∈ entries, ∃ text,
      unparseChildLaid resolve map removed layout hidden indent e.2 = .ok text) :
    ∃ text, unparseEntriesLaid resolve map removed layout hidden indent (.ok isSig) entries =
      .ok text := by
  induction entries with
  | nil => exact ⟨[], rfl⟩
  | cons e entries ih =>
    obtain ⟨key, child⟩ := e
    obtain ⟨rest, hrest⟩ := ih fun e he => h e (List.mem_cons_of_mem _ he)
    obtain ⟨isHidden, hisHidden⟩ := hhidden child
    have hvalue (force : Bool) : ∃ text, writtenOr (trySigContentsHexString force child)
        (unparseChildLaid resolve map removed layout hidden indent child) = .ok text := by
      cases trySigContentsHexString force child with
      | some written => exact ⟨written, rfl⟩
      | none => exact h _ List.mem_cons_self
    obtain ⟨first, hfirst⟩ := hvalue (isSig && key == ascii "/Contents")
    rw [unparseEntriesLaid, hisHidden, forceHexString_ok, hrest]
    cases isHidden with
    | true => exact ⟨rest, rfl⟩
    | false => exact ⟨_, by simp only [bind, Except.bind, Bool.false_eq_true, if_false, hfirst]; rfl⟩

/-- Where every reference resolves and has a place in the output, a walk comes to its end. -/
theorem laid_total (hresolve : ∀ objectGen, ∃ value, resolve objectGen = .ok value)
    (hmap : ∀ objectGen, ∃ ref, map objectGen = .ok ref)
    (hhidden : ∀ child, ∃ isHidden, hidden child = .ok isHidden) (h : Readable d value) :
    ∃ text, unparseChildLaid resolve map removed layout hidden indent value = .ok text := by
  induction h generalizing indent with
  | @reference d number generation hnumber hgeneration =>
    obtain ⟨ref, href⟩ := hmap ⟨number, generation⟩
    rw [unparseChildLaid]
    split_ifs
    · exact ⟨_, rfl⟩
    · exact ⟨_, by rw [href]; rfl⟩
  | @array d items hitems ih =>
    obtain ⟨text, htext⟩ := laid_items_total fun item hitem => @ih item hitem (indent + 2)
    exact ⟨_, by rw [unparseChildLaid, htext]; rfl⟩
  | @dictionary d entries hascending hkeys hentries ih =>
    obtain ⟨isSig, hsig⟩ := isSig_total hresolve entries
    obtain ⟨text, htext⟩ :=
      laid_entries_total hhidden isSig fun e he => @ih e he (indent + 2)
    exact ⟨_, by rw [unparseChildLaid, hsig, htext]; rfl⟩
  | _ => exact ⟨_, laid_scalar rfl⟩

/-! ## The value in the output -/

theorem isDirect_mapped (hdirect : LiveParser.IsDirect value) :
    LiveParser.IsDirect (mapped resolve map removed value) := by
  cases value with
  | indirect objectGen => exact hdirect.elim
  | _ => trivial

/-- The tokens of the output are read back as the value of the output. -/
theorem parse_mapped (hmap : ∀ objectGen ref, map objectGen = .ok ref → ref.Valid)
    (hreadable : Readable d value) (hdirect : LiveParser.IsDirect value) (hdepth : d ≤ maxParseDepth)
    (hwrites : Writes (spelledRow resolve map removed value) text) :
    parseObject true text = some (.ok (mapped resolve map removed value, [])) :=
  parseObject_of_writes (spells_mapped hmap hreadable) hwrites (isDirect_mapped hdirect) hdepth

theorem refMap_eq {handle : ObjectValue} (h : dereference resolve handle = .ok value) :
    unparseObjectWithRefMap resolve map removed handle =
      unparseChildLaid resolve map removed compactLayout (isNullOrRemoved resolve removed) 0
        value := by
  rw [unparseObjectWithRefMap, h]
  rfl

theorem compact_writes (h : Readable d value) (htext : unparseChildLaid resolve map removed
    compactLayout (isNullOrRemoved resolve removed) indent value = .ok text) :
    Writes (spelledRow resolve map removed value) text :=
  laid_writes compactLayout_separates (fun _ _ => isAbsent_of_isNullOrRemoved) h htext

theorem isRemovedOrNull_total (hresolve : ∀ objectGen, ∃ value, resolve objectGen = .ok value)
    (child : ObjectValue) : ∃ isHidden, isRemovedOrNull resolve removed child = .ok isHidden := by
  rw [isRemovedOrNull]
  split_ifs
  · exact ⟨true, rfl⟩
  · exact tryIsNull_total hresolve child

theorem isNullOrRemoved_total (hresolve : ∀ objectGen, ∃ value, resolve objectGen = .ok value)
    (child : ObjectValue) : ∃ isHidden, isNullOrRemoved resolve removed child = .ok isHidden := by
  obtain ⟨isNull, hnull⟩ := tryIsNull_total hresolve child
  exact ⟨_, by rw [isNullOrRemoved, hnull]; rfl⟩

end Walks

/-- The walks of the writer agree: they write the same tokens with other white space between them,
and come to their end where every reference resolves and has a place in the output.  Either text is
read back as the value with the references of the output, without the entries that are null or
removed and with null for a removed item. -/
theorem unparseObject_walks_agree (resolve : QpdfObjGen → Except Bytes ObjectValue)
    (map : QpdfObjGen → Except Bytes ObjectRef) (removed : List QpdfObjGen) (indent d : ℕ)
    (handle value : ObjectValue) (hvalue : dereference resolve handle = .ok value)
    (hreadable : Readable d value) (hdirect : LiveParser.IsDirect value) :
    (∀ text qdf, unparseObjectWithRefMap resolve map removed handle = .ok text →
      unparseObjectQdfWithRefMap resolve map removed indent handle = .ok qdf →
        ∃ row, Spaced [] row text ∧ Spaced [] row qdf) ∧
    ((∀ objectGen, ∃ value, resolve objectGen = .ok value) →
      (∀ objectGen, ∃ ref, map objectGen = .ok ref) →
        ∃ text qdf, unparseObjectWithRefMap resolve map removed handle = .ok text ∧
          unparseObjectQdfWithRefMap resolve map removed indent handle = .ok qdf) ∧
    ((∀ objectGen ref, map objectGen = .ok ref → ref.Valid) → d ≤ maxParseDepth →
      ∀ text, (unparseObjectWithRefMap resolve map removed handle = .ok text ∨
          unparseObjectQdfWithRefMap resolve map removed indent handle = .ok text) →
        parseObject true text = some (.ok (mapped resolve map removed value, []))) := by
  have hqdf : unparseObjectQdfWithRefMap resolve map removed indent handle =
      unparseChildLaid resolve map removed qdfLayout (isRemovedOrNull resolve removed) indent
        value := by
    rw [unparseObjectQdfWithRefMap, hvalue]
    rfl
  have hqdfWrites (text : Bytes) (htext : unparseChildLaid resolve map removed qdfLayout
      (isRemovedOrNull resolve removed) indent value = .ok text) :
      Writes (spelledRow resolve map removed value) text :=
    laid_writes qdfLayout_separates (fun _ _ => isAbsent_of_isRemovedOrNull) hreadable htext
  rw [refMap_eq hvalue, hqdf]
  refine ⟨?_, ?_, ?_⟩
  · intro text qdf htext hqdf
    refine ⟨spelledRow resolve map removed value, ?_, ?_⟩
    · simpa using compact_writes hreadable htext [] (by simp)
    · simpa using hqdfWrites qdf hqdf [] (by simp)
  · intro hresolve hmap
    obtain ⟨text, htext⟩ := laid_total hresolve hmap (isNullOrRemoved_total hresolve) hreadable
    obtain ⟨qdf, hqdf⟩ := laid_total hresolve hmap (isRemovedOrNull_total hresolve) hreadable
    exact ⟨text, qdf, htext, hqdf⟩
  · rintro hmap hdepth text (htext | htext)
    · exact parse_mapped hmap hreadable hdirect hdepth (compact_writes hreadable htext)
    · exact parse_mapped hmap hreadable hdirect hdepth (hqdfWrites text htext)

/-- An array with a removed item. -/
def prunedSample : ObjectValue := .array [.indirect ⟨1, 0⟩, .indirect ⟨2, 0⟩]

theorem unparseObject_walks_agree_sample :
    ∃ text qdf row, unparseObjectWithRefMap (fun _ => .ok .null) (fun _ => .ok ⟨7, 0⟩) [⟨2, 0⟩]
        prunedSample = .ok text ∧
      unparseObjectQdfWithRefMap (fun _ => .ok .null) (fun _ => .ok ⟨7, 0⟩) [⟨2, 0⟩] 0
        prunedSample = .ok qdf ∧
      Spaced [] row text ∧ Spaced [] row qdf ∧
        parseObject true qdf = some (.ok (.array [.indirect ⟨7, 0⟩, .null], [])) := by
  have hreadable : Readable 1 prunedSample := .array (List.forall_mem_cons.mpr
    ⟨.reference (by decide) (by decide), List.forall_mem_singleton.mpr
      (.reference (by decide) (by decide))⟩)
  obtain ⟨hspaced, htotal, hparse⟩ := unparseObject_walks_agree (fun _ => .ok .null)
    (fun _ => .ok ⟨7, 0⟩) [⟨2, 0⟩] 0 1 prunedSample prunedSample rfl hreadable trivial
  obtain ⟨text, qdf, htext, hqdf⟩ := htotal (fun _ => ⟨_, rfl⟩) fun _ => ⟨_, rfl⟩
  obtain ⟨row, hrow, hrow'⟩ := hspaced text qdf htext hqdf
  refine ⟨text, qdf, row, htext, hqdf, hrow, hrow', ?_⟩
  exact hparse (fun _ ref href => by obtain rfl := Except.ok.inj href; decide) (by decide) qdf
    (.inr hqdf)

/-! ## Members of object streams -/

section Members

variable {d n : ℕ} {value : ObjectValue} {row : List Spelled} {text tail : Bytes}
  {pairs : List (ℕ × ℕ)}

/-- A text of a value is not taken for an empty object. -/
theorem emptyOffset_of_spells (hspells : Spells d (.value value) row)
    (htext : Spaced tail row text) (hdirect : LiveParser.IsDirect value) :
    LiveParser.emptyOffset text = none := by
  have hreads : LiveParser.Reads text tail (LiveParser.start text true) row :=
    ⟨rfl, ⟨text, ⟨LexState.noConfusion, rfl, Nat.zero_le _, rfl⟩, htext⟩, rfl, rfl, rfl⟩
  have hfirst : ∃ spelled others, row = spelled :: others ∧ LiveParser.Fits spelled ∧
      spelled.type ≠ .word := by
    cases hspells with
    | reference hnumber hgeneration => exact hdirect.elim
    | integer hlower hupper =>
      refine ⟨_, _, rfl, fun _ => ?_, by simp [plain]⟩
      rw [plain, intValue_intDecimal]
      exact ⟨hlower, hupper⟩
    | name hn => exact ⟨_, _, rfl, by simp [LiveParser.Fits, nameSpelled], by simp [nameSpelled]⟩
    | _ => exact ⟨_, _, rfl, by simp [LiveParser.Fits, plain], by simp [plain]⟩
  obtain ⟨spelled, others, rfl, hfits, hword⟩ := hfirst
  obtain ⟨start, tokens, hnext, -⟩ := hreads.nextToken hfits
  rw [LiveParser.emptyOffset, hnext]
  exact if_neg (by simp [Token.isWordValue, spelledToken, hword])

/-- A member is read up to the newline behind it. -/
theorem parseMember_of_writes (hspells : Spells d (.value value) row) (hwrites : Writes row text)
    (hdirect : LiveParser.IsDirect value) (hdepth : d ≤ maxParseDepth) (rest : Bytes) :
    parseQpdfDirectObjectHandle (text ++ 0x0a :: rest) = .ok (value, []) := by
  have htext : Spaced (0x0a :: rest) row (text ++ 0x0a :: rest) := by
    apply hwrites
    intro b hb
    obtain rfl : 0x0a = b := by simpa using hb
    rfl
  obtain ⟨p, hbody, -, -, hdiagnostics⟩ := parseBody_text hspells htext hdirect hdepth
  have hbody' : (LiveParser.start (text ++ 0x0a :: rest) true).parseBody = some (.ok (value, p)) :=
    hbody
  simp only [parseQpdfDirectObjectHandle, emptyOffset_of_spells hspells htext hdirect, hbody',
    Option.get_some]
  rw [← hdiagnostics]
  rfl

/-- The conversions of the reader keep the pairs of a table. -/
theorem headerPairs_of_readHeaderPairs {t t' : Tokenizer} (hfits : ∀ pair ∈ pairs, pair.1 < 2 ^ 32)
    (h : Tokenizer.readHeaderPairs n t =
      (.ok (pairs.map fun pair => ((pair.1 : ℤ), (pair.2 : ℤ))), t')) :
    ObjectStream.headerPairs n t = .ok pairs := by
  induction n generalizing t pairs with
  | zero =>
    rw [Tokenizer.readHeaderPairs] at h
    cases pairs with
    | nil => rfl
    | cons pair pairs => cases h
  | succ n ih =>
    rw [Tokenizer.readHeaderPairs] at h
    rw [ObjectStream.headerPairs]
    rcases hread : t.nextObjectStreamHeaderPair with ⟨_ | read, t₁⟩ <;> rw [hread] at h
    · cases h
    · dsimp only at h ⊢
      rcases hrest : Tokenizer.readHeaderPairs n t₁ with ⟨_ | others, t₂⟩
      · rw [hrest] at h
        cases h
      rw [hrest] at h
      cases pairs with
      | nil => cases h
      | cons pair pairs =>
        simp only [List.map_cons, Prod.mk.injEq, Except.ok.injEq, List.cons.injEq] at h
        obtain ⟨⟨rfl, rfl⟩, rfl⟩ := h
        have hpair := hfits _ List.mem_cons_self
        rw [if_neg (by dsimp only; omega), if_neg (by dsimp only; omega),
          ih (fun pair hmem => hfits pair (List.mem_cons_of_mem _ hmem)) hrest]
        rfl

/-- Of pairs with numbers of their own every number keeps an offset. -/
theorem exists_memberOffsets {pair : ℕ × ℕ} (h : pair ∈ pairs) :
    ∃ offset, (pair.1, offset) ∈ Resolver.memberOffsets pairs := by
  have hlookup := lookup_foldl_insertSorted pair.1 pairs []
  rw [List.append_nil] at hlookup
  cases hoffset : pairs.reverse.lookup pair.1 with
  | none =>
    have hnone := List.lookup_eq_none_iff.mp hoffset pair (List.mem_reverse.mpr h)
    simp at hnone
  | some offset => exact ⟨offset, mem_of_lookup (hlookup.trans hoffset)⟩

end Members

section RoundTrip

variable (resolve : QpdfObjGen → Except Bytes ObjectValue)
  (map : QpdfObjGen → Except Bytes ObjectRef) (removed : List QpdfObjGen)

/-- The writer of the members; what a failing walk has written is lost with the body. -/
def refMapMember : MemberWriter Unit Bytes ObjectValue := fun s _ _ handle =>
  match unparseObjectWithRefMap resolve map removed handle with
  | .ok text => (⟨[text], .ok ()⟩, s)
  | .error e => (⟨[], .error e⟩, s)

variable {resolve map removed} {members : List (MemberRef × ObjectValue)} {index : ℕ}
  {texts : List Bytes} {qdf : Bool} {body : ObjStmBody} {stream : ObjectStream}

theorem text_of_memberBytes {s s' : Unit} {i : ℕ} {member : MemberRef × ObjectValue}
    (h : memberBytes (refMapMember resolve map removed) index members s = (.ok texts, s'))
    (hmember : members[i]? = some member) :
    ∃ text, texts[i]? = some text ∧ unparseObjectWithRefMap resolve map removed member.2 = .ok text := by
  induction members generalizing index texts i s with
  | nil => cases hmember
  | cons first members ih =>
    rw [memberBytes, refMapMember] at h
    cases htext : unparseObjectWithRefMap resolve map removed first.2 with
    | error e =>
      rw [htext] at h
      cases h
    | ok text =>
      rw [htext] at h
      dsimp only at h
      rcases hrest : memberBytes (refMapMember resolve map removed) (index + 1) members s with
        ⟨_ | others, s₁⟩ <;> rw [hrest] at h
      · cases h
      · cases h
        cases i with
        | zero =>
          cases hmember
          exact ⟨text, by simp, htext⟩
        | succ i =>
          obtain ⟨found, hfound, hwritten⟩ := ih hrest (by simpa using hmember)
          exact ⟨found, by simpa using hfound, hwritten⟩

/-- The reader finds a pair for every member, and behind each pair the value of the output. -/
theorem members_of_emit (hmap : ∀ objectGen ref, map objectGen = .ok ref → ref.Valid)
    (hmembers : ∀ member ∈ members, ∃ value, dereference resolve member.2 = .ok value ∧
      Readable maxParseDepth value ∧ LiveParser.IsDirect value) (hne : members ≠ [])
    (hemit : emitObjstmBodyFromMembers (refMapMember resolve map removed) members qdf () =
      (.ok body, ()))
    (hcount : stream.objectCount = body.nMembers) (hfirst : stream.first = body.firstOffset)
    (hdata : stream.data = body.bytes) :
    ∃ pairs, stream.members = .ok pairs ∧
      (∀ member ∈ members, ∃ offset, (member.1.number, offset) ∈ pairs) ∧
      ∀ pair ∈ pairs, ∃ member ∈ members, member.1.number = pair.1 ∧
        ∃ value, dereference resolve member.2 = .ok value ∧
          stream.parseMember pair.2 = .ok (mapped resolve map removed value, []) := by
  obtain ⟨-, texts, hrun, hindex⟩ := indexes_of_emit hne hemit
  obtain ⟨t, hpairs, -⟩ := hindex.pairs
  have hheader : ObjectStream.headerPairs stream.objectCount { input := stream.data } =
      .ok ((members.zip (offsetsFrom 0 texts)).map fun entry => (entry.1.1.number, entry.2)) := by
    rw [hcount, hdata]
    refine headerPairs_of_readHeaderPairs ?_ (hpairs.trans (congrArg (fun l => (Except.ok l, t)) ?_))
    · intro pair hpair
      obtain ⟨entry, -, rfl⟩ := List.mem_map.mp hpair
      exact entry.1.1.number_lt
    · rw [List.zip_map, List.map_map]
      rfl
  refine ⟨_, by rw [ObjectStream.members, hheader]; rfl, ?_, ?_⟩
  · intro member hmember
    obtain ⟨i, hi⟩ := List.mem_iff_getElem?.mp hmember
    obtain ⟨text, htext, -⟩ := text_of_memberBytes hrun hi
    obtain ⟨hlt, -⟩ := List.getElem?_eq_some_iff.mp htext
    obtain ⟨offset, hoffset⟩ : ∃ offset, (offsetsFrom 0 texts)[i]? = some offset :=
      ⟨_, List.getElem?_eq_getElem (by rw [length_offsetsFrom]; exact hlt)⟩
    have hzip : (member, offset) ∈ members.zip (offsetsFrom 0 texts) :=
      List.mem_iff_getElem?.mpr ⟨i, List.getElem?_zip_eq_some.mpr ⟨hi, hoffset⟩⟩
    exact exists_memberOffsets (List.mem_map_of_mem hzip)
  · intro pair hpair
    obtain ⟨⟨member, offset⟩, hzip, rfl⟩ := List.mem_map.mp ((memberOffsets_spec _).2 pair hpair)
    obtain ⟨i, hi⟩ := List.mem_iff_getElem?.mp hzip
    obtain ⟨hi, hoffset⟩ := List.getElem?_zip_eq_some.mp hi
    obtain ⟨text, htext, hwritten⟩ := text_of_memberBytes hrun hi
    have hmember := List.mem_of_getElem? hi
    obtain ⟨value, hvalue, hreadable, hdirect⟩ := hmembers member hmember
    rw [refMap_eq hvalue] at hwritten
    refine ⟨member, hmember, rfl, value, hvalue, ?_⟩
    rw [ObjectStream.parseMember, ObjectStream.memberData, hdata, hfirst,
      hindex.member i offset text hoffset htext]
    exact parseMember_of_writes (spells_mapped hmap hreadable) (compact_writes hreadable hwritten)
      (isDirect_mapped hdirect) le_rfl _

end RoundTrip

/-- An array with a reference. -/
def arrayHandle : List (MemberRef × ObjectValue) :=
  [(⟨⟨8, 0⟩, by decide⟩, .array [.indirect ⟨3, 0⟩])]

end Flpdf
