import Flpdf.Effects.Program
import Flpdf.Parser.ReadBack

/-!
# Unparsing

A value is written with its direct children in place and a reference for each indirect one.
What is written is read back as the value without its null entries.
-/

namespace Flpdf

/-! ## The writer -/

section Unparse

variable (resolve : QpdfObjGen → Except Bytes ObjectValue)

/-- `N G R` -/
def unparseReference (objectGen : QpdfObjGen) : Bytes :=
  intDecimal objectGen.object ++ 0x20 :: (intDecimal objectGen.generation ++ 0x20 :: ascii "R")

/-- `write_unparse_dictionary_key`: the first byte stays as it is. -/
def unparseDictionaryKey : Bytes → Bytes
  | [] => []
  | first :: tail => first :: writeNameEscaped tail

def isNullValue : ObjectValue → Bool
  | .null => true
  | _ => false

/-- `try_is_null`: an indirect child is resolved. -/
def tryIsNull : ObjectValue → Except Bytes Bool
  | .indirect objectGen => (resolve objectGen).map isNullValue
  | value => .ok (isNullValue value)

/-- `try_dereference`, with the value that is there afterwards. -/
def dereference : ObjectValue → Except Bytes ObjectValue
  | .indirect objectGen => resolve objectGen
  | value => .ok value

mutual

/-- `unparse_resolved_value`, with `unparse_resolved_child` for the children. -/
def unparseResolvedValue : ObjectValue → Except Bytes Bytes
  | .null => .ok (ascii "null")
  | .boolean value => .ok (if value then ascii "true" else ascii "false")
  | .integer value => .ok (intDecimal value)
  | .real encoded => .ok encoded
  | .name value => .ok (0x2f :: writeNameEscaped value)
  | .string value => .ok (writeStringValue value)
  | .operator value => .ok value
  | .inlineImage value => .ok value
  | .array items => do
    let text ← unparseResolvedItems items
    return ascii "[ " ++ text ++ ascii "]"
  | .dictionary entries => do
    let text ← unparseResolvedEntries entries
    return ascii "<< " ++ text ++ ascii ">>"
  | .stream _ => .error (ascii "attempted to unparse a stream without an object identity")
  | .indirect objectGen => .ok (unparseReference objectGen)

def unparseResolvedItems : List ObjectValue → Except Bytes Bytes
  | [] => .ok []
  | child :: children => do
    let text ← unparseResolvedValue child
    let rest ← unparseResolvedItems children
    return text ++ ascii " " ++ rest

/-- Entries that are null, or refer to null, are left out. -/
def unparseResolvedEntries : List (Bytes × ObjectValue) → Except Bytes Bytes
  | [] => .ok []
  | (key, child) :: entries => do
    if ← tryIsNull resolve child then unparseResolvedEntries entries
    else
      let text ← unparseResolvedValue child
      let rest ← unparseResolvedEntries entries
      return unparseDictionaryKey key ++ ascii " " ++ (text ++ ascii " " ++ rest)

end

/-- `unparse_resolved`: the object itself is resolved, but a stream stays a reference. -/
def unparseResolved : ObjectValue → Except Bytes Bytes
  | .indirect objectGen => do
    match ← resolve objectGen with
    | .stream _ => return unparseReference objectGen
    | value => unparseResolvedValue resolve value
  | value => unparseResolvedValue resolve value

end Unparse

/-! ## Values that can be read back -/

/-- What a file can hold in place: containers are nested at most `d` deep. -/
inductive Readable : ℕ → ObjectValue → Prop where
  | null {d : ℕ} : Readable d .null
  | boolean {d : ℕ} (value : Bool) : Readable d (.boolean value)
  | integer {d : ℕ} {value : ℤ} (hlower : -2 ^ 63 ≤ value) (hupper : value < 2 ^ 63) :
      Readable d (.integer value)
  | real {d : ℕ} {encoded : Bytes} (h : Tokenizer.isRealToken encoded = true) :
      Readable d (.real encoded)
  | name {d : ℕ} {value : Bytes} (h : 0 ∉ value) : Readable d (.name value)
  | string {d : ℕ} (value : Bytes) : Readable d (.string value)
  | reference {d : ℕ} {number generation : ℤ} (hnumber : 1 ≤ number ∧ number < 2 ^ 31)
      (hgeneration : 0 ≤ generation ∧ generation < 65535) :
      Readable d (.indirect ⟨number, generation⟩)
  | array {d : ℕ} {items : List ObjectValue} (hitems : ∀ item ∈ items, Readable d item) :
      Readable (d + 1) (.array items)
  | dictionary {d : ℕ} {entries : List (Bytes × ObjectValue)} (hascending : Ascending entries)
      (hkeys : ∀ e ∈ entries, ∃ n : Bytes, e.1 = 0x2f :: n ∧ 0 ∉ n)
      (hentries : ∀ e ∈ entries, Readable d e.2) : Readable (d + 1) (.dictionary entries)

section Kept

variable (isNull : ObjectValue → Bool)

mutual

/-- The value without the entries that are null. -/
def kept : ObjectValue → ObjectValue
  | .array items => .array (keptItems items)
  | .dictionary entries => .dictionary (keptEntries entries)
  | value => value

def keptItems : List ObjectValue → List ObjectValue
  | [] => []
  | item :: items => kept item :: keptItems items

def keptEntries : List (Bytes × ObjectValue) → List (Bytes × ObjectValue)
  | [] => []
  | (key, value) :: entries =>
    if isNull value then keptEntries entries else (key, kept value) :: keptEntries entries

end

theorem keys_keptEntries (entries : List (Bytes × ObjectValue)) :
    ((keptEntries isNull entries).map Prod.fst).Sublist (entries.map Prod.fst) := by
  induction entries with
  | nil => exact List.Sublist.refl _
  | cons e entries ih =>
    rw [keptEntries]
    split_ifs
    · exact ih.cons _
    · exact ih.cons_cons _

end Kept

theorem ascending_iff {entries : List (Bytes × ObjectValue)} :
    Ascending entries ↔ (entries.map Prod.fst).Pairwise fun k k' => compare k k' = .lt := by
  rw [Ascending, List.pairwise_map]

theorem Ascending.keptEntries {entries : List (Bytes × ObjectValue)} (h : Ascending entries)
    (isNull : ObjectValue → Bool) : Ascending (keptEntries isNull entries) :=
  ascending_iff.mpr ((ascending_iff.mp h).sublist (keys_keptEntries isNull entries))

/-! ## Reading back -/

open Tokenizer

section Written

variable {resolve : QpdfObjGen → Except Bytes ObjectValue} {d : ℕ} {value : ObjectValue}
  {items : List ObjectValue} {entries : List (Bytes × ObjectValue)} {text : Bytes}

/-- The source tells a null entry. -/
def isNullHandle (resolve : QpdfObjGen → Except Bytes ObjectValue) (value : ObjectValue) : Bool :=
  match tryIsNull resolve value with
  | .ok isNull => isNull
  | .error _ => false

/-- A text of a value's tokens is read as the value, with nothing to warn about. -/
theorem parseObject_of_writes {row : List Spelled} (hspells : Spells d (.value value) row)
    (hwrites : Writes row text) (hdirect : LiveParser.IsDirect value) (hdepth : d ≤ maxParseDepth) :
    parseObject true text = some (.ok (value, [])) := by
  have hspaced : Spaced [] row text := by simpa using hwrites [] (by simp)
  obtain ⟨p, hbody, hdrop, -, hdiagnostics⟩ := parseBody_text hspells hspaced hdirect hdepth
  rw [parseObject_of_parseBody hbody hdrop rfl, hdiagnostics]

theorem writes_plain {raw : Bytes} {type : TokenType} (h : Spelling raw type raw) :
    Writes [plain raw type] raw :=
  Spelled.writes (plain raw type) h

theorem writes_integer (v : ℤ) : Writes [plain (intDecimal v) .integer] (intDecimal v) :=
  writes_plain (.integer (isIntText_intDecimal v))

theorem spelling_run {raw : Bytes} {type : TokenType} (hne : raw ≠ [])
    (hregular : ∀ b ∈ raw, isRegular b = true) (htype : runType (runState raw) raw = type) :
    Spelling raw type raw :=
  htype ▸ .run hne hregular

theorem writes_reference (number generation : ℤ) :
    Writes [plain (intDecimal number) .integer, plain (intDecimal generation) .integer,
      plain (ascii "R") .word] (unparseReference ⟨number, generation⟩) := by
  have hr : Writes [plain (ascii "R") .word] (ascii "R") :=
    writes_plain (spelling_run (by decide) (List.all_eq_true.mp rfl) (by decide))
  have hgeneration := (writes_integer generation).append [0x20] hr (List.all_eq_true.mp rfl)
    (by decide) (by simp)
  have hnumber := (writes_integer number).append [0x20] hgeneration (List.all_eq_true.mp rfl)
    (by decide) (by simp)
  simpa [unparseReference, List.append_assoc] using hnumber

theorem writes_name {n : Bytes} (hn : 0 ∉ n) :
    Writes [nameSpelled n] (0x2f :: writeNameEscaped n) := by
  rw [writeNameEscaped_eq]
  exact Spelled.writes (nameSpelled n) (.name hn)

/-- What is written of a value spells what is kept of it. -/
def Unparses (resolve : QpdfObjGen → Except Bytes ObjectValue) (d : ℕ) (value : ObjectValue) :
    Prop :=
  ∀ text, unparseResolvedValue resolve value = .ok text →
    ∃ row, Spells d (.value (kept (isNullHandle resolve) value)) row ∧ Writes row text

theorem unparses_of_eq {row : List Spelled} (hvalue : unparseResolvedValue resolve value = .ok text)
    (hspells : Spells d (.value (kept (isNullHandle resolve) value)) row) (hwrites : Writes row text) :
    Unparses resolve d value := by
  intro text' htext
  obtain rfl : text = text' := by simpa [hvalue] using htext
  exact ⟨row, hspells, hwrites⟩

theorem unparses_items (h : ∀ item ∈ items, Unparses resolve d item)
    (htext : unparseResolvedItems resolve items = .ok text) :
    ∃ row, Spells d (.items (keptItems (isNullHandle resolve) items)) row ∧
      Writes (row ++ [plain [0x5d] .arrayClose]) (text ++ ascii "]") := by
  induction items generalizing text with
  | nil =>
    obtain rfl : ([] : Bytes) = text := by simpa [unparseResolvedItems] using htext
    exact ⟨[], .noItems, writes_plain .arrayClose⟩
  | cons item items ih =>
    rw [unparseResolvedItems] at htext
    obtain ⟨first, hfirst, htext⟩ := bind_eq_ok.mp htext
    obtain ⟨rest, hrest, htext⟩ := bind_eq_ok.mp htext
    obtain rfl : first ++ ascii " " ++ rest = text := by simpa [pure, Except.pure] using htext
    obtain ⟨row, hspells, hwrites⟩ := h item List.mem_cons_self first hfirst
    obtain ⟨row', hspells', hwrites'⟩ :=
      ih (fun item hitem => h item (List.mem_cons_of_mem _ hitem)) hrest
    refine ⟨row ++ row', .item hspells hspells', ?_⟩
    rw [List.append_assoc, List.append_assoc _ rest]
    exact hwrites.append _ hwrites' (List.all_eq_true.mp rfl) (by decide) (by simp)

theorem unparses_entries (hkeys : ∀ e ∈ entries, ∃ n : Bytes, e.1 = 0x2f :: n ∧ 0 ∉ n)
    (h : ∀ e ∈ entries, Unparses resolve d e.2)
    (htext : unparseResolvedEntries resolve entries = .ok text) :
    ∃ row, Spells d (.entries (keptEntries (isNullHandle resolve) entries)) row ∧
      Writes (row ++ [plain [0x3e, 0x3e] .dictClose]) (text ++ ascii ">>") := by
  induction entries generalizing text with
  | nil =>
    obtain rfl : ([] : Bytes) = text := by simpa [unparseResolvedEntries] using htext
    exact ⟨[], .noEntries, writes_plain .dictClose⟩
  | cons e entries ih =>
    obtain ⟨key, child⟩ := e
    have hrestKeys : ∀ e ∈ entries, ∃ n : Bytes, e.1 = 0x2f :: n ∧ 0 ∉ n :=
      fun e he => hkeys e (List.mem_cons_of_mem _ he)
    have hrestValues : ∀ e ∈ entries, Unparses resolve d e.2 :=
      fun e he => h e (List.mem_cons_of_mem _ he)
    rw [unparseResolvedEntries] at htext
    obtain ⟨isNull, hnull, htext⟩ := bind_eq_ok.mp htext
    have hkept : isNullHandle resolve child = isNull := by rw [isNullHandle, hnull]
    rw [keptEntries, hkept]
    cases isNull with
    | true => exact ih hrestKeys hrestValues htext
    | false =>
      rw [if_neg (by simp)] at htext ⊢
      obtain ⟨first, hfirst, htext⟩ := bind_eq_ok.mp htext
      obtain ⟨rest, hrest, htext⟩ := bind_eq_ok.mp htext
      obtain rfl : unparseDictionaryKey key ++ ascii " " ++ (first ++ ascii " " ++ rest) = text := by
        simpa [pure, Except.pure] using htext
      obtain ⟨n, rfl, hn⟩ := hkeys (key, child) List.mem_cons_self
      obtain ⟨row, hspells, hwrites⟩ := h _ List.mem_cons_self first hfirst
      obtain ⟨row', hspells', hwrites'⟩ := ih hrestKeys hrestValues hrest
      refine ⟨nameSpelled n :: (row ++ row'), .entry hn hspells hspells', ?_⟩
      have hvalue := hwrites.append (ascii " ") hwrites' (List.all_eq_true.mp rfl)
        (by decide) (by simp)
      have hentry := (writes_name hn).append (ascii " ") hvalue (List.all_eq_true.mp rfl)
        (by decide) (by simp)
      simpa [unparseDictionaryKey, List.append_assoc] using hentry

theorem unparses_of_readable (h : Readable d value) : Unparses resolve d value := by
  induction h with
  | null =>
    exact unparses_of_eq rfl .null
      (writes_plain (spelling_run (by decide) (List.all_eq_true.mp rfl) (by decide)))
  | boolean value =>
    refine unparses_of_eq rfl (.boolean value) (writes_plain ?_)
    cases value <;> exact spelling_run (by decide) (List.all_eq_true.mp rfl) (by decide)
  | integer hlower hupper => exact unparses_of_eq rfl (.integer hlower hupper) (writes_integer _)
  | real hreal => exact unparses_of_eq rfl (.real (.real hreal)) (writes_plain (.real hreal))
  | name hn => exact unparses_of_eq rfl (.name hn) (writes_name hn)
  | string value =>
    exact unparses_of_eq rfl (.string (.writeStringValue value))
      (Spelled.writes ⟨_, _, _⟩ (.writeStringValue value))
  | reference hnumber hgeneration =>
    exact unparses_of_eq rfl (.reference hnumber hgeneration) (writes_reference _ _)
  | array hitems ih =>
    intro text htext
    rw [unparseResolvedValue] at htext
    obtain ⟨inner, hinner, htext⟩ := bind_eq_ok.mp htext
    obtain rfl : ascii "[ " ++ inner ++ ascii "]" = text := by
      simpa [pure, Except.pure] using htext
    obtain ⟨row, hspells, hwrites⟩ := unparses_items ih hinner
    refine ⟨_, .array hspells, ?_⟩
    have hopen := (writes_plain .arrayOpen).append (ascii " ") hwrites (List.all_eq_true.mp rfl)
      (by decide) (by simp)
    rwa [← List.append_assoc] at hopen
  | dictionary hascending hkeys hentries ih =>
    intro text htext
    rw [unparseResolvedValue] at htext
    obtain ⟨inner, hinner, htext⟩ := bind_eq_ok.mp htext
    obtain rfl : ascii "<< " ++ inner ++ ascii ">>" = text := by
      simpa [pure, Except.pure] using htext
    obtain ⟨row, hspells, hwrites⟩ := unparses_entries hkeys ih hinner
    refine ⟨_, .dictionary (hascending.keptEntries _) hspells, ?_⟩
    have hopen := (writes_plain .dictOpen).append (ascii " ") hwrites (List.all_eq_true.mp rfl)
      (by decide) (by simp)
    rwa [← List.append_assoc] at hopen

theorem tryIsNull_total (hresolve : ∀ objectGen, ∃ value, resolve objectGen = .ok value)
    (value : ObjectValue) : ∃ isNull, tryIsNull resolve value = .ok isNull := by
  cases value with
  | indirect objectGen =>
    obtain ⟨value, hvalue⟩ := hresolve objectGen
    exact ⟨isNullValue value, by rw [tryIsNull, hvalue]; rfl⟩
  | _ => exact ⟨_, rfl⟩

/-- Only a reference that cannot be resolved keeps a value from being written. -/
theorem unparse_total (hresolve : ∀ objectGen, ∃ value, resolve objectGen = .ok value)
    (h : Readable d value) : ∃ text, unparseResolvedValue resolve value = .ok text := by
  induction h with
  | @array d items hitems ih =>
    have hall : ∃ text, unparseResolvedItems resolve items = .ok text := by
      clear hitems
      induction items with
      | nil => exact ⟨[], rfl⟩
      | cons item items ihitems =>
        obtain ⟨first, hfirst⟩ := ih item List.mem_cons_self
        obtain ⟨rest, hrest⟩ := ihitems fun item hitem => ih item (List.mem_cons_of_mem _ hitem)
        exact ⟨_, by rw [unparseResolvedItems, hfirst, hrest]; rfl⟩
    obtain ⟨text, htext⟩ := hall
    exact ⟨_, by rw [unparseResolvedValue, htext]; rfl⟩
  | @dictionary d entries hascending hkeys hentries ih =>
    have hall : ∃ text, unparseResolvedEntries resolve entries = .ok text := by
      clear hascending hkeys hentries
      induction entries with
      | nil => exact ⟨[], rfl⟩
      | cons e entries ihentries =>
        obtain ⟨first, hfirst⟩ := ih e List.mem_cons_self
        obtain ⟨rest, hrest⟩ := ihentries fun e he => ih e (List.mem_cons_of_mem _ he)
        obtain ⟨isNull, hnull⟩ := tryIsNull_total hresolve e.2
        cases isNull with
        | true => exact ⟨rest, by rw [unparseResolvedEntries, hnull]; exact hrest⟩
        | false => exact ⟨_, by rw [unparseResolvedEntries, hnull, hfirst, hrest]; rfl⟩
    obtain ⟨text, htext⟩ := hall
    exact ⟨_, by rw [unparseResolvedValue, htext]; rfl⟩
  | _ => exact ⟨_, rfl⟩

/-- Two values of a file that are written alike are the same, null entries apart. -/
theorem kept_eq_of_unparse {resolve' : QpdfObjGen → Except Bytes ObjectValue}
    {value' : ObjectValue} (hreadable : Readable maxParseDepth value)
    (hreadable' : Readable maxParseDepth value') (hdirect : LiveParser.IsDirect value)
    (hdirect' : LiveParser.IsDirect value')
    (htext : unparseResolvedValue resolve value = .ok text)
    (htext' : unparseResolvedValue resolve' value' = .ok text) :
    kept (isNullHandle resolve) value = kept (isNullHandle resolve') value' := by
  have hparses : ∀ {resolve : QpdfObjGen → Except Bytes ObjectValue} {value : ObjectValue},
      Readable maxParseDepth value → LiveParser.IsDirect value →
      unparseResolvedValue resolve value = .ok text →
      ∃ p, LiveParser.parseBody { tokens := { input := text }, hasContext := true } =
        some (.ok (kept (isNullHandle resolve) value, p)) := by
    intro resolve value hreadable hdirect htext
    have hkept : LiveParser.IsDirect (kept (isNullHandle resolve) value) := by
      cases value with
      | indirect objectGen => exact hdirect.elim
      | _ => trivial
    obtain ⟨row, hspells, hwrites⟩ := unparses_of_readable hreadable text htext
    have hspaced : Spaced [] row text := by simpa using hwrites [] (by simp)
    obtain ⟨p, hbody, -⟩ := parseBody_text hspells hspaced hkept le_rfl
    exact ⟨p, hbody⟩
  obtain ⟨p, hp⟩ := hparses hreadable hdirect htext
  obtain ⟨p', hp'⟩ := hparses hreadable' hdirect' htext'
  exact (Prod.mk.inj (Except.ok.inj (Option.some.inj (hp.symm.trans hp')))).1

end Written

/-- A value of a file that is unparsed and parsed again is the value without its null entries:
the parser reads the text to its end and has nothing to warn about. -/
theorem unparseResolved_parses (resolve : QpdfObjGen → Except Bytes ObjectValue)
    {value : ObjectValue} (hreadable : Readable maxParseDepth value)
    (hdirect : LiveParser.IsDirect value) :
    (∀ text, unparseResolved resolve value = .ok text →
      (∃ p, LiveParser.parseBody { tokens := { input := text }, hasContext := true } =
          some (.ok (kept (isNullHandle resolve) value, p)) ∧
        p.tokens.pos = text.length ∧ p.diagnostics = []) ∧
      parseObject true text = some (.ok (kept (isNullHandle resolve) value, []))) ∧
    ((∀ objectGen, ∃ value, resolve objectGen = .ok value) →
      ∃ text, unparseResolved resolve value = .ok text) := by
  have hresolved : unparseResolved resolve value = unparseResolvedValue resolve value := by
    cases value with
    | indirect objectGen => exact hdirect.elim
    | _ => rfl
  have hkept : LiveParser.IsDirect (kept (isNullHandle resolve) value) := by
    cases value with
    | indirect objectGen => exact hdirect.elim
    | _ => trivial
  rw [hresolved]
  refine ⟨?_, fun hresolve => unparse_total hresolve hreadable⟩
  intro text htext
  obtain ⟨row, hspells, hwrites⟩ := unparses_of_readable hreadable text htext
  have hspaced : Spaced [] row text := by simpa using hwrites [] (by simp)
  obtain ⟨p, hbody, hdrop, hlength, hdiagnostics⟩ := parseBody_text hspells hspaced hkept le_rfl
  refine ⟨⟨p, hbody, hlength, hdiagnostics⟩, ?_⟩
  rw [parseObject_of_parseBody hbody hdrop rfl, hdiagnostics]

/-- An array with a name next to a string, and a dictionary with a null entry. -/
theorem unparseResolved_parses_sample :
    parseObject true (ascii "[ 1 2 0 R /A#20 (b) << /K [ ] >> ]") =
      some (.ok (.array [.integer 1, .indirect ⟨2, 0⟩, .name (ascii "A "), .string (ascii "b"),
        .dictionary [(ascii "/K", .array [])]], [])) := by
  have hreadable : Readable maxParseDepth (.array [.integer 1, .indirect ⟨2, 0⟩, .name (ascii "A "),
      .string (ascii "b"), .dictionary [(ascii "/J", .null), (ascii "/K", .array [])]]) := by
    refine .array (List.forall_mem_cons.mpr ⟨.integer (by decide) (by decide),
      List.forall_mem_cons.mpr ⟨.reference (by decide) (by decide),
      List.forall_mem_cons.mpr ⟨.name (by decide), List.forall_mem_cons.mpr ⟨.string _,
      List.forall_mem_cons.mpr ⟨.dictionary ?_ ?_ ?_, by simp⟩⟩⟩⟩⟩)
    · exact List.pairwise_pair.mpr (by decide)
    · exact List.forall_mem_cons.mpr ⟨⟨ascii "J", rfl, by decide⟩,
        List.forall_mem_cons.mpr ⟨⟨ascii "K", rfl, by decide⟩, by simp⟩⟩
    · exact List.forall_mem_cons.mpr ⟨.null, List.forall_mem_cons.mpr ⟨.array (by simp), by simp⟩⟩
  have hunparse : unparseResolved (fun _ => .ok .null) (.array [.integer 1, .indirect ⟨2, 0⟩,
      .name (ascii "A "), .string (ascii "b"),
      .dictionary [(ascii "/J", .null), (ascii "/K", .array [])]]) =
      .ok (ascii "[ 1 2 0 R /A#20 (b) << /K [ ] >> ]") := by decide
  exact ((unparseResolved_parses (fun _ => .ok .null) hreadable trivial).1 _ hunparse).2

end Flpdf
