import Flpdf.Json.Acceptance
import Flpdf.Json.Written

/-!
# JSON trees survive writing and reading

A tree that was built with the operations of `Json` keeps its keys encoded and
in order. Its text is therefore a document of the grammar, and the parser,
which accepts every document, returns the tree that was written.
-/

namespace Flpdf.Json

variable {v w : Json} {d n : ℕ} {o : ℤ} {post : Bytes}

/-! ## Trees -/

/-- The trees whose containers nest at most some number deep, as the operations
of `Json` build them. -/
inductive Built : ℕ → Json → Prop where
  | uninitialized {d : ℕ} : Built d .uninitialized
  | makeString {d : ℕ} (value : Bytes) (a b : ℤ) : Built d (makeString value a b)
  | makeNumber {d : ℕ} {encoded : Bytes} (a b : ℤ) : IsNumber encoded →
      Built d (.number encoded a b)
  | makeBool {d : ℕ} (value : Bool) (a b : ℤ) : Built d (.bool value a b)
  | makeNull {d : ℕ} (a b : ℤ) : Built d (.null a b)
  | makeBlob {d : ℕ} (bytes : Bytes) (a b : ℤ) : Built d (.blob bytes a b)
  | makeDictionary {d : ℕ} (a b : ℤ) : Built (d + 1) (.dictionary [] a b)
  | addDictionaryMember {d : ℕ} {v w v' : Json} (key : Bytes) : Built (d + 1) v → Built d w →
      v.addDictionaryMember key w = .ok v' → Built (d + 1) v'
  | makeArray {d : ℕ} (a b : ℤ) : Built (d + 1) (.array [] a b)
  | addArrayElement {d : ℕ} {v w v' : Json} : Built (d + 1) v → Built d w →
      v.addArrayElement w = .ok v' → Built (d + 1) v'

/-- The second tree is the first one read back: structurally equal but for the
offsets, an uninitialized value as null and a blob as the string of its text. -/
inductive ReadsAs : Json → Json → Prop where
  | uninitialized {a b : ℤ} : ReadsAs .uninitialized (.null a b)
  | string {original encoded : Bytes} {a b a' b' : ℤ} :
      ReadsAs (.string original encoded a b) (.string original encoded a' b')
  | number {encoded : Bytes} {a b a' b' : ℤ} : ReadsAs (.number encoded a b) (.number encoded a' b')
  | bool {value : Bool} {a b a' b' : ℤ} : ReadsAs (.bool value a b) (.bool value a' b')
  | null {a b a' b' : ℤ} : ReadsAs (.null a b) (.null a' b')
  | blob {bytes : Bytes} {a b a' b' : ℤ} :
      ReadsAs (.blob bytes a b) (Json.makeString (PlBase64.encode bytes) a' b')
  | array {items items' : List Json} {a b a' b' : ℤ} : List.Forall₂ ReadsAs items items' →
      ReadsAs (.array items a b) (.array items' a' b')
  | dictionary {members members' : List (Bytes × Json)} {a b a' b' : ℤ} :
      members.map Prod.fst = members'.map Prod.fst →
      List.Forall₂ ReadsAs (members.map Prod.snd) (members'.map Prod.snd) →
      ReadsAs (.dictionary members a b) (.dictionary members' a' b')

/-- What the writer can rely on: the keys of a dictionary are encoded and in order. -/
inductive WellFormed : ℕ → Json → Prop where
  | uninitialized {d : ℕ} : WellFormed d .uninitialized
  | string {d : ℕ} (value : Bytes) (a b : ℤ) : WellFormed d (Json.makeString value a b)
  | number {d : ℕ} {encoded : Bytes} (a b : ℤ) : IsNumber encoded →
      WellFormed d (.number encoded a b)
  | bool {d : ℕ} (value : Bool) (a b : ℤ) : WellFormed d (.bool value a b)
  | null {d : ℕ} (a b : ℤ) : WellFormed d (.null a b)
  | blob {d : ℕ} (bytes : Bytes) (a b : ℤ) : WellFormed d (.blob bytes a b)
  | array {d : ℕ} {items : List Json} (a b : ℤ) : (∀ v ∈ items, WellFormed d v) →
      WellFormed (d + 1) (.array items a b)
  | dictionary {d : ℕ} {members : List (Bytes × Json)} (a b : ℤ) : Ascending members →
      (∀ m ∈ members, ∃ key, m.1 = encodeString key) → (∀ m ∈ members, WellFormed d m.2) →
      WellFormed (d + 1) (.dictionary members a b)

theorem WellFormed.orNull (h : WellFormed d v) : WellFormed d v.orNull := by
  cases v with
  | uninitialized => exact .null 0 0
  | _ => exact h

theorem addDictionaryMember_ok {v' : Json} {key : Bytes}
    (h : v.addDictionaryMember key w = .ok v') :
    ∃ members a b, v = .dictionary members a b ∧
      v' = .dictionary (insertSorted (encodeString key) w.orNull members) a b := by
  cases v with
  | dictionary members a b =>
    cases h
    exact ⟨members, a, b, rfl, rfl⟩
  | _ => cases h

theorem addArrayElement_ok {v' : Json} (h : v.addArrayElement w = .ok v') :
    ∃ items a b, v = .array items a b ∧ v' = .array (items ++ [w.orNull]) a b := by
  cases v with
  | array items a b =>
    cases h
    exact ⟨items, a, b, rfl, rfl⟩
  | _ => cases h

/-- The operations keep the invariant. -/
theorem Built.wellFormed (h : Built d v) : WellFormed d v := by
  induction h with
  | uninitialized => exact .uninitialized
  | makeString value a b => exact .string value a b
  | makeNumber a b hnumber => exact .number a b hnumber
  | makeBool value a b => exact .bool value a b
  | makeNull a b => exact .null a b
  | makeBlob bytes a b => exact .blob bytes a b
  | makeDictionary a b =>
    apply WellFormed.dictionary a b List.Pairwise.nil
    · intro m hm
      cases hm
    · intro m hm
      cases hm
  | makeArray a b =>
    apply WellFormed.array a b
    intro v hv
    cases hv
  | @addDictionaryMember d v w v' key _ _ hadd ihv ihw =>
    obtain ⟨members, a, b, rfl, rfl⟩ := addDictionaryMember_ok hadd
    cases ihv with
    | dictionary _ _ hascending hkeys hvalues =>
      apply WellFormed.dictionary a b hascending.insertSorted
      · intro m hm
        rcases mem_insertSorted hm with rfl | hm
        · exact ⟨key, rfl⟩
        · exact hkeys m hm
      · intro m hm
        rcases mem_insertSorted hm with rfl | hm
        · exact ihw.orNull
        · exact hvalues m hm
  | @addArrayElement d v w v' _ _ hadd ihv ihw =>
    obtain ⟨items, a, b, rfl, rfl⟩ := addArrayElement_ok hadd
    cases ihv with
    | array _ _ hitems =>
      apply WellFormed.array a b
      intro v hv
      rcases List.mem_append.mp hv with hv | hv
      · exact hitems v hv
      · rw [List.mem_singleton.mp hv]
        exact ihw.orNull

/-! ## Texts -/

theorem blank_indentation (depth : ℕ) : Blank (indentation depth) := by
  induction depth with
  | zero =>
    intro b hb
    cases hb
  | succ depth ih =>
    intro b hb
    rw [indentation_succ, show ascii "  " = [0x20, 0x20] from rfl] at hb
    simp only [List.cons_append, List.nil_append, List.mem_cons] at hb
    rcases hb with rfl | rfl | hb
    · rfl
    · rfl
    · exact ih b hb

theorem blank_line (depth : ℕ) : Blank (0x0a :: indentation depth) := by
  intro b hb
  rcases List.mem_cons.mp hb with rfl | hb
  · rfl
  · exact blank_indentation depth b hb

theorem Value.of_scalar {text : Bytes} (h : Scalar o text v) : Value d o text v := by
  cases d with
  | zero => exact h
  | succ d => exact .inl h

theorem lines_cons {first : Bool} {text : Bytes} {texts : List Bytes} :
    lines n first (text :: texts) =
      (if first then [] else [0x2c]) ++ (0x0a :: indentation n) ++ text ++ lines n false texts := by
  rw [lines, writeNext_eq]

/-- Lines with a text for each of some things are separated by commas. -/
theorem separated_of_lines {α β : Type} {item : ℤ → Bytes → α → Prop} {R : β → α → Prop}
    {text : β → Bytes} {xs : List β} (hxs : xs ≠ [])
    (hitem : ∀ x ∈ xs, ∀ o post, Blank post →
      ∃ a, item o ((0x0a :: indentation n) ++ (text x ++ post)) a ∧ R x a)
    (hpost : Blank post) (o : ℤ) :
    ∃ as, Separated item o (lines n true (xs.map text) ++ post) as ∧ List.Forall₂ R xs as := by
  induction xs generalizing o with
  | nil => exact absurd rfl hxs
  | cons x xs ih =>
    cases xs with
    | nil =>
      obtain ⟨a, ha, hR⟩ := hitem x List.mem_cons_self o post hpost
      refine ⟨[a], ?_, .cons hR .nil⟩
      rw [List.map_cons, List.map_nil, lines_cons, lines, if_pos rfl, List.append_nil,
        List.nil_append, List.append_assoc]
      exact .last ha
    | cons y ys =>
      obtain ⟨a, ha, hR⟩ := hitem x List.mem_cons_self o [] (by simp [Blank])
      rw [List.append_nil] at ha
      obtain ⟨as, has, hRs⟩ := ih (List.cons_ne_nil _ _)
        (fun z hz => hitem z (List.mem_cons_of_mem _ hz))
        (o + ((0x0a :: indentation n) ++ text x).length + 1)
      refine ⟨a :: as, ?_, .cons hR hRs⟩
      have htext : lines n true ((x :: y :: ys).map text) ++ post =
          ((0x0a :: indentation n) ++ text x) ++ 0x2c :: (lines n true ((y :: ys).map text) ++ post) := by
        simp only [List.map_cons, lines_cons, if_pos, if_neg, Bool.false_eq_true, not_false_eq_true,
          List.append_assoc, List.nil_append, List.cons_append]
      rw [htext]
      exact .cons ha has

/-! ## Values -/

/-- The text of a tree denotes what the tree reads as, and that has the same text. -/
def Written (d : ℕ) (v : Json) : Prop :=
  ∀ (n : ℕ) (o : ℤ), ∃ w, Value d o (writeWithDepth n v) w ∧
    (ReadsAs v w ∧ ∀ m, writeWithDepth m w = writeWithDepth m v)

theorem map_eq_of_forall₂ {α β γ : Type} {f : α → γ} {g : β → γ} {as : List α} {bs : List β}
    (h : List.Forall₂ (fun a b => g b = f a) as bs) : bs.map g = as.map f := by
  induction h with
  | nil => rfl
  | cons heq _ ih => rw [List.map_cons, List.map_cons, heq, ih]

theorem written_array {items : List Json} {a b : ℤ} (h : ∀ v ∈ items, Written d v) :
    Written (d + 1) (.array items a b) := by
  intro n o
  by_cases hempty : items = []
  · subst hempty
    refine ⟨.array [] o (o + ([] : Bytes).length + 2), .inr ?_, .array .nil, ?_⟩
    · rw [writeWithDepth_array]
      exact .emptyArray (by simp [Blank, lines])
    · intro m
      rw [writeWithDepth_array, writeWithDepth_array]
  · have hitem : ∀ v ∈ items, ∀ o post, Blank post → ∃ w, Padded (Value d) o
        ((0x0a :: indentation (n + 1)) ++ (writeWithDepth (n + 1) v ++ post)) w ∧
        (ReadsAs v w ∧ ∀ m, writeWithDepth m w = writeWithDepth m v) := by
      intro v hv o post hpost
      obtain ⟨w, hvalue, hw⟩ := h v hv (n + 1) (o + (0x0a :: indentation (n + 1)).length)
      exact ⟨w, ⟨_, _, _, blank_line _, hpost, hvalue, rfl⟩, hw⟩
    obtain ⟨ws, hseparated, hws⟩ := separated_of_lines hempty hitem (blank_line n) (o + 1)
    refine ⟨.array ws o (o + (lines (n + 1) true (items.map (writeWithDepth (n + 1))) ++
      0x0a :: indentation n).length + 2), .inr ?_, .array (hws.imp fun _ _ hw => hw.1), ?_⟩
    · rw [writeWithDepth_array, containerText, if_neg (by simpa using hempty)]
      exact .array hseparated
    · intro m
      rw [writeWithDepth_array, writeWithDepth_array,
        map_eq_of_forall₂ (hws.imp fun _ _ hw => hw.2 (m + 1))]

theorem written_member {m : Bytes × Json} {key : Bytes} (hkey : m.1 = encodeString key)
    (h : Written d m.2) (hpost : Blank post) :
    ∃ a, Member (Value d) o ((0x0a :: indentation (n + 1)) ++
        (memberLine (m.1, m.2.writeWithDepth (n + 1)) ++ post)) a ∧
      (m.1 = encodeString a.1 ∧ ReadsAs m.2 a.2 ∧
        ∀ k, writeWithDepth k a.2 = writeWithDepth k m.2) := by
  obtain ⟨w, hvalue, hw⟩ := h (n + 1) (o + (0x0a :: indentation (n + 1)).length +
    (encodeString key).length + ([] : Bytes).length + 3 + ([0x20] : Bytes).length)
  refine ⟨(key, w), ⟨0x0a :: indentation (n + 1), encodeString key, [],
    0x20 :: (m.2.writeWithDepth (n + 1) ++ post), blank_line _, stringText_encodeString _ key,
    by simp [Blank], ⟨[0x20], _, post, ?_, hpost, hvalue, rfl⟩, ?_⟩, hkey, hw⟩
  · intro b hb
    rw [List.mem_singleton.mp hb]
    rfl
  · rw [memberLine, hkey, show ascii "\": " = [0x22, 0x3a, 0x20] from rfl]
    simp only [List.append_assoc, List.cons_append, List.nil_append]

/-- The members that are read back, under their encoded keys. -/
def encodedMembers (members : List (Bytes × Json)) : List (Bytes × Json) :=
  members.map fun m => (encodeString m.1, m.2)

theorem membersOf_eq {members : List (Bytes × Json)} (h : Ascending (encodedMembers members)) :
    membersOf members = encodedMembers members := by
  calc membersOf members
      = (encodedMembers members).foldl (fun map e => insertSorted e.1 e.2 map) [] :=
        by rw [membersOf, encodedMembers, List.foldl_map]
    _ = encodedMembers members := foldl_insertSorted h

theorem nodup_of_ascending {members : List (Bytes × Json)}
    (h : Ascending (encodedMembers members)) : (members.map Prod.fst).Nodup := by
  apply List.pairwise_map.mpr
  refine (List.pairwise_map.mp h).imp ?_
  intro m m' hlt heq
  rw [heq] at hlt
  have hself : compare (encodeString m'.1) (encodeString m'.1) = .eq := Std.ReflCmp.compare_self
  rw [hself] at hlt
  cases hlt

theorem ascending_congr {α β : Type} {entries : List (Bytes × α)} {entries' : List (Bytes × β)}
    (h : entries.map Prod.fst = entries'.map Prod.fst) (hascending : Ascending entries) :
    Ascending entries' := by
  have hkeys : (entries.map Prod.fst).Pairwise fun a b => compare a b = .lt :=
    List.pairwise_map.mpr hascending
  rw [h] at hkeys
  exact List.pairwise_map.mp hkeys

theorem written_dictionary {members : List (Bytes × Json)} {a b : ℤ} (hascending : Ascending members)
    (hkeys : ∀ m ∈ members, ∃ key, m.1 = encodeString key)
    (h : ∀ m ∈ members, Written d m.2) : Written (d + 1) (.dictionary members a b) := by
  intro n o
  by_cases hempty : members = []
  · subst hempty
    refine ⟨.dictionary [] o (o + ([] : Bytes).length + 2), .inr ?_, .dictionary rfl .nil, ?_⟩
    · rw [writeWithDepth_dictionary hascending]
      exact .emptyDictionary (by simp [Blank, lines])
    · intro k
      rw [writeWithDepth_dictionary hascending, writeWithDepth_dictionary hascending]
  · have hitem : ∀ m ∈ members, ∀ o post, Blank post → ∃ a, Member (Value d) o
        ((0x0a :: indentation (n + 1)) ++
          (memberLine (m.1, m.2.writeWithDepth (n + 1)) ++ post)) a ∧
        (m.1 = encodeString a.1 ∧ ReadsAs m.2 a.2 ∧
          ∀ k, writeWithDepth k a.2 = writeWithDepth k m.2) := by
      intro m hm o post hpost
      obtain ⟨key, hkey⟩ := hkeys m hm
      exact written_member hkey (h m hm) hpost
    obtain ⟨ms, hseparated, hms⟩ := separated_of_lines hempty hitem (blank_line n) (o + 1)
    have hkeysEq : (encodedMembers ms).map Prod.fst = members.map Prod.fst := by
      rw [encodedMembers, List.map_map]
      exact map_eq_of_forall₂ (hms.imp fun _ _ hm => hm.1.symm)
    have hascending' := ascending_congr hkeysEq.symm hascending
    refine ⟨.dictionary (encodedMembers ms) o (o + (lines (n + 1) true (members.map fun m =>
      memberLine (m.1, m.2.writeWithDepth (n + 1))) ++ 0x0a :: indentation n).length + 2),
      .inr ?_, .dictionary hkeysEq.symm ?_, ?_⟩
    · rw [writeWithDepth_dictionary hascending, containerText, if_neg (by simpa using hempty),
        ← membersOf_eq hascending']
      exact .dictionary hseparated (nodup_of_ascending hascending')
    · rw [encodedMembers, List.map_map, List.forall₂_map_left_iff, List.forall₂_map_right_iff]
      exact hms.imp fun _ _ hm => hm.2.1
    · intro k
      rw [writeWithDepth_dictionary hascending, writeWithDepth_dictionary hascending',
        encodedMembers, List.map_map]
      rw [map_eq_of_forall₂ (hms.imp fun _ _ hm => ?_)]
      simp only [Function.comp_apply, hm.1, hm.2.2 (k + 1)]

theorem WellFormed.written (h : WellFormed d v) : Written d v := by
  induction h with
  | uninitialized => exact fun n o => ⟨.null o (o + 4), .of_scalar (.null o), .uninitialized, fun _ => rfl⟩
  | string value a b =>
    exact fun n o => ⟨_, .of_scalar (.string (stringText_encodeString _ value)), .string, fun _ => rfl⟩
  | number a b hnumber => exact fun n o => ⟨_, .of_scalar (.number hnumber), .number, fun _ => rfl⟩
  | bool value a b =>
    intro n o
    cases value with
    | false => exact ⟨_, .of_scalar (.false o), .bool, fun _ => rfl⟩
    | true => exact ⟨_, .of_scalar (.true o), .bool, fun _ => rfl⟩
  | null a b => exact fun n o => ⟨_, .of_scalar (.null o), .null, fun _ => rfl⟩
  | blob bytes a b =>
    intro n o
    have htext := stringText_encodeString (o + 1) (PlBase64.encode bytes)
    rw [encodeString_base64] at htext
    refine ⟨_, .of_scalar (.string htext), .blob, fun m => ?_⟩
    rw [Json.makeString, writeWithDepth, writeWithDepth, encodeString_base64]
  | array a b _ ih => exact written_array ih
  | dictionary a b hascending hkeys _ ih => exact written_dictionary hascending hkeys ih

/-- The parser reads the text of a tree as that tree, whose text is the same. -/
theorem parse_unparse (h : Built 500 v) :
    ∃ w, parse (unparse v) = some (.ok w) ∧ ReadsAs v w ∧ unparse w = unparse v := by
  obtain ⟨w, hvalue, hreads, htext⟩ := h.wellFormed.written 0 0
  have hdocument : Document (unparse v) w :=
    ⟨[], unparse v, [], by simp [Blank], by simp [Blank], hvalue, (List.append_nil _).symm⟩
  exact ⟨w, parse_ok_iff_accepts.mpr (Parser.accepts_of_document hdocument), hreads, htext 0⟩

theorem parse_unparse_member :
    ∃ w, parse (unparse (.dictionary [(ascii "\\n", .number [0x37] 0 0)] 0 0)) = some (.ok w) ∧
      ReadsAs (.dictionary [(ascii "\\n", .number [0x37] 0 0)] 0 0) w ∧
      unparse w = unparse (.dictionary [(ascii "\\n", .number [0x37] 0 0)] 0 0) := by
  have hnumber : IsNumber [0x37] :=
    ⟨[], [0x37], [], [], .inl rfl, .nonzero rfl (by simp [Digits]), .absent, .absent, rfl⟩
  exact parse_unparse (.addDictionaryMember [0x0a] (.makeDictionary 0 0) (.makeNumber 0 0 hnumber) rfl)

/-! ## Documents -/

theorem Separated.forall {α : Type} {item : ℤ → Bytes → α → Prop} {p : α → Prop} {text : Bytes}
    {as : List α} (h : Separated item o text as) (hitem : ∀ o text a, item o text a → p a) :
    ∀ a ∈ as, p a := by
  induction h with
  | last h => exact List.forall_mem_singleton.mpr (hitem _ _ _ h)
  | cons h _ ih => exact List.forall_mem_cons.mpr ⟨hitem _ _ _ h, ih⟩

theorem Scalar.wellFormed {text : Bytes} (h : Scalar o text v) : WellFormed d v := by
  cases h with
  | null => exact .null _ _
  | true => exact .bool _ _ _
  | false => exact .bool _ _ _
  | number hnumber => exact .number _ _ hnumber
  | string hstring => exact .string _ _ _

theorem wellFormed_membersOf {members : List (Bytes × Json)}
    (h : ∀ m ∈ members, WellFormed d m.2) (a b : ℤ) :
    WellFormed (d + 1) (.dictionary (membersOf members) a b) := by
  have heq : membersOf members =
      (encodedMembers members).foldl (fun map e => insertSorted e.1 e.2 map) [] := by
    rw [membersOf, encodedMembers, List.foldl_map]
  have hascending : Ascending (membersOf members) :=
    heq ▸ ascending_foldl_insertSorted _ List.Pairwise.nil
  have hmem : ∀ e ∈ membersOf members, ∃ m ∈ members, e = (encodeString m.1, m.2) := by
    intro e he
    have hlookup := hascending.lookup_eq_some.mpr he
    rw [heq, lookup_foldl_insertSorted, List.append_nil] at hlookup
    obtain ⟨m, hm, hencoded⟩ := List.mem_map.mp (List.mem_reverse.mp (mem_of_lookup hlookup))
    exact ⟨m, hm, hencoded.symm⟩
  refine .dictionary a b hascending ?_ ?_
  · intro e he
    obtain ⟨m, -, rfl⟩ := hmem e he
    exact ⟨m.1, rfl⟩
  · intro e he
    obtain ⟨m, hm, rfl⟩ := hmem e he
    exact h m hm

/-- What the grammar derives is as the operations of `Json` build it. -/
theorem wellFormed_of_value {text : Bytes} (h : Value d o text v) : WellFormed d v := by
  induction d generalizing o text v with
  | zero => exact Scalar.wellFormed h
  | succ d ih =>
    have hpadded : ∀ o text v, Padded (Value d) o text v → WellFormed d v :=
      fun _ _ _ ⟨_, _, _, _, _, hvalue, _⟩ => ih hvalue
    rcases h with h | h
    · exact h.wellFormed
    · cases h with
      | emptyArray hblank => exact .array _ _ nofun
      | array hitems => exact .array _ _ (hitems.forall hpadded)
      | emptyDictionary hblank => exact .dictionary _ _ List.Pairwise.nil nofun nofun
      | dictionary hmembers hnodup =>
        exact wellFormed_membersOf (hmembers.forall
          fun _ _ _ ⟨_, _, _, _, _, _, _, hvalue, _⟩ => hpadded _ _ _ hvalue) _ _

/-- An accepted text has a normal form: its tree is written as a text that is read as the same tree,
and that tree is written as the same text again. -/
theorem parse_normalForm (input : Bytes) (v : Json) (h : parse input = some (.ok v)) :
    ∃ w, parse (unparse v) = some (.ok w) ∧ ReadsAs v w ∧ unparse w = unparse v := by
  obtain ⟨pre, core, post, hpre, hpost, hread, rfl⟩ :=
    Parser.document_of_accepts (parse_ok_iff_accepts.mp h)
  obtain ⟨w, hvalue, hreads, htext⟩ := (wellFormed_of_value hread).written 0 0
  have hdocument : Document (unparse v) w :=
    ⟨[], unparse v, [], by simp [Blank], by simp [Blank], hvalue, (List.append_nil _).symm⟩
  exact ⟨w, parse_ok_iff_accepts.mpr (Parser.accepts_of_document hdocument), hreads, htext 0⟩

theorem parse_normalForm_sample : ∃ v w, parse (ascii " [ 1,null ]") = some (.ok v) ∧
    parse (unparse v) = some (.ok w) ∧ ReadsAs v w ∧ unparse w = unparse v := by
  obtain ⟨w, hparse, hreads, htext⟩ := parse_normalForm (ascii " [ 1,null ]") _ rfl
  exact ⟨_, w, rfl, hparse, hreads, htext⟩

end Flpdf.Json
