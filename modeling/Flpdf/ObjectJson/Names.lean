import Flpdf.ObjectJson.Strings
import Flpdf.Syntax.NameMessages

/-!
# Names and keys through the JSON form

UTF-8 names are written as they are, others in their object syntax, which the
strict object parser reads again. There a NUL, the mark of a stray `#`, does not
come back, and the importer takes the empty name for null.
-/

namespace Flpdf

open Tokenizer (readQpdfToken_slash readQpdfToken_writtenName)

variable {n v : Bytes}

/-! ## The strict object parser on names -/

/-- The name form of both exporters. -/
theorem jsonNormalizeName_slash (n : Bytes) :
    jsonNormalizeName (0x2f :: n) = 0x2f :: n.flatMap nameByte := by
  have hbyte : normalizeNameByte = nameByte := by
    funext byte
    exact forall_byte (p := fun byte => normalizeNameByte byte = nameByte byte)
      (by decide) byte
  rw [jsonNormalizeName, hbyte]

/-- The strict parser over a text. -/
def strictParser (text : Bytes) : LiveParser := { tokens := { input := text }, hasContext := false }

/-- The strict parser behind its first token. -/
def behindToken (t : Tokenizer) (token : Token) : LiveParser :=
  { tokens := t, lastOffset := token.start, hasContext := false }

/-- The strict parser takes a token without a message and refuses one with a message. -/
theorem nextToken_strict {text : Bytes} {token : Token} {t : Tokenizer}
    (hread : ({ input := text } : Tokenizer).readQpdfToken 0 = (.ok token, t))
    (htype : token.tokenType ≠ .integer) :
    (strictParser text).nextToken = match token.errorMessage with
      | some message => .error (.qpdfExc token.start message)
      | none => .ok (token, behindToken t token) := by
  have hinteger : token.isInteger = false := beq_eq_false_iff_ne.mpr htype
  have hlive : (strictParser text).nextLiveToken = .ok (token, behindToken t token) := by
    unfold LiveParser.nextLiveToken strictParser
    dsimp only
    rw [hread]
    dsimp only
    rw [hinteger]
    rfl
  rw [LiveParser.nextToken, hlive]
  show (match token.errorMessage with
    | some message => do
      let p ← (behindToken t token).warn token.start message
      return (token, p)
    | none => .ok (token, behindToken t token)) = _
  cases token.errorMessage with
  | none => rfl
  | some message => rfl

theorem parseName_of_body {text message : Bytes} {p : LiveParser}
    (hbody : (strictParser text).parseBody = some (.ok (.name n, p)))
    (htrailing : trailingDataError text p.tokens.pos p.lastOffset = none) :
    parseName text message = some (.ok n) := by
  have hobject : parseObject false text = some (.ok (.name n, p.diagnostics)) := by
    unfold parseObject
    rw [← strictParser, hbody, Option.map_some]
    dsimp only [bind, Except.bind]
    rw [htrailing]
    rfl
  rw [parseName, hobject]
  rfl

theorem body_of_parseName {text message : Bytes} (h : parseName text message = some (.ok n)) :
    ∃ p, (strictParser text).parseBody = some (.ok (.name n, p)) := by
  obtain ⟨outcome, hobject, houtcome⟩ := Option.map_eq_some_iff.mp h
  obtain ⟨body, hbody, htrailing⟩ := Option.map_eq_some_iff.mp hobject
  cases body with
  | error e =>
    rw [← htrailing] at houtcome
    cases houtcome
  | ok result =>
    obtain ⟨value, p⟩ := result
    dsimp only [bind, Except.bind] at htrailing
    cases htail : trailingDataError text p.tokens.pos p.lastOffset with
    | some e =>
      rw [htail] at htrailing
      rw [← htrailing] at houtcome
      cases houtcome
    | none =>
      rw [htail] at htrailing
      rw [← htrailing] at houtcome
      dsimp only at houtcome
      cases value with
      | name name =>
        injection houtcome with hname
        rw [hname] at hbody
        exact ⟨p, hbody⟩
      | _ => cases houtcome

/-- The text of a name without NUL is read as that name. -/
theorem parseName_writtenName (hn : 0 ∉ n) (message : Bytes) :
    parseName (0x2f :: n.flatMap nameByte) message = some (.ok n) := by
  obtain ⟨token, t, hread, htype, hvalue, hmessage, hpos⟩ := readQpdfToken_writtenName hn
  have hnext := nextToken_strict hread (by rw [htype]; decide)
  rw [hmessage] at hnext
  have hbody : (strictParser (0x2f :: n.flatMap nameByte)).parseBody =
      some (.ok (.name n, behindToken t token)) := by
    rw [LiveParser.parseBody, hnext]
    dsimp only
    rw [Token.isWordValue, htype, LiveParser.parseScalarToken, htype, hvalue]
    rfl
  apply parseName_of_body hbody
  show trailingDataError _ t.pos token.start = none
  rw [trailingDataError, hpos, List.drop_length]
  rfl

/-- A name that the strict parser accepts has no NUL. -/
theorem zero_not_mem_of_parseName {rest message : Bytes}
    (h : parseName (0x2f :: rest) message = some (.ok n)) : 0 ∉ n := by
  intro hzero
  obtain ⟨token, t, hread, htype, hcomplains⟩ := readQpdfToken_slash rest
  have hnext := nextToken_strict hread (by rcases htype with h | h <;> rw [h] <;> decide)
  obtain ⟨p, hbody⟩ := body_of_parseName h
  rw [LiveParser.parseBody, hnext] at hbody
  cases hmessage : token.errorMessage with
  | some text =>
    rw [hmessage] at hbody
    cases hbody
  | none =>
    rw [hmessage] at hbody
    dsimp only at hbody
    rcases htype with htype | htype
    · rw [Token.isWordValue, htype, LiveParser.parseScalarToken, htype] at hbody
      have hvalue : token.value.drop 1 = n := by
        injection hbody with hbody
        injection hbody with hbody
        injection hbody with hbody
        injection hbody
      have hcomplaint := hcomplains htype (List.mem_of_mem_drop (hvalue ▸ hzero))
      rw [hmessage] at hcomplaint
      cases hcomplaint
    · rw [Token.isWordValue, htype, LiveParser.parseScalarToken, htype] at hbody
      cases hbody

/-! ## The JSON strings of names and keys -/

/-- The JSON string of a name or key with its slash. -/
def nameString (raw : Bytes) : Bytes :=
  if isUtf8 raw then raw else ascii "n:" ++ jsonNormalizeName raw

/-- What is written of a name value by itself, in version 2. -/
def writtenName (v : Bytes) : Bytes := (({} : ObjectJsonWriter).writeNameValue v 2).out

theorem writtenName_eq (v : Bytes) : writtenName v = jsonQuoted (nameString (0x2f :: v)) := by
  rw [writtenName, ObjectJsonWriter.writeNameValue, ObjectJsonWriter.writeNameRaw,
    if_neg (by decide), nameString]
  by_cases hutf8 : isUtf8 (0x2f :: v) = true
  · rw [if_pos hutf8, if_pos hutf8, ObjectJsonWriter.writeQuoted, writeJsonEncoded_eq, jsonQuoted]
    rfl
  · rw [if_neg hutf8, if_neg hutf8, jsonQuoted, encodeString_append, jsonEncodeString]
    rfl

/-- What is written of a dictionary with one key, in version 2. -/
def writtenKey (key : Bytes) : Bytes :=
  (((({} : ObjectJsonWriter).writeStart 0x7b).writeKey key 2).write (ascii "null") |>.writeEnd 0x7d).out

/-- The text of a dictionary with one member. -/
def memberDocument (string : Bytes) : Bytes :=
  0x7b :: ((ascii "\n  " ++ 0x22 :: (Json.encodeString string ++ 0x22 :: ([] ++
    0x3a :: (ascii " " ++ (ascii "null" ++ ascii "\n"))))) ++ [0x7d])

theorem writtenKey_eq {key : Bytes} (hslash : key.head? = some 0x2f) :
    writtenKey key = memberDocument (nameString key) := by
  have hraw : ObjectJsonWriter.slashed key = key := if_pos hslash
  have hkey : ∀ w : ObjectJsonWriter, w.writeKey key 2 =
      ((w.writeNext.write (ascii "\"")).write (Json.encodeString (nameString key))).write
        (ascii "\": ") := by
    intro w
    unfold ObjectJsonWriter.writeKey nameString
    dsimp only
    rw [if_neg (by decide), hraw]
    by_cases hutf8 : isUtf8 key = true
    · rw [if_pos hutf8, if_pos hutf8, writeJsonEncoded_eq]
    · rw [if_neg hutf8, if_neg hutf8, writeJsonEncoded_eq, encodeString_append]
      have hplain : Json.encodeString (ascii "n:") = ascii "n:" := rfl
      have hquote : ascii "\"n:" = ascii "\"" ++ ascii "n:" := rfl
      rw [hplain, hquote]
      simp only [ObjectJsonWriter.write, List.append_assoc]
  rw [writtenKey, hkey, memberDocument]
  generalize Json.encodeString (nameString key) = text
  have hopened : ((({} : ObjectJsonWriter).writeStart 0x7b).writeNext) =
      { out := 0x7b :: ascii "\n  ", first := false, indent := 2 } := by
    rfl
  have hclosed : ∀ out, ({ out := out, first := false, indent := 2 } : ObjectJsonWriter).writeEnd 0x7d =
      { out := out ++ ascii "\n" ++ [0x7d], first := false, indent := 0 } := by
    intro out
    rfl
  rw [hopened]
  simp only [ObjectJsonWriter.write, hclosed]
  simp [ascii]

theorem blank_of_all {text : Bytes} (h : text.all Json.isBlank = true) : Json.Blank text :=
  List.all_eq_true.mp h

theorem parse_memberDocument (string : Bytes) : ∃ v start stop,
    Json.parse (memberDocument string) =
      some (.ok (.dictionary [(Json.encodeString string, v)] start stop)) := by
  have hvalue : ∀ o, Json.Padded (Json.Value 499) o (ascii " " ++ (ascii "null" ++ ascii "\n"))
      (.null (o + 1) (o + 1 + 4)) := by
    intro o
    exact ⟨ascii " ", ascii "null", ascii "\n", blank_of_all rfl, blank_of_all rfl, .inl (.null _), rfl⟩
  have hmember : ∃ v, Json.Member (Json.Value 499) (0 + 1) (ascii "\n  " ++
      0x22 :: (Json.encodeString string ++ 0x22 :: ([] ++
        0x3a :: (ascii " " ++ (ascii "null" ++ ascii "\n"))))) (string, v) :=
    ⟨_, ascii "\n  ", Json.encodeString string, [], _, blank_of_all rfl,
      Json.stringText_encodeString _ string, blank_of_all rfl, hvalue _, rfl⟩
  obtain ⟨v, hmember⟩ := hmember
  have hcontainer := Json.Container.dictionary (Json.Separated.last hmember) (List.nodup_singleton _)
  have hdocument : Json.Document (memberDocument string) _ :=
    ⟨[], memberDocument string, [], blank_of_all rfl, blank_of_all rfl, .inr hcontainer,
      by rw [List.nil_append, List.append_nil]⟩
  exact ⟨v, _, _, Json.parse_ok_iff_accepts.mpr (Json.Parser.accepts_of_document hdocument)⟩

theorem encodeString_injective {k k' : Bytes} (h : Json.encodeString k = Json.encodeString k') :
    k = k' := by
  have hparse := parse_jsonQuoted k
  rw [jsonQuoted, h, ← jsonQuoted, parse_jsonQuoted k'] at hparse
  injection hparse with hparse
  injection hparse with hparse
  injection hparse with hparse
  exact hparse.symm

/-! ## Names and keys that come back -/

/-- The name comes back from its JSON form. -/
def NameSurvives (v : Bytes) : Prop :=
  ∃ string start stop, Json.parse (writtenName v) = some (.ok (Json.makeString string start stop)) ∧
    jsonStringToHandle string = some (.ok (.name v))

/-- The key comes back from its JSON form. -/
def KeySurvives (key : Bytes) : Prop :=
  ∃ string v start stop, Json.parse (writtenKey key) =
      some (.ok (.dictionary [(Json.encodeString string, v)] start stop)) ∧
    jsonDictionaryKey string = some (.ok key)

theorem nameSurvives_iff_string :
    NameSurvives v ↔ jsonStringToHandle (nameString (0x2f :: v)) = some (.ok (.name v)) := by
  have hparse := parse_jsonQuoted (nameString (0x2f :: v))
  rw [← writtenName_eq] at hparse
  constructor
  · rintro ⟨string, start, stop, hparse', hhandle⟩
    rw [hparse] at hparse'
    injection hparse' with hparse'
    injection hparse' with hparse'
    injection hparse' with hstring
    rwa [hstring]
  · intro hhandle
    exact ⟨_, _, _, hparse, hhandle⟩

theorem keySurvives_iff_string {key : Bytes} (hslash : key.head? = some 0x2f) :
    KeySurvives key ↔ jsonDictionaryKey (nameString key) = some (.ok key) := by
  obtain ⟨v, start, stop, hparse⟩ := parse_memberDocument (nameString key)
  rw [← writtenKey_eq hslash] at hparse
  constructor
  · rintro ⟨string, v', start', stop', hparse', hkey⟩
    rw [hparse] at hparse'
    injection hparse' with hparse'
    injection hparse' with hparse'
    injection hparse' with hmembers
    injection hmembers with hmember
    injection hmember with hstring
    rwa [encodeString_injective hstring]
  · intro hkey
    exact ⟨_, _, _, _, hparse, hkey⟩

/-- UTF-8, or without the mark of a stray `#`. -/
def Exportable (raw : Bytes) : Prop := isUtf8 raw = true ∨ 0 ∉ raw

theorem parseName_iff (message : Bytes) :
    parseName (0x2f :: n.flatMap nameByte) message = some (.ok n) ↔ 0 ∉ n := by
  constructor
  · exact zero_not_mem_of_parseName
  · intro hn
    exact parseName_writtenName hn message

theorem nameString_of_utf8 {raw : Bytes} (h : isUtf8 raw = true) : nameString raw = raw := if_pos h

theorem nameString_of_not_utf8 (h : ¬isUtf8 (0x2f :: n) = true) :
    nameString (0x2f :: n) = ascii "n:/" ++ n.flatMap nameByte := by
  rw [nameString, if_neg h, jsonNormalizeName_slash]
  rfl

theorem ne_nil_of_not_utf8 (h : ¬isUtf8 (0x2f :: n) = true) : n ≠ [] := by
  rintro rfl
  exact h (by decide)

theorem nameByte_ne_nil (b : UInt8) : nameByte b ≠ [] := by
  unfold nameByte
  split_ifs <;> simp

theorem long_of_not_utf8 (h : ¬isUtf8 (0x2f :: n) = true) :
    (ascii "n:/" ++ n.flatMap nameByte).length > 3 := by
  obtain ⟨b, n, rfl⟩ := List.exists_cons_of_ne_nil (ne_nil_of_not_utf8 h)
  have hpos := List.length_pos_of_ne_nil (nameByte_ne_nil b)
  rw [List.length_append, List.flatMap_cons, List.length_append, show (ascii "n:/").length = 3 from rfl]
  omega

theorem zero_mem_slash : 0 ∉ (0x2f :: n : Bytes) ↔ 0 ∉ n := by
  rw [List.mem_cons, not_or]
  exact and_iff_right (by decide)

/-- The import of a raw name takes only the empty one for null. -/
theorem jsonStringToHandle_raw :
    jsonStringToHandle (0x2f :: n) = some (.ok (.name n)) ↔ n ≠ [] := by
  have hmatch : parseIndirectReference (0x2f :: n) = .noMatch :=
    parseIndirectReference_of_letter 0x2f _ (by decide)
  have hu : (ascii "u:").isPrefixOf (0x2f :: n) = false := rfl
  have hb : (ascii "b:").isPrefixOf (0x2f :: n) = false := rfl
  rw [jsonStringToHandle, hmatch]
  dsimp only
  rw [hu, if_neg Bool.false_ne_true, hb, if_neg Bool.false_ne_true]
  cases n with
  | nil => simp [ascii, List.isPrefixOf]
  | cons b n => simp

theorem jsonStringToHandle_form (h : ¬isUtf8 (0x2f :: n) = true) :
    jsonStringToHandle (ascii "n:/" ++ n.flatMap nameByte) = some (.ok (.name n)) ↔ 0 ∉ n := by
  have hmatch : parseIndirectReference (ascii "n:/" ++ n.flatMap nameByte) = .noMatch :=
    parseIndirectReference_of_letter 0x6e _ (by decide)
  have hu : (ascii "u:").isPrefixOf (ascii "n:/" ++ n.flatMap nameByte) = false := rfl
  have hb : (ascii "b:").isPrefixOf (ascii "n:/" ++ n.flatMap nameByte) = false := rfl
  have hslash : ¬((ascii "n:/" ++ n.flatMap nameByte).head? = some 0x2f ∧
      (ascii "n:/" ++ n.flatMap nameByte).length > 1) := by
    rintro ⟨hhead, -⟩
    injection hhead with hhead
    exact absurd hhead (by decide)
  have hform : (ascii "n:/").isPrefixOf (ascii "n:/" ++ n.flatMap nameByte) = true := rfl
  have hdrop : (ascii "n:/" ++ n.flatMap nameByte).drop 2 = 0x2f :: n.flatMap nameByte := rfl
  rw [jsonStringToHandle, hmatch]
  dsimp only
  rw [hu, if_neg Bool.false_ne_true, hb, if_neg Bool.false_ne_true, if_neg hslash,
    if_pos ⟨hform, long_of_not_utf8 h⟩, hdrop,
    ← parseName_iff (ascii "PDF name parser returned a non-name")]
  constructor
  · intro hname
    obtain ⟨outcome, hparse, houtcome⟩ := Option.map_eq_some_iff.mp hname
    cases outcome with
    | error e => cases houtcome
    | ok name =>
      injection houtcome with houtcome
      injection houtcome with houtcome
      rw [hparse, houtcome]
  · intro hparse
    rw [hparse]
    rfl

/-- A name comes back if it is not empty and can be exported. -/
theorem nameSurvives_iff (v : Bytes) : NameSurvives v ↔ v ≠ [] ∧ Exportable (0x2f :: v) := by
  rw [nameSurvives_iff_string, Exportable, zero_mem_slash]
  by_cases hutf8 : isUtf8 (0x2f :: v) = true
  · rw [nameString_of_utf8 hutf8, jsonStringToHandle_raw]
    exact ⟨fun h => ⟨h, .inl hutf8⟩, fun h => h.1⟩
  · rw [nameString_of_not_utf8 hutf8, jsonStringToHandle_form hutf8]
    constructor
    · intro hzero
      exact ⟨ne_nil_of_not_utf8 hutf8, .inr hzero⟩
    · rintro ⟨-, h | hzero⟩
      · exact absurd h hutf8
      · exact hzero

theorem jsonDictionaryKey_raw :
    jsonDictionaryKey (0x2f :: n) = some (.ok (0x2f :: n)) := by
  have hform : (ascii "n:/").isPrefixOf (0x2f :: n) = false := rfl
  rw [jsonDictionaryKey, hform, if_neg (by simp), canonicalDictionaryKey, ObjectJsonWriter.slashed,
    if_pos List.head?_cons]

theorem jsonDictionaryKey_form (h : ¬isUtf8 (0x2f :: n) = true) :
    jsonDictionaryKey (ascii "n:/" ++ n.flatMap nameByte) = some (.ok (0x2f :: n)) ↔ 0 ∉ n := by
  have hform : (ascii "n:/").isPrefixOf (ascii "n:/" ++ n.flatMap nameByte) = true := rfl
  have hdrop : (ascii "n:/" ++ n.flatMap nameByte).drop 2 = 0x2f :: n.flatMap nameByte := rfl
  rw [jsonDictionaryKey, if_pos ⟨hform, long_of_not_utf8 h⟩, hdrop,
    ← parseName_iff (ascii "PDF dictionary key parser returned a non-name")]
  constructor
  · intro hname
    obtain ⟨outcome, hparse, houtcome⟩ := Option.map_eq_some_iff.mp hname
    cases outcome with
    | error e => cases houtcome
    | ok name =>
      injection houtcome with houtcome
      injection houtcome with _ houtcome
      rw [hparse, houtcome]
  · intro hparse
    rw [hparse]
    rfl

/-- A key comes back if it can be exported; the empty name is no exception. -/
theorem keySurvives_iff (n : Bytes) : KeySurvives (0x2f :: n) ↔ Exportable (0x2f :: n) := by
  rw [keySurvives_iff_string rfl, Exportable, zero_mem_slash]
  by_cases hutf8 : isUtf8 (0x2f :: n) = true
  · rw [nameString_of_utf8 hutf8, jsonDictionaryKey_raw]
    exact ⟨fun _ => .inl hutf8, fun _ => rfl⟩
  · rw [nameString_of_not_utf8 hutf8, jsonDictionaryKey_form hutf8]
    constructor
    · exact .inr
    · rintro (h | hzero)
      · exact absurd h hutf8
      · exact hzero

/-! ## Dictionaries -/

/-- All keys of a dictionary come back, and from strings of their own. -/
def KeysSurvive (keys : List Bytes) : Prop :=
  (∀ key ∈ keys, KeySurvives key) ∧ (keys.map nameString).Nodup

theorem nameString_injective_of_survives {n' : Bytes} (h : KeySurvives (0x2f :: n))
    (h' : KeySurvives (0x2f :: n')) (heq : nameString (0x2f :: n) = nameString (0x2f :: n')) :
    n = n' := by
  have hkey := (keySurvives_iff_string rfl).mp h
  rw [heq, (keySurvives_iff_string rfl).mp h'] at hkey
  injection hkey with hkey
  injection hkey with hkey
  injection hkey with _ hkey
  exact hkey.symm

theorem keysSurvive_iff {names : List Bytes} (hdistinct : names.Nodup) :
    KeysSurvive (names.map (0x2f :: ·)) ↔ ∀ name ∈ names, Exportable (0x2f :: name) := by
  have hall : (∀ key ∈ names.map (0x2f :: ·), KeySurvives key) ↔
      ∀ name ∈ names, Exportable (0x2f :: name) := by
    rw [List.forall_mem_map]
    exact forall₂_congr fun name _ => keySurvives_iff name
  rw [KeysSurvive, hall, and_iff_left_iff_imp]
  intro hexportable
  rw [List.map_map]
  apply List.Nodup.map_on _ hdistinct
  intro name hname name' hname' heq
  exact nameString_injective_of_survives ((keySurvives_iff name).mpr (hexportable name hname))
    ((keySurvives_iff name').mpr (hexportable name' hname')) heq

/-- A name value comes back unless it is empty or, with no UTF-8 in it, has the
mark of a stray `#`; the keys of a dictionary come back unless one has that mark. -/
theorem names_survive_iff (v : Bytes) (names : List Bytes) (hdistinct : names.Nodup) :
    (NameSurvives v ↔ v ≠ [] ∧ Exportable (0x2f :: v)) ∧
    (KeysSurvive (names.map (0x2f :: ·)) ↔ ∀ name ∈ names, Exportable (0x2f :: name)) :=
  ⟨nameSurvives_iff v, keysSurvive_iff hdistinct⟩

theorem names_survive_two :
    (NameSurvives (ascii "A") ↔ ascii "A" ≠ [] ∧ Exportable (0x2f :: ascii "A")) ∧
    (KeysSurvive ([ascii "A", [0xff]].map (0x2f :: ·)) ↔
      ∀ name ∈ [ascii "A", [0xff]], Exportable (0x2f :: name)) :=
  names_survive_iff (ascii "A") [ascii "A", [0xff]] (by decide)

/-- The names of `/` and of `/` with a byte that is no UTF-8 and a stray `#`. -/
theorem names_lost :
    parseObject true (ascii "/") = some (.ok (.name [], [])) ∧ ¬NameSurvives [] ∧
    parseObject true [0x2f, 0xff, 0x23] =
      some (.ok (.name [0xff, 0x00], [(0, Tokenizer.strayHashMessage)])) ∧
    ¬NameSurvives [0xff, 0x00] ∧ ¬KeySurvives [0x2f, 0xff, 0x00] := by
  have hstray : ¬Exportable [0x2f, 0xff, 0x00] := by
    rintro (h | h)
    · exact absurd h (by decide)
    · exact absurd h (by decide)
  refine ⟨rfl, ?_, rfl, ?_, ?_⟩
  · rw [nameSurvives_iff]
    simp
  · rw [nameSurvives_iff]
    exact fun h => hstray h.2
  · rw [keySurvives_iff]
    exact hstray

end Flpdf
