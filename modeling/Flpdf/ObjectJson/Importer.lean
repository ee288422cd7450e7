import Flpdf.ObjectJson.Writer
import Flpdf.Parser.LiveParser

/-!
# Strings of the JSON importer

`json_string_to_handle` and `json_dictionary_key`: what a string of a JSON
document stands for.
-/

namespace Flpdf

inductive IndirectReferenceParse where
  | noMatch
  | overflow (message : Bytes)
  | reference (ref : ObjectRef)
  deriving DecidableEq, Repr

/-- `parse_indirect_reference`: two numbers and an `R`, with spaces between them. -/
def parseIndirectReference (value : Bytes) : IndirectReferenceParse :=
  let objectText := value.takeWhile isAsciiDigit
  let rest := value.dropWhile isAsciiDigit
  if objectText = [] ∨ rest.head? ≠ some 0x20 then .noMatch
  else
    let rest := rest.dropWhile (· == 0x20)
    let generationText := rest.takeWhile isAsciiDigit
    let rest := rest.dropWhile isAsciiDigit
    if generationText = [] ∨ rest.head? ≠ some 0x20 then .noMatch
    else if rest.dropWhile (· == 0x20) ≠ [0x52] then .noMatch
    else
      match qpdfStringToIntChecked objectText with
      | .overflow message => .overflow message
      | .noDigits => .noMatch
      | .value object =>
        match qpdfStringToIntChecked generationText with
        | .overflow message => .overflow message
        | .noDigits => .noMatch
        | .value generation =>
          if object = 0 then .noMatch
          else if 0 ≤ object ∧ object < 2 ^ 32 ∧ 0 ≤ generation ∧ generation < 2 ^ 16 then
            .reference ⟨object.toNat, generation.toNat⟩
          else .noMatch

/-- `hex::decode` of an even number of digits. -/
def hexDecode : Bytes → Option Bytes
  | [] => some []
  | [_] => none
  | high :: low :: rest => do
    let high ← hexValue high
    let low ← hexValue low
    let bytes ← hexDecode rest
    return (16 * high + low) :: bytes

/-- The errors of the importer. -/
inductive JsonImportError where
  | system (message : Bytes)
  | unsupported (message : Bytes)
  | internal (message : Bytes)
  | parse (error : ParseError)
  deriving DecidableEq, Repr

/-- The name that an object text denotes, or the error of reading it. -/
def parseName (text message : Bytes) : Option (Except JsonImportError Bytes) :=
  (parseObject false text).map fun outcome =>
    match outcome with
    | .error e => .error (.parse e)
    | .ok (value, _) =>
      match LiveParser.asName value with
      | some name => .ok name
      | none => .error (.internal message)

def jsonStringToHandle (string : Bytes) : Option (Except JsonImportError ObjectValue) :=
  match parseIndirectReference string with
  | .reference ref => some (.ok (.indirect ⟨ref.number, ref.generation⟩))
  | .overflow message => some (.error (.system message))
  | .noMatch =>
    if (ascii "u:").isPrefixOf string then
      some (.ok (.string (newUnicodeString (string.drop 2))))
    else if (ascii "b:").isPrefixOf string then
      let binary := string.drop 2
      if binary.length % 2 ≠ 0 ∨ !binary.all (fun byte => (hexValue byte).isSome) then
        some (.ok .null)
      else
        match hexDecode binary with
        | some decoded => some (.ok (.string decoded))
        | none => some (.error (.unsupported (ascii "invalid binary JSON string")))
    else if string.head? = some 0x2f ∧ string.length > 1 then some (.ok (.name (string.drop 1)))
    else if (ascii "n:/").isPrefixOf string ∧ string.length > 3 then
      (parseName (string.drop 2) (ascii "PDF name parser returned a non-name")).map (·.map .name)
    else some (.ok .null)

/-- `canonical_dictionary_key`. -/
def canonicalDictionaryKey (key : Bytes) : Bytes := ObjectJsonWriter.slashed key

def jsonDictionaryKey (key : Bytes) : Option (Except JsonImportError Bytes) :=
  if (ascii "n:/").isPrefixOf key ∧ key.length > 3 then
    (parseName (key.drop 2) (ascii "PDF dictionary key parser returned a non-name")).map
      (·.map (0x2f :: ·))
  else some (.ok (canonicalDictionaryKey key))

end Flpdf
