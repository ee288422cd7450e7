import Flpdf.Json.Value
import Flpdf.Pipeline.Base64

/-!
# The JSON writer

`Json::write` and its helpers, as the bytes that go to the pipeline. The writer
looks up the members of a dictionary one after the other, each by asking for
the key behind the last one; the texts of their values are rendered before.
-/

namespace Flpdf.Json

/-- `copy_from_slice` into a part of a chunk. -/
def copyFromSlice (chunk : Bytes) (offset : ℕ) (slice : Bytes) : Bytes :=
  chunk.take offset ++ slice ++ chunk.drop (offset + slice.length)

/-- Two spaces for each of `depth` turns, copied into a chunk. -/
def fillIndentation (chunk : Bytes) (offset : ℕ) : ℕ → Bytes × ℕ
  | 0 => (chunk, offset)
  | depth + 1 => fillIndentation (copyFromSlice chunk offset (ascii "  ")) (offset + 2) depth

/-- The size of the chunk on the stack. -/
def stackCapacity : ℕ := 256

/-- `write_indented`, over a chunk on the stack when it fits there. -/
def writeIndented (lead : Bytes) (depth : ℕ) (trail : Bytes) : Bytes :=
  let required := lead.length + depth * 2 + trail.length
  if required ≤ stackCapacity then
    let chunk := copyFromSlice (List.replicate stackCapacity 0) 0 lead
    let (chunk, offset) := fillIndentation chunk lead.length depth
    (copyFromSlice chunk offset trail).take required
  else
    lead ++ (List.replicate depth (ascii "  ")).flatten ++ trail

def writeNext (first : Bool) (depth : ℕ) : Bytes :=
  writeIndented (if first then ascii "\n" else ascii ",\n") depth []

def writeClose (first : Bool) (depth : ℕ) (delimiter : Bytes) : Bytes :=
  if first then delimiter else writeIndented (ascii "\n") depth delimiter

/-- `write_dictionary_key`, again over a chunk on the stack when it fits there. -/
def writeDictionaryKey (first : Bool) (encodedKey : Bytes) (depth : ℕ) : Bytes :=
  let required := encodedKey.length + 4
  writeNext first depth ++
    if required ≤ stackCapacity then
      let item := copyFromSlice (List.replicate stackCapacity 0) 0 (ascii "\"")
      let item := copyFromSlice item 1 encodedKey
      (copyFromSlice item (encodedKey.length + 1) (ascii "\": ")).take required
    else
      0x22 :: (encodedKey ++ ascii "\": ")

/-- The loop over an array; the result says whether the next item is the first. -/
def writeArrayItems (depth : ℕ) : Bool → List Bytes → Bytes × Bool
  | first, [] => ([], first)
  | first, value :: values =>
    let (rest, first') := writeArrayItems depth false values
    (writeNext first depth ++ value ++ rest, first')

/-- The loop over a dictionary: every turn asks for the key behind the last one
and looks its value up again. -/
def writeDictionaryItems (depth : ℕ) (entries : List (Bytes × Bytes)) :
    ℕ → Bool → Option Bytes → Bytes × Bool
  | 0, first, _ => ([], first)
  | fuel + 1, first, previous =>
    match nextAfter previous entries with
    | none => ([], first)
    | some (key, selected) =>
      let value := (entries.lookup key).getD selected
      let (rest, first') := writeDictionaryItems depth entries fuel false (some key)
      (writeDictionaryKey first key depth ++ value ++ rest, first')

mutual

def writeWithDepth (depth : ℕ) : Json → Bytes
  | .uninitialized => ascii "null"
  | .number encoded _ _ => encoded
  | .bool value _ _ => if value then ascii "true" else ascii "false"
  | .null _ _ => ascii "null"
  | .string _ encoded _ _ => 0x22 :: (encoded ++ [0x22])
  | .dictionary members _ _ =>
    let entries := memberTexts (depth + 1) members
    let (items, first) := writeDictionaryItems (depth + 1) entries (entries.length + 1) true none
    ascii "\x7b" ++ items ++ writeClose first depth (ascii "\x7d")
  | .array values _ _ =>
    let (items, first) := writeArrayItems (depth + 1) true (itemTexts (depth + 1) values)
    ascii "[" ++ items ++ writeClose first depth (ascii "]")
  | .blob bytes _ _ => 0x22 :: (PlBase64.encode bytes ++ [0x22])

/-- The texts of the items of an array. -/
def itemTexts (depth : ℕ) : List Json → List Bytes
  | [] => []
  | value :: values => writeWithDepth depth value :: itemTexts depth values

/-- The texts of the values of a dictionary, under their keys. -/
def memberTexts (depth : ℕ) : List (Bytes × Json) → List (Bytes × Bytes)
  | [] => []
  | (key, value) :: members => (key, writeWithDepth depth value) :: memberTexts depth members

end

def unparse (json : Json) : Bytes := json.writeWithDepth 0

end Flpdf.Json
