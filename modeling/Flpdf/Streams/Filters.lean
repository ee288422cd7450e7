import Flpdf.Bytes.Decimal
import Flpdf.Object.Value
import Flpdf.Pipeline.Decoders

/-! # Stream filters

`/Filter` and `/DecodeParms` say which stages the data of a stream goes through.  The plan of the
stages is made before the data is read; the pipe is put together from its end.
-/

namespace Flpdf

/-! ## Reading values -/

/-- What handles answer: `resolve` gives the value of an indirect object, `warn` records a warning
about a value, or fails where there is nothing to record it. -/
structure HandleContext where
  resolve : QpdfObjGen → Except Bytes ObjectValue
  warn : ObjectValue → Bytes → Except Bytes Unit

namespace ObjectValue

def typeName : ObjectValue → Bytes
  | .null => ascii "null"
  | .boolean _ => ascii "boolean"
  | .integer _ => ascii "integer"
  | .real _ => ascii "real"
  | .string _ => ascii "string"
  | .name _ => ascii "name"
  | .array _ => ascii "array"
  | .dictionary _ => ascii "dictionary"
  | .stream _ => ascii "stream"
  | .operator _ => ascii "operator"
  | .inlineImage _ => ascii "inline-image"
  | .indirect _ => ascii "unresolved"

def nullValue : ObjectValue → Bool
  | .null => true
  | _ => false

def nameValue : ObjectValue → Option Bytes
  | .name value => some value
  | _ => none

def integerValue : ObjectValue → Option ℤ
  | .integer value => some value
  | _ => none

def arrayValue : ObjectValue → Option (List ObjectValue)
  | .array items => some items
  | _ => none

end ObjectValue

namespace HandleContext

variable (context : HandleContext)

/-- `try_dereference`, with the value that is there afterwards. -/
def dereference : ObjectValue → Except Bytes ObjectValue
  | .indirect objectGen => context.resolve objectGen
  | value => .ok value

def typeWarning (about : ObjectValue) (value : ObjectValue) (expected warning : Bytes) :
    Except Bytes Unit :=
  context.warn about (ascii "operation for " ++ expected ++ ascii " attempted on object of type " ++
    value.typeName ++ ascii ": " ++ warning)

def isNull (handle : ObjectValue) : Except Bytes Bool :=
  (context.dereference handle).map ObjectValue.nullValue

def asName (handle : ObjectValue) : Except Bytes (Option Bytes) :=
  (context.dereference handle).map ObjectValue.nameValue

def asInteger (handle : ObjectValue) : Except Bytes (Option ℤ) :=
  (context.dereference handle).map ObjectValue.integerValue

def arrayItems (handle : ObjectValue) : Except Bytes (Option (List ObjectValue)) :=
  (context.dereference handle).map ObjectValue.arrayValue

def getKey (handle : ObjectValue) (key : Bytes) : Except Bytes ObjectValue := do
  match ← context.dereference handle with
  | .dictionary entries => return (entries.lookup key).getD .null
  | value =>
    context.typeWarning handle value (ascii "dictionary")
      (ascii "returning null for attempted key retrieval")
    return .null

def hasKey (handle : ObjectValue) (key : Bytes) : Except Bytes Bool := do
  match ← context.dereference handle with
  | .dictionary entries =>
    match entries.lookup key with
    | some child => return !(← context.isNull child)
    | none => return false
  | value =>
    context.typeWarning handle value (ascii "dictionary")
      (ascii "returning false for a key containment request")
    return false

/-- The keys of the entries whose values are not null. -/
def visibleKeys : List (Bytes × ObjectValue) → Except Bytes (List Bytes)
  | [] => .ok []
  | (key, child) :: entries => do
    let isNull ← context.isNull child
    let keys ← visibleKeys entries
    return if isNull then keys else key :: keys

/-- `get_keys` -/
def getKeys (handle : ObjectValue) : Except Bytes (List Bytes) := do
  match ← context.dereference handle with
  | .dictionary entries => context.visibleKeys entries
  | value =>
    context.typeWarning handle value (ascii "dictionary") (ascii "treating as empty")
    return []

def isDictionaryOfType (handle : ObjectValue) (type : Bytes) : Except Bytes Bool := do
  match ← context.dereference handle with
  | .dictionary _ =>
    if type = [] then return true
    match ← context.dereference (← context.getKey handle (ascii "/Type")) with
    | .name actual => return actual == type
    | _ => return false
  | _ => return false

def getIntValue (handle : ObjectValue) : Except Bytes ℤ := do
  match ← context.asInteger handle with
  | some value => return value
  | none =>
    context.typeWarning handle (← context.dereference handle) (ascii "integer")
      (ascii "returning 0")
    return 0

/-- `get_int_value_as_int`: an `i32`, at the bound where the value is beyond it. -/
def getIntValueAsInt (handle : ObjectValue) : Except Bytes ℤ := do
  let value ← context.getIntValue handle
  if value < -2 ^ 31 then
    context.warn handle (ascii "requested value of integer is too small; returning INT_MIN")
    return -2 ^ 31
  else if value > 2 ^ 31 - 1 then
    context.warn handle (ascii "requested value of integer is too big; returning INT_MAX")
    return 2 ^ 31 - 1
  else return value

/-- Values resolve, and warnings are recorded. -/
structure Answers : Prop where
  resolves : ∀ objectGen, ∃ value, context.resolve objectGen = .ok value
  warns : ∀ about message, context.warn about message = .ok ()

namespace Answers

variable {context} (h : context.Answers) (handle : ObjectValue)

include h

theorem dereference : ∃ value, context.dereference handle = .ok value := by
  cases handle with
  | indirect objectGen => exact h.resolves objectGen
  | _ => exact ⟨_, rfl⟩

theorem map_dereference {α : Type} (f : ObjectValue → α) :
    ∃ answer, (context.dereference handle).map f = .ok answer := by
  obtain ⟨value, hvalue⟩ := h.dereference handle
  exact ⟨_, map_eq_ok.mpr ⟨value, hvalue, rfl⟩⟩

theorem isNull : ∃ answer, context.isNull handle = .ok answer := h.map_dereference handle _

theorem asName : ∃ answer, context.asName handle = .ok answer := h.map_dereference handle _

theorem arrayItems : ∃ answer, context.arrayItems handle = .ok answer := h.map_dereference handle _

theorem typeWarning (about value : ObjectValue) (expected warning : Bytes) :
    context.typeWarning about value expected warning = .ok () := h.warns _ _

theorem getKey (key : Bytes) : ∃ value, context.getKey handle key = .ok value := by
  obtain ⟨value, hvalue⟩ := h.dereference handle
  rw [HandleContext.getKey, hvalue, ok_bind]
  cases value with
  | dictionary entries => exact ⟨_, rfl⟩
  | _ =>
    dsimp only
    rw [h.typeWarning]
    exact ⟨_, rfl⟩

end Answers

end HandleContext

/-! ## Filters -/

/-- Objects of a type as `RegisteredStreamFilter`s, with the registry that makes them; a factory
of the registry may fail. -/
structure StreamFilters (Filter : Type) where
  factory : Bytes → Option (Except Bytes Filter)
  setDecodeParams : Filter → ObjectValue → Except Bytes (Filter × Bool)
  /-- The stages that go in front of the next one, none for a filter without a stage. -/
  getDecodePipeline : Filter → Except Bytes (List (StageMachine DecodeError))
  isSpecializedCompression : Filter → Bool
  isLossyCompression : Filter → Bool

/-- The fields of `FlateLzwStreamFilter`. -/
structure FlateLzwStreamFilter where
  lzw : Bool
  predictor : ℤ := 1
  columns : ℤ := 1
  colors : ℤ := 1
  bitsPerComponent : ℤ := 8
  earlyCodeChange : Bool := true
  deriving DecidableEq, Repr

namespace FlateLzwStreamFilter

variable (context : HandleContext)

/-- A key of the parameters; the answer so far is kept in the second component. -/
def readKey (params : ObjectValue) (state : FlateLzwStreamFilter × Bool) (key : Bytes) :
    Except Bytes (FlateLzwStreamFilter × Bool) := do
  let (filter, filterable) := state
  let value ← context.getKey params key
  if key = ascii "/Predictor" then
    match ← context.asInteger value with
    | none => return (filter, false)
    | some _ =>
      let predictor ← context.getIntValueAsInt value
      return ({ filter with predictor := predictor },
        filterable && (predictor == 1 || predictor == 2 || (10 ≤ predictor && predictor ≤ 15)))
  else if key = ascii "/Columns" ∨ key = ascii "/Colors" ∨ key = ascii "/BitsPerComponent" then
    match ← context.asInteger value with
    | none => return (filter, false)
    | some _ =>
      let parameter ← context.getIntValueAsInt value
      if key = ascii "/Columns" then return ({ filter with columns := parameter }, filterable)
      else if key = ascii "/Colors" then return ({ filter with colors := parameter }, filterable)
      else return ({ filter with bitsPerComponent := parameter }, filterable)
  else if key = ascii "/EarlyChange" ∧ filter.lzw = true then
    match ← context.asInteger value with
    | none => return (filter, false)
    | some _ =>
      let earlyChange ← context.getIntValueAsInt value
      return ({ filter with earlyCodeChange := earlyChange == 1 },
        filterable && (earlyChange == 0 || earlyChange == 1))
  else return (filter, filterable)

def setDecodeParams (filter : FlateLzwStreamFilter) (params : ObjectValue) :
    Except Bytes (FlateLzwStreamFilter × Bool) := do
  if ← context.isNull params then return (filter, true)
  let keys ← context.getKeys params
  let (filter, filterable) ← keys.foldlM (readKey context params) (filter, true)
  return (filter, filterable && !(filter.predictor > 1 && filter.columns == 0))

/-- `to_uint` -/
def toUint (value : ℤ) : Except Bytes UInt32 :=
  if 0 ≤ value ∧ value < 2 ^ 32 then .ok (UInt32.ofNat value.toNat)
  else .error (ascii "integer out of range converting " ++ intDecimal value ++
    ascii " from a 4-byte signed type to a 4-byte unsigned type")

def tiffMessage : TiffPredictorError → Bytes
  | .runtime message => message
  | .logic message => message
  | .overflow => []

/-- The stage of the predictor, where the parameters call for one. -/
def predictorStage (filter : FlateLzwStreamFilter) :
    Except Bytes (List (StageMachine DecodeError)) :=
  if (10 ≤ filter.predictor ∧ filter.predictor ≤ 15) ∨ filter.predictor = 2 then
    match toUint filter.columns, toUint filter.colors, toUint filter.bitsPerComponent with
    | .ok columns, .ok colors, .ok bits =>
      if filter.predictor = 2 then
        match TiffPredictor.new .decode columns colors bits with
        | .ok stage => .ok [stage.machine]
        | .error error => .error (tiffMessage error)
      else
        match PngFilter.new .decode columns colors bits with
        | .ok stage => .ok [stage.machine]
        | .error message => .error message
    | .error message, _, _ => .error message
    | _, .error message, _ => .error message
    | _, _, .error message => .error message
  else .ok []

end FlateLzwStreamFilter

/-- `SF_Crypt::setDecodeParms` -/
def cryptSetDecodeParams (context : HandleContext) (params : ObjectValue) : Except Bytes Bool := do
  if ← context.isNull params then return true
  let keys ← context.getKeys params
  keys.foldlM (fun filterable key => do
    if key = ascii "/Type" ∨ key = ascii "/Name" then
      if ← context.hasKey params (ascii "/Type") then
        if ← context.isDictionaryOfType params (ascii "CryptFilterDecodeParms") then
          return filterable
        else return false
      else return filterable
    else return false) true

/-- The objects of the filters that are registered from the start. -/
inductive BuiltinStreamFilter where
  | crypt
  | flateLzw (filter : FlateLzwStreamFilter)
  | ascii85
  | asciiHex
  | runLength
  | dct
  deriving DecidableEq, Repr

/-- The zlib and the JPEG decoder. -/
structure Codecs where
  inflate : StageMachine DecodeError
  dct : StageMachine DecodeError

namespace BuiltinStreamFilter

/-- `filter_factories`; the keys have the slash of a name. -/
def factory (key : Bytes) : Option (Except Bytes BuiltinStreamFilter) :=
  if key = ascii "/Crypt" then some (.ok .crypt)
  else if key = ascii "/FlateDecode" then some (.ok (.flateLzw { lzw := false }))
  else if key = ascii "/LZWDecode" then some (.ok (.flateLzw { lzw := true }))
  else if key = ascii "/ASCII85Decode" then some (.ok .ascii85)
  else if key = ascii "/ASCIIHexDecode" then some (.ok .asciiHex)
  else if key = ascii "/RunLengthDecode" then some (.ok .runLength)
  else if key = ascii "/DCTDecode" then some (.ok .dct)
  else none

/-- A filter without parameters of its own accepts none. -/
def setDecodeParams (context : HandleContext) (filter : BuiltinStreamFilter)
    (params : ObjectValue) : Except Bytes (BuiltinStreamFilter × Bool) :=
  match filter with
  | .crypt => (cryptSetDecodeParams context params).map fun filterable => (.crypt, filterable)
  | .flateLzw filter =>
    (filter.setDecodeParams context params).map fun result => (.flateLzw result.1, result.2)
  | filter => (context.isNull params).map fun filterable => (filter, filterable)

/-- The codec goes in front of the predictor. -/
def getDecodePipeline (codecs : Codecs) :
    BuiltinStreamFilter → Except Bytes (List (StageMachine DecodeError))
  | .crypt => .ok []
  | .flateLzw filter =>
    match filter.predictorStage with
    | .error message => .error message
    | .ok predictor =>
      .ok ((if filter.lzw then Lzw.LzwDecoder.machine filter.earlyCodeChange else codecs.inflate) ::
        predictor)
  | .ascii85 => .ok [Ascii85Decoder.machine]
  | .asciiHex => .ok [AsciiHexDecoder.machine]
  | .runLength => .ok [RunLength.machine]
  | .dct => .ok [codecs.dct]

def isSpecializedCompression : BuiltinStreamFilter → Bool
  | .runLength => true
  | .dct => true
  | _ => false

def isLossyCompression : BuiltinStreamFilter → Bool
  | .dct => true
  | _ => false

def streamFilters (context : HandleContext) (codecs : Codecs) :
    StreamFilters BuiltinStreamFilter where
  factory := factory
  setDecodeParams := setDecodeParams context
  getDecodePipeline := getDecodePipeline codecs
  isSpecializedCompression := isSpecializedCompression
  isLossyCompression := isLossyCompression

end BuiltinStreamFilter

/-- The abbreviations of filter names. -/
def normalizeFilterName (name : Bytes) : Bytes :=
  if name = ascii "Fl" then ascii "FlateDecode"
  else if name = ascii "LZW" then ascii "LZWDecode"
  else if name = ascii "A85" then ascii "ASCII85Decode"
  else if name = ascii "AHx" then ascii "ASCIIHexDecode"
  else if name = ascii "RL" then ascii "RunLengthDecode"
  else if name = ascii "CCF" then ascii "CCITTFaxDecode"
  else if name = ascii "DCT" then ascii "DCTDecode"
  else name

end Flpdf
