import Flpdf.Streams.Filters

/-! # Decoding the data of a stream

Whether the data of a stream is filtered is decided from its dictionary alone.  If it is, the sink
is given what the filters make of the data one after the other; if not, it is given the data.
-/

namespace Flpdf

inductive DecodeLevel where
  | none
  | generalized
  | specialized
  | all
  deriving DecidableEq, Repr

def DecodeLevel.rank : DecodeLevel → ℕ
  | .none => 0
  | .generalized => 1
  | .specialized => 2
  | .all => 3

/-- A level decodes filters of a class. -/
def DecodeLevel.allows (level : DecodeLevel) (specialized lossy : Bool) : Bool :=
  !((lossy && level.rank < DecodeLevel.all.rank) ||
    (specialized && level.rank < DecodeLevel.specialized.rank))

structure StreamFilterPlan (Filter : Type) where
  filters : List Filter := []
  specializedCompression : Bool := false
  lossyCompression : Bool := false

def filterTypeError : Bytes := ascii "stream filter type is not name or array"

def decodeParmsLengthError : Bytes :=
  ascii "stream /DecodeParms length is inconsistent with filters"

/-! ## The plan -/

section Plan

variable {Filter : Type} (context : HandleContext) (filters : StreamFilters Filter)
  (streamDict : ObjectValue)

/-- The items of an array in `/Filter`; all of them are looked at before the array is refused. -/
def filterNamesOfItems (items : List ObjectValue) : Except Bytes (Option (List Bytes)) := do
  let names ← items.mapM context.asName
  match names.mapM id with
  | some names => return some names
  | none =>
    context.warn (.stream streamDict) filterTypeError
    return none

/-- The names in `/Filter`. -/
def filterNames : Except Bytes (Option (List Bytes)) := do
  let filter ← context.getKey streamDict (ascii "/Filter")
  if ← context.isNull filter then return some []
  match ← context.asName filter with
  | some name => return some [name]
  | none =>
    match ← context.arrayItems filter with
    | some items => filterNamesOfItems context streamDict items
    | none =>
      context.warn (.stream streamDict) filterTypeError
      return none

/-- `stream_filter_for`, which replaces an abbreviation again. -/
def streamFilterFor (name : Bytes) : Option (Except Bytes Filter) :=
  filters.factory (0x2f :: normalizeFilterName name)

/-- Every factory is called, also behind a name without one. -/
def makeFilters : List Bytes → Except Bytes (Option (List Filter))
  | [] => .ok (some [])
  | name :: names => do
    match streamFilterFor filters (normalizeFilterName name) with
    | some factory =>
      let filter ← factory
      return (← makeFilters names).map (filter :: ·)
    | none =>
      let _ ← makeFilters names
      return none

def decodeParamHandles (params : ObjectValue) (count : ℕ) :
    Except Bytes (Option (List ObjectValue)) := do
  if ← context.isNull params then return some (List.replicate count .null)
  match ← context.arrayItems params with
  | some items =>
    if items.length = 0 then return some (List.replicate count .null)
    else if items.length ≠ count then
      context.warn (.stream streamDict) decodeParmsLengthError
      return none
    else return some items
  | none => return some (List.replicate count params)

/-- A filter is given its parameters; only one that accepts them counts for the classes. -/
def addFilter (state : StreamFilterPlan Filter × Bool) (pair : Filter × ObjectValue) :
    Except Bytes (StreamFilterPlan Filter × Bool) := do
  let (filter, accepted) ← filters.setDecodeParams pair.1 pair.2
  let plan := state.1
  if accepted then
    return ({
      filters := plan.filters ++ [filter]
      specializedCompression :=
        plan.specializedCompression || filters.isSpecializedCompression filter
      lossyCompression := plan.lossyCompression || filters.isLossyCompression filter }, state.2)
  else return ({ plan with filters := plan.filters ++ [filter] }, false)

def prepareStreamFilterPlan : Except Bytes (Option (StreamFilterPlan Filter)) := do
  match ← filterNames context streamDict with
  | none => return none
  | some names =>
    if names = [] then return some {}
    match ← makeFilters filters names with
    | none => return none
    | some made =>
      let decodeParams ← context.getKey streamDict (ascii "/DecodeParms")
      match ← decodeParamHandles context streamDict decodeParams names.length with
      | none => return none
      | some handles =>
        let (plan, filterable) ← (made.zip handles).foldlM (addFilter filters) ({}, true)
        return if filterable then some plan else none

def streamDataFilterable (decodeLevel : DecodeLevel) : Except Bytes Bool := do
  match ← prepareStreamFilterPlan context filters streamDict with
  | none => return false
  | some plan => return decodeLevel.allows plan.specializedCompression plan.lossyCompression

end Plan

/-! ## The pipe -/

inductive StreamError where
  | message (text : Bytes)
  | decode (error : DecodeError)
  deriving DecidableEq, Repr

/-- Where the data comes from: bytes that were put in, a provider with the writes it makes and its
answer, or the file, read and decrypted. -/
inductive StreamSource where
  | replaced (data : Bytes)
  | provider (objectGen : QpdfObjGen) (writes : List Bytes) (success : Bool)
  | original (writes : List Bytes)

/-- How a call ends that is not an error: with the data in the sink, or as a failure that the
caller may answer with another call. -/
inductive Piped where
  | delivered (filteringAttempted : Bool) (data : Bytes)
  | failed
  deriving DecidableEq, Repr

namespace StreamSource

def writes : StreamSource → List Bytes
  | .replaced data => [data]
  | .provider _ writes _ => writes
  | .original writes => writes

/-- The raw data. -/
def payload (source : StreamSource) : Bytes := source.writes.flatten

/-- The check of the length that a provider has to meet; without `/Length` it gets one. -/
def checkLength (context : HandleContext) (streamDict : ObjectValue) (objectGen : QpdfObjGen)
    (actual : ℕ) : Except Bytes Unit := do
  if ← context.hasKey streamDict (ascii "/Length") then
    let desired ← context.getIntValue (← context.getKey streamDict (ascii "/Length"))
    if (actual : ℤ) ≠ desired then
      throw (ascii "stream data provider for " ++ intDecimal objectGen.object ++ ascii " " ++
        intDecimal objectGen.generation ++ ascii " provided " ++ intDecimal actual ++
        ascii " bytes instead of expected " ++ intDecimal desired ++ ascii " bytes")

/-- `pipe_stream_source` into a pipe; the result is none where the source itself failed. -/
def pipe (context : HandleContext) (streamDict : ObjectValue) (pipeline : Pipe DecodeError) :
    StreamSource → Except StreamError (Option Bytes)
  | .replaced data =>
    match pipeline.run [data] with
    | .ok out => .ok (some out)
    | .error error => .error (.decode error)
  | .provider objectGen writes success =>
    match pipeline.run writes with
    | .error error => .error (.decode error)
    | .ok out =>
      if success then
        match checkLength context streamDict objectGen writes.flatten.length with
        | .ok () => .ok (some out)
        | .error message => .error (.message message)
      else .ok none
  | .original writes =>
    match pipeline.run writes with
    | .ok out => .ok (some out)
    | .error _ => .ok none

/-- The source hands over all of its data. -/
def Succeeds (context : HandleContext) (streamDict : ObjectValue) : StreamSource → Prop
  | .provider objectGen writes success =>
    success = true ∧ checkLength context streamDict objectGen writes.flatten.length = .ok ()
  | _ => True

end StreamSource

section Pipe

variable {Filter : Type} (context : HandleContext) (filters : StreamFilters Filter)
  (streamDict : ObjectValue)

/-- The pipe in front of the sink, made from its end. -/
def decodePipe : List Filter → Except Bytes (Pipe DecodeError)
  | [] => .ok Pipe.sink
  | filter :: rest =>
    match decodePipe rest with
    | .error message => .error message
    | .ok head =>
      match filters.getDecodePipeline filter with
      | .error message => .error message
      | .ok stages => .ok (stages.foldr Pipe.through head)

def pipeRaw (source : StreamSource) : Except StreamError Piped :=
  (source.pipe context streamDict Pipe.sink).map fun
    | some data => .delivered false data
    | none => .failed

/-- `pipe_stream_data` without encode flags and token filters. -/
def pipeStreamData (decodeLevel : DecodeLevel) (source : StreamSource) : Except StreamError Piped :=
  if decodeLevel = .none then pipeRaw context streamDict source
  else
    match prepareStreamFilterPlan context filters streamDict with
    | .error message => .error (.message message)
    | .ok none => pipeRaw context streamDict source
    | .ok (some plan) =>
      if decodeLevel.allows plan.specializedCompression plan.lossyCompression then
        match decodePipe filters plan.filters with
        | .error message => .error (.message message)
        | .ok head =>
          (source.pipe context streamDict head).map fun
            | some data => .delivered true data
            | none => .failed
      else pipeRaw context streamDict source

end Pipe

/-! ## What the two entries say -/

section Entries

variable {Filter : Type} (context : HandleContext) (filters : StreamFilters Filter)
  (streamDict : ObjectValue)

/-- The names of a filter value: none, one, or an array of them. -/
inductive IsNames (value : ObjectValue) : List Bytes → Prop where
  | null (h : context.dereference value = .ok .null) : IsNames value []
  | name {name : Bytes} (h : context.dereference value = .ok (.name name)) : IsNames value [name]
  | array {items : List ObjectValue} {names : List Bytes}
      (h : context.dereference value = .ok (.array items))
      (hitems : List.Forall₂ (fun item name => context.dereference item = .ok (.name name))
        items names) : IsNames value names

def NamesFilters (names : List Bytes) : Prop :=
  ∃ value, context.getKey streamDict (ascii "/Filter") = .ok value ∧ IsNames context value names

/-- `/DecodeParms` is `params`, and its value is `resolved`. -/
def HasParameters (params resolved : ObjectValue) : Prop :=
  context.getKey streamDict (ascii "/DecodeParms") = .ok params ∧
    context.dereference params = .ok resolved

/-- An array of parameters that is not empty has one for each filter. -/
def FitsFilters (resolved : ObjectValue) (count : ℕ) : Prop :=
  ∀ items, resolved = .array items → items ≠ [] → items.length = count

/-- The parameters of a filter: its item of the array, or the value that all filters share. -/
def parameterAt (params : ObjectValue) : ObjectValue → ℕ → ObjectValue
  | .null, _ => .null
  | .array [], _ => .null
  | .array items, i => items.getD i .null
  | _, _ => params

/-- Why data is not filtered. -/
inductive Unfiltered (decodeLevel : DecodeLevel) : Prop where
  | malformed (h : ∀ names, ¬NamesFilters context streamDict names)
  | unknown {names : List Bytes} {name : Bytes} (hnames : NamesFilters context streamDict names)
      (hname : name ∈ names) (h : streamFilterFor filters name = none)
  | lengths {names : List Bytes} {params resolved : ObjectValue}
      (hnames : NamesFilters context streamDict names) (hne : names ≠ [])
      (hparams : HasParameters context streamDict params resolved)
      (h : ¬FitsFilters resolved names.length)
  | rejected {names : List Bytes} {params resolved : ObjectValue} {i : ℕ} {name : Bytes}
      {filter filter' : Filter} (hnames : NamesFilters context streamDict names)
      (hparams : HasParameters context streamDict params resolved) (hname : names[i]? = some name)
      (hfilter : streamFilterFor filters name = some (.ok filter))
      (h : filters.setDecodeParams filter (parameterAt params resolved i) = .ok (filter', false))
  | disallowed {names : List Bytes} {params resolved : ObjectValue} {i : ℕ} {name : Bytes}
      {filter filter' : Filter} (hnames : NamesFilters context streamDict names)
      (hparams : HasParameters context streamDict params resolved) (hname : names[i]? = some name)
      (hfilter : streamFilterFor filters name = some (.ok filter))
      (hset : filters.setDecodeParams filter (parameterAt params resolved i) = .ok (filter', true))
      (h : decodeLevel.allows (filters.isSpecializedCompression filter')
        (filters.isLossyCompression filter') = false)

/-- The stages of a filter with its parameters. -/
def stagesOf (name : Bytes) (parameter : ObjectValue) : Option (List (StageMachine DecodeError)) :=
  match streamFilterFor filters name with
  | some (.ok filter) =>
    match filters.setDecodeParams filter parameter with
    | .ok (filter, _) =>
      match filters.getDecodePipeline filter with
      | .ok stages => some stages
      | .error _ => none
    | .error _ => none
  | _ => none

/-- What the stages of a filter with its parameters make of something one after the other. -/
def applyStages {α : Type} (stage : StageMachine DecodeError → α → Except DecodeError α)
    (name : Bytes) (parameter : ObjectValue) (x : α) : Option α :=
  match stagesOf filters name parameter with
  | some stages => (stages.foldlM (fun x machine => stage machine x) x).toOption
  | none => none

/-- The filters of some names, each with its parameter. -/
def applyFilters {α : Type} (stage : StageMachine DecodeError → α → Except DecodeError α)
    (parameter : ℕ → ObjectValue) (names : List Bytes) (x : α) : Option α :=
  names.zipIdx.foldlM (fun x named => applyStages filters stage named.1 (parameter named.2) x) x

end Entries

/-! ## The plan against the entries -/

section Reading

variable {context : HandleContext} {handle value : ObjectValue}

theorem asName_eq_ok {answer : Option Bytes} (h : context.asName handle = .ok answer)
    {name : Bytes} : answer = some name ↔ context.dereference handle = .ok (.name name) := by
  obtain ⟨value, hvalue, rfl⟩ := map_eq_ok.mp h
  rw [hvalue, Except.ok.injEq]
  cases value <;> simp [ObjectValue.nameValue]

/-- The items of an array are names. -/
theorem mapM_asName {items : List ObjectValue} {answers : List (Option Bytes)}
    (h : items.mapM context.asName = .ok answers) {names : List Bytes} :
    answers.mapM id = some names ↔
      List.Forall₂ (fun item name => context.dereference item = .ok (.name name)) items names := by
  induction items generalizing answers names with
  | nil =>
    cases h
    constructor
    · intro hnames
      cases hnames
      exact .nil
    · intro hnames
      cases hnames
      rfl
  | cons item items ih =>
    rw [List.mapM_cons] at h
    obtain ⟨answer, hanswer, h⟩ := bind_eq_ok.mp h
    obtain ⟨others, hothers, h⟩ := bind_eq_ok.mp h
    cases h
    rw [List.mapM_cons, List.forall₂_cons_left_iff]
    constructor
    · intro hnames
      obtain ⟨name, hname, hnames⟩ := Option.bind_eq_some_iff.mp hnames
      obtain ⟨rest, hrest, hnames⟩ := Option.bind_eq_some_iff.mp hnames
      cases hnames
      exact ⟨name, rest, (asName_eq_ok hanswer).mp hname, (ih hothers).mp hrest, rfl⟩
    · rintro ⟨name, rest, hname, hrest, rfl⟩
      rw [(asName_eq_ok hanswer).mpr hname, (ih hothers).mpr hrest]
      rfl

variable {streamDict : ObjectValue} {names : List Bytes}

/-- A value has at most one list of names. -/
theorem IsNames.unique {names' : List Bytes} (h : IsNames context value names)
    (h' : IsNames context value names') : names = names' := by
  cases h with
  | null h =>
    cases h' with
    | null => rfl
    | name h' => rw [h] at h'; cases h'
    | array h' => rw [h] at h'; cases h'
  | name h =>
    cases h' with
    | null h' => rw [h] at h'; cases h'
    | name h' => rw [h] at h'; cases h'; rfl
    | array h' => rw [h] at h'; cases h'
  | array h hitems =>
    cases h' with
    | null h' => rw [h] at h'; cases h'
    | name h' => rw [h] at h'; cases h'
    | array h' hitems' =>
      rw [h] at h'
      cases h'
      clear h
      induction hitems generalizing names' with
      | nil =>
        cases hitems'
        rfl
      | cons hname _ ih =>
        cases hitems' with
        | cons hname' hothers =>
          rw [hname] at hname'
          cases hname'
          rw [ih hothers]

theorem NamesFilters.unique {names' : List Bytes} (h : NamesFilters context streamDict names)
    (h' : NamesFilters context streamDict names') : names = names' := by
  obtain ⟨value, hvalue, hnames⟩ := h
  obtain ⟨value', hvalue', hnames'⟩ := h'
  rw [hvalue] at hvalue'
  cases hvalue'
  exact hnames.unique hnames'

/-- The answer about the names of an entry. -/
def NamesAnswer (context : HandleContext) (streamDict : ObjectValue) : Option (List Bytes) → Prop
  | some names => NamesFilters context streamDict names
  | none => ∀ names, ¬NamesFilters context streamDict names

/-- The names are read where the entry has them, and are refused elsewhere. -/
theorem filterNames_spec {answer : Option (List Bytes)}
    (h : filterNames context streamDict = .ok answer) : NamesAnswer context streamDict answer := by
  unfold filterNames at h
  obtain ⟨filter, hfilter, h⟩ := bind_eq_ok.mp h
  obtain ⟨isNull, hnull, h⟩ := bind_eq_ok.mp h
  obtain ⟨value, hvalue, rfl⟩ := map_eq_ok.mp hnull
  have hrefused : (∀ names, ¬IsNames context filter names) →
      ∀ names, ¬NamesFilters context streamDict names := by
    rintro hnone names ⟨filter', hfilter', hnames⟩
    rw [hfilter] at hfilter'
    cases hfilter'
    exact hnone names hnames
  have hname : context.asName filter = .ok value.nameValue := by
    rw [HandleContext.asName, hvalue]
    rfl
  have hitems : context.arrayItems filter = .ok value.arrayValue := by
    rw [HandleContext.arrayItems, hvalue]
    rfl
  rw [hname, hitems] at h
  have hother : value.nullValue = false → value.nameValue = none → value.arrayValue = none →
      ∀ names, ¬IsNames context filter names := by
    intro hnull hname hitems names hnames
    cases hnames with
    | null h =>
      rw [hvalue] at h
      cases h
      cases hnull
    | name h =>
      rw [hvalue] at h
      cases h
      cases hname
    | array h =>
      rw [hvalue] at h
      cases h
      cases hitems
  cases value with
  | null =>
    cases h
    exact ⟨filter, hfilter, .null hvalue⟩
  | name name =>
    cases h
    exact ⟨filter, hfilter, .name hvalue⟩
  | array items =>
    have h : filterNamesOfItems context streamDict items = .ok answer := h
    obtain ⟨answers, hanswers, h⟩ := bind_eq_ok.mp h
    cases hall : (answers.mapM id : Option (List Bytes)) with
    | some names =>
      rw [hall] at h
      cases h
      exact ⟨filter, hfilter, .array hvalue ((mapM_asName hanswers).mp hall)⟩
    | none =>
      rw [hall] at h
      obtain ⟨_, _, h⟩ := bind_eq_ok.mp h
      cases h
      apply hrefused
      intro names hnames
      cases hnames with
      | null h =>
        rw [hvalue] at h
        cases h
      | name h =>
        rw [hvalue] at h
        cases h
      | array h hitems =>
        rw [hvalue] at h
        cases h
        rw [(mapM_asName hanswers).mpr hitems] at hall
        cases hall
  | _ =>
    have h : (context.warn (.stream streamDict) filterTypeError >>= fun _ => pure none) =
      .ok answer := h
    obtain ⟨_, _, h⟩ := bind_eq_ok.mp h
    cases h
    exact hrefused (hother rfl rfl rfl)

end Reading

/-! ## The factories and the parameters -/

section Making

variable {Filter : Type} {context : HandleContext} {filters : StreamFilters Filter}
  {streamDict params resolved : ObjectValue} {names : List Bytes}

/-- The names that have an abbreviation. -/
def fullFilterNames : List Bytes :=
  [ascii "FlateDecode", ascii "LZWDecode", ascii "ASCII85Decode", ascii "ASCIIHexDecode",
    ascii "RunLengthDecode", ascii "CCITTFaxDecode", ascii "DCTDecode"]

theorem normalizeFilterName_idem (name : Bytes) :
    normalizeFilterName (normalizeFilterName name) = normalizeFilterName name := by
  have hfull : normalizeFilterName name = name ∨ normalizeFilterName name ∈ fullFilterNames := by
    unfold normalizeFilterName fullFilterNames
    split_ifs <;> simp
  have hfixed : ∀ full ∈ fullFilterNames, normalizeFilterName full = full := by decide
  rcases hfull with hsame | hmem
  · rw [hsame, hsame]
  · exact hfixed _ hmem

theorem streamFilterFor_normalize (name : Bytes) :
    streamFilterFor filters (normalizeFilterName name) = streamFilterFor filters name := by
  rw [streamFilterFor, normalizeFilterName_idem]
  rfl

/-- Every name has a filter, or one of them has none. -/
theorem makeFilters_spec {answer : Option (List Filter)} (h : makeFilters filters names = .ok answer) :
    (answer = none ∧ ∃ name ∈ names, streamFilterFor filters name = none) ∨
      ∃ made, answer = some made ∧
        List.Forall₂ (fun name filter => streamFilterFor filters name = some (.ok filter)) names made := by
  induction names generalizing answer with
  | nil =>
    cases h
    exact .inr ⟨[], rfl, .nil⟩
  | cons name names ih =>
    rw [makeFilters, streamFilterFor_normalize] at h
    cases hname : streamFilterFor filters name with
    | none =>
      rw [hname] at h
      obtain ⟨others, -, h⟩ := bind_eq_ok.mp h
      cases h
      exact .inl ⟨rfl, name, List.mem_cons_self, hname⟩
    | some factory =>
      rw [hname] at h
      obtain ⟨filter, hfilter, h⟩ := bind_eq_ok.mp h
      obtain ⟨others, hothers, h⟩ := bind_eq_ok.mp h
      cases h
      rw [hfilter] at hname
      rcases ih hothers with ⟨rfl, other, hother, hnone⟩ | ⟨made, rfl, hmade⟩
      · exact .inl ⟨rfl, other, List.mem_cons_of_mem _ hother, hnone⟩
      · exact .inr ⟨filter :: made, rfl, .cons hname hmade⟩

/-- Every filter has its parameters, or there are not as many. -/
theorem decodeParamHandles_spec {count : ℕ} {answer : Option (List ObjectValue)}
    (hresolved : context.dereference params = .ok resolved)
    (h : decodeParamHandles context streamDict params count = .ok answer) :
    (answer = none ∧ ¬FitsFilters resolved count) ∨
      (FitsFilters resolved count ∧
        answer = some ((List.range count).map (parameterAt params resolved))) := by
  have hnull : context.isNull params = .ok resolved.nullValue := by
    rw [HandleContext.isNull, hresolved]
    rfl
  have hitems : context.arrayItems params = .ok resolved.arrayValue := by
    rw [HandleContext.arrayItems, hresolved]
    rfl
  have hshared : (resolved.arrayValue = none ∨ resolved = .array []) → FitsFilters resolved count := by
    rintro (hnone | hempty) items hitems hne
    · rw [hitems] at hnone
      cases hnone
    · rw [hempty] at hitems
      cases hitems
      exact absurd rfl hne
  have hreplicate : ∀ value, (∀ i, parameterAt params resolved i = value) →
      List.replicate count value = (List.range count).map (parameterAt params resolved) := by
    intro value hvalue
    rw [List.map_congr_left fun i _ => hvalue i, List.map_const', List.length_range]
  rw [decodeParamHandles, hnull, hitems] at h
  cases resolved with
  | null =>
    cases h
    exact .inr ⟨hshared (.inl rfl), congrArg some (hreplicate _ fun i => rfl)⟩
  | array items =>
    have h : (if items.length = 0 then pure (some (List.replicate count ObjectValue.null))
        else if items.length ≠ count then
          context.warn (.stream streamDict) decodeParmsLengthError >>= fun _ => pure none
        else pure (some items)) = .ok answer := h
    split_ifs at h with hempty hlength
    · cases h
      rw [List.length_eq_zero_iff] at hempty
      subst hempty
      exact .inr ⟨hshared (.inr rfl), congrArg some (hreplicate _ fun i => rfl)⟩
    · obtain ⟨_, _, h⟩ := bind_eq_ok.mp h
      cases h
      refine .inl ⟨rfl, fun hfits => hlength (hfits items rfl ?_)⟩
      rintro rfl
      exact hempty rfl
    · cases h
      rw [not_not] at hlength
      refine .inr ⟨fun items' hitems' _ => ?_, congrArg some ?_⟩
      · cases hitems'
        exact hlength
      · cases items with
        | nil => exact absurd rfl hempty
        | cons item items =>
          apply List.ext_getElem
          · rw [List.length_map, List.length_range, hlength]
          · intro i hi _
            rw [List.getElem_map, List.getElem_range, parameterAt, List.getD_eq_getElem?_getD,
              List.getElem?_eq_getElem hi]
            · rfl
            · intro hnil
              cases hnil
  | _ =>
    cases h
    exact .inr ⟨hshared (.inl rfl), congrArg some (hreplicate _ fun i => rfl)⟩

/-- The filter of a name has been given its parameter. -/
def Configured (filters : StreamFilters Filter) (parameter : ℕ → ObjectValue) (named : Bytes × ℕ)
    (result : Filter × Bool) : Prop :=
  ∃ filter, streamFilterFor filters named.1 = some (.ok filter) ∧
    filters.setDecodeParams filter (parameter named.2) = .ok result

theorem allows_or (level : DecodeLevel) (specialized specialized' lossy lossy' : Bool) :
    level.allows (specialized || specialized') (lossy || lossy') =
      (level.allows specialized lossy && level.allows specialized' lossy') := by
  revert specialized specialized' lossy lossy'
  cases level <;> decide

/-- The filters are given their parameters in order. -/
theorem foldlM_addFilter {pairs : List (Filter × ObjectValue)} {plan plan' : StreamFilterPlan Filter}
    {filterable filterable' : Bool}
    (h : pairs.foldlM (addFilter filters) (plan, filterable) = .ok (plan', filterable')) :
    ∃ results, List.Forall₂ (fun pair result => filters.setDecodeParams pair.1 pair.2 = .ok result)
        pairs results ∧
      plan'.filters = plan.filters ++ results.map Prod.fst ∧
      filterable' = (filterable && results.all Prod.snd) ∧
      ∀ level : DecodeLevel, level.allows plan'.specializedCompression plan'.lossyCompression =
        (level.allows plan.specializedCompression plan.lossyCompression && results.all fun result =>
          !result.2 || level.allows (filters.isSpecializedCompression result.1)
            (filters.isLossyCompression result.1)) := by
  induction pairs generalizing plan filterable with
  | nil =>
    cases h
    exact ⟨[], .nil, (List.append_nil _).symm, (Bool.and_true _).symm,
      fun level => (Bool.and_true _).symm⟩
  | cons pair pairs ih =>
    rw [List.foldlM_cons] at h
    obtain ⟨⟨between, answer⟩, hadd, hothers⟩ := bind_eq_ok.mp h
    obtain ⟨results, hresults, hfilters, hanswer, hlevel⟩ := ih hothers
    unfold addFilter at hadd
    obtain ⟨⟨filter, accepted⟩, hset, hadd⟩ := bind_eq_ok.mp hadd
    refine ⟨(filter, accepted) :: results, .cons hset hresults, ?_⟩
    cases accepted with
    | true =>
      cases hadd
      refine ⟨by rw [hfilters, List.append_assoc]; rfl, by rw [hanswer]; simp, fun level => ?_⟩
      rw [hlevel, allows_or, List.all_cons, Bool.and_assoc]
      rfl
    | false =>
      cases hadd
      refine ⟨by rw [hfilters, List.append_assoc]; rfl, by rw [hanswer]; simp, fun level => ?_⟩
      rw [hlevel, List.all_cons]
      simp

theorem configured_zip {made : List Filter} {results : List (Filter × Bool)}
    {parameter : ℕ → ObjectValue} {k : ℕ}
    (hmade : List.Forall₂ (fun name filter => streamFilterFor filters name = some (.ok filter))
      names made)
    (hresults : List.Forall₂
      (fun pair result => filters.setDecodeParams pair.1 pair.2 = .ok result)
      (made.zip ((List.range' k names.length).map parameter)) results) :
    List.Forall₂ (Configured filters parameter) (names.zipIdx k) results := by
  induction hmade generalizing k results with
  | nil =>
    cases hresults
    exact .nil
  | cons hname _ ih =>
    rw [List.length_cons, List.range'_succ, List.map_cons, List.zip_cons_cons] at hresults
    cases hresults with
    | cons hset hothers => exact .cons ⟨_, hname, hset⟩ (ih hothers)

/-- A plan with the entries it comes from: every filter has been given its parameter and has
accepted it. -/
structure Planned (context : HandleContext) (filters : StreamFilters Filter)
    (streamDict : ObjectValue) (plan : StreamFilterPlan Filter) (names : List Bytes)
    (parameter : ℕ → ObjectValue) (results : List (Filter × Bool)) : Prop where
  read : NamesFilters context streamDict names
  params : names ≠ [] → ∃ params resolved, HasParameters context streamDict params resolved ∧
    FitsFilters resolved names.length ∧ parameter = parameterAt params resolved
  configured : List.Forall₂ (Configured filters parameter) names.zipIdx results
  filters_eq : plan.filters = results.map Prod.fst
  accepted : ∀ result ∈ results, result.2 = true
  allows_iff : ∀ level : DecodeLevel,
    level.allows plan.specializedCompression plan.lossyCompression = true ↔ ∀ result ∈ results,
      level.allows (filters.isSpecializedCompression result.1)
        (filters.isLossyCompression result.1) = true

theorem related_left {α β : Type*} {relation : α → β → Prop} {as : List α} {bs : List β}
    (h : List.Forall₂ relation as bs) {b : β} (hb : b ∈ bs) : ∃ a ∈ as, relation a b := by
  induction h with
  | nil => cases hb
  | cons hhead _ ih =>
    rcases List.mem_cons.mp hb with rfl | hmem
    · exact ⟨_, List.mem_cons_self, hhead⟩
    · obtain ⟨a, ha, hrelated⟩ := ih hmem
      exact ⟨a, List.mem_cons_of_mem _ ha, hrelated⟩

theorem related_right {α β : Type*} {relation : α → β → Prop} {as : List α} {bs : List β}
    (h : List.Forall₂ relation as bs) {a : α} (ha : a ∈ as) : ∃ b ∈ bs, relation a b := by
  obtain ⟨b, hb, hrelated⟩ := related_left h.flip ha
  exact ⟨b, hb, hrelated⟩

theorem getElem?_zipIdx {i : ℕ} {name : Bytes} (h : names[i]? = some name) :
    names.zipIdx[i]? = some (name, i) := by
  rw [List.getElem?_zipIdx, h, Nat.zero_add]
  rfl

theorem mem_zipIdx {i : ℕ} {name : Bytes} (h : (name, i) ∈ names.zipIdx) :
    names[i]? = some name := by
  rw [List.mem_zipIdx_iff_getElem?] at h
  exact h

/-- An answer of the plan: with the entries it comes from, or with a reason at every level. -/
theorem prepareStreamFilterPlan_spec {answer : Option (StreamFilterPlan Filter)}
    (h : prepareStreamFilterPlan context filters streamDict = .ok answer) :
    (answer = none ∧ ∀ level, Unfiltered context filters streamDict level) ∨
      ∃ plan names parameter results, answer = some plan ∧
        Planned context filters streamDict plan names parameter results := by
  unfold prepareStreamFilterPlan at h
  obtain ⟨read, hread, h⟩ := bind_eq_ok.mp h
  have hnames := filterNames_spec hread
  cases read with
  | none =>
    cases h
    exact .inl ⟨rfl, fun level => .malformed hnames⟩
  | some names =>
    dsimp only at h
    split_ifs at h with hempty
    · cases h
      subst hempty
      refine .inr ⟨{}, [], fun _ => .null, [], rfl, hnames, fun hne => absurd rfl hne, .nil, rfl,
        nofun, fun level => ?_⟩
      cases level <;> simp [DecodeLevel.allows]
    obtain ⟨found, hfound, h⟩ := bind_eq_ok.mp h
    rcases makeFilters_spec hfound with ⟨rfl, name, hname, hunknown⟩ | ⟨made, rfl, hmade⟩
    · cases h
      exact .inl ⟨rfl, fun level => .unknown hnames hname hunknown⟩
    dsimp only at h
    obtain ⟨params, hparams, h⟩ := bind_eq_ok.mp h
    obtain ⟨given, hgiven, h⟩ := bind_eq_ok.mp h
    have hnull : ∃ isNull, context.isNull params = .ok isNull := by
      unfold decodeParamHandles at hgiven
      obtain ⟨isNull, hnull, -⟩ := bind_eq_ok.mp hgiven
      exact ⟨isNull, hnull⟩
    obtain ⟨isNull, hnull⟩ := hnull
    obtain ⟨resolved, hresolved, -⟩ := map_eq_ok.mp hnull
    rcases decodeParamHandles_spec hresolved hgiven with ⟨rfl, hlengths⟩ | ⟨hfits, rfl⟩
    · cases h
      exact .inl ⟨rfl, fun level => .lengths hnames hempty ⟨hparams, hresolved⟩ hlengths⟩
    dsimp only at h
    obtain ⟨⟨plan, filterable⟩, hfold, h⟩ := bind_eq_ok.mp h
    obtain ⟨results, hresults, hfilters, hfilterable, hlevel⟩ := foldlM_addFilter hfold
    rw [List.range_eq_range'] at hresults
    have hconfigured := configured_zip (k := 0) hmade hresults
    rw [Bool.true_and] at hfilterable
    cases filterable with
    | false =>
      cases h
      obtain ⟨result, hresult, hrejected⟩ := List.all_eq_false.mp hfilterable.symm
      obtain ⟨⟨name, i⟩, hnamed, filter, hfilter, hset⟩ := related_left hconfigured hresult
      obtain ⟨filter', accepted⟩ := result
      rw [Bool.not_eq_true] at hrejected
      dsimp only at hrejected
      subst hrejected
      exact .inl ⟨rfl, fun level =>
        .rejected hnames ⟨hparams, hresolved⟩ (mem_zipIdx hnamed) hfilter hset⟩
    | true =>
      cases h
      have haccepted := List.all_eq_true.mp hfilterable.symm
      refine .inr ⟨plan, names, parameterAt params resolved, results, rfl, hnames,
        fun _ => ⟨params, resolved, ⟨hparams, hresolved⟩, hfits, rfl⟩, hconfigured, hfilters,
        haccepted, fun level => ?_⟩
      have hempty : level.allows false false = true := by cases level <;> rfl
      rw [hlevel, hempty, Bool.true_and, List.all_eq_true]
      refine forall₂_congr fun result hresult => ?_
      rw [haccepted result hresult]
      rfl

namespace Planned

variable {plan : StreamFilterPlan Filter} {parameter : ℕ → ObjectValue}
  {results : List (Filter × Bool)} {decodeLevel : DecodeLevel}

/-- The filter of a name is the one of the plan. -/
theorem result_of (h : Planned context filters streamDict plan names parameter results)
    {names' : List Bytes} {i : ℕ} {name : Bytes} {filter : Filter} {result : Filter × Bool}
    (hnames : NamesFilters context streamDict names')
    (hparams : HasParameters context streamDict params resolved) (hname : names'[i]? = some name)
    (hfilter : streamFilterFor filters name = some (.ok filter))
    (hset : filters.setDecodeParams filter (parameterAt params resolved i) = .ok result) :
    result ∈ results := by
  rw [hnames.unique h.read] at hname
  have hne : names ≠ [] := by
    rintro rfl
    cases hname
  obtain ⟨params', resolved', ⟨hparams', hresolved'⟩, -, hparameter⟩ := h.params hne
  obtain ⟨hentry, hresolved⟩ := hparams
  rw [hentry] at hparams'
  cases hparams'
  rw [hresolved] at hresolved'
  cases hresolved'
  obtain ⟨result', hresult', filter', hfilter', hset'⟩ :=
    related_right h.configured (List.mem_of_getElem? (getElem?_zipIdx hname))
  dsimp only at hfilter' hset'
  rw [hfilter] at hfilter'
  cases hfilter'
  rw [hparameter, hset] at hset'
  cases hset'
  exact hresult'

/-- With a plan, only the classes can be a reason. -/
theorem refused_iff (h : Planned context filters streamDict plan names parameter results) :
    decodeLevel.allows plan.specializedCompression plan.lossyCompression = false ↔
      Unfiltered context filters streamDict decodeLevel := by
  rw [← Bool.not_eq_true, h.allows_iff]
  constructor
  · intro hnot
    simp only [not_forall] at hnot
    obtain ⟨⟨filter', accepted⟩, hresult, hclass⟩ := hnot
    obtain ⟨⟨name, i⟩, hnamed, filter, hfilter, hset⟩ := related_left h.configured hresult
    have haccepted := h.accepted _ hresult
    dsimp only at haccepted
    subst haccepted
    have hne : names ≠ [] := by
      rintro rfl
      cases hnamed
    obtain ⟨params, resolved, hparams, -, rfl⟩ := h.params hne
    rw [Bool.not_eq_true] at hclass
    exact .disallowed h.read hparams (mem_zipIdx hnamed) hfilter hset hclass
  · intro hrefused hall
    cases hrefused with
    | malformed hnone => exact hnone names h.read
    | unknown hnames hname hunknown =>
      rw [hnames.unique h.read] at hname
      obtain ⟨i, hi⟩ := List.mem_iff_getElem?.mp hname
      obtain ⟨_, _, filter, hfilter, _⟩ :=
        related_right h.configured (List.mem_of_getElem? (getElem?_zipIdx hi))
      rw [hunknown] at hfilter
      cases hfilter
    | lengths hnames hne hparams hlengths =>
      rw [hnames.unique h.read] at hne hlengths
      obtain ⟨params', resolved', ⟨hparams', hresolved'⟩, hfits, -⟩ := h.params hne
      obtain ⟨hentry, hresolved⟩ := hparams
      rw [hentry] at hparams'
      cases hparams'
      rw [hresolved] at hresolved'
      cases hresolved'
      exact hlengths hfits
    | rejected hnames hparams hname hfilter hset =>
      have haccepted := h.accepted _ (h.result_of hnames hparams hname hfilter hset)
      cases haccepted
    | disallowed hnames hparams hname hfilter hset hclass =>
      have hallowed := hall _ (h.result_of hnames hparams hname hfilter hset)
      rw [hclass] at hallowed
      cases hallowed

end Planned

/-! ## The pipe against the filters -/

/-- The pipe has the stages of all filters, in their order. -/
theorem decodePipe_eq_ok {chosen : List Filter} {head : Pipe DecodeError}
    (h : decodePipe filters chosen = .ok head) :
    ∃ stages : List (List (StageMachine DecodeError)),
      List.Forall₂ (fun filter stages => filters.getDecodePipeline filter = .ok stages) chosen stages ∧
        head = stages.flatten.foldr Pipe.through Pipe.sink := by
  induction chosen generalizing head with
  | nil =>
    cases h
    exact ⟨[], .nil, rfl⟩
  | cons filter chosen ih =>
    rw [decodePipe] at h
    cases hrest : decodePipe filters chosen with
    | error message =>
      rw [hrest] at h
      cases h
    | ok rest =>
      obtain ⟨stages, hstages, rfl⟩ := ih hrest
      rw [hrest] at h
      dsimp only at h
      cases hfirst : filters.getDecodePipeline filter with
      | error message =>
        rw [hfirst] at h
        cases h
      | ok first =>
        rw [hfirst] at h
        cases h
        refine ⟨first :: stages, .cons hfirst hstages, ?_⟩
        rw [List.flatten_cons, List.foldr_append]

theorem decodePipe_eq_error {chosen : List Filter} {message : Bytes}
    (h : decodePipe filters chosen = .error message) :
    ∃ filter ∈ chosen, filters.getDecodePipeline filter = .error message := by
  induction chosen with
  | nil => cases h
  | cons filter chosen ih =>
    rw [decodePipe] at h
    cases hrest : decodePipe filters chosen with
    | error other =>
      rw [hrest] at h
      cases h
      obtain ⟨failing, hmem, hfailing⟩ := ih hrest
      exact ⟨failing, List.mem_cons_of_mem _ hmem, hfailing⟩
    | ok rest =>
      rw [hrest] at h
      dsimp only at h
      cases hfirst : filters.getDecodePipeline filter with
      | error other =>
        rw [hfirst] at h
        cases h
        exact ⟨filter, List.mem_cons_self, hfirst⟩
      | ok first =>
        rw [hfirst] at h
        cases h

section Applying

variable {α : Type} {stage : StageMachine DecodeError → α → Except DecodeError α}
  {parameter : ℕ → ObjectValue} {named : List (Bytes × ℕ)} {results : List (Filter × Bool)} {x y : α}

/-- The filters one after the other have the stages of all of them one after the other. -/
theorem applyStages_all (hconfigured : List.Forall₂ (Configured filters parameter) named results)
    {stages : List (List (StageMachine DecodeError))}
    (hstages : List.Forall₂ (fun filter stages => filters.getDecodePipeline filter = .ok stages)
      (results.map Prod.fst) stages) :
    named.foldlM (fun x pair => applyStages filters stage pair.1 (parameter pair.2) x) x = some y ↔
      stages.flatten.foldlM (fun x machine => stage machine x) x = .ok y := by
  induction hconfigured generalizing x stages with
  | nil =>
    cases hstages
    exact ⟨fun h => congrArg Except.ok (Option.some.inj h), fun h => congrArg some (Except.ok.inj h)⟩
  | cons hfirst _ ih =>
    cases hstages with
    | cons hpipeline hothers =>
      obtain ⟨filter, hfilter, hset⟩ := hfirst
      rw [List.foldlM_cons, List.flatten_cons, List.foldlM_append, applyStages, stagesOf, hfilter]
      dsimp only
      rw [hset]
      dsimp only
      rw [hpipeline]
      dsimp only
      rw [bind_eq_ok]
      constructor
      · intro h
        obtain ⟨between, hbetween, hrest⟩ := Option.bind_eq_some_iff.mp h
        exact ⟨between, toOption_eq_some.mp hbetween, (ih hothers).mp hrest⟩
      · rintro ⟨between, hbetween, hrest⟩
        exact Option.bind_eq_some_iff.mpr
          ⟨between, toOption_eq_some.mpr hbetween, (ih hothers).mpr hrest⟩

/-- A filter whose stage cannot be made gives nothing. -/
theorem applyStages_none (hconfigured : List.Forall₂ (Configured filters parameter) named results)
    {result : Filter × Bool} (hresult : result ∈ results) {message : Bytes}
    (herror : filters.getDecodePipeline result.1 = .error message) :
    named.foldlM (fun x pair => applyStages filters stage pair.1 (parameter pair.2) x) x = none := by
  induction hconfigured generalizing x with
  | nil => cases hresult
  | @cons pair first _ _ hfirst _ ih =>
    rw [List.foldlM_cons]
    rcases List.mem_cons.mp hresult with rfl | hmem
    · obtain ⟨filter, hfilter, hset⟩ := hfirst
      rw [applyStages, stagesOf, hfilter]
      dsimp only
      rw [hset]
      dsimp only
      rw [herror]
      rfl
    · cases applyStages filters stage pair.1 (parameter pair.2) x with
      | none => rfl
      | some between => exact ih hmem

end Applying

/-- A source that hands over its data gives the sink what the pipe makes of its writes. -/
theorem pipe_of_succeeds {source : StreamSource} (hsource : source.Succeeds context streamDict)
    {pipeline : Pipe DecodeError} {out : Bytes} :
    source.pipe context streamDict pipeline = .ok (some out) ↔
      pipeline.run source.writes = .ok out := by
  cases source with
  | replaced data =>
    rw [StreamSource.pipe, StreamSource.writes]
    cases pipeline.run [data] <;> simp
  | original writes =>
    rw [StreamSource.pipe, StreamSource.writes]
    cases pipeline.run writes <;> simp
  | provider objectGen writes success =>
    obtain ⟨rfl, hlength⟩ := hsource
    rw [StreamSource.pipe, StreamSource.writes, hlength]
    cases pipeline.run writes <;> simp

theorem pipeRaw_of_succeeds {source : StreamSource} (hsource : source.Succeeds context streamDict) :
    pipeRaw context streamDict source = .ok (.delivered false source.payload) := by
  rw [pipeRaw, (pipe_of_succeeds hsource).mpr (Pipe.run_sink _)]
  rfl

/-! ## The decision and the data -/

/-- Nothing that the plan asks fails: handles answer, factories give filters and filters take
parameters. -/
structure NothingFails (context : HandleContext) (filters : StreamFilters Filter) : Prop where
  context : context.Answers
  factories : ∀ key factory, filters.factory key = some factory → ∃ filter, factory = .ok filter
  setDecodeParams : ∀ filter params, ∃ result, filters.setDecodeParams filter params = .ok result

/-- No stage of a filter sees how its input is split. -/
def StreamFilters.IgnoreSplits (filters : StreamFilters Filter) : Prop :=
  ∀ filter stages, filters.getDecodePipeline filter = .ok stages →
    ∀ stage ∈ stages, stage.IgnoresSplits

/-- The parameters that `/DecodeParms` gives to the filters, where there are filters. -/
def GivesParameters (context : HandleContext) (streamDict : ObjectValue) (names : List Bytes)
    (parameter : ℕ → ObjectValue) : Prop :=
  names ≠ [] → ∃ params resolved, HasParameters context streamDict params resolved ∧
    parameter = parameterAt params resolved

/-- With a plan whose classes are allowed, the sink is given what the filters make of the data. -/
theorem Planned.pipe {plan : StreamFilterPlan Filter} {parameter : ℕ → ObjectValue}
    {results : List (Filter × Bool)}
    (h : Planned context filters streamDict plan names parameter results) {source : StreamSource}
    (hsource : source.Succeeds context streamDict) {head : Pipe DecodeError}
    (hhead : decodePipe filters plan.filters = .ok head) {out : Bytes} :
    (source.pipe context streamDict head = .ok (some out) ↔
        ∃ outs, applyFilters filters StageMachine.run parameter names source.writes = some outs ∧
          outs.flatten = out) ∧
      (filters.IgnoreSplits → (source.pipe context streamDict head = .ok (some out) ↔
        applyFilters filters StageMachine.decode parameter names source.payload = some out)) := by
  rw [h.filters_eq] at hhead
  obtain ⟨stages, hstages, rfl⟩ := decodePipe_eq_ok hhead
  refine ⟨?_, fun hsplits => ?_⟩
  · rw [pipe_of_succeeds hsource, Pipe.run_chain]
    refine exists_congr fun outs => and_congr_left' ?_
    exact (applyStages_all h.configured hstages).symm
  · have hall : ∀ stage ∈ stages.flatten, stage.IgnoresSplits := by
      intro stage hstage
      obtain ⟨part, hpart, hmem⟩ := List.mem_flatten.mp hstage
      obtain ⟨filter, -, hpipeline⟩ := related_left hstages hpart
      exact hsplits filter part hpipeline stage hmem
    rw [pipe_of_succeeds hsource, Pipe.run_chain_decode hall]
    exact (applyStages_all h.configured hstages).symm

/-- Without a reason against it, what a pipe call delivers is what the filters make of the data. -/
def DeliversDecoded (context : HandleContext) (filters : StreamFilters Filter)
    (streamDict : ObjectValue) (source : StreamSource) (result : Except StreamError Piped) : Prop :=
  ∃ names parameter, NamesFilters context streamDict names ∧
    GivesParameters context streamDict names parameter ∧
    (∀ out, result ≠ .ok (.delivered false out)) ∧
    (∀ out, result = .ok (.delivered true out) ↔ ∃ outs,
      applyFilters filters StageMachine.run parameter names source.writes = some outs ∧
        outs.flatten = out) ∧
    (filters.IgnoreSplits → ∀ out, result = .ok (.delivered true out) ↔
      applyFilters filters StageMachine.decode parameter names source.payload = some out)

theorem Planned.deliversDecoded {plan : StreamFilterPlan Filter} {parameter : ℕ → ObjectValue}
    {results : List (Filter × Bool)}
    (h : Planned context filters streamDict plan names parameter results) {source : StreamSource}
    (hsource : source.Succeeds context streamDict) :
    DeliversDecoded context filters streamDict source
      (match decodePipe filters plan.filters with
        | .error message => .error (.message message)
        | .ok head =>
          (source.pipe context streamDict head).map fun
            | some data => .delivered true data
            | none => .failed) := by
  have hgives : GivesParameters context streamDict names parameter := by
    intro hne
    obtain ⟨params, resolved, hparams, -, hparameter⟩ := h.params hne
    exact ⟨params, resolved, hparams, hparameter⟩
  refine ⟨names, parameter, h.read, hgives, ?_⟩
  cases hhead : decodePipe filters plan.filters with
  | error message =>
    rw [h.filters_eq] at hhead
    obtain ⟨filter, hfilter, herror⟩ := decodePipe_eq_error hhead
    obtain ⟨result, hresult, rfl⟩ := List.mem_map.mp hfilter
    have hnone : ∀ {α : Type} (stage : StageMachine DecodeError → α → Except DecodeError α) (x : α),
        applyFilters filters stage parameter names x = none :=
      fun stage x => applyStages_none h.configured hresult herror
    refine ⟨nofun, fun out => ⟨nofun, ?_⟩, fun _ out => ⟨nofun, ?_⟩⟩
    · rintro ⟨outs, houts, -⟩
      rw [hnone] at houts
      cases houts
    · intro hout
      rw [hnone] at hout
      cases hout
  | ok head =>
    have hmap : ∀ out, (source.pipe context streamDict head).map (fun
        | some data => Piped.delivered true data
        | none => .failed) = .ok (.delivered true out) ↔
          source.pipe context streamDict head = .ok (some out) := by
      intro out
      rw [map_eq_ok]
      constructor
      · rintro ⟨answer, hanswer, hdelivered⟩
        cases answer with
        | none => cases hdelivered
        | some data =>
          cases hdelivered
          exact hanswer
      · intro hanswer
        exact ⟨some out, hanswer, rfl⟩
    refine ⟨fun out hfalse => ?_, fun out => ?_, fun hsplits out => ?_⟩
    · obtain ⟨answer, -, hdelivered⟩ := map_eq_ok.mp hfalse
      cases answer <;> cases hdelivered
    · exact (hmap out).trans (h.pipe hsource hhead).1
    · exact (hmap out).trans ((h.pipe hsource hhead).2 hsplits)

theorem mapM_answers {ε α β : Type} {f : α → Except ε β} (h : ∀ a, ∃ b, f a = .ok b) (as : List α) :
    ∃ bs, as.mapM f = .ok bs := by
  induction as with
  | nil => exact ⟨[], rfl⟩
  | cons a as ih =>
    obtain ⟨b, hb⟩ := h a
    obtain ⟨bs, hbs⟩ := ih
    rw [List.mapM_cons, hb, ok_bind, hbs]
    exact ⟨b :: bs, rfl⟩

theorem foldlM_answers {ε α β : Type} {f : β → α → Except ε β} (h : ∀ b a, ∃ b', f b a = .ok b')
    (b : β) (as : List α) : ∃ b', as.foldlM f b = .ok b' := by
  induction as generalizing b with
  | nil => exact ⟨b, rfl⟩
  | cons a as ih =>
    obtain ⟨b', hb'⟩ := h b a
    rw [List.foldlM_cons, hb']
    exact ih b'

namespace NothingFails

variable (h : NothingFails context filters)

include h

theorem filterNames (streamDict : ObjectValue) :
    ∃ answer, filterNames context streamDict = .ok answer := by
  obtain ⟨filter, hfilter⟩ := h.context.getKey streamDict (ascii "/Filter")
  obtain ⟨isNull, hnull⟩ := h.context.isNull filter
  obtain ⟨name, hname⟩ := h.context.asName filter
  obtain ⟨items, hitems⟩ := h.context.arrayItems filter
  rw [Flpdf.filterNames, hfilter, ok_bind, hnull, ok_bind]
  split_ifs
  · exact ⟨_, rfl⟩
  rw [hname, ok_bind]
  cases name with
  | some name => exact ⟨_, rfl⟩
  | none =>
    dsimp only
    rw [hitems, ok_bind]
    cases items with
    | none =>
      dsimp only
      rw [h.context.warns]
      exact ⟨_, rfl⟩
    | some items =>
      obtain ⟨answers, hanswers⟩ := mapM_answers h.context.asName items
      dsimp only
      rw [filterNamesOfItems, hanswers, ok_bind]
      cases (answers.mapM id : Option (List Bytes)) with
      | some names => exact ⟨_, rfl⟩
      | none =>
        dsimp only
        rw [h.context.warns]
        exact ⟨_, rfl⟩

theorem makeFilters (names : List Bytes) : ∃ answer, makeFilters filters names = .ok answer := by
  induction names with
  | nil => exact ⟨_, rfl⟩
  | cons name names ih =>
    obtain ⟨others, hothers⟩ := ih
    rw [Flpdf.makeFilters, hothers]
    cases hname : streamFilterFor filters (normalizeFilterName name) with
    | none => exact ⟨_, rfl⟩
    | some factory =>
      obtain ⟨filter, rfl⟩ := h.factories _ _ hname
      exact ⟨_, rfl⟩

theorem decodeParamHandles (streamDict params : ObjectValue) (count : ℕ) :
    ∃ answer, decodeParamHandles context streamDict params count = .ok answer := by
  obtain ⟨isNull, hnull⟩ := h.context.isNull params
  obtain ⟨items, hitems⟩ := h.context.arrayItems params
  rw [Flpdf.decodeParamHandles, hnull, ok_bind]
  split_ifs
  · exact ⟨_, rfl⟩
  rw [hitems, ok_bind]
  cases items with
  | none => exact ⟨_, rfl⟩
  | some items =>
    dsimp only
    split_ifs
    · exact ⟨_, rfl⟩
    · rw [h.context.warns]
      exact ⟨_, rfl⟩
    · exact ⟨_, rfl⟩

theorem addFilter (state : StreamFilterPlan Filter × Bool) (pair : Filter × ObjectValue) :
    ∃ state', addFilter filters state pair = .ok state' := by
  obtain ⟨⟨filter, accepted⟩, hset⟩ := h.setDecodeParams pair.1 pair.2
  rw [Flpdf.addFilter, hset, ok_bind]
  cases accepted <;> exact ⟨_, rfl⟩

theorem plans (streamDict : ObjectValue) :
    ∃ answer, prepareStreamFilterPlan context filters streamDict = .ok answer := by
  obtain ⟨readNames, hnames⟩ := h.filterNames streamDict
  rw [prepareStreamFilterPlan, hnames, ok_bind]
  cases readNames with
  | none => exact ⟨_, rfl⟩
  | some names =>
    dsimp only
    split_ifs
    · exact ⟨_, rfl⟩
    obtain ⟨found, hmade⟩ := h.makeFilters names
    rw [hmade, ok_bind]
    cases found with
    | none => exact ⟨_, rfl⟩
    | some made =>
      obtain ⟨params, hparams⟩ := h.context.getKey streamDict (ascii "/DecodeParms")
      obtain ⟨given, hhandles⟩ := h.decodeParamHandles streamDict params
        names.length
      dsimp only
      rw [hparams, ok_bind, hhandles, ok_bind]
      cases given with
      | none => exact ⟨_, rfl⟩
      | some handles =>
        obtain ⟨⟨plan, filterable⟩, hfold⟩ :=
          foldlM_answers h.addFilter ({}, true) (made.zip handles)
        dsimp only
        rw [hfold, ok_bind]
        exact ⟨_, rfl⟩

end NothingFails

/-- The decision is made from the dictionary alone: the data goes through its filters unless one of
the reasons stands against it, and then it is delivered as it is. -/
theorem pipeStreamData_decides (context : HandleContext) (filters : StreamFilters Filter)
    (streamDict : ObjectValue) (decodeLevel : DecodeLevel) (source : StreamSource)
    (hlevel : decodeLevel ≠ .none) (hsource : source.Succeeds context streamDict) :
    (NothingFails context filters →
        ∃ answer, streamDataFilterable context filters streamDict decodeLevel = .ok answer) ∧
      (∀ message, streamDataFilterable context filters streamDict decodeLevel = .error message →
        pipeStreamData context filters streamDict decodeLevel source = .error (.message message)) ∧
      ∀ answer, streamDataFilterable context filters streamDict decodeLevel = .ok answer →
        (answer = false ↔ Unfiltered context filters streamDict decodeLevel) ∧
        (answer = false → pipeStreamData context filters streamDict decodeLevel source =
          .ok (.delivered false source.payload)) ∧
        (answer = true → DeliversDecoded context filters streamDict source
          (pipeStreamData context filters streamDict decodeLevel source)) := by
  rw [streamDataFilterable, pipeStreamData, if_neg hlevel]
  cases hplan : prepareStreamFilterPlan context filters streamDict with
  | error message =>
    refine ⟨fun hfails => ?_, fun message' herror => ?_, nofun⟩
    · obtain ⟨answer, hanswer⟩ := hfails.plans streamDict
      rw [hplan] at hanswer
      cases hanswer
    · cases herror
      rfl
  | ok answerPlan =>
    refine ⟨fun _ => by cases answerPlan <;> exact ⟨_, rfl⟩, by cases answerPlan <;> nofun,
      fun answer h => ?_⟩
    rcases prepareStreamFilterPlan_spec hplan with
      ⟨rfl, hrefused⟩ | ⟨plan, names, parameter, results, rfl, hplanned⟩
    · cases h
      exact ⟨⟨fun _ => hrefused decodeLevel, fun _ => rfl⟩,
        fun _ => pipeRaw_of_succeeds hsource, nofun⟩
    · cases h
      refine ⟨hplanned.refused_iff, fun hfalse => ?_, fun htrue => ?_⟩
      · dsimp only
        rw [hfalse]
        exact pipeRaw_of_succeeds hsource
      · dsimp only
        rw [if_pos htrue]
        exact hplanned.deliversDecoded hsource

end Making

/-! ## Two streams -/

/-- A document without indirect objects. -/
def directContext : HandleContext where
  resolve _ := .ok .null
  warn _ _ := .ok ()

/-- A stage that hands on what it is given. -/
def copyStage : StageMachine DecodeError where
  State := Unit
  start := ()
  write _ data := ⟨[data], .ok ()⟩
  finish _ := ⟨[], .ok ()⟩

def directFilters : StreamFilters BuiltinStreamFilter :=
  BuiltinStreamFilter.streamFilters directContext ⟨copyStage, copyStage⟩

/-- Hexadecimal digits of a run. -/
def hexRunDict : ObjectValue := .dictionary
  [(ascii "/DecodeParms", .null),
    (ascii "/Filter", .array [.name (ascii "AHx"), .name (ascii "RunLengthDecode")])]

theorem pipeStreamData_decides_hexRun :
    ¬Unfiltered directContext directFilters hexRunDict .specialized ∧
      pipeStreamData directContext directFilters hexRunDict .specialized
        (.replaced (ascii "fe 41>")) = .ok (.delivered true (ascii "AAA")) := by
  have hspec := pipeStreamData_decides directContext directFilters hexRunDict .specialized
    (.replaced (ascii "fe 41>")) (by decide) trivial
  have hanswer := hspec.2.2 true (by decide)
  exact ⟨fun h => Bool.noConfusion (hanswer.1.mpr h), by decide⟩

/-- No filter, and a parameter for one. -/
def noFilterDict : ObjectValue := .dictionary
  [(ascii "/DecodeParms", .array [.null]), (ascii "/Filter", .array [])]

/-- Two arrays of different lengths do not keep data from being filtered: without a filter the
parameters are not looked at. -/
theorem noFilter_filters :
    ¬∀ streamDict filterItems paramItems,
      directContext.getKey streamDict (ascii "/Filter") = .ok (.array filterItems) →
      directContext.getKey streamDict (ascii "/DecodeParms") = .ok (.array paramItems) →
      paramItems ≠ [] → paramItems.length ≠ filterItems.length →
      ∀ decodeLevel, decodeLevel ≠ .none → ∀ data,
        pipeStreamData directContext directFilters streamDict decodeLevel (.replaced data) =
          .ok (.delivered false data) := by
  intro h
  have hraw := h noFilterDict [] [.null] rfl rfl (List.cons_ne_nil _ _) (by decide) .all (by decide)
    [0x41]
  have hfiltered : pipeStreamData directContext directFilters noFilterDict .all
      (.replaced [0x41]) = .ok (.delivered true [0x41]) := by
    decide
  rw [hfiltered] at hraw
  cases hraw

end Flpdf
