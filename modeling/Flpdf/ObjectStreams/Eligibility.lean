import Flpdf.Optimization.ObjectWalk

/-!
# Compressible objects

`compressible_objgens_qpdf_plan` walks a document whose object cache has been prepared
and lists the objects that can go into object streams; the list is then divided among
the streams. A removed generation leaves null behind, so that its handles are direct.
-/

namespace Flpdf

open DepthFirst

inductive PlanError where
  | internal (message : Bytes)
  | outOfBounds
  deriving DecidableEq, Repr

/-! ## Visited objects -/

/-- One bit for every object number. -/
structure PackedVisited where
  words : List (BitVec 64)

namespace PackedVisited

def new (maxObject : ℕ) : PackedVisited := ⟨List.replicate ((maxObject + 63) / 64) 0⟩

def bitIndex (objectNumber : ℕ) : Except PlanError (ℕ × ℕ) :=
  if objectNumber = 0 then
    .error (.internal (ascii "object number zero cannot be marked visited"))
  else .ok ((objectNumber - 1) / 64, (objectNumber - 1) % 64)

def contains (visited : PackedVisited) (objectNumber : ℕ) : Except PlanError Bool := do
  let (word, bit) ← bitIndex objectNumber
  match visited.words[word]? with
  | some bits => return bits &&& 1#64 <<< bit != 0#64
  | none => throw .outOfBounds

def insert (visited : PackedVisited) (objectNumber : ℕ) : Except PlanError PackedVisited := do
  let (word, bit) ← bitIndex objectNumber
  match visited.words[word]? with
  | some bits => return ⟨visited.words.set word (bits ||| 1#64 <<< bit)⟩
  | none => throw .outOfBounds

end PackedVisited

/-! ## The object graph -/

namespace Pdf

/-- The values an object leads to: the items of an array and the entries that are not
null, without the `/Length` of a stream. -/
def childrenOf (pdf : Pdf) (object : ObjectValue) : List ObjectValue :=
  match pdf.dereference object with
  | .array items => items
  | .dictionary entries => (pdf.visibleChildren entries).map Prod.snd
  | .stream (.dictionary entries) =>
    ((pdf.visibleChildren entries).filter fun entry => entry.1 != ascii "/Length").map Prod.snd
  | _ => []

/-- What the trailer leads to. -/
def TrailerLeads (pdf : Pdf) : ObjectValue → Prop :=
  Relation.ReflTransGen (fun a b => b ∈ pdf.childrenOf a) (.dictionary pdf.trailer)

end Pdf

/-! ## The walk -/

/-- A document with the keys of its object cache; a handle of an indirect object is one
of the cache's. -/
structure PreparedPdf extends Pdf where
  cache : List QpdfObjGen
  cached : ∀ objectGen, toPdf.TrailerLeads (.indirect objectGen) → objectGen ∈ cache

structure CompressiblePlan where
  eligible : List ObjectRef := []
  removedRefs : Finset ObjectRef := ∅
  indirectObjstmLengthRefs : Finset ObjectRef := ∅

structure PlanState where
  stack : List ObjectValue
  visited : PackedVisited
  plan : CompressiblePlan := {}

namespace PreparedPdf

/-- `get_object_count`: the number of the last key. -/
def objectCount (pdf : PreparedPdf) : ℕ :=
  match pdf.cache.getLast? with
  | some key => key.object.toNat
  | none => 0

/-- `object_ref`; the handles of a removed object are direct. -/
def objectRef (removed : Finset ObjectRef) : ObjectValue → Option ObjectRef
  | .indirect objectGen => objectGen.toObjectRef.filter fun ref => ref ∉ removed
  | _ => none

/-- `try_dereference`; a removed object is null. -/
def resolved (pdf : PreparedPdf) (removed : Finset ObjectRef) : ObjectValue → ObjectValue
  | .indirect objectGen =>
    if objectGen.toObjectRef.any fun ref => ref ∈ removed then .null else pdf.value objectGen
  | value => value

def tryIsNull (pdf : PreparedPdf) (removed : Finset ObjectRef) (object : ObjectValue) : Bool :=
  (pdf.resolved removed object).isNull

/-- `has_newer_cached_generation`: the next key has the same object number. -/
def hasNewerCachedGeneration (pdf : PreparedPdf) (removed : Finset ObjectRef)
    (ref : ObjectRef) : Bool :=
  match QpdfObjGen.tryFromObjectRef ref with
  | .error _ => false
  | .ok objectGen =>
    ((pdf.cache.filter fun key => !key.toObjectRef.any fun ref => ref ∈ removed).find?
      fun key => compare objectGen key == .lt).any fun next => next.object == (ref.number : ℤ)

/-- `try_has_key`: there is an entry and it is not null. -/
def hasKey (pdf : PreparedPdf) (removed : Finset ObjectRef) (entries : List (Bytes × ObjectValue))
    (key : Bytes) : Bool :=
  (entries.lookup key).any fun value => !pdf.tryIsNull removed value

/-- `/Type` is the name. -/
def isOfType (pdf : PreparedPdf) (removed : Finset ObjectRef)
    (entries : List (Bytes × ObjectValue)) (name : Bytes) : Bool :=
  (entries.lookup (ascii "/Type")).any fun value =>
    (pdf.resolved removed value).isNameAndEquals name

def isQpdfSignatureDict (pdf : PreparedPdf) (removed : Finset ObjectRef)
    (object : ObjectValue) : Bool :=
  match pdf.resolved removed object with
  | .dictionary entries =>
    pdf.isOfType removed entries (ascii "Sig") && pdf.hasKey removed entries (ascii "/ByteRange") &&
      pdf.hasKey removed entries (ascii "/Contents")
  | _ => false

/-- `push_handle_dict_children`, in the order in which the children are taken. -/
def dictChildren (pdf : PreparedPdf) (removed : Finset ObjectRef) (isStream : Bool)
    (entries : List (Bytes × ObjectValue)) : List ObjectValue :=
  ((entries.filter fun entry => !pdf.tryIsNull removed entry.2).filter fun entry =>
    !(isStream && entry.1 == ascii "/Length")).map Prod.snd

/-- `push_handle_children`, in the order in which the children are taken. -/
def handleChildren (pdf : PreparedPdf) (removed : Finset ObjectRef) (object : ObjectValue) :
    List ObjectValue :=
  match pdf.resolved removed object with
  | .stream (.dictionary entries) => pdf.dictChildren removed true entries
  | .dictionary entries => pdf.dictChildren removed false entries
  | .array items => items
  | _ => []

/-- `stack.extend(children.into_iter().rev())`, on a stack that is taken from the front. -/
def extendReversed (children stack : List ObjectValue) : List ObjectValue :=
  children.reverse.foldl (fun stack child => child :: stack) stack

/-- The `/Length` of an object stream, where it is a reference. -/
def objstmLengthRef (pdf : PreparedPdf) (removed : Finset ObjectRef) : ObjectValue → Finset ObjectRef
  | .stream (.dictionary entries) =>
    if pdf.isOfType removed entries (ascii "ObjStm") then
      (((entries.lookup (ascii "/Length")).bind (objectRef removed)).map fun ref => {ref}).getD ∅
    else ∅
  | _ => ∅

def isStream : ObjectValue → Bool
  | .stream _ => true
  | _ => false

/-- The turn behind `visited.insert`: the object is listed where it can be, and its
children are pushed. -/
def enterObject (pdf : PreparedPdf) (encryptRef : Option ObjectRef) (s : PlanState)
    (object : ObjectValue) (ref : ObjectRef) (visited : PackedVisited) : PlanState :=
  let removed := s.plan.removedRefs
  let value := pdf.resolved removed object
  let listed := !isStream value && !pdf.isQpdfSignatureDict removed object &&
    some ref != encryptRef
  { stack := extendReversed (pdf.handleChildren removed object) s.stack
    visited := visited
    plan := { s.plan with
      eligible := if listed then s.plan.eligible ++ [ref] else s.plan.eligible
      indirectObjstmLengthRefs :=
        s.plan.indirectObjstmLengthRefs ∪ pdf.objstmLengthRef removed value } }

/-- One turn of the loop, with the object that has been popped. -/
def visitObject (pdf : PreparedPdf) (maxObject : ℕ) (encryptRef : Option ObjectRef)
    (s : PlanState) (object : ObjectValue) : Except PlanError PlanState :=
  let removed := s.plan.removedRefs
  match objectRef removed object with
  | none => .ok { s with stack := extendReversed (pdf.handleChildren removed object) s.stack }
  | some ref => do
    if ref.number = 0 then return s
    else if maxObject < ref.number then
      throw (.internal (ascii "unexpected object id encountered in getCompressibleObjGens"))
    else if ← s.visited.contains ref.number then return s
    else if pdf.hasNewerCachedGeneration removed ref then
      return { s with plan := { s.plan with removedRefs := insert ref removed } }
    else
      let visited ← s.visited.insert ref.number
      return pdf.enterObject encryptRef s object ref visited

/-- The loop over the stack; `none` when the fuel is used up. -/
def planLoop (pdf : PreparedPdf) (maxObject : ℕ) (encryptRef : Option ObjectRef) :
    ℕ → PlanState → Option (Except PlanError CompressiblePlan)
  | fuel, s =>
    match s.stack, fuel with
    | [], _ => some (.ok s.plan)
    | _ :: _, 0 => none
    | object :: stack, fuel + 1 =>
      match pdf.visitObject maxObject encryptRef { s with stack := stack } object with
      | .error e => some (.error e)
      | .ok s => planLoop pdf maxObject encryptRef fuel s

/-- `trailer_handle.try_get_key(b"/Encrypt")?.object_ref()`. -/
def encryptRef (pdf : PreparedPdf) : Option ObjectRef :=
  (pdf.trailer.lookup (ascii "/Encrypt")).bind (objectRef ∅)

def compressibleObjgensQpdfPlan (pdf : PreparedPdf) (fuel : ℕ) :
    Option (Except PlanError CompressiblePlan) :=
  pdf.planLoop pdf.objectCount pdf.encryptRef fuel
    { stack := [.dictionary pdf.trailer], visited := .new pdf.objectCount }

end PreparedPdf

/-! ## The streams -/

/-- `eligible.chunks(n)`, for `n` of at least one; the fuel is the number of members. -/
def chunks {α : Type} (n : ℕ) : ℕ → List α → List (List α)
  | _, [] => []
  | 0, _ :: _ => []
  | fuel + 1, member :: members =>
    (member :: members).take n :: chunks n fuel ((member :: members).drop n)

def evenSplitIntoStreamsWithCap (eligible : List ObjectRef) (cap : ℕ) : List (List ObjectRef) :=
  let n := eligible.length
  if n = 0 then []
  else
    let nStreams := (n + cap - 1) / cap
    let nPer := (n + nStreams - 1) / nStreams
    chunks nPer n eligible

/-! ## The bitmap -/

namespace PackedVisited

variable {visited : PackedVisited} {n m : ℕ}

/-- The bit of an object number. -/
def bit (visited : PackedVisited) (n : ℕ) : Bool :=
  (visited.words.getD ((n - 1) / 64) 0).getLsbD ((n - 1) % 64)

/-- There is a bit for every object number up to `n`. -/
def Covers (visited : PackedVisited) (n : ℕ) : Prop := visited.words.length = (n + 63) / 64

theorem covers_new (n : ℕ) : (new n).Covers n := by
  rw [Covers, new, List.length_replicate]

theorem bit_new (n m : ℕ) : (new n).bit m = false := by
  rw [bit, new, List.getD_eq_getElem?_getD, List.getElem?_replicate]
  split_ifs <;> simp

theorem and_bit (bits : BitVec 64) {i : ℕ} (hi : i < 64) :
    (bits &&& 1#64 <<< i != 0#64) = bits.getLsbD i := by
  rw [← BitVec.twoPow_eq, BitVec.and_twoPow]
  cases hbit : bits.getLsbD i with
  | false => simp
  | true =>
    have hpow : BitVec.twoPow 64 i ≠ 0#64 := by
      intro h
      have hget := congrArg (fun x : BitVec 64 => x.getLsbD i) h
      simp [hi] at hget
    simp [hpow]

theorem Covers.getElem? (h : visited.Covers m) (hpos : n ≠ 0) (hle : n ≤ m) :
    ∃ bits, visited.words[(n - 1) / 64]? = some bits ∧
      visited.words.getD ((n - 1) / 64) 0 = bits := by
  have hlt : (n - 1) / 64 < visited.words.length := by
    rw [h]
    omega
  exact ⟨_, List.getElem?_eq_getElem hlt, by simp [hlt]⟩

theorem Covers.contains (h : visited.Covers m) (hpos : n ≠ 0) (hle : n ≤ m) :
    visited.contains n = .ok (visited.bit n) := by
  obtain ⟨bits, hbits, hget⟩ := h.getElem? hpos hle
  rw [PackedVisited.contains, bitIndex, if_neg hpos]
  dsimp only [bind, Except.bind]
  rw [hbits, bit, hget, ← and_bit bits (Nat.mod_lt _ (by decide))]
  rfl

theorem Covers.insert (h : visited.Covers m) (hpos : n ≠ 0) (hle : n ≤ m) :
    ∃ visited', visited.insert n = .ok visited' ∧ visited'.Covers m ∧
      ∀ k, k ≠ 0 → visited'.bit k = (visited.bit k || decide (k = n)) := by
  obtain ⟨bits, hbits, hget⟩ := h.getElem? hpos hle
  refine ⟨⟨visited.words.set ((n - 1) / 64) (bits ||| 1#64 <<< ((n - 1) % 64))⟩, ?_, ?_, ?_⟩
  · rw [PackedVisited.insert, bitIndex, if_neg hpos]
    dsimp only [bind, Except.bind]
    rw [hbits]
    rfl
  · rw [Covers, List.length_set]
    exact h
  · intro k hk
    have hlt := (List.getElem?_eq_some_iff.mp hbits).1
    by_cases hword : (n - 1) / 64 = (k - 1) / 64
    · have hbit : (n - 1) % 64 = (k - 1) % 64 ↔ k = n := by
        omega
      rw [bit, bit, ← hword, hget, List.getD_eq_getElem?_getD, List.getElem?_set_self hlt,
        Option.getD_some, BitVec.getLsbD_or, ← BitVec.twoPow_eq, BitVec.getLsbD_twoPow,
        decide_eq_true (Nat.mod_lt _ (by decide)), Bool.true_and, decide_eq_decide.mpr hbit]
    · have hne : k ≠ n := by
        rintro rfl
        exact hword rfl
      rw [bit, bit, List.getD_eq_getElem?_getD, List.getElem?_set_ne hword,
        ← List.getD_eq_getElem?_getD, decide_eq_false hne, Bool.or_false]

end PackedVisited

/-! ## Marks and children -/

namespace Pdf

/-- The search whose marks are the identities. -/
def childSearch (pdf : Pdf) : Search ObjectValue QpdfObjGen where
  entry
    | .indirect objectGen => .mark objectGen
    | _ => .pass
  children := pdf.childrenOf

/-- The objects that are entered below a value, in the order in which they are first met;
`none` when the recursion goes too deep. -/
def enterBelow (pdf : Pdf) : ℕ → List QpdfObjGen → ObjectValue → Option (List QpdfObjGen)
  | 0, _, _ => none
  | depth + 1, entered, .indirect objectGen =>
    if objectGen ∈ entered then some entered
    else (pdf.childrenOf (.indirect objectGen)).foldlM (enterBelow pdf depth)
      (entered ++ [objectGen])
  | depth + 1, entered, object => (pdf.childrenOf object).foldlM (enterBelow pdf depth) entered

variable {pdf : Pdf} {object : ObjectValue} {objectGen : QpdfObjGen}

theorem mark_of_entry (h : pdf.childSearch.entry object = .mark objectGen) :
    object = .indirect objectGen := by
  cases object with
  | indirect other =>
    cases h
    rfl
  | _ => cases h

theorem childSearch_coherent : pdf.childSearch.Coherent := by
  intro a b objectGen ha hb
  rw [mark_of_entry ha, mark_of_entry hb]

theorem entry_ne_skip : pdf.childSearch.entry object ≠ .skip := by
  cases object <;> nofun

theorem reached_iff_leads :
    pdf.childSearch.Reached [.dictionary pdf.trailer] object ↔ pdf.TrailerLeads object := by
  constructor
  · intro h
    induction h with
    | root hb =>
      rw [List.mem_singleton.mp hb]
      exact .refl
    | child _ _ hc ih => exact .tail ih hc
  · intro h
    induction h with
    | refl => exact .root List.mem_cons_self
    | tail _ hc ih => exact .child ih entry_ne_skip hc

theorem sizeOf_childrenOf (pdf : Pdf) (object : ObjectValue) :
    ((pdf.childrenOf object).map sizeOf).sum < sizeOf (pdf.dereference object) := by
  have hvisible : ∀ entries : List (Bytes × ObjectValue),
      ((pdf.visibleChildren entries).map fun entry => sizeOf entry.2).sum ≤ sizeOf entries := by
    intro entries
    exact (sum_map_filter_le _ entries).trans (sizeOf_children_dictionary entries)
  rw [childrenOf]
  split
  · rename_i items hvalue
    rw [hvalue]
    have hle := sizeOf_children_array items
    simp only [ObjectValue.array.sizeOf_spec]
    omega
  · rename_i entries hvalue
    rw [hvalue, List.map_map]
    have hle := hvisible entries
    simp only [ObjectValue.dictionary.sizeOf_spec]
    exact Nat.lt_of_le_of_lt hle (by omega)
  · rename_i entries hvalue
    rw [hvalue, List.map_map]
    have hle := (sum_map_filter_le (fun entry => entry.1 != ascii "/Length")
      (pdf.visibleChildren entries)).trans (hvisible entries)
    simp only [ObjectValue.stream.sizeOf_spec, ObjectValue.dictionary.sizeOf_spec]
    exact Nat.lt_of_le_of_lt hle (by omega)
  · cases pdf.dereference object <;> simp

/-- A value weighs its size, an object lends the size of its value once. -/
noncomputable def childWeights (pdf : Pdf) : pdf.childSearch.Weights where
  weight object := sizeOf object
  budget objectGen :=
    if objectGen ∈ pdf.objects.map Prod.fst then sizeOf (pdf.value objectGen) else 0
  marks := pdf.objects.map Prod.fst
  weight_pos object := by
    cases object <;> simp
  children_of_pass object h := by
    have hlt := sizeOf_childrenOf pdf object
    have hdirect : pdf.dereference object = object := by
      cases object with
      | indirect objectGen => cases h
      | _ => rfl
    rw [hdirect] at hlt
    exact hlt
  children_of_mark object objectGen h := by
    obtain rfl := mark_of_entry h
    split
    · exact Nat.le_of_lt (sizeOf_childrenOf pdf (.indirect objectGen))
    · rename_i hmem
      have hnone : pdf.childrenOf (.indirect objectGen) = [] := by
        rw [childrenOf, dereference, value_of_not_mem hmem]
      rw [show pdf.childSearch.children (.indirect objectGen) = [] from hnone]
      exact Nat.zero_le _
  budget_of_not_mem _ (h : _ → False) := if_neg h

/-- The recursion enters what the depth-first recursion logs. -/
theorem enterBelow_eq (pdf : Pdf) (depth : ℕ) (log : List (QpdfObjGen × ObjectValue))
    (object : ObjectValue) :
    pdf.enterBelow depth (log.map Prod.fst) object =
      (pdf.childSearch.walk depth log object).map (List.map Prod.fst) := by
  have hfold : ∀ (children : List ObjectValue) (n : ℕ),
      (∀ log object, pdf.enterBelow n (log.map Prod.fst) object =
        (pdf.childSearch.walk n log object).map (List.map Prod.fst)) →
      ∀ log, children.foldlM (pdf.enterBelow n) (log.map Prod.fst) =
        (children.foldlM (pdf.childSearch.walk n) log).map (List.map Prod.fst) := by
    intro children n hn
    induction children with
    | nil => exact fun _ => rfl
    | cons child children ih =>
      intro log
      rw [List.foldlM_cons, List.foldlM_cons, hn]
      cases pdf.childSearch.walk n log child with
      | none => rfl
      | some log' => exact ih log'
  induction depth generalizing log object with
  | zero => rfl
  | succ depth ih =>
    rw [Search.walk, Search.visit]
    cases object with
    | indirect objectGen =>
      rw [enterBelow, show pdf.childSearch.entry (.indirect objectGen) = .mark objectGen from rfl]
      by_cases hmem : objectGen ∈ log.map Prod.fst
      · simp only [hmem, if_true]
        rfl
      · simp only [hmem, if_false]
        have happend : log.map Prod.fst ++ [objectGen] =
            (log ++ [(objectGen, ObjectValue.indirect objectGen)]).map Prod.fst := by
          rw [List.map_append]
          rfl
        rw [happend]
        exact hfold _ depth ih _
    | _ => exact hfold _ depth ih log

end Pdf

/-! ## The loop and the search -/

namespace PreparedPdf

variable {pdf : PreparedPdf} {s : PlanState} {log : List (QpdfObjGen × ObjectValue)}
  {object : ObjectValue} {objectGen : QpdfObjGen} {ref : ObjectRef} {fuel : ℕ}

/-- `/Type` is `/Sig`, and there are a `/ByteRange` and `/Contents`. -/
def IsSignature (pdf : PreparedPdf) (objectGen : QpdfObjGen) : Prop :=
  ∃ entries type byteRange contents, pdf.value objectGen = .dictionary entries ∧
    entries.lookup (ascii "/Type") = some type ∧ pdf.dereference type = .name (ascii "Sig") ∧
    entries.lookup (ascii "/ByteRange") = some byteRange ∧ pdf.isNull byteRange = false ∧
    entries.lookup (ascii "/Contents") = some contents ∧ pdf.isNull contents = false

/-- What can go into an object stream. -/
def Compressible (pdf : PreparedPdf) (objectGen : QpdfObjGen) : Prop :=
  isStream (pdf.value objectGen) = false ∧ ¬pdf.IsSignature objectGen ∧
    ∀ ref, pdf.encryptRef = some ref → objectGen.toObjectRef ≠ some ref

noncomputable instance (pdf : PreparedPdf) : DecidablePred pdf.Compressible :=
  Classical.decPred _

theorem objectRef_indirect : objectRef ∅ (.indirect objectGen) = objectGen.toObjectRef := by
  rw [objectRef]
  cases objectGen.toObjectRef <;> simp

theorem resolved_empty (pdf : PreparedPdf) (object : ObjectValue) :
    pdf.resolved ∅ object = pdf.dereference object := by
  cases object with
  | indirect objectGen => simp [resolved, Pdf.dereference]
  | _ => rfl

theorem handleChildren_empty (pdf : PreparedPdf) (object : ObjectValue) :
    pdf.handleChildren ∅ object = pdf.childrenOf object := by
  have hvisible : ∀ entries : List (Bytes × ObjectValue),
      (entries.filter fun entry => !pdf.tryIsNull ∅ entry.2) = pdf.visibleChildren entries := by
    intro entries
    simp only [Pdf.visibleChildren, tryIsNull, resolved_empty, Pdf.isNull]
  rw [handleChildren, resolved_empty, Pdf.childrenOf]
  cases pdf.dereference object with
  | stream streamDict =>
    cases streamDict with
    | dictionary entries =>
      dsimp only
      rw [dictChildren, hvisible]
      rfl
    | _ => rfl
  | dictionary entries =>
    dsimp only
    rw [dictChildren, hvisible, List.filter_eq_self.mpr]
    exact fun _ _ => rfl
  | _ => rfl

theorem extendReversed_eq (children stack : List ObjectValue) :
    extendReversed children stack = children ++ stack := by
  rw [extendReversed, List.foldl_reverse]
  induction children with
  | nil => rfl
  | cons child children ih => rw [List.foldr_cons, ih, List.cons_append]

theorem isQpdfSignatureDict_iff :
    pdf.isQpdfSignatureDict ∅ (.indirect objectGen) = true ↔ pdf.IsSignature objectGen := by
  have hkey : ∀ (entries : List (Bytes × ObjectValue)) (key : Bytes),
      pdf.hasKey ∅ entries key = true ↔
        ∃ value, entries.lookup key = some value ∧ pdf.isNull value = false := by
    intro entries key
    simp only [hasKey, tryIsNull, resolved_empty, Option.any_eq_true, Bool.not_eq_true', Pdf.isNull]
  have hname : ∀ value : ObjectValue,
      value.isNameAndEquals (ascii "Sig") = true ↔ value = .name (ascii "Sig") := by
    intro value
    cases value <;> simp [ObjectValue.isNameAndEquals]
  have htype : ∀ entries : List (Bytes × ObjectValue),
      pdf.isOfType ∅ entries (ascii "Sig") = true ↔
        ∃ type, entries.lookup (ascii "/Type") = some type ∧
          pdf.dereference type = .name (ascii "Sig") := by
    intro entries
    simp only [isOfType, resolved_empty, Option.any_eq_true, hname]
  rw [isQpdfSignatureDict, resolved_empty, Pdf.dereference, IsSignature]
  cases pdf.value objectGen with
  | dictionary entries =>
    simp only [Bool.and_eq_true, hkey, htype, ObjectValue.dictionary.injEq]
    constructor
    · rintro ⟨⟨⟨type, htype, hname⟩, byteRange, hbyteRange, hnull⟩, contents, hcontents, hnull'⟩
      exact ⟨entries, type, byteRange, contents, rfl, htype, hname, hbyteRange, hnull, hcontents,
        hnull'⟩
    · rintro ⟨_, type, byteRange, contents, rfl, htype, hname, hbyteRange, hnull, hcontents, hnull'⟩
      exact ⟨⟨⟨type, htype, hname⟩, byteRange, hbyteRange, hnull⟩, contents, hcontents, hnull'⟩
  | _ => simp

/-- No cached generation is newer than one the trailer leads to, and every number is at
most the object count. -/
structure Current (pdf : PreparedPdf) : Prop where
  newest : ∀ objectGen, pdf.TrailerLeads (.indirect objectGen) → ∀ key ∈ pdf.cache,
    key.object = objectGen.object → key.generation ≤ objectGen.generation
  counted : ∀ objectGen, pdf.TrailerLeads (.indirect objectGen) →
    ∃ ref, objectGen.toObjectRef = some ref ∧ ref.number ≤ pdf.objectCount

theorem Current.unique (h : pdf.Current) {objectGen' : QpdfObjGen}
    (hleads : pdf.TrailerLeads (.indirect objectGen))
    (hleads' : pdf.TrailerLeads (.indirect objectGen'))
    (hnumber : objectGen.object = objectGen'.object) : objectGen = objectGen' := by
  have hle := h.newest _ hleads _ (pdf.cached _ hleads') hnumber.symm
  have hle' := h.newest _ hleads' _ (pdf.cached _ hleads) hnumber
  cases objectGen
  cases objectGen'
  simp only [QpdfObjGen.mk.injEq] at hnumber hle hle' ⊢
  exact ⟨hnumber, le_antisymm hle' hle⟩

theorem Current.not_hasNewer (h : pdf.Current) (hleads : pdf.TrailerLeads (.indirect objectGen))
    (href : objectGen.toObjectRef = some ref) : pdf.hasNewerCachedGeneration ∅ ref = false := by
  rw [hasNewerCachedGeneration]
  obtain ⟨rfl, -, -⟩ := QpdfObjGen.toObjectRef_eq_some.mp href
  rw [QpdfObjGen.tryFromObjectRef]
  split_ifs
  · dsimp only
    rw [Bool.eq_false_iff, ne_eq, Option.any_eq_true]
    rintro ⟨next, hnext, hobject⟩
    rw [beq_iff_eq] at hobject
    have hmem := (List.mem_filter.mp (List.mem_of_find?_eq_some hnext)).1
    have hgreater := List.find?_some hnext
    rw [beq_iff_eq, QpdfObjGen.compare_eq_lt] at hgreater
    have hle := h.newest _ hleads next hmem hobject
    simp only at hgreater hle
    omega
  · rfl

/-- The state of the loop says the same as the log of the search. -/
structure Tracks (pdf : PreparedPdf) (s : PlanState) (log : List (QpdfObjGen × ObjectValue)) :
    Prop where
  removed : s.plan.removedRefs = ∅
  covers : s.visited.Covers pdf.objectCount
  visited : ∀ n, n ≠ 0 → (s.visited.bit n = true ↔ ∃ e ∈ log, e.1.object = n)
  eligible : s.plan.eligible =
    ((log.map Prod.fst).filter (pdf.Compressible ·)).filterMap QpdfObjGen.toObjectRef
  leads : ∀ e ∈ log, pdf.TrailerLeads (.indirect e.1)

theorem listed_iff (href : objectGen.toObjectRef = some ref) :
    (!isStream (pdf.resolved ∅ (.indirect objectGen)) &&
      !pdf.isQpdfSignatureDict ∅ (.indirect objectGen) && some ref != pdf.encryptRef) =
      decide (pdf.Compressible objectGen) := by
  have hencrypt : (some ref != pdf.encryptRef) = true ↔
      ∀ other, pdf.encryptRef = some other → objectGen.toObjectRef ≠ some other := by
    rw [bne_iff_ne, href]
    constructor
    · rintro hne other hother heq
      exact hne (heq.trans hother.symm)
    · rintro hall heq
      exact hall ref heq.symm rfl
  rw [Bool.eq_iff_iff, decide_eq_true_eq, Compressible, ← isQpdfSignatureDict_iff,
    resolved_empty, Pdf.dereference, Bool.and_eq_true, Bool.and_eq_true, hencrypt, Bool.not_eq_true',
    Bool.not_eq_true', Bool.not_eq_true, and_assoc]

/-- What the trailer leads to has a reference, which counts as visited once it is logged. -/
theorem Tracks.reference (h : pdf.Tracks s log) (hcurrent : pdf.Current)
    (hleads : pdf.TrailerLeads (.indirect objectGen)) :
    ∃ ref, objectGen.toObjectRef = some ref ∧ objectGen.object = (ref.number : ℤ) ∧
      ref.number ≠ 0 ∧ ref.number ≤ pdf.objectCount ∧
      (s.visited.bit ref.number = true ↔ objectGen ∈ log.map Prod.fst) := by
  obtain ⟨ref, href, hle⟩ := hcurrent.counted objectGen hleads
  obtain ⟨hkey, hpos, -⟩ := QpdfObjGen.toObjectRef_eq_some.mp href
  have hobject : objectGen.object = (ref.number : ℤ) := congrArg QpdfObjGen.object hkey
  have hzero : ref.number ≠ 0 := by
    omega
  refine ⟨ref, href, hobject, hzero, hle, ?_⟩
  rw [h.visited _ hzero]
  constructor
  · rintro ⟨e, he, hnumber⟩
    have hsame := hcurrent.unique (h.leads e he) hleads (hnumber.trans hobject.symm)
    exact hsame ▸ List.mem_map_of_mem he
  · intro hmem
    obtain ⟨e, he, rfl⟩ := List.mem_map.mp hmem
    exact ⟨e, he, hobject⟩

/-- The turn for an object that has not been visited. -/
theorem Tracks.enter (h : pdf.Tracks s log) (hleads : pdf.TrailerLeads (.indirect objectGen))
    (href : objectGen.toObjectRef = some ref) (hobject : objectGen.object = (ref.number : ℤ))
    {visited : PackedVisited} (hcovers : visited.Covers pdf.objectCount)
    (hbits : ∀ k, k ≠ 0 → visited.bit k = (s.visited.bit k || decide (k = ref.number))) :
    pdf.Tracks (pdf.enterObject pdf.encryptRef s (.indirect objectGen) ref visited)
      (log ++ [(objectGen, .indirect objectGen)]) where
  removed := h.removed
  covers := hcovers
  visited n hn := by
    show visited.bit n = true ↔ _
    rw [hbits n hn, Bool.or_eq_true, h.visited n hn, decide_eq_true_eq]
    simp only [List.mem_append, List.mem_singleton, or_and_right, exists_or, exists_eq_left, hobject]
    rw [Nat.cast_inj, eq_comm (a := n)]
  eligible := by
    show (if _ then _ else _) = _
    rw [h.removed, listed_iff href, List.map_append, List.filter_append, List.filterMap_append,
      ← h.eligible]
    by_cases hcompressible : pdf.Compressible objectGen
    · simp [hcompressible, href]
    · simp [hcompressible]
  leads e he := by
    rcases List.mem_append.mp he with he | he
    · exact h.leads e he
    · rw [List.mem_singleton.mp he]
      exact hleads

/-- One turn of the loop is one visit of the search. -/
theorem Tracks.visitObject (h : pdf.Tracks s log) (hcurrent : pdf.Current)
    (hleads : pdf.TrailerLeads object) :
    ∃ s', pdf.visitObject pdf.objectCount pdf.encryptRef s object = .ok s' ∧
      s'.stack = (pdf.childSearch.visit log object).2 ++ s.stack ∧
      pdf.Tracks s' (pdf.childSearch.visit log object).1 := by
  rw [PreparedPdf.visitObject, h.removed]
  cases object with
  | indirect objectGen =>
    obtain ⟨ref, href, hobject, hzero, hle, hvisited⟩ := h.reference hcurrent hleads
    rw [objectRef_indirect, href]
    dsimp only
    rw [if_neg hzero, if_neg (Nat.not_lt.mpr hle), h.covers.contains hzero hle, Search.visit,
      show pdf.childSearch.entry (.indirect objectGen) = .mark objectGen from rfl]
    dsimp only [bind, Except.bind]
    by_cases hmem : objectGen ∈ log.map Prod.fst
    · rw [if_pos (hvisited.mpr hmem), if_pos hmem]
      exact ⟨s, rfl, rfl, h⟩
    · obtain ⟨visited, hinsert, hcovers, hbits⟩ := h.covers.insert hzero hle
      rw [if_neg (mt hvisited.mp hmem), hcurrent.not_hasNewer hleads href,
        if_neg Bool.false_ne_true, hinsert, if_neg hmem]
      refine ⟨_, rfl, ?_, h.enter hleads href hobject hcovers hbits⟩
      show extendReversed _ _ = _
      rw [h.removed, handleChildren_empty, extendReversed_eq]
      rfl
  | _ =>
    refine ⟨_, rfl, ?_, ⟨h.removed, h.covers, h.visited, h.eligible, h.leads⟩⟩
    show extendReversed _ _ = _
    rw [handleChildren_empty, extendReversed_eq]
    rfl

theorem planLoop_eq (h : pdf.Tracks s log) (hcurrent : pdf.Current)
    (hstack : ∀ object ∈ s.stack, pdf.TrailerLeads object)
    {log' : List (QpdfObjGen × ObjectValue)}
    (hrun : pdf.childSearch.loop fuel log s.stack = some log') :
    ∃ s', pdf.Tracks s' log' ∧ ∀ n, fuel ≤ n →
      pdf.planLoop pdf.objectCount pdf.encryptRef n s = some (.ok s'.plan) := by
  have hnil : ∀ (visited : PackedVisited) (plan : CompressiblePlan) (n : ℕ),
      pdf.planLoop pdf.objectCount pdf.encryptRef n ⟨[], visited, plan⟩ = some (.ok plan) := by
    intro visited plan n
    cases n <;> rfl
  induction fuel generalizing s log with
  | zero =>
    obtain ⟨_ | ⟨object, stack⟩, visited, plan⟩ := s
    · cases hrun
      exact ⟨_, h, fun n _ => hnil visited plan n⟩
    · cases hrun
  | succ fuel ih =>
    obtain ⟨_ | ⟨object, stack⟩, visited, plan⟩ := s
    · cases hrun
      exact ⟨_, h, fun n _ => hnil visited plan n⟩
    · have hleads := hstack object List.mem_cons_self
      have hpopped : pdf.Tracks ⟨stack, visited, plan⟩ log :=
        ⟨h.removed, h.covers, h.visited, h.eligible, h.leads⟩
      obtain ⟨s', hvisit, hs', htracks⟩ := hpopped.visitObject hcurrent hleads
      have hnext : ∀ child ∈ s'.stack, pdf.TrailerLeads child := by
        intro child hchild
        rw [hs'] at hchild
        rcases List.mem_append.mp hchild with hchild | hchild
        · exact hleads.tail (Search.mem_visit_children hchild).2
        · exact hstack child (List.mem_cons_of_mem _ hchild)
      obtain ⟨s'', htracks', hloop⟩ := ih htracks hnext (hs' ▸ hrun)
      refine ⟨s'', htracks', ?_⟩
      intro n hn
      obtain ⟨n, rfl⟩ := Nat.exists_eq_add_of_le' (Nat.le_trans (Nat.le_add_left 1 fuel) hn)
      show (match pdf.visitObject pdf.objectCount pdf.encryptRef ⟨stack, visited, plan⟩ object with
        | .error e => some (Except.error e)
        | .ok s => pdf.planLoop pdf.objectCount pdf.encryptRef n s) = _
      rw [hvisit]
      exact hloop n (Nat.le_of_succ_le_succ hn)

theorem tracks_start (pdf : PreparedPdf) :
    pdf.Tracks { stack := [.dictionary pdf.trailer], visited := .new pdf.objectCount } [] where
  removed := rfl
  covers := PackedVisited.covers_new _
  visited n hn := by simp [PackedVisited.bit_new]
  eligible := rfl
  leads e he := absurd he List.not_mem_nil

/-- The loop ends, and it has entered the objects of the recursion. -/
theorem exists_plan (hcurrent : pdf.Current) :
    ∃ plan entered bound depth, (∀ fuel, bound ≤ fuel →
        pdf.compressibleObjgensQpdfPlan fuel = some (.ok plan)) ∧
      plan.removedRefs = ∅ ∧
      plan.eligible = (entered.filter (pdf.Compressible ·)).filterMap QpdfObjGen.toObjectRef ∧
      entered.Nodup ∧ (∀ objectGen, objectGen ∈ entered ↔ pdf.TrailerLeads (.indirect objectGen)) ∧
      ∀ n, depth ≤ n → pdf.enterBelow n [] (.dictionary pdf.trailer) = some entered := by
  have hbound : pdf.childWeights.measure [] [.dictionary pdf.trailer] ≤
      pdf.childWeights.measure [] [.dictionary pdf.trailer] := Nat.le_refl _
  obtain ⟨log, depth, hloop, hwalk⟩ :=
    Search.loop_eq_walk pdf.childWeights.measure_decreases hbound
  have hstack : ∀ object ∈ [ObjectValue.dictionary pdf.trailer], pdf.TrailerLeads object := by
    intro object hobject
    rw [List.mem_singleton.mp hobject]
    exact .refl
  obtain ⟨s, htracks, hplan⟩ := planLoop_eq pdf.tracks_start hcurrent hstack hloop
  refine ⟨s.plan, log.map Prod.fst, _, depth, hplan, htracks.removed, htracks.eligible,
    Search.nodup_loop hloop List.nodup_nil, ?_, ?_⟩
  · intro objectGen
    rw [Search.mem_loop_iff Pdf.childSearch_coherent hloop]
    constructor
    · rintro ⟨object, hreached, hentry⟩
      rw [Pdf.mark_of_entry hentry] at hreached
      exact Pdf.reached_iff_leads.mp hreached
    · intro hleads
      exact ⟨_, Pdf.reached_iff_leads.mpr hleads, rfl⟩
  · intro n hn
    have hfold := hwalk n hn
    rw [List.foldlM_cons] at hfold
    obtain ⟨log', hfirst, hrest⟩ := Option.bind_eq_some_iff.mp hfold
    cases hrest
    rw [show ([] : List QpdfObjGen) = ([] : List (QpdfObjGen × ObjectValue)).map Prod.fst from rfl,
      Pdf.enterBelow_eq, hfirst]
    rfl

end PreparedPdf

/-! ## The division among the streams -/

section Chunks

variable {α : Type} {n fuel : ℕ} {members : List α}

theorem flatten_chunks (hn : 1 ≤ n) (hfuel : members.length ≤ fuel) :
    (chunks n fuel members).flatten = members := by
  induction fuel generalizing members with
  | zero =>
    rw [List.length_eq_zero_iff.mp (Nat.le_zero.mp hfuel)]
    rfl
  | succ fuel ih =>
    cases members with
    | nil => rfl
    | cons member members =>
      have hlength : ((member :: members).drop n).length ≤ fuel := by
        rw [List.length_drop, List.length_cons] at *
        omega
      rw [chunks, List.flatten_cons, ih hlength, List.take_append_drop]

theorem mem_chunks (hn : 1 ≤ n) {chunk : List α} (h : chunk ∈ chunks n fuel members) :
    chunk ≠ [] ∧ chunk.length ≤ n := by
  induction fuel generalizing members with
  | zero =>
    cases members with
    | nil => cases h
    | cons member members => cases h
  | succ fuel ih =>
    cases members with
    | nil => cases h
    | cons member members =>
      rw [chunks] at h
      rcases List.mem_cons.mp h with rfl | h
      · refine ⟨?_, List.length_take_le n _⟩
        rw [ne_eq, List.take_eq_nil_iff]
        simp
        omega
      · exact ih h

theorem length_chunks_le {k : ℕ} (h : members.length ≤ n * k) :
    (chunks n fuel members).length ≤ k := by
  induction fuel generalizing members k with
  | zero =>
    cases members with
    | nil => exact Nat.zero_le k
    | cons member members => exact Nat.zero_le k
  | succ fuel ih =>
    cases members with
    | nil => exact Nat.zero_le k
    | cons member members =>
      cases k with
      | zero => simp at h
      | succ k =>
        have hrest : ((member :: members).drop n).length ≤ n * k := by
          rw [List.length_drop]
          rw [Nat.mul_succ] at h
          omega
        rw [chunks, List.length_cons]
        exact Nat.succ_le_succ (ih hrest)

end Chunks

/-- The quotient rounded up holds as many as there are. -/
theorem le_mul_div_ceil (n : ℕ) {k : ℕ} (hk : 1 ≤ k) : n ≤ k * ((n + k - 1) / k) := by
  have h := Nat.div_add_mod (n + k - 1) k
  have hlt := Nat.mod_lt (n + k - 1) (Nat.lt_of_lt_of_le Nat.zero_lt_one hk)
  omega

theorem evenSplit_spec (eligible : List ObjectRef) {cap : ℕ} (hcap : 1 ≤ cap) :
    (∀ stream ∈ evenSplitIntoStreamsWithCap eligible cap, stream ≠ [] ∧ stream.length ≤ cap) ∧
      (evenSplitIntoStreamsWithCap eligible cap).length ≤ (eligible.length + cap - 1) / cap ∧
      (evenSplitIntoStreamsWithCap eligible cap).flatten = eligible := by
  rw [evenSplitIntoStreamsWithCap]
  by_cases hempty : eligible.length = 0
  · rw [if_pos hempty, List.length_eq_zero_iff.mp hempty]
    exact ⟨nofun, Nat.zero_le _, rfl⟩
  · rw [if_neg hempty]
    dsimp only
    generalize hstreams : (eligible.length + cap - 1) / cap = streams
    generalize hper : (eligible.length + streams - 1) / streams = per
    have hholds := le_mul_div_ceil eligible.length hcap
    rw [hstreams] at hholds
    have hstreamsPos : 1 ≤ streams := by
      by_contra hzero
      rw [Nat.lt_one_iff.mp (Nat.lt_of_not_le hzero), Nat.mul_zero] at hholds
      exact hempty (Nat.le_zero.mp hholds)
    have hholds' := le_mul_div_ceil eligible.length hstreamsPos
    rw [hper] at hholds'
    have hperPos : 1 ≤ per := by
      by_contra hzero
      rw [Nat.lt_one_iff.mp (Nat.lt_of_not_le hzero), Nat.mul_zero] at hholds'
      exact hempty (Nat.le_zero.mp hholds')
    have hperLe : per ≤ cap := by
      rw [← hper, Nat.div_le_iff_le_mul_add_pred hstreamsPos, Nat.mul_comm streams cap]
      omega
    refine ⟨?_, ?_, flatten_chunks hperPos (Nat.le_refl _)⟩
    · intro stream hstream
      obtain ⟨hne, hle⟩ := mem_chunks hperPos hstream
      exact ⟨hne, hle.trans hperLe⟩
    · rw [Nat.mul_comm] at hholds'
      exact length_chunks_le hholds'

namespace PreparedPdf

variable {pdf : PreparedPdf}

/-- An object number is listed once, as only one of its generations is met. -/
theorem nodup_numbers (hcurrent : pdf.Current) {entered : List QpdfObjGen} (hnodup : entered.Nodup)
    (hleads : ∀ objectGen ∈ entered, pdf.TrailerLeads (.indirect objectGen)) :
    ((entered.filterMap QpdfObjGen.toObjectRef).map ObjectRef.number).Nodup := by
  rw [List.Nodup, List.pairwise_map, List.pairwise_filterMap]
  refine hnodup.imp_of_mem ?_
  intro a b ha hb hne ref href ref' href' hnumber
  obtain ⟨rfl, -, -⟩ := QpdfObjGen.toObjectRef_eq_some.mp href
  obtain ⟨rfl, -, -⟩ := QpdfObjGen.toObjectRef_eq_some.mp href'
  exact hne (hcurrent.unique (hleads _ ha) (hleads _ hb) (congrArg Nat.cast hnumber))

/-- A root that is an array with itself as its only item. -/
def rootInItself : Pdf where
  objects := [(⟨1, 0⟩, .array [.indirect ⟨1, 0⟩])]
  trailer := [(ascii "/Root", .indirect ⟨1, 0⟩)]

theorem trailerLeads_rootInItself {object : ObjectValue} (h : rootInItself.TrailerLeads object) :
    object = .dictionary rootInItself.trailer ∨ object = .indirect ⟨1, 0⟩ := by
  induction h with
  | refl => exact .inl rfl
  | tail _ hc ih =>
    rcases ih with rfl | rfl
    · exact .inr (List.mem_singleton.mp hc)
    · exact .inr (List.mem_singleton.mp hc)

theorem leads_rootInItself {objectGen : QpdfObjGen}
    (h : rootInItself.TrailerLeads (.indirect objectGen)) : objectGen = ⟨1, 0⟩ := by
  rcases trailerLeads_rootInItself h with h | h
  · cases h
  · cases h
    rfl

end PreparedPdf

end Flpdf
