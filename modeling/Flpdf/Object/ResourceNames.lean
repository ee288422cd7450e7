import Flpdf.Object.ResourceMerge

/-! # What merged names stand for

Every name of the destination keeps its object and every name of the other dictionary has it under
the name that was recorded, as long as no new name is one that the category had: the new names are
chosen against the keys of the category's own dictionaries. -/

namespace Flpdf

open Program Std

namespace ResourceMerge

variable {resolve : QpdfObjGen → Except Bytes ObjectValue} {key key' rtype : Bytes} {n : ℕ}
  {value copy : ObjectValue} {entries entries' : List (Bytes × ObjectValue)}

/-! ## Dictionaries -/

theorem ascending_treeMap (entries : List (Bytes × ObjectValue)) : Ascending (treeMap entries) :=
  ascending_foldl_insertSorted entries .nil

theorem treeMap_of_ascending (h : Ascending entries) : treeMap entries = entries := by
  have hascending : Ascending ([] ++ entries) := h
  exact foldl_insertSorted hascending

theorem lookup_eraseKey :
    (eraseKey key entries).lookup key' = if key' = key then none else entries.lookup key' := by
  induction entries with
  | nil => simp [eraseKey]
  | cons entry entries ih =>
    obtain ⟨k, v⟩ := entry
    rw [eraseKey] at ih ⊢
    rw [List.filter_cons]
    by_cases hk : k = key
    · subst hk
      rw [if_neg (by simp), ih]
      by_cases hkey : key' = k
      · simp [hkey]
      · rw [if_neg hkey, if_neg hkey, List.lookup_cons, beq_eq_false_iff_ne.mpr hkey]
    · rw [if_pos (by simpa using hk), List.lookup_cons, List.lookup_cons, ih]
      by_cases hkey : key' = k
      · subst hkey
        simp [hk]
      · rw [beq_eq_false_iff_ne.mpr hkey]

theorem Ascending.eraseKey (h : Ascending entries) : Ascending (eraseKey key entries) :=
  h.sublist List.filter_sublist

/-- A key whose value is not null. -/
def Visible (resolve : QpdfObjGen → Except Bytes ObjectValue) (entries : List (Bytes × ObjectValue))
    (key : Bytes) (value : ObjectValue) : Prop :=
  entries.lookup key = some value ∧ tryIsNull resolve value = .ok false

theorem hasKey_eq_ok {present : Bool} (h : hasKey resolve entries key = .ok present) :
    present = true ↔ ∃ value, Visible resolve entries key value := by
  rw [hasKey] at h
  cases hlookup : entries.lookup key with
  | none =>
    rw [hlookup] at h
    cases h
    simp [Visible, hlookup]
  | some child =>
    rw [hlookup] at h
    obtain ⟨isNull, hnull, rfl⟩ := map_eq_ok.mp h
    simp [Visible, hlookup, hnull]

/-- What replacing a key does. -/
structure Replaced (resolve : QpdfObjGen → Except Bytes ObjectValue) (key : Bytes)
    (value : ObjectValue) (entries entries' : List (Bytes × ObjectValue)) : Prop where
  ascending : Ascending entries → Ascending entries'
  others : ∀ key', key' ≠ key → entries'.lookup key' = entries.lookup key'
  here : tryIsNull resolve value = .ok false → entries'.lookup key = some value
  only : ∀ value', entries'.lookup key = some value' → value' = value

theorem replaceKey_replaced (h : replaceKey resolve key value entries = .ok entries') :
    Replaced resolve key value entries entries' := by
  obtain ⟨isNull, hnull, h⟩ := bind_eq_ok.mp h
  cases h
  have hinsert : Replaced resolve key value entries (insertSorted key value entries) := by
    refine ⟨fun h => h.insertSorted, fun key' hne => ?_, fun _ => ?_, fun value' hvalue => ?_⟩
    · rw [lookup_insertSorted, if_neg (by simpa using hne)]
    · rw [lookup_insertSorted, if_pos (by simp)]
    · rw [lookup_insertSorted, if_pos (by simp)] at hvalue
      exact (Option.some.inj hvalue).symm
  cases isNull with
  | false => exact hinsert
  | true =>
    cases hindirect : value.isIndirect with
    | true => exact hinsert
    | false =>
      refine ⟨Ascending.eraseKey, fun key' hne => ?_, fun h => ?_, fun value' hvalue => ?_⟩
      · exact lookup_eraseKey.trans (if_neg hne)
      · rw [hnull] at h
        cases h
      · simp only [Bool.not_false, Bool.and_self, if_true] at hvalue
        rw [lookup_eraseKey, if_pos rfl] at hvalue
        cases hvalue

mutual

/-- A copy has the same direct values and the same references. -/
theorem eq_of_copyValue : ∀ {value copy : ObjectValue}, copyValue value = .ok copy → copy = value
  | .stream _, _, h => by simp [copyValue] at h
  | .array items, _, h => by
    obtain ⟨items', hitems, h⟩ := bind_eq_ok.mp h
    cases h
    rw [eq_of_copyItems hitems]
  | .dictionary entries, _, h => by
    obtain ⟨entries', hentries, h⟩ := bind_eq_ok.mp h
    cases h
    rw [eq_of_copyEntries hentries]
  | .null, _, h | .boolean _, _, h | .integer _, _, h | .real _, _, h | .string _, _, h
  | .name _, _, h | .operator _, _, h | .inlineImage _, _, h | .indirect _, _, h => by
    cases h
    rfl

theorem eq_of_copyItems : ∀ {items copy : List ObjectValue}, copyItems items = .ok copy →
    copy = items
  | [], _, h => by
    cases h
    rfl
  | item :: items, _, h => by
    obtain ⟨item', hitem, h⟩ := bind_eq_ok.mp h
    obtain ⟨items', hitems, h⟩ := bind_eq_ok.mp h
    cases h
    rw [eq_of_copyValue hitem, eq_of_copyItems hitems]

theorem eq_of_copyEntries : ∀ {entries copy : List (Bytes × ObjectValue)},
    copyEntries entries = .ok copy → copy = entries
  | [], _, h => by
    cases h
    rfl
  | (key, child) :: entries, _, h => by
    obtain ⟨child', hchild, h⟩ := bind_eq_ok.mp h
    obtain ⟨entries', hentries, h⟩ := bind_eq_ok.mp h
    cases h
    rw [eq_of_copyValue hchild, eq_of_copyEntries hentries]

end

/-! ## New names -/

theorem compare_append_lt (front : Bytes) (b : UInt8) (back : Bytes) :
    compare front (front ++ b :: back) = .lt := by
  induction front with
  | nil => rfl
  | cons a front ih =>
    rw [List.cons_append, List.compare_cons_cons, ih, ReflOrd.compare_self]
    rfl

theorem compare_suffixed : compare key (suffixed key n) = .lt := compare_append_lt ..

theorem ne_suffixed_of_lt (h : compare key' key = .lt) : key' ≠ suffixed key n := by
  rintro rfl
  have hlt : compare (suffixed key n) (suffixed key n) = .lt := TransCmp.lt_trans h compare_suffixed
  rw [ReflOrd.compare_self] at hlt
  cases hlt

/-- The last underscore ends the old name. -/
theorem suffixed_inj {n' : ℕ} (h : suffixed key n = suffixed key' n') : key = key' := by
  have hdigits : ∀ m : ℕ, (0x5f : UInt8) ∉ natDecimal m := by
    intro m hmem
    have := natDecimal_isAsciiDigit m _ hmem
    revert this
    decide
  rw [suffixed, suffixed, List.append_eq_append_iff] at h
  rcases h with ⟨middle, hkey, htail⟩ | ⟨middle, hkey, htail⟩
  · cases middle with
    | nil => rw [hkey, List.append_nil]
    | cons b middle =>
      rw [List.cons_append, List.cons.injEq] at htail
      have hmem : (0x5f : UInt8) ∈ natDecimal n := by
        rw [htail.2]
        exact List.mem_append_right _ List.mem_cons_self
      exact absurd hmem (hdigits n)
  · cases middle with
    | nil => rw [hkey, List.append_nil]
    | cons b middle =>
      rw [List.cons_append, List.cons.injEq] at htail
      have hmem : (0x5f : UInt8) ∈ natDecimal n' := by
        rw [htail.2]
        exact List.mem_append_right _ List.mem_cons_self
      exact absurd hmem (hdigits n')

theorem uniqueResourceName_eq_some {names : List Bytes} {tries suffix suffix' : ℕ} {name : Bytes}
    (h : uniqueResourceName key names tries suffix = some (name, suffix')) :
    name = suffixed key suffix' ∧ name ∉ names ∧ suffix ≤ suffix' := by
  induction tries generalizing suffix with
  | zero => cases h
  | succ tries ih =>
    rw [uniqueResourceName] at h
    split at h
    · obtain ⟨hname, hnot, hle⟩ := ih h
      exact ⟨hname, hnot, (Nat.le_succ suffix).trans hle⟩
    · rename_i hnot
      cases h
      exact ⟨rfl, hnot, Nat.le_refl _⟩

/-! ## One category -/

/-- A key of an entry that is a dictionary itself. -/
def Pooled (resolve : QpdfObjGen → Except Bytes ObjectValue) (entries : List (Bytes × ObjectValue))
    (name : Bytes) : Prop :=
  ∃ key value childEntries, Visible resolve entries key value ∧
    dereference resolve value = .ok (.dictionary childEntries) ∧
    ∃ child, Visible resolve (treeMap childEntries) name child

theorem mem_visibleKeys {keys : List Bytes} (h : visibleKeys resolve entries = .ok keys) :
    ∀ entry ∈ entries, tryIsNull resolve entry.2 = .ok false → entry.1 ∈ keys := by
  induction entries generalizing keys with
  | nil => exact fun _ hmem => absurd hmem List.not_mem_nil
  | cons entry entries ih =>
    obtain ⟨isNull, hnull, h⟩ := bind_eq_ok.mp h
    obtain ⟨rest, hrest, h⟩ := bind_eq_ok.mp h
    cases h
    intro e he hvisible
    rcases List.mem_cons.mp he with rfl | he
    · rw [hnull] at hvisible
      cases hvisible
      exact List.mem_cons_self
    · have hmem := ih hrest e he hvisible
      split
      · exact hmem
      · exact List.mem_cons_of_mem _ hmem

theorem mem_resourceNames {names : List Bytes} (h : resourceNames resolve entries = .ok names)
    {name : Bytes} (hpooled : Pooled resolve entries name) : name ∈ names := by
  obtain ⟨key, value, childEntries, ⟨hlookup, hnull⟩, hvalue, child, hchild⟩ := hpooled
  have hmem := mem_of_lookup hlookup
  clear hlookup
  induction entries generalizing names with
  | nil => cases hmem
  | cons entry entries ih =>
    obtain ⟨value', hvalue', h⟩ := bind_eq_ok.mp h
    obtain ⟨keys, hkeys, h⟩ := bind_eq_ok.mp h
    obtain ⟨rest, hrest, h⟩ := bind_eq_ok.mp h
    cases h
    rw [List.mem_dedup, List.mem_append]
    rcases List.mem_cons.mp hmem with rfl | hmem
    · rw [hvalue] at hvalue'
      cases hvalue'
      rw [childNames] at hkeys
      exact .inl (mem_visibleKeys hkeys (name, child) (mem_of_lookup hchild.1) hchild.2)
    · exact .inr (ih hrest hmem)

theorem lookup_buildOgToName {objectGen : QpdfObjGen} {name : Bytes}
    (h : (buildOgToName entries).lookup objectGen = some name) :
    (name, .indirect objectGen) ∈ entries := by
  have hmem : (objectGen, name) ∈ buildOgToName entries := by
    obtain ⟨front, back, heq, -⟩ := List.lookup_eq_some_iff.mp h
    rw [heq]
    exact List.mem_append_right _ List.mem_cons_self
  rw [buildOgToName, List.mem_reverse, List.mem_filterMap] at hmem
  obtain ⟨⟨key, value⟩, hentry, heq⟩ := hmem
  cases value <;> simp only [reduceCtorEq, Option.some.injEq, Prod.mk.injEq] at heq
  rw [← heq.1, ← heq.2]
  exact hentry

theorem lookup_buildOgToName_isSome {objectGen : QpdfObjGen} {name : Bytes}
    (h : (name, .indirect objectGen) ∈ entries) :
    (buildOgToName entries).lookup objectGen ≠ none := by
  rw [Ne, List.lookup_eq_none_iff]
  intro hnone
  have hmem : (objectGen, name) ∈ buildOgToName entries := by
    rw [buildOgToName, List.mem_reverse, List.mem_filterMap]
    exact ⟨_, h, rfl⟩
  have hbeq := hnone _ hmem
  simp at hbeq

/-- No name that was given to an object from outside is one that the category had. -/
def Undisturbed (resolve : QpdfObjGen → Except Bytes ObjectValue)
    (before source : List (Bytes × ObjectValue)) (recorded : Bytes → Option Bytes) : Prop :=
  ∀ key value name, (key, value) ∈ source → recorded key = some name →
    (∀ name', Visible resolve before name' value → value.isIndirect = false) →
    ∀ value', ¬Visible resolve before name value'

/-- Where the merge of a category stands: `before` is what the category had, `done` are the entries
of the other one that were merged, and `now` is what the category has. -/
structure Merging (resolve : QpdfObjGen → Except Bytes ObjectValue)
    (before done now : List (Bytes × ObjectValue)) (recorded : Bytes → Option Bytes)
    (cache : Option NameCache) : Prop where
  ascending : Ascending now
  recorded_done : ∀ key name, recorded key = some name → ∃ value, (key, value) ∈ done
  first : cache = none → (∀ key, recorded key = none) ∧
    ∀ key value, now.lookup key = some value → before.lookup key = some value ∨ (key, value) ∈ done
  cached : ∀ c, cache = some c → ∀ objectGen name, c.ogToName.lookup objectGen = some name →
    before.lookup name = some (.indirect objectGen) ∨ (name, .indirect objectGen) ∈ done
  cached_all : ∀ c, cache = some c → ∀ name objectGen,
    Visible resolve before name (.indirect objectGen) → c.ogToName.lookup objectGen ≠ none
  cached_pool : ∀ c, cache = some c → ∀ name, Pooled resolve before name → name ∈ c.names
  names : ∀ key value name, (key, value) ∈ done → recorded key = some name →
    (value.isIndirect = true ∧ (before.lookup name = some value ∨ (name, value) ∈ done)) ∨
      (∃ n, name = suffixed key n) ∧ ¬Pooled resolve before name
  kept : Undisturbed resolve before done recorded →
    ∀ key value, Visible resolve before key value → now.lookup key = some value
  merged : Undisturbed resolve before done recorded → ∀ key value, (key, value) ∈ done →
    tryIsNull resolve value = .ok false → now.lookup ((recorded key).getD key) = some value
  cached_live : Undisturbed resolve before done recorded → ∀ c, cache = some c →
    ∀ objectGen name, c.ogToName.lookup objectGen = some name →
    tryIsNull resolve (.indirect objectGen) = .ok false →
    now.lookup name = some (.indirect objectGen)

namespace Merging

variable {before done now now' : List (Bytes × ObjectValue)} {recorded : Bytes → Option Bytes}
  {cache : Option NameCache}

theorem start (h : Ascending before) : Merging resolve before [] before (fun _ => none) none where
  ascending := h
  recorded_done _ _ h := by cases h
  first _ := ⟨fun _ => rfl, fun _ _ h => .inl h⟩
  cached _ h := by cases h
  cached_all _ h := by cases h
  cached_pool _ h := by cases h
  names _ _ _ h := absurd h List.not_mem_nil
  kept _ _ _ h := h.1
  merged _ _ _ h := absurd h List.not_mem_nil
  cached_live _ _ h := by cases h

/-- The first conflict looks at the category. -/
theorem build (h : Merging resolve before done now recorded none) {c : NameCache}
    (hbuild : buildCache resolve now = .ok c) :
    Merging resolve before done now recorded (some c) := by
  obtain ⟨names, hnames, hbuild⟩ := bind_eq_ok.mp hbuild
  cases hbuild
  have hundisturbed : Undisturbed resolve before done recorded := by
    intro key value name _ hrecorded
    rw [(h.first rfl).1 key] at hrecorded
    cases hrecorded
  have hvisible : ∀ key value, Visible resolve before key value → Visible resolve now key value :=
    fun key value hv => ⟨h.kept hundisturbed key value hv, hv.2⟩
  have hlookup : ∀ key value, (key, value) ∈ now → now.lookup key = some value :=
    fun key value hmem => h.ascending.lookup_eq_some.mpr hmem
  exact {
    ascending := h.ascending
    recorded_done := h.recorded_done
    first := fun h => by cases h
    cached := by
      rintro _ ⟨⟩ objectGen name hname
      exact (h.first rfl).2 name _ (hlookup _ _ (lookup_buildOgToName hname))
    cached_all := by
      rintro _ ⟨⟩ name objectGen hv
      exact lookup_buildOgToName_isSome (mem_of_lookup (hvisible _ _ hv).1)
    cached_pool := by
      rintro _ ⟨⟩ name ⟨key, value, childEntries, hv, hrest⟩
      exact mem_resourceNames hnames ⟨key, value, childEntries, hvisible _ _ hv, hrest⟩
    names := h.names
    kept := h.kept
    merged := h.merged
    cached_live := by
      rintro _ _ ⟨⟩ objectGen name hname _
      exact hlookup _ _ (lookup_buildOgToName hname) }

theorem recorded_eq_none (h : Merging resolve before done now recorded cache)
    (hnew : ∀ value', (key, value') ∉ done) : recorded key = none := by
  cases hname : recorded key with
  | none => rfl
  | some name =>
    obtain ⟨value', hmem⟩ := h.recorded_done key name hname
    exact absurd hmem (hnew value')

/-- A name the category does not have is entered. -/
theorem install (h : Merging resolve before done now recorded cache)
    (habsent : ∀ value', ¬Visible resolve now key value')
    (hnew : ∀ value', (key, value') ∉ done) (hreplaced : Replaced resolve key value now now') :
    Merging resolve before (done ++ [(key, value)]) now' recorded cache := by
  have hrecorded := h.recorded_eq_none hnew
  have hundisturbed : Undisturbed resolve before (done ++ [(key, value)]) recorded →
      Undisturbed resolve before done recorded :=
    fun hu k v name hmem => hu k v name (List.mem_append_left _ hmem)
  have hstays : ∀ k v, now.lookup k = some v → tryIsNull resolve v = .ok false →
      now'.lookup k = some v := by
    intro k v hlookup hnull
    rw [hreplaced.others k, hlookup]
    rintro rfl
    exact habsent v ⟨hlookup, hnull⟩
  constructor
  · exact hreplaced.ascending h.ascending
  · intro k name hname
    obtain ⟨v, hmem⟩ := h.recorded_done k name hname
    exact ⟨v, List.mem_append_left _ hmem⟩
  · intro hcache
    refine ⟨(h.first hcache).1, fun k v hlookup => ?_⟩
    by_cases hk : k = key
    · subst hk
      rw [hreplaced.only v hlookup]
      exact .inr (List.mem_append_right _ List.mem_cons_self)
    · rw [hreplaced.others k hk] at hlookup
      exact ((h.first hcache).2 k v hlookup).imp_right (List.mem_append_left _)
  · intro c hc objectGen name hname
    exact (h.cached c hc objectGen name hname).imp_right (List.mem_append_left _)
  · exact h.cached_all
  · exact h.cached_pool
  · intro k v name hmem hname
    rcases List.mem_append.mp hmem with hmem | hmem
    · exact (h.names k v name hmem hname).imp_left fun ⟨hindirect, hfrom⟩ =>
        ⟨hindirect, hfrom.imp_right (List.mem_append_left _)⟩
    · cases List.mem_singleton.mp hmem
      rw [hrecorded] at hname
      cases hname
  · intro hu k v hv
    exact hstays k v (h.kept (hundisturbed hu) k v hv) hv.2
  · intro hu k v hmem hnull
    rcases List.mem_append.mp hmem with hmem | hmem
    · exact hstays _ v (h.merged (hundisturbed hu) k v hmem hnull) hnull
    · cases List.mem_singleton.mp hmem
      rw [hrecorded]
      exact hreplaced.here hnull
  · intro hu c hc objectGen name hname hnull
    exact hstays _ _ (h.cached_live (hundisturbed hu) c hc objectGen name hname hnull) hnull

/-- What was recorded before the name that comes next. -/
theorem undisturbed_of_append {recorded' : Bytes → Option Bytes}
    (hnew : ∀ value', (key, value') ∉ done) (hsame : ∀ k, k ≠ key → recorded' k = recorded k)
    (hu : Undisturbed resolve before (done ++ [(key, value)]) recorded') :
    Undisturbed resolve before done recorded := by
  intro k v name hmem hname
  apply hu k v name (List.mem_append_left _ hmem)
  rwa [hsame]
  rintro rfl
  exact hnew v hmem

/-- An object the category has already keeps the name it has there. -/
theorem reuse {c : NameCache} (h : Merging resolve before done now recorded (some c))
    (hnew : ∀ value', (key, value') ∉ done) {objectGen : QpdfObjGen} {existing : Bytes}
    (hexisting : c.ogToName.lookup objectGen = some existing)
    {recorded' : Bytes → Option Bytes} (hsame : ∀ k, k ≠ key → recorded' k = recorded k)
    (hname : recorded' key = if existing = key then none else some existing) :
    Merging resolve before (done ++ [(key, .indirect objectGen)]) now recorded' (some c) := by
  have hu' : Undisturbed resolve before (done ++ [(key, .indirect objectGen)]) recorded' →
      Undisturbed resolve before done recorded := undisturbed_of_append hnew hsame
  have hne : ∀ {k : Bytes} {v : ObjectValue}, (k, v) ∈ done → k ≠ key := by
    rintro k v hmem rfl
    exact hnew v hmem
  constructor
  · exact h.ascending
  · intro k name hk
    by_cases heq : k = key
    · exact ⟨_, List.mem_append_right _ (by rw [heq]; exact List.mem_cons_self)⟩
    · rw [hsame k heq] at hk
      obtain ⟨v, hmem⟩ := h.recorded_done k name hk
      exact ⟨v, List.mem_append_left _ hmem⟩
  · intro hc
    cases hc
  · intro c' hc objectGen' name hlookup
    exact (h.cached c' hc objectGen' name hlookup).imp_right (List.mem_append_left _)
  · exact h.cached_all
  · exact h.cached_pool
  · intro k v name hmem hk
    rcases List.mem_append.mp hmem with hmem | hmem
    · rw [hsame k (hne hmem)] at hk
      exact (h.names k v name hmem hk).imp_left fun ⟨hindirect, hfrom⟩ =>
        ⟨hindirect, hfrom.imp_right (List.mem_append_left _)⟩
    · cases List.mem_singleton.mp hmem
      rw [hname] at hk
      split at hk
      · cases hk
      · cases hk
        exact .inl ⟨rfl, (h.cached c rfl objectGen existing hexisting).imp_right
          (List.mem_append_left _)⟩
  · intro hu
    exact h.kept (hu' hu)
  · intro hu k v hmem hnull
    rcases List.mem_append.mp hmem with hmem | hmem
    · rw [hsame k (hne hmem)]
      exact h.merged (hu' hu) k v hmem hnull
    · cases List.mem_singleton.mp hmem
      have hgiven : (recorded' key).getD key = existing := by
        rw [hname]
        split
        · rename_i heq
          exact heq.symm
        · rfl
      rw [hgiven]
      exact h.cached_live (hu' hu) c rfl objectGen existing hexisting hnull
  · intro hu
    exact h.cached_live (hu' hu)

/-- Another object gets a new name. -/
theorem invent {c : NameCache} (h : Merging resolve before done now recorded (some c))
    (hbefore : ∀ entry ∈ done, compare entry.1 key = .lt) (hreused : c.reused value = none)
    (hfree : suffixed key n ∉ c.names)
    (hreplaced : Replaced resolve (suffixed key n) value now now')
    {recorded' : Bytes → Option Bytes} (hsame : ∀ k, k ≠ key → recorded' k = recorded k)
    (hname : recorded' key = some (suffixed key n)) :
    Merging resolve before (done ++ [(key, value)]) now' recorded' (some c) := by
  have hne : ∀ {k : Bytes} {v : ObjectValue}, (k, v) ∈ done → k ≠ key := by
    rintro k v hmem rfl
    have hlt := hbefore _ hmem
    rw [ReflOrd.compare_self] at hlt
    cases hlt
  have hnew : ∀ value', (key, value') ∉ done := fun value' hmem => hne hmem rfl
  have hu' : Undisturbed resolve before (done ++ [(key, value)]) recorded' →
      Undisturbed resolve before done recorded := undisturbed_of_append hnew hsame
  -- the new name lies behind all names of the other category so far
  have hdone : ∀ {k : Bytes} {v : ObjectValue}, (k, v) ∈ done → k ≠ suffixed key n :=
    fun hmem => ne_suffixed_of_lt (hbefore _ hmem)
  have hfresh : Undisturbed resolve before (done ++ [(key, value)]) recorded' →
      ∀ k v, before.lookup k = some v → tryIsNull resolve v = .ok false → k ≠ suffixed key n := by
    rintro hu _ v hlookup hnull rfl
    refine hu key value _ (List.mem_append_right _ List.mem_cons_self) hname ?_ v ⟨hlookup, hnull⟩
    intro name' hvisible
    cases value with
    | indirect objectGen => exact absurd hreused (h.cached_all c rfl name' objectGen hvisible)
    | _ => rfl
  constructor
  · exact hreplaced.ascending h.ascending
  · intro k name hk
    by_cases heq : k = key
    · exact ⟨_, List.mem_append_right _ (by rw [heq]; exact List.mem_cons_self)⟩
    · rw [hsame k heq] at hk
      obtain ⟨v, hmem⟩ := h.recorded_done k name hk
      exact ⟨v, List.mem_append_left _ hmem⟩
  · intro hc
    cases hc
  · intro c' hc objectGen' name hlookup
    exact (h.cached c' hc objectGen' name hlookup).imp_right (List.mem_append_left _)
  · exact h.cached_all
  · exact h.cached_pool
  · intro k v name hmem hk
    rcases List.mem_append.mp hmem with hmem | hmem
    · rw [hsame k (hne hmem)] at hk
      exact (h.names k v name hmem hk).imp_left fun ⟨hindirect, hfrom⟩ =>
        ⟨hindirect, hfrom.imp_right (List.mem_append_left _)⟩
    · cases List.mem_singleton.mp hmem
      rw [hname, Option.some.injEq] at hk
      subst hk
      exact .inr ⟨⟨n, rfl⟩, fun hpooled => hfree (h.cached_pool c rfl _ hpooled)⟩
  · intro hu k v hv
    rw [hreplaced.others k (hfresh hu k v hv.1 hv.2)]
    exact h.kept (hu' hu) k v hv
  · intro hu k v hmem hnull
    rcases List.mem_append.mp hmem with hmem | hmem
    · have hold := h.merged (hu' hu) k v hmem hnull
      rw [hsame k (hne hmem), hreplaced.others _ ?_]
      · exact hold
      · cases hk : recorded k with
        | none => exact hdone hmem
        | some name =>
          rcases h.names k v name hmem hk with ⟨-, hlookup | hmem'⟩ | ⟨⟨m, rfl⟩, -⟩
          · exact hfresh hu name v hlookup hnull
          · exact hdone hmem'
          · exact fun heq => hne hmem (suffixed_inj heq)
    · cases List.mem_singleton.mp hmem
      rw [hname]
      exact hreplaced.here hnull
  · intro hu c' hc objectGen name hlookup hnull
    rw [hreplaced.others]
    · exact h.cached_live (hu' hu) c' hc objectGen name hlookup hnull
    · rcases h.cached c' hc objectGen name hlookup with hbefore' | hmem
      · exact hfresh hu name _ hbefore' hnull
      · exact hdone hmem

end Merging

/-! ## The program in one category -/

section Category

variable {s s₀ : MergeState} {before done now : List (Bytes × ObjectValue)}
  {recorded : Bytes → Option Bytes} {locals : Locals} {rval : ObjectValue}

theorem ascending_destEntries : Ascending s.destEntries := by
  rw [MergeState.destEntries]
  split
  · exact ascending_treeMap _
  · exact .nil

theorem destEntries_setCategory : (s.setCategory rtype entries).destEntries =
    insertSorted rtype (.dictionary entries) s.destEntries :=
  treeMap_of_ascending ascending_destEntries.insertSorted

/-- The state has come from `s₀` by changes in one category. -/
structure Within (s₀ s : MergeState) (rtype : Bytes) (now : List (Bytes × ObjectValue))
    (recorded : Bytes → Option Bytes) : Prop where
  resolve_eq : s.resolve = s₀.resolve
  others : ∀ r, r ≠ rtype → s.destEntries.lookup r = s₀.destEntries.lookup r
  here : ∃ stored, s.destEntries.lookup rtype = some (.dictionary stored) ∧ treeMap stored = now
  conflicts : ∃ table₀ table, s₀.conflicts = some table₀ ∧ s.conflicts = some table ∧
    table rtype = recorded ∧ ∀ r, r ≠ rtype → table r = table₀ r

namespace Within

variable (h : Within s₀ s rtype now recorded)

include h

theorem category_eq : s.category rtype = now := by
  obtain ⟨stored, hlookup, hstored⟩ := h.here
  rw [MergeState.category, hlookup]
  exact hstored

theorem setCategory (hascending : Ascending entries) :
    Within s₀ (s.setCategory rtype entries) rtype entries recorded where
  resolve_eq := h.resolve_eq
  others r hr := by
    rw [destEntries_setCategory, lookup_insertSorted, if_neg (by simpa using hr)]
    exact h.others r hr
  here := by
    refine ⟨entries, ?_, treeMap_of_ascending hascending⟩
    rw [destEntries_setCategory, lookup_insertSorted, if_pos (by simp)]
  conflicts := h.conflicts

theorem record (name : Bytes) :
    Within s₀ (s.record rtype key name) rtype now (Function.update recorded key (some name)) where
  resolve_eq := h.resolve_eq
  others := h.others
  here := h.here
  conflicts := by
    obtain ⟨table₀, table, htable₀, htable, hhere, hothers⟩ := h.conflicts
    refine ⟨table₀, Function.update table rtype (Function.update (table rtype) key (some name)),
      htable₀, ?_, ?_, fun r hr => ?_⟩
    · rw [MergeState.record, htable]
      rfl
    · rw [Function.update_self, hhere]
    · rw [Function.update_of_ne hr]
      exact hothers r hr

theorem ends_replaceCategoryKey (hascending : Ascending now) :
    (replaceCategoryKey rtype key value).Ends s fun _ s' =>
      ∃ now', Within s₀ s' rtype now' recorded ∧ Replaced s₀.resolve key value now now' := by
  rw [replaceCategoryKey]
  apply ends_get_bind
  rw [h.category_eq, h.resolve_eq]
  apply ends_ofExcept_bind
  intro entries hentries
  have hreplaced := replaceKey_replaced hentries
  exact ends_modify ⟨entries, h.setCategory (hreplaced.ascending hascending), hreplaced⟩

end Within

/-- One entry of the other category is merged. -/
theorem ends_mergeEntry (h : Within s₀ s rtype now recorded)
    (hmerging : Merging s₀.resolve before done now recorded locals.cache)
    (hbefore : ∀ entry ∈ done, compare entry.1 key = .lt) :
    (mergeEntry rtype locals key rval).Ends s fun locals' s' => ∃ now' recorded',
      Within s₀ s' rtype now' recorded' ∧
      Merging s₀.resolve before (done ++ [(key, rval)]) now' recorded' locals'.cache := by
  have hnew : ∀ value', (key, value') ∉ done := by
    intro value' hmem
    have hlt := hbefore _ hmem
    rw [ReflOrd.compare_self] at hlt
    cases hlt
  rw [mergeEntry]
  apply ends_get_bind
  rw [h.category_eq, h.resolve_eq]
  apply ends_ofExcept_bind
  intro present hpresent
  have hvisible := hasKey_eq_ok hpresent
  cases present with
  | false =>
    have habsent : ∀ value', ¬Visible s₀.resolve now key value' := by
      intro value' hv
      have := hvisible.mpr ⟨value', hv⟩
      cases this
    apply ends_ofExcept_bind
    intro installed hinstalled
    have heq : installed = rval := by
      cases hindirect : rval.isIndirect with
      | true =>
        rw [hindirect] at hinstalled
        exact (Except.ok.inj hinstalled).symm
      | false =>
        rw [hindirect] at hinstalled
        obtain ⟨direct, hdirect, hcopy⟩ := bind_eq_ok.mp hinstalled
        rw [eq_of_copyValue hcopy]
        cases rval <;> first | (cases hdirect; rfl) | cases hindirect
    rw [heq]
    apply (h.ends_replaceCategoryKey hmerging.ascending).bind
    rintro _ s' ⟨now', hwithin, hreplaced⟩
    exact ends_pure ⟨now', recorded, hwithin, hmerging.install habsent hnew hreplaced⟩
  | true =>
    obtain ⟨table₀, table, htable₀, htable, hhere, hothers⟩ := h.conflicts
    simp only [Bool.not_true, Bool.false_eq_true, if_false, htable]
    apply ends_ofExcept_bind
    intro c hc
    have hmerging : Merging s₀.resolve before done now recorded (some c) := by
      cases hcache : locals.cache with
      | none =>
        rw [hcache] at hc hmerging
        exact hmerging.build hc
      | some c' =>
        rw [hcache] at hc hmerging
        rw [← Except.ok.inj hc]
        exact hmerging
    · cases hreused : c.reused rval with
      | some existing =>
        dsimp only
        obtain ⟨objectGen, rfl, hexisting⟩ : ∃ objectGen, rval = .indirect objectGen ∧
            c.ogToName.lookup objectGen = some existing := by
          cases rval <;> first | exact ⟨_, rfl, hreused⟩ | cases hreused
        by_cases heq : existing = key
        · have hsame : (existing != key) = false := by simpa using heq
          rw [hsame, onlyIf, if_neg Bool.false_ne_true]
          refine ends_pure ⟨now, recorded, h, hmerging.reuse hnew hexisting (fun _ _ => rfl) ?_⟩
          rw [if_pos heq, hmerging.recorded_eq_none hnew]
        · have hother : (existing != key) = true := by simpa using heq
          rw [hother, onlyIf, if_pos rfl]
          apply ends_modify_bind
          refine ends_pure ⟨now, _, h.record existing,
            hmerging.reuse hnew hexisting (fun k hk => ?_) ?_⟩
          · rw [Function.update_of_ne hk]
          · rw [Function.update_self, if_neg heq]
      | none =>
        dsimp only
        cases hunique : uniqueResourceName key c.names (c.names.length + 1) locals.minSuffix with
        | none => exact ends_fail _
        | some found =>
          obtain ⟨newKey, suffix⟩ := found
          obtain ⟨rfl, hfree, -⟩ := uniqueResourceName_eq_some hunique
          apply ends_modify_bind
          apply ((h.record (suffixed key suffix)).ends_replaceCategoryKey hmerging.ascending).bind
          rintro _ s'' ⟨now', hwithin', hreplaced⟩
          refine ends_pure ⟨now', _, hwithin', hmerging.invent hbefore hreused hfree hreplaced
            (fun k hk => ?_) ?_⟩
          · rw [Function.update_of_ne hk]
          · rw [Function.update_self]

/-- All entries of the other category are merged. -/
theorem ends_mergeEntries {source : List (Bytes × ObjectValue)}
    (h : Within s₀ s rtype now recorded)
    (hmerging : Merging s₀.resolve before done now recorded locals.cache)
    (hsource : Ascending (done ++ source)) :
    (mergeEntries rtype locals source).Ends s fun _ s' => ∃ now' recorded' cache,
      Within s₀ s' rtype now' recorded' ∧
      Merging s₀.resolve before (done ++ source) now' recorded' cache := by
  induction source generalizing locals done now recorded s with
  | nil =>
    rw [mergeEntries, List.append_nil]
    exact ends_pure ⟨now, recorded, locals.cache, h, hmerging⟩
  | cons entry source ih =>
    obtain ⟨key, rval⟩ := entry
    rw [mergeEntries]
    have hbefore : ∀ e ∈ done, compare e.1 key = .lt := fun e he =>
      (List.pairwise_append.mp hsource).2.2 e he (key, rval) List.mem_cons_self
    apply (ends_mergeEntry h hmerging hbefore).bind
    rintro locals' s' ⟨now', recorded', hwithin, hmerging'⟩
    have hsource' : Ascending ((done ++ [(key, rval)]) ++ source) := by
      rwa [List.append_assoc, List.singleton_append]
    refine (ih hwithin hmerging' hsource').mono ?_
    rintro _ s'' ⟨now'', recorded'', cache, hwithin', hmerging''⟩
    refine ⟨now'', recorded'', cache, hwithin', ?_⟩
    rwa [List.append_assoc, List.singleton_append] at hmerging''

end Category

/-! ## All categories -/

/-- The names of a category, which may be an object of its own. -/
def contents (resolve : QpdfObjGen → Except Bytes ObjectValue) (category : Option ObjectValue) :
    List (Bytes × ObjectValue) :=
  match category.map (dereference resolve) with
  | some (.ok (.dictionary stored)) => treeMap stored
  | _ => []

/-- The category is missing, null or a dictionary. -/
def Mergeable (resolve : QpdfObjGen → Except Bytes ObjectValue) (category : Option ObjectValue) :
    Prop :=
  ∀ c value, category = some c → dereference resolve c = .ok value →
    value = .null ∨ ∃ stored, value = .dictionary stored

/-- What the merge of one category comes to. -/
structure CategoryMerged (resolve : QpdfObjGen → Except Bytes ObjectValue)
    (before source after : Option ObjectValue) (recorded : Bytes → Option Bytes) : Prop where
  names : ∀ key value name, (key, value) ∈ contents resolve source → recorded key = some name →
    (value.isIndirect = true ∧ ((contents resolve before).lookup name = some value ∨
      (name, value) ∈ contents resolve source)) ∨
      (∃ n, name = suffixed key n) ∧ ¬Pooled resolve (contents resolve before) name
  kept : Undisturbed resolve (contents resolve before) (contents resolve source) recorded →
    ∀ key value, Visible resolve (contents resolve before) key value →
      Visible resolve (contents resolve after) key value
  merged : Undisturbed resolve (contents resolve before) (contents resolve source) recorded →
    Mergeable resolve before → ∀ key value, Visible resolve (contents resolve source) key value →
      Visible resolve (contents resolve after) ((recorded key).getD key) value

/-- Arrays may have grown. -/
def SameButArrays (resolve resolve' : QpdfObjGen → Except Bytes ObjectValue) : Prop :=
  ∀ objectGen, resolve' objectGen = resolve objectGen ∨
    ∃ items items', resolve objectGen = .ok (.array items) ∧
      resolve' objectGen = .ok (.array items')

namespace SameButArrays

variable {resolve' resolve'' : QpdfObjGen → Except Bytes ObjectValue}

theorem refl (resolve : QpdfObjGen → Except Bytes ObjectValue) : SameButArrays resolve resolve :=
  fun _ => .inl rfl

theorem trans (h : SameButArrays resolve resolve') (h' : SameButArrays resolve' resolve'') :
    SameButArrays resolve resolve'' := by
  intro objectGen
  rcases h' objectGen with heq' | ⟨items, items', hitems, hitems'⟩
  · rcases h objectGen with heq | ⟨items, items', hitems, hitems'⟩
    · exact .inl (heq'.trans heq)
    · exact .inr ⟨items, items', hitems, heq'.trans hitems'⟩
  · rcases h objectGen with heq | ⟨items₀, items₁, hitems₀, -⟩
    · exact .inr ⟨items, items', heq ▸ hitems, hitems'⟩
    · exact .inr ⟨items₀, items', hitems₀, hitems'⟩

variable (h : SameButArrays resolve resolve')

include h

theorem tryIsNull_eq (value : ObjectValue) :
    tryIsNull resolve' value = tryIsNull resolve value := by
  cases value with
  | indirect objectGen =>
    rw [tryIsNull, tryIsNull]
    rcases h objectGen with heq | ⟨items, items', hitems, hitems'⟩
    · rw [heq]
    · rw [hitems, hitems']
      rfl
  | _ => rfl

theorem dereference_eq_dictionary {stored : List (Bytes × ObjectValue)} :
    dereference resolve' value = .ok (.dictionary stored) ↔
      dereference resolve value = .ok (.dictionary stored) := by
  cases value with
  | indirect objectGen =>
    rw [dereference, dereference]
    rcases h objectGen with heq | ⟨items, items', hitems, hitems'⟩
    · rw [heq]
    · rw [hitems, hitems']
      simp
  | _ => rfl

theorem contents_eq (category : Option ObjectValue) :
    contents resolve' category = contents resolve category := by
  cases category with
  | none => rfl
  | some c =>
    cases c with
    | indirect objectGen =>
      simp only [contents, Option.map_some, dereference]
      rcases h objectGen with heq | ⟨items, items', hitems, hitems'⟩
      · rw [heq]
      · rw [hitems, hitems']
    | _ => rfl

theorem visible_iff : Visible resolve' entries key value ↔ Visible resolve entries key value := by
  rw [Visible, Visible, h.tryIsNull_eq]

theorem pooled_iff : Pooled resolve' entries key ↔ Pooled resolve entries key := by
  simp only [Pooled, h.visible_iff, h.dereference_eq_dictionary]

theorem undisturbed_iff {source : List (Bytes × ObjectValue)} {recorded : Bytes → Option Bytes} :
    Undisturbed resolve' entries source recorded ↔ Undisturbed resolve entries source recorded := by
  simp only [Undisturbed, h.visible_iff]

theorem mergeable {category : Option ObjectValue} (hmergeable : Mergeable resolve category) :
    Mergeable resolve' category := by
  intro c value hc hvalue
  apply hmergeable c value hc
  cases c with
  | indirect objectGen =>
    rw [dereference] at hvalue ⊢
    rcases h objectGen with heq | ⟨items, items', hitems, -⟩
    · rwa [heq] at hvalue
    · have hcases := hmergeable _ _ hc hitems
      simp at hcases
  | _ => exact hvalue

theorem categoryMerged {before source after : Option ObjectValue} {recorded : Bytes → Option Bytes}
    (hmerged : CategoryMerged resolve' before source after recorded) :
    CategoryMerged resolve before source after recorded where
  names := by simpa only [h.contents_eq, h.pooled_iff] using hmerged.names
  kept := by
    simpa only [h.contents_eq, h.visible_iff, h.undisturbed_iff] using hmerged.kept
  merged hu hmergeable := by
    have hmerged' := hmerged.merged
    simp only [h.contents_eq, h.visible_iff, h.undisturbed_iff] at hmerged'
    exact hmerged' hu (h.mergeable hmergeable)

end SameButArrays

section Whole

variable {s s₀ : MergeState} {table : ResourceConflicts}

/-- The state has come from `s₀` by items that were appended to one array. -/
structure Appended (s₀ s : MergeState) (rtype : Bytes) : Prop where
  same : SameButArrays s₀.resolve s.resolve
  others : ∀ r, r ≠ rtype → s.destEntries.lookup r = s₀.destEntries.lookup r
  here : ∃ category items, s.destEntries.lookup rtype = some category ∧
    dereference s.resolve category = .ok (.array items)
  conflicts : s.conflicts = s₀.conflicts
  dictionary : ∃ entries, s.dest = .dictionary entries

theorem Appended.appendItem (h : Appended s₀ s rtype) (item : ObjectValue) :
    Appended s₀ (s.appendItem rtype item) rtype := by
  obtain ⟨category, items, hlookup, hitems⟩ := h.here
  have hdest : ∀ items', (treeMap (insertSorted rtype (.array items') s.destEntries)) =
      insertSorted rtype (.array items') s.destEntries :=
    fun _ => treeMap_of_ascending ascending_destEntries.insertSorted
  rw [MergeState.appendItem, hlookup]
  cases category with
  | array items' =>
    refine ⟨h.same, fun r hr => ?_, ⟨.array (items' ++ [item]), _, ?_, rfl⟩, h.conflicts, _, rfl⟩
    · rw [MergeState.destEntries]
      dsimp only
      rw [hdest, lookup_insertSorted, if_neg (by simpa using hr)]
      exact h.others r hr
    · rw [MergeState.destEntries]
      dsimp only
      rw [hdest, lookup_insertSorted, if_pos (by simp)]
  | indirect objectGen =>
    rw [dereference] at hitems
    simp only [hitems]
    refine ⟨h.same.trans fun og => ?_, h.others,
      ⟨.indirect objectGen, items ++ [item], hlookup, ?_⟩, h.conflicts, h.dictionary⟩
    · by_cases hog : og = objectGen
      · subst hog
        exact .inr ⟨items, items ++ [item], hitems, Function.update_self ..⟩
      · exact .inl (Function.update_of_ne hog ..)
    · exact Function.update_self ..
  | _ => cases hitems

theorem ends_appendScalars {scalars : List Bytes} {items : List ObjectValue}
    (h : Appended s₀ s rtype) :
    (appendScalars rtype scalars items).Ends s fun _ s' => Appended s₀ s' rtype := by
  induction items generalizing scalars s with
  | nil => exact ends_pure h
  | cons item items ih =>
    rw [appendScalars]
    apply ends_get_bind
    apply ends_ofExcept_bind
    intro texts _
    match texts with
    | [text] =>
      dsimp only
      split
      · exact ih h
      · exact ends_modify_bind (ih (h.appendItem item))
    | [] => exact ih h
    | _ :: _ :: _ => exact ih h

/-- Where the merge of the dictionaries stands. -/
structure Merged (s₀ : MergeState) (done : List (Bytes × ObjectValue)) (s : MergeState)
    (table : ResourceConflicts) : Prop where
  same : SameButArrays s₀.resolve s.resolve
  dictionary : ∃ entries, s.dest = .dictionary entries
  conflicts : s.conflicts = some table
  untouched : ∀ r, (∀ value, (r, value) ∉ done) →
    s.destEntries.lookup r = s₀.destEntries.lookup r ∧ table r = fun _ => none
  merged : ∀ r value, (r, value) ∈ done →
    CategoryMerged s₀.resolve (s₀.destEntries.lookup r) (some value) (s.destEntries.lookup r)
      (table r)

/-- A step in one category leaves the others as they are. -/
theorem Merged.step {done : List (Bytes × ObjectValue)} {other : ObjectValue} {s' : MergeState}
    {table' : ResourceConflicts} (h : Merged s₀ done s table)
    (hnew : ∀ value', (rtype, value') ∉ done) (hsame : SameButArrays s.resolve s'.resolve)
    (hdictionary : ∃ entries, s'.dest = .dictionary entries)
    (hconflicts : s'.conflicts = some table')
    (hothers : ∀ r, r ≠ rtype → s'.destEntries.lookup r = s.destEntries.lookup r ∧
      table' r = table r)
    (hhere : CategoryMerged s.resolve (s.destEntries.lookup rtype) (some other)
      (s'.destEntries.lookup rtype) (table' rtype)) :
    Merged s₀ (done ++ [(rtype, other)]) s' table' where
  same := h.same.trans hsame
  dictionary := hdictionary
  conflicts := hconflicts
  untouched r hr := by
    have hne : r ≠ rtype := by
      rintro rfl
      exact hr other (List.mem_append_right _ List.mem_cons_self)
    obtain ⟨hlookup, htable⟩ := hothers r hne
    rw [hlookup, htable]
    exact h.untouched r fun value hmem => hr value (List.mem_append_left _ hmem)
  merged r value hmem := by
    rcases List.mem_append.mp hmem with hdone | hlast
    · have hne : r ≠ rtype := by
        rintro rfl
        exact hnew value hdone
      obtain ⟨hlookup, htable⟩ := hothers r hne
      rw [hlookup, htable]
      exact h.merged r value hdone
    · cases List.mem_singleton.mp hlast
      rw [← (h.untouched rtype hnew).1]
      exact h.same.categoryMerged hhere

/-- A category without names on one side stays as it is. -/
theorem CategoryMerged.untouched {before source : Option ObjectValue}
    (h : contents resolve source = [] ∨ ¬Mergeable resolve before) :
    CategoryMerged resolve before source before fun _ => none where
  names _ _ _ _ h := by cases h
  kept _ _ _ hv := hv
  merged _ hmergeable key value hv := by
    rcases h with h | h
    · rw [Visible, h] at hv
      cases hv.1
    · exact absurd hmergeable h

theorem CategoryMerged.empty {before source after : Option ObjectValue}
    {recorded : Bytes → Option Bytes} (hbefore : contents resolve before = [])
    (hsource : contents resolve source = []) :
    CategoryMerged resolve before source after recorded where
  names _ _ _ hmem := by
    rw [hsource] at hmem
    cases hmem
  kept _ key value hv := by
    rw [Visible, hbefore] at hv
    cases hv.1
  merged _ _ key value hv := by
    rw [Visible, hsource] at hv
    cases hv.1

theorem contents_dictionary {category : ObjectValue} {stored : List (Bytes × ObjectValue)}
    (h : dereference resolve category = .ok (.dictionary stored)) :
    contents resolve (some category) = treeMap stored := by
  rw [contents, Option.map_some, h]

theorem contents_of_ne_dictionary {category value : ObjectValue}
    (h : dereference resolve category = .ok value)
    (hne : ∀ stored, value ≠ .dictionary stored) : contents resolve (some category) = [] := by
  rw [contents, Option.map_some, h]
  cases value <;> first | rfl | exact absurd rfl (hne _)

/-- A category that is missing or null has no names. -/
theorem contents_of_hasKey (h : hasKey resolve entries rtype = .ok false) :
    contents resolve (entries.lookup rtype) = [] := by
  rw [hasKey] at h
  cases hlookup : entries.lookup rtype with
  | none => rfl
  | some category =>
    rw [hlookup] at h
    obtain ⟨isNull, hnull, hfalse⟩ := map_eq_ok.mp h
    cases isNull with
    | false => cases hfalse
    | true =>
      rw [contents, Option.map_some]
      cases category with
      | indirect objectGen =>
        obtain ⟨value, hvalue, hisNull⟩ := map_eq_ok.mp hnull
        rw [dereference, hvalue]
        cases value <;> first | rfl | cases hisNull
      | dictionary stored => cases hnull
      | _ => rfl

/-- A category the destination does not have is copied. -/
theorem copied_categoryMerged {other copy : ObjectValue}
    (hpresent : hasKey resolve entries rtype = .ok false)
    (hcopy : shallowCopy resolve other = .ok copy)
    (hreplaced : Replaced resolve rtype copy entries entries') :
    CategoryMerged resolve (entries.lookup rtype) (some other) (entries'.lookup rtype)
      fun _ => none where
  names _ _ _ _ h := by cases h
  kept _ key value hv := by
    rw [Visible, contents_of_hasKey hpresent] at hv
    cases hv.1
  merged _ _ key value hv := by
    obtain ⟨otherValue, hother, hvalue⟩ := bind_eq_ok.mp hcopy
    have heq := eq_of_copyValue hvalue
    subst heq
    cases copy with
    | dictionary stored =>
      rw [contents_dictionary hother] at hv
      rw [hreplaced.here rfl, contents_dictionary rfl]
      exact hv
    | _ =>
      rw [contents_of_ne_dictionary hother (by simp)] at hv
      cases hv.1

/-- A category the destination has is merged name by name. -/
theorem Merging.categoryMerged {before after : Option ObjectValue} {other : ObjectValue}
    {now : List (Bytes × ObjectValue)} {recorded : Bytes → Option Bytes} {cache : Option NameCache}
    (h : Merging resolve (contents resolve before) (contents resolve (some other)) now recorded
      cache)
    (hnow : contents resolve after = now) :
    CategoryMerged resolve before (some other) after recorded where
  names := h.names
  kept hu key value hv := by
    rw [hnow]
    exact ⟨h.kept hu key value hv, hv.2⟩
  merged hu _ key value hv := by
    rw [hnow]
    exact ⟨h.merged hu key value (mem_of_lookup hv.1) hv.2, hv.2⟩

theorem dest_of_lookup {category : ObjectValue} (h : s.destEntries.lookup rtype = some category) :
    ∃ entries, s.dest = .dictionary entries := by
  rw [MergeState.destEntries] at h
  cases hdest : s.dest with
  | dictionary entries => exact ⟨entries, rfl⟩
  | _ =>
    rw [hdest] at h
    cases h

/-- The names of one category are merged. -/
theorem Merged.merging {done now : List (Bytes × ObjectValue)} {other : ObjectValue}
    {s' : MergeState} {recorded : Bytes → Option Bytes} {cache : Option NameCache}
    (h : Merged s₀ done s table) (hnew : ∀ value', (rtype, value') ∉ done)
    (hwithin : Within s s' rtype now recorded)
    (hmerging : Merging s.resolve (contents s.resolve (s.destEntries.lookup rtype))
      (contents s.resolve (some other)) now recorded cache) :
    ∃ table', Merged s₀ (done ++ [(rtype, other)]) s' table' := by
  obtain ⟨table₀, table', htable₀, htable', hhere, hothers⟩ := hwithin.conflicts
  obtain ⟨stored, hstored, hnow⟩ := hwithin.here
  rw [h.conflicts, Option.some.injEq] at htable₀
  subst htable₀
  have hsame : SameButArrays s.resolve s'.resolve := fun objectGen =>
    .inl (congrFun hwithin.resolve_eq objectGen)
  refine ⟨table', h.step hnew hsame (dest_of_lookup hstored) htable'
    (fun r hr => ⟨hwithin.others r hr, hothers r hr⟩) ?_⟩
  rw [hhere]
  apply hmerging.categoryMerged
  rw [hstored, contents_dictionary rfl]
  exact hnow

/-- One category of the other dictionary is merged. -/
theorem ends_mergeCategory {done : List (Bytes × ObjectValue)} {other : ObjectValue}
    (h : Merged s₀ done s table) (hnew : ∀ value', (rtype, value') ∉ done) :
    (mergeCategory (rtype, other)).Ends s fun _ s' => ∃ table',
      Merged s₀ (done ++ [(rtype, other)]) s' table' := by
  obtain ⟨hbefore, htable⟩ := h.untouched rtype hnew
  rw [mergeCategory]
  apply ends_get_bind
  apply ends_ofExcept_bind
  intro present hpresent
  have hvisible := hasKey_eq_ok hpresent
  cases present with
  | false =>
    apply ends_ofExcept_bind
    intro copy hcopy
    apply ends_ofExcept_bind
    intro entries hentries
    have hreplaced := replaceKey_replaced hentries
    have hdest : treeMap entries = entries :=
      treeMap_of_ascending (hreplaced.ascending ascending_destEntries)
    have hnow : ({ s with dest := .dictionary entries } : MergeState).destEntries = entries :=
      hdest
    refine ends_modify ⟨table, h.step hnew (.refl _) ⟨_, rfl⟩ h.conflicts (fun r hr => ⟨?_, rfl⟩) ?_⟩
    · rw [hnow, hreplaced.others r hr]
    · rw [htable, hnow]
      exact copied_categoryMerged hpresent hcopy hreplaced
  | true =>
    obtain ⟨category, hcategory, hnull⟩ := hvisible.mp rfl
    rw [hcategory, Option.getD_some]
    apply ends_ofExcept_bind
    intro thisValue hthis
    apply ends_ofExcept_bind
    intro otherValue hother
    have huntouched : contents s.resolve (some other) = [] ∨
        ¬Mergeable s.resolve (some category) → (pure () : Program MergeState Bytes Unit).Ends s
          fun _ s' => ∃ table', Merged s₀ (done ++ [(rtype, other)]) s' table' := by
      intro hside
      refine ends_pure ⟨table, h.step hnew (.refl _) h.dictionary h.conflicts
        (fun _ _ => ⟨rfl, rfl⟩) ?_⟩
      rw [htable, hcategory]
      exact .untouched hside
    cases thisValue with
    | dictionary thisEntries =>
      cases otherValue with
      | dictionary otherEntries =>
        have hmerge : ∀ s', Within s s' rtype (treeMap thisEntries) (fun _ => none) →
            (mergeResourceSubdict rtype (treeMap otherEntries)).Ends s' fun _ s' => ∃ table',
              Merged s₀ (done ++ [(rtype, other)]) s' table' := by
          intro s' hs'
          have hmerging : Merging s.resolve (treeMap thisEntries) [] (treeMap thisEntries)
              (fun _ => none) none := .start (ascending_treeMap thisEntries)
          refine (ends_mergeEntries hs' hmerging (ascending_treeMap otherEntries)).mono ?_
          rintro _ s'' ⟨now, recorded, cache, hwithin, hmerging'⟩
          rw [List.nil_append, ← contents_dictionary hthis, ← contents_dictionary hother,
            ← hcategory] at hmerging'
          exact h.merging hnew hwithin hmerging'
        have hconflicts : ∃ table₀ table', s.conflicts = some table₀ ∧ s.conflicts = some table' ∧
            table' rtype = (fun _ => none) ∧ ∀ r, r ≠ rtype → table' r = table₀ r :=
          ⟨table, table, h.conflicts, h.conflicts, htable, fun _ _ => rfl⟩
        cases category with
        | indirect objectGen =>
          apply ends_ofExcept_bind
          intro privatized hcopy
          rw [eq_of_copyEntries hcopy]
          apply ends_modify_bind
          apply hmerge
          refine ⟨rfl, fun r hr => ?_, ⟨thisEntries, ?_, rfl⟩, hconflicts⟩
          · rw [destEntries_setCategory, lookup_insertSorted, if_neg (by simpa using hr)]
          · rw [destEntries_setCategory, lookup_insertSorted, if_pos (by simp)]
        | dictionary stored =>
          cases hthis
          exact hmerge s ⟨rfl, fun _ _ => rfl, ⟨thisEntries, hcategory, rfl⟩, hconflicts⟩
        | _ => cases hthis
      | _ => exact huntouched (.inl (contents_of_ne_dictionary hother (by simp)))
    | array thisItems =>
      cases otherValue with
      | array otherItems =>
        apply ends_get_bind
        apply ends_ofExcept_bind
        intro scalars _
        have happended : Appended s s rtype :=
          ⟨.refl _, fun _ _ => rfl, ⟨category, thisItems, hcategory, hthis⟩, rfl, h.dictionary⟩
        refine (ends_appendScalars happended).mono ?_
        intro _ s' h'
        refine ⟨table, h.step hnew h'.same h'.dictionary (h'.conflicts.trans h.conflicts)
          (fun r hr => ⟨h'.others r hr, rfl⟩) ?_⟩
        rw [hcategory]
        exact .empty (contents_of_ne_dictionary hthis (by simp))
          (contents_of_ne_dictionary hother (by simp))
      | dictionary otherEntries =>
        apply huntouched
        right
        intro hmergeable
        have hcases := hmergeable category _ rfl hthis
        simp at hcases
      | _ => exact huntouched (.inl (contents_of_ne_dictionary hother (by simp)))
    | null =>
      cases category with
      | indirect objectGen =>
        have hisNull : tryIsNull s.resolve (.indirect objectGen) = .ok true := by
          rw [tryIsNull]
          rw [dereference] at hthis
          rw [hthis]
          rfl
        rw [hnull] at hisNull
        cases hisNull
      | _ => first | cases hthis; cases hnull | cases hthis
    | _ =>
      apply huntouched
      right
      intro hmergeable
      have hcases := hmergeable category _ rfl hthis
      simp at hcases

theorem ends_mergeCategories {source : List (Bytes × ObjectValue)} (hsource : Ascending source)
    (h : Merged s₀ [] s table) :
    (forEach mergeCategory source).Ends s fun _ s' => ∃ table', Merged s₀ source s' table' := by
  have hsteps : (forEach mergeCategory source).Ends s fun _ s' => _ := ends_forEach
    (I := fun rest s => ∃ done table, done ++ rest = source ∧ Merged s₀ done s table)
    (fun (rtype, other) rest s ⟨done, table, hdone, hmerged⟩ => by
      have hnew : ∀ value, (rtype, value) ∉ done := by
        intro value hmem
        rw [← hdone] at hsource
        have hlt := (List.pairwise_append.mp hsource).2.2 _ hmem (rtype, other) List.mem_cons_self
        rw [ReflOrd.compare_self] at hlt
        cases hlt
      refine (ends_mergeCategory hmerged hnew).mono ?_
      rintro _ s' ⟨table', hmerged'⟩
      exact ⟨_, table', (List.append_assoc ..).trans hdone, hmerged'⟩)
    ⟨[], table, rfl, h⟩
  refine hsteps.mono ?_
  rintro _ s' ⟨done, table', hdone, hmerged⟩
  rw [List.append_nil] at hdone
  subst hdone
  exact ⟨table', hmerged⟩

/-- New names of one merge differ from each other and from the names that were entered before. -/
def NamesDiffer (recorded : Bytes → Option Bytes) : Prop :=
  ∀ key key' n, recorded key = some (suffixed key n) → compare key' key = .lt →
    recorded key' = none ∨ (∃ n', recorded key' = some (suffixed key' n')) →
      (recorded key').getD key' ≠ suffixed key n

theorem namesDiffer (recorded : Bytes → Option Bytes) : NamesDiffer recorded := by
  rintro key key' n - hlt (hnone | ⟨n', hsome⟩) heq
  · rw [hnone] at heq
    exact ne_suffixed_of_lt hlt heq
  · rw [hsome] at heq
    rw [suffixed_inj heq, ReflOrd.compare_self] at hlt
    cases hlt

end Whole

/-! ## A name that is there already -/

/-- Every object is a font of its own. -/
def fonts : QpdfObjGen → Except Bytes ObjectValue := fun _ =>
  .ok (.dictionary [(ascii "/Type", .name (ascii "/Font"))])

/-- `/F1` and `/F1_1` are fonts, and the images are an array. -/
def fontsDest : MergeState :=
  ⟨fonts, .dictionary
    [(ascii "/Font",
        .dictionary [(ascii "/F1", .indirect ⟨5, 0⟩), (ascii "/F1_1", .indirect ⟨6, 0⟩)]),
      (ascii "/XObject", .array [])],
    some fun _ _ => none⟩

/-- The other dictionary has `/F1` for another font. -/
def fontsOther : ObjectValue :=
  .dictionary
    [(ascii "/Font", .dictionary [(ascii "/F1", .indirect ⟨7, 0⟩)]),
      (ascii "/XObject", .dictionary [(ascii "/Im1", .indirect ⟨8, 0⟩)])]

end ResourceMerge

end Flpdf
