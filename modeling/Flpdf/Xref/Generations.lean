import Flpdf.Xref.Registration

/-!
# Highest generations

After the whole chain is registered, one ordered pass over the raw keys finds
every generation that a later key of the same positive number supersedes, and
drops it from the raw table, the effective view and the parsed streams.
-/

namespace Flpdf

open Std

namespace XrefRegistration

/-- The loop over the ordered keys; `previous` is the key just passed. -/
def lowerGenerationsFrom (previous : Option QpdfObjGen) : List QpdfObjGen → List QpdfObjGen
  | [] => []
  | key :: keys =>
    match previous with
    | some previousKey =>
      if previousKey.object = key.object ∧ key.object > 0 then
        previousKey :: lowerGenerationsFrom (some key) keys
      else
        lowerGenerationsFrom (some key) keys
    | none => lowerGenerationsFrom (some key) keys

/-- The superseded keys of a raw table, in key order. -/
def lowerGenerations (rawEntries : ExtTreeMap QpdfObjGen XrefEntry) : List QpdfObjGen :=
  lowerGenerationsFrom none rawEntries.keys

/-- The maps the cleanup works on; a parsed stream is kept as it is. -/
structure Loaded (Handle : Type) where
  rawEntries : ExtTreeMap QpdfObjGen XrefEntry
  entries : ExtTreeMap ObjectRef XrefEntry
  parsedXrefStreams : ExtTreeMap ObjectRef Handle

variable {Handle : Type}

/-- One turn of the removal loop. -/
def Loaded.discard (loaded : Loaded Handle) (key : QpdfObjGen) : Loaded Handle :=
  match key.toObjectRef with
  | some ref =>
    { rawEntries := loaded.rawEntries.erase key
      entries := loaded.entries.erase ref
      parsedXrefStreams := loaded.parsedXrefStreams.erase ref }
  | none => { loaded with rawEntries := loaded.rawEntries.erase key }

/-- The cleanup pass, with the keys it removed. -/
def discardLowerGenerations (loaded : Loaded Handle) : Loaded Handle × List QpdfObjGen :=
  ((lowerGenerations loaded.rawEntries).foldl Loaded.discard loaded,
    lowerGenerations loaded.rawEntries)

/-- A key is superseded when its positive number has a higher generation in the table. -/
def Superseded (rawEntries : ExtTreeMap QpdfObjGen XrefEntry) (key : QpdfObjGen) : Prop :=
  0 < key.object ∧ ∃ generation, key.generation < generation ∧
    (⟨key.object, generation⟩ : QpdfObjGen) ∈ rawEntries

/-- In an ordered key list the loop reports exactly the keys with a later key
of the same positive number. -/
theorem mem_lowerGenerationsFrom (keys : List QpdfObjGen)
    (hkeys : keys.Pairwise fun a b => compare a b = .lt) (key : QpdfObjGen) :
    key ∈ lowerGenerationsFrom none keys ↔
      key ∈ keys ∧ 0 < key.object ∧
        ∃ key' ∈ keys, key'.object = key.object ∧ key.generation < key'.generation := by
  induction keys with
  | nil => simp [lowerGenerationsFrom]
  | cons p keys ih =>
    rw [List.pairwise_cons] at hkeys
    simp only [QpdfObjGen.compare_eq_lt] at hkeys ih
    have ih := ih hkeys.2
    cases keys with
    | nil =>
      simp only [lowerGenerationsFrom, List.not_mem_nil, List.mem_singleton, false_iff]
      rintro ⟨rfl, _, _, rfl, _, hlater⟩
      omega
    | cons head keys =>
      have hhead := hkeys.1 head (by simp)
      have hrest : ∀ key' ∈ head :: keys, head.object ≤ key'.object := by
        intro key' hmem
        rcases List.mem_cons.mp hmem with rfl | hmem
        · exact Int.le_refl _
        · have := (List.pairwise_cons.mp hkeys.2).1 key' hmem
          omega
      have hcons : key ∈ lowerGenerationsFrom none (p :: head :: keys) ↔
          key = p ∧ p.object = head.object ∧ head.object > 0 ∨
            key ∈ lowerGenerationsFrom none (head :: keys) := by
        simp only [lowerGenerationsFrom]
        by_cases h : p.object = head.object ∧ head.object > 0
        · rw [if_pos h, List.mem_cons]
          simp [h]
        · rw [if_neg h]
          simp [h]
      rw [hcons, ih]
      constructor
      · rintro (⟨rfl, hobject, hpos⟩ | ⟨hmem, hpos, key', hmem', hlater⟩)
        · exact ⟨by simp, by omega, head, by simp, hobject.symm, by omega⟩
        · exact ⟨List.mem_cons_of_mem _ hmem, hpos, key', List.mem_cons_of_mem _ hmem', hlater⟩
      · rintro ⟨hmem, hpos, key', hmem', hobject, hlater⟩
        rcases List.mem_cons.mp hmem with rfl | hmem
        · rcases List.mem_cons.mp hmem' with rfl | hmem'
          · omega
          · left
            have := hrest key' hmem'
            exact ⟨rfl, by omega, by omega⟩
        · right
          rcases List.mem_cons.mp hmem' with hp | hmem'
          · have := hkeys.1 key hmem
            subst hp
            omega
          · exact ⟨hmem, hpos, key', hmem', hobject, hlater⟩

/-- The pass reports exactly the superseded keys. -/
theorem mem_lowerGenerations (rawEntries : ExtTreeMap QpdfObjGen XrefEntry) (key : QpdfObjGen) :
    key ∈ lowerGenerations rawEntries ↔ key ∈ rawEntries ∧ Superseded rawEntries key := by
  rw [lowerGenerations, mem_lowerGenerationsFrom _ ExtTreeMap.ordered_keys]
  simp only [ExtTreeMap.mem_keys, Superseded]
  apply and_congr_right
  intro _
  apply and_congr_right
  intro _
  constructor
  · rintro ⟨⟨object, generation⟩, hmem, rfl, hlater⟩
    exact ⟨generation, hlater, hmem⟩
  · rintro ⟨generation, hlater, hmem⟩
    exact ⟨_, hmem, rfl, hlater⟩

theorem discard_rawEntries (loaded : Loaded Handle) (key : QpdfObjGen) :
    (loaded.discard key).rawEntries = loaded.rawEntries.erase key := by
  unfold Loaded.discard
  cases key.toObjectRef <;> rfl

theorem discard_isEffective {loaded : Loaded Handle}
    (h : IsEffective loaded.rawEntries loaded.entries) (key : QpdfObjGen) :
    IsEffective (loaded.discard key).rawEntries (loaded.discard key).entries := by
  have herase := h.erase key
  unfold Loaded.discard
  cases hkey : key.toObjectRef with
  | none => simpa only [hkey] using herase
  | some ref => simpa only [hkey] using herase

/-- The removal loop erases the listed keys and nothing else. -/
theorem foldl_discard_getElem? (keys : List QpdfObjGen) (loaded : Loaded Handle)
    (key : QpdfObjGen) :
    (keys.foldl Loaded.discard loaded).rawEntries[key]? =
      if key ∈ keys then none else loaded.rawEntries[key]? := by
  induction keys generalizing loaded with
  | nil => simp
  | cons head keys ih =>
    rw [List.foldl_cons, ih, discard_rawEntries, getElem?_erase_ite]
    by_cases hmem : key ∈ keys
    · simp [hmem]
    · by_cases hhead : head = key
      · simp [hhead]
      · have hhead' : key ≠ head := fun h => hhead h.symm
        simp [hmem, hhead, hhead']

theorem foldl_discard_isEffective (keys : List QpdfObjGen) {loaded : Loaded Handle}
    (h : IsEffective loaded.rawEntries loaded.entries) :
    IsEffective (keys.foldl Loaded.discard loaded).rawEntries
      (keys.foldl Loaded.discard loaded).entries := by
  induction keys generalizing loaded with
  | nil => exact h
  | cons head keys ih => exact ih (discard_isEffective h head)

/-- The cleanup removes the superseded rows and keeps every other row. -/
theorem discardLowerGenerations_getElem? (loaded : Loaded Handle) (key : QpdfObjGen)
    (entry : XrefEntry) :
    (discardLowerGenerations loaded).1.rawEntries[key]? = some entry ↔
      loaded.rawEntries[key]? = some entry ∧ ¬ Superseded loaded.rawEntries key := by
  rw [discardLowerGenerations, foldl_discard_getElem?]
  have hlower := mem_lowerGenerations loaded.rawEntries key
  by_cases hmem : key ∈ loaded.rawEntries
  · by_cases hsup : Superseded loaded.rawEntries key
    · simp [hlower, hmem, hsup]
    · simp [hlower, hsup]
  · simp [hlower, hmem]

/-- A positive number keeps exactly the row of its highest generation. -/
theorem discardLowerGenerations_highest (loaded : Loaded Handle) {object : ℤ}
    (hobject : 0 < object) (generation : ℤ) (entry : XrefEntry) :
    (discardLowerGenerations loaded).1.rawEntries[(⟨object, generation⟩ : QpdfObjGen)]? =
        some entry ↔
      loaded.rawEntries[(⟨object, generation⟩ : QpdfObjGen)]? = some entry ∧
        ∀ generation', (⟨object, generation'⟩ : QpdfObjGen) ∈ loaded.rawEntries →
          generation' ≤ generation := by
  rw [discardLowerGenerations_getElem?]
  apply and_congr_right
  intro _
  constructor
  · intro hsup generation' hmem
    by_contra hlt
    exact hsup ⟨hobject, generation', Int.not_le.mp hlt, hmem⟩
  · rintro hmax ⟨_, generation', hlt, hmem⟩
    exact absurd (hmax generation' hmem) (Int.not_le.mpr hlt)

theorem discardLowerGenerations_isEffective {loaded : Loaded Handle}
    (h : IsEffective loaded.rawEntries loaded.entries) :
    IsEffective (discardLowerGenerations loaded).1.rawEntries
      (discardLowerGenerations loaded).1.entries :=
  foldl_discard_isEffective _ h

end XrefRegistration

end Flpdf
