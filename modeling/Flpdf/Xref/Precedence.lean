import Flpdf.Xref.Generations

/-!
# Newest-to-oldest precedence

A run of live and free rows, newest section first. The reference reading looks
only at positions in the list: the first live row of an exact key decides it,
unless a free row of its number came earlier while its own key had no live row.
-/

namespace Flpdf

open Std

/-- A row of a section as the chain registers it. -/
inductive XrefRow where
  | live (key : QpdfObjGen) (entry : XrefEntry)
  | free (key : QpdfObjGen)
deriving DecidableEq

namespace XrefRegistration

def rowOp : XrefRow → Op
  | .live key entry => .insert key entry
  | .free key => .insertFree key

/-- The registration after the rows of a chain, newest first. -/
def register (rows : List XrefRow) : XrefRegistration :=
  run (rows.map rowOp)

/-- Some free row of the number comes before any live row of its exact key. -/
def EffectiveFree (rows : List XrefRow) (object : ℤ) : Prop :=
  ∃ newer key older, rows = newer ++ .free key :: older ∧ key.object = object ∧
    ∀ entry, .live key entry ∉ newer

/-- The first live row of the key, with no effective free row of its number before it. -/
def FirstLive (rows : List XrefRow) (key : QpdfObjGen) (entry : XrefEntry) : Prop :=
  ∃ newer older, rows = newer ++ .live key entry :: older ∧
    (∀ entry', .live key entry' ∉ newer) ∧ ¬ EffectiveFree newer key.object

/-! ## The reference reading, row by row -/

private theorem concat_eq_append_cons {α : Type} {rows newer older : List α} {row x : α}
    (h : rows ++ [row] = newer ++ x :: older) :
    (rows = newer ∧ row = x) ∨ ∃ older', rows = newer ++ x :: older' := by
  induction older using List.reverseRecOn with
  | nil =>
    have h := List.append_inj' h rfl
    exact .inl ⟨h.1, List.singleton_inj.mp h.2⟩
  | append_singleton older y _ =>
    rw [← List.cons_append, ← List.append_assoc] at h
    exact .inr ⟨older, (List.append_inj' h rfl).1⟩

theorem effectiveFree_nil (object : ℤ) : ¬ EffectiveFree [] object := by
  rintro ⟨newer, key, older, h, _⟩
  simp at h

theorem effectiveFree_concat (rows : List XrefRow) (row : XrefRow) (object : ℤ) :
    EffectiveFree (rows ++ [row]) object ↔
      EffectiveFree rows object ∨
        ∃ key, row = .free key ∧ key.object = object ∧ ∀ entry, .live key entry ∉ rows := by
  constructor
  · rintro ⟨newer, key, older, h, hobject, hlive⟩
    rcases concat_eq_append_cons h with ⟨rfl, rfl⟩ | ⟨older', hrows⟩
    · exact .inr ⟨key, rfl, hobject, hlive⟩
    · exact .inl ⟨newer, key, older', hrows, hobject, hlive⟩
  · rintro (⟨newer, key, older, rfl, hobject, hlive⟩ | ⟨key, rfl, hobject, hlive⟩)
    · exact ⟨newer, key, older ++ [row], by simp, hobject, hlive⟩
    · exact ⟨rows, key, [], rfl, hobject, hlive⟩

theorem firstLive_nil (key : QpdfObjGen) (entry : XrefEntry) : ¬ FirstLive [] key entry := by
  rintro ⟨newer, older, h, _⟩
  simp at h

theorem firstLive_concat (rows : List XrefRow) (row : XrefRow) (key : QpdfObjGen)
    (entry : XrefEntry) :
    FirstLive (rows ++ [row]) key entry ↔
      FirstLive rows key entry ∨
        row = .live key entry ∧ (∀ entry', .live key entry' ∉ rows) ∧
          ¬ EffectiveFree rows key.object := by
  constructor
  · rintro ⟨newer, older, h, hlive, hfree⟩
    rcases concat_eq_append_cons h with ⟨rfl, rfl⟩ | ⟨older', hrows⟩
    · exact .inr ⟨rfl, hlive, hfree⟩
    · exact .inl ⟨newer, older', hrows, hlive, hfree⟩
  · rintro (⟨newer, older, rfl, hlive, hfree⟩ | ⟨rfl, hlive, hfree⟩)
    · exact ⟨newer, older ++ [row], by simp, hlive, hfree⟩
    · exact ⟨rows, [], rfl, hlive, hfree⟩

/-- A first live row is a live row. -/
theorem FirstLive.mem {rows : List XrefRow} {key : QpdfObjGen} {entry : XrefEntry}
    (h : FirstLive rows key entry) : .live key entry ∈ rows := by
  obtain ⟨newer, older, rfl, _⟩ := h
  simp

/-- A live row either decided its key or came too late, after an effective free row. -/
theorem exists_firstLive_or_effectiveFree {rows : List XrefRow} {key : QpdfObjGen}
    {entry : XrefEntry} (h : .live key entry ∈ rows) :
    (∃ entry', FirstLive rows key entry') ∨ EffectiveFree rows key.object := by
  induction rows using List.reverseRecOn generalizing entry with
  | nil => simp at h
  | append_singleton rows row ih =>
    simp only [firstLive_concat, effectiveFree_concat]
    by_cases hmem : ∃ entry', .live key entry' ∈ rows
    · obtain ⟨entry', hmem⟩ := hmem
      rcases ih hmem with ⟨first, hfirst⟩ | hfree
      · exact .inl ⟨first, .inl hfirst⟩
      · exact .inr (.inl hfree)
    · have hrow : .live key entry = row := by
        rcases List.mem_append.mp h with h | h
        · exact absurd ⟨entry, h⟩ hmem
        · simpa using h
      by_cases hfree : EffectiveFree rows key.object
      · exact .inr (.inl hfree)
      · exact .inl ⟨entry, .inr ⟨hrow.symm, fun entry' he => hmem ⟨entry', he⟩, hfree⟩⟩

/-! ## The registration computes the reference reading -/

theorem objectNumber?_eq_some {key : QpdfObjGen} {n : ℕ} :
    objectNumber? key = some n ↔ key.object = n := by
  unfold objectNumber?
  by_cases h : 0 ≤ key.object
  · rw [if_pos h, Option.some.injEq]
    omega
  · rw [if_neg h]
    simp only [reduceCtorEq, false_iff]
    omega

theorem objectNumber?_eq_none {key : QpdfObjGen} : objectNumber? key = none ↔ key.object < 0 := by
  unfold objectNumber?
  by_cases h : 0 ≤ key.object
  · simp [h]
  · rw [if_neg h]
    simp only [true_iff]
    omega

theorem insertXrefEntry_deletedObjects (s : XrefRegistration) (key : QpdfObjGen)
    (entry : XrefEntry) : (s.insertXrefEntry key entry).deletedObjects = s.deletedObjects := by
  unfold insertXrefEntry
  cases objectNumber? key with
  | none => rfl
  | some n =>
    by_cases hdel : n ∈ s.deletedObjects
    · simp only [if_pos hdel]
    · by_cases hraw : key ∈ s.rawEntries
      · simp only [if_neg hdel, if_pos hraw]
      · simp only [if_neg hdel, if_neg hraw]

/-- Which lookups a live row changes. -/
theorem insertXrefEntry_getElem? (s : XrefRegistration) (key key' : QpdfObjGen)
    (entry entry' : XrefEntry) :
    (s.insertXrefEntry key entry).rawEntries[key']? = some entry' ↔
      s.rawEntries[key']? = some entry' ∨
        (key = key' ∧ entry = entry') ∧ key ∉ s.rawEntries ∧
          ∃ n : ℕ, key.object = n ∧ n ∉ s.deletedObjects := by
  unfold insertXrefEntry
  cases hnum : objectNumber? key with
  | none =>
    rw [objectNumber?_eq_none] at hnum
    simp only [iff_self_or]
    rintro ⟨_, _, n, hn, _⟩
    omega
  | some n =>
    rw [objectNumber?_eq_some] at hnum
    have hn : (∃ m : ℕ, key.object = (m : ℤ) ∧ m ∉ s.deletedObjects) ↔ n ∉ s.deletedObjects := by
      constructor
      · rintro ⟨m, hm, hdel⟩
        have : m = n := by omega
        rwa [← this]
      · intro hdel
        exact ⟨n, hnum, hdel⟩
    rw [hn]
    by_cases hdel : n ∈ s.deletedObjects
    · simp [hdel]
    by_cases hraw : key ∈ s.rawEntries
    · simp [hdel, hraw]
    simp only [if_neg hdel, if_neg hraw, getElem?_insert_ite]
    by_cases hkey : key = key'
    · subst hkey
      simp [hraw, hdel]
    · simp [hkey]

/-- Which numbers a free row suppresses. -/
theorem mem_insertFreeXrefEntry_deletedObjects (s : XrefRegistration) (key : QpdfObjGen) (n : ℕ) :
    n ∈ (s.insertFreeXrefEntry key).deletedObjects ↔
      n ∈ s.deletedObjects ∨ key.object = (n : ℤ) ∧ key ∉ s.rawEntries := by
  unfold insertFreeXrefEntry
  cases hnum : objectNumber? key with
  | none =>
    rw [objectNumber?_eq_none] at hnum
    simp only [iff_self_or]
    omega
  | some m =>
    rw [objectNumber?_eq_some] at hnum
    by_cases hraw : key ∈ s.rawEntries
    · simp [hraw]
    · have hinsert : n ∈ s.deletedObjects.insert m ↔ n ∈ s.deletedObjects ∨ m = n := by
        rw [ExtTreeSet.mem_insert, LawfulEqOrd.compare_eq_iff_eq, or_comm]
      simp only [hraw, if_false, hinsert, not_false_eq_true, and_true, hnum, Int.natCast_inj]

theorem register_concat (rows : List XrefRow) (row : XrefRow) :
    register (rows ++ [row]) = (register rows).step (rowOp row) := by
  simp [register, run]

/-- What the two sets of a registration stand for after a run of rows. -/
structure Registered (s : XrefRegistration) (rows : List XrefRow) : Prop where
  raw : ∀ key entry, s.rawEntries[key]? = some entry ↔ 0 ≤ key.object ∧ FirstLive rows key entry
  deleted : ∀ n : ℕ, n ∈ s.deletedObjects ↔ EffectiveFree rows n

theorem Registered.mem_raw {s : XrefRegistration} {rows : List XrefRow} (h : Registered s rows)
    (key : QpdfObjGen) :
    key ∈ s.rawEntries ↔ 0 ≤ key.object ∧ ∃ entry, FirstLive rows key entry := by
  rw [ExtTreeMap.mem_iff_isSome_getElem?, Option.isSome_iff_exists]
  simp only [h.raw, exists_and_left]

theorem registered_nil : Registered (register []) [] where
  raw key entry := by
    simp [register, run, new, firstLive_nil]
  deleted n := by
    simp [register, run, new, effectiveFree_nil]

/-- One more row keeps both readings. -/
theorem Registered.concat {s : XrefRegistration} {rows : List XrefRow} (h : Registered s rows)
    (row : XrefRow) : Registered (s.step (rowOp row)) (rows ++ [row]) := by
  cases row with
  | live key entry =>
    constructor
    · intro key' entry'
      rw [rowOp, step, insertXrefEntry_getElem?, h.raw, firstLive_concat, h.mem_raw, and_or_left]
      apply or_congr_right
      constructor
      · rintro ⟨⟨rfl, rfl⟩, hfirst, n, hn, hdel⟩
        rw [h.deleted, ← hn] at hdel
        have hpos : 0 ≤ key.object := by omega
        refine ⟨hpos, rfl, ?_, hdel⟩
        intro entry' hmem
        rcases exists_firstLive_or_effectiveFree hmem with hlive | hfree
        · exact hfirst ⟨hpos, hlive⟩
        · exact hdel hfree
      · rintro ⟨hpos, hrow, hlive, hfree⟩
        obtain ⟨rfl, rfl⟩ : key = key' ∧ entry = entry' := by
          simpa using hrow
        refine ⟨⟨rfl, rfl⟩, ?_, key.object.toNat, (Int.toNat_of_nonneg hpos).symm, ?_⟩
        · rintro ⟨_, first, hfirst⟩
          exact hlive first hfirst.mem
        · rwa [h.deleted, Int.toNat_of_nonneg hpos]
    · intro n
      rw [rowOp, step, insertXrefEntry_deletedObjects, h.deleted, effectiveFree_concat]
      simp
  | free key =>
    constructor
    · intro key' entry'
      rw [rowOp, step, insertFreeXrefEntry_rawEntries, h.raw, firstLive_concat]
      simp
    · intro n
      rw [rowOp, step, mem_insertFreeXrefEntry_deletedObjects, h.deleted, effectiveFree_concat,
        h.mem_raw]
      -- A free row whose key has live rows but no first one adds no new number.
      constructor
      · rintro (hfree | ⟨hobject, hraw⟩)
        · exact .inl hfree
        · by_cases hlive : ∃ entry, .live key entry ∈ rows
          · obtain ⟨entry, hmem⟩ := hlive
            rcases exists_firstLive_or_effectiveFree hmem with hfirst | hfree
            · exact absurd ⟨by omega, hfirst⟩ hraw
            · exact .inl (hobject ▸ hfree)
          · exact .inr ⟨key, rfl, hobject, fun entry hmem => hlive ⟨entry, hmem⟩⟩
      · rintro (hfree | ⟨key', hrow, hobject, hlive⟩)
        · exact .inl hfree
        · obtain rfl : key = key' := by
            simpa using hrow
          refine .inr ⟨hobject, ?_⟩
          rintro ⟨_, first, hfirst⟩
          exact hlive first hfirst.mem

/-- Every run of rows is registered as the reference reading says. -/
theorem register_registered (rows : List XrefRow) : Registered (register rows) rows := by
  induction rows using List.reverseRecOn with
  | nil => exact registered_nil
  | append_singleton rows row ih =>
    rw [register_concat]
    exact ih.concat row

theorem EffectiveFree.append {rows : List XrefRow} {object : ℤ} (h : EffectiveFree rows object)
    (older : List XrefRow) : EffectiveFree (rows ++ older) object := by
  obtain ⟨newer, key, rest, rfl, hobject, hlive⟩ := h
  exact ⟨newer, key, rest ++ older, by simp, hobject, hlive⟩

theorem FirstLive.append {rows : List XrefRow} {key : QpdfObjGen} {entry : XrefEntry}
    (h : FirstLive rows key entry) (older : List XrefRow) :
    FirstLive (rows ++ older) key entry := by
  obtain ⟨newer, rest, rfl, hlive, hfree⟩ := h
  exact ⟨newer, rest ++ older, by simp, hlive, hfree⟩

/-- Once a number is suppressed, older rows decide no further key of it. -/
theorem FirstLive.of_append {rows older : List XrefRow} {key : QpdfObjGen} {entry : XrefEntry}
    (h : FirstLive (rows ++ older) key entry) (hfree : EffectiveFree rows key.object) :
    FirstLive rows key entry := by
  induction older using List.reverseRecOn with
  | nil => simpa using h
  | append_singleton older row ih =>
    rw [← List.append_assoc, firstLive_concat] at h
    rcases h with h | ⟨_, _, hnot⟩
    · exact ih h
    · exact absurd (hfree.append older) hnot

/-- The registration contract: the effective view follows every sequence of calls;
rows of nonnegative numbers are decided newest first, negative numbers are never
stored, and older rows change nothing that newer rows decided or suppressed;
the cleanup leaves each positive number its highest generation. -/
theorem registration_precedence {Handle : Type} :
    (∀ ops, IsEffective (run ops).rawEntries (run ops).entries) ∧
    (∀ rows (key : QpdfObjGen) entry, (register rows).rawEntries[key]? = some entry ↔
      0 ≤ key.object ∧ FirstLive rows key entry) ∧
    (∀ rows older (key : QpdfObjGen) entry, (register rows).rawEntries[key]? = some entry →
      (register (rows ++ older)).rawEntries[key]? = some entry) ∧
    (∀ rows older (key : QpdfObjGen), EffectiveFree rows key.object →
      (register (rows ++ older)).rawEntries[key]? = (register rows).rawEntries[key]?) ∧
    (∀ (loaded : Loaded Handle) (object generation : ℤ) entry, 0 < object →
      ((discardLowerGenerations loaded).1.rawEntries[(⟨object, generation⟩ : QpdfObjGen)]? =
          some entry ↔
        loaded.rawEntries[(⟨object, generation⟩ : QpdfObjGen)]? = some entry ∧
          ∀ generation', (⟨object, generation'⟩ : QpdfObjGen) ∈ loaded.rawEntries →
            generation' ≤ generation)) ∧
    (∀ loaded : Loaded Handle, IsEffective loaded.rawEntries loaded.entries →
      IsEffective (discardLowerGenerations loaded).1.rawEntries
        (discardLowerGenerations loaded).1.entries) := by
  have hraw : ∀ rows (key : QpdfObjGen) entry, (register rows).rawEntries[key]? = some entry ↔
      0 ≤ key.object ∧ FirstLive rows key entry :=
    fun rows => (register_registered rows).raw
  refine ⟨run_isEffective, hraw, ?_, ?_, ?_, ?_⟩
  · intro rows older key entry h
    rw [hraw] at h ⊢
    exact ⟨h.1, h.2.append older⟩
  · intro rows older key hfree
    ext entry
    rw [hraw, hraw]
    apply and_congr_right
    intro _
    exact ⟨fun h => h.of_append hfree, fun h => h.append older⟩
  · intro loaded object generation entry hobject
    exact discardLowerGenerations_highest loaded hobject generation entry
  · intro loaded h
    exact discardLowerGenerations_isEffective h

/-- A live row of a negative number is the first of its key and is still not stored. -/
theorem negative_live_row_ignored :
    FirstLive [.live ⟨-1, 0⟩ (.uncompressed 15)] ⟨-1, 0⟩ (.uncompressed 15) ∧
      (register [.live ⟨-1, 0⟩ (.uncompressed 15)]).rawEntries[(⟨-1, 0⟩ : QpdfObjGen)]? = none := by
  constructor
  · exact ⟨[], [], rfl, by simp, effectiveFree_nil _⟩
  · decide

end XrefRegistration

end Flpdf
