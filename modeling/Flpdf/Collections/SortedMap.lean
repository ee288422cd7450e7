import Mathlib.Data.List.Forall2
import Mathlib.Order.Basic

/-!
# Ordered maps

An ordered map is the list of its entries with ascending keys. Insertion keeps
the order, entries that come in order are appended, and asking for the next key
again and again visits every entry once.
-/

namespace Flpdf

open Std

variable {κ α : Type} [Ord κ] {key previous : κ} {value : α} {entries before after : List (κ × α)}
  {e : κ × α}

/-- `BTreeMap::insert` on the ordered list of the entries. -/
def insertSorted {κ α : Type} [Ord κ] (key : κ) (value : α) : List (κ × α) → List (κ × α)
  | [] => [(key, value)]
  | (k, v) :: entries =>
    match compare key k with
    | .lt => (key, value) :: (k, v) :: entries
    | .eq => (key, value) :: entries
    | .gt => (k, v) :: insertSorted key value entries

/-- The keys are in strictly ascending order. -/
def Ascending (entries : List (κ × α)) : Prop :=
  entries.Pairwise fun e e' => compare e.1 e'.1 = .lt

/-- The first entry, or the first behind a key. -/
def nextAfter (previous : Option κ) (entries : List (κ × α)) : Option (κ × α) :=
  entries.find? fun e =>
    match previous with
    | none => true
    | some key => compare key e.1 == .lt

theorem mem_insertSorted (h : e ∈ insertSorted key value entries) :
    e = (key, value) ∨ e ∈ entries := by
  induction entries with
  | nil => exact .inl (List.mem_singleton.mp h)
  | cons entry entries ih =>
    rw [insertSorted] at h
    cases hcompare : compare key entry.1 with
    | lt =>
      rw [hcompare] at h
      exact List.mem_cons.mp h
    | eq =>
      rw [hcompare] at h
      rcases List.mem_cons.mp h with heq | hmem
      · exact .inl heq
      · exact .inr (List.mem_cons_of_mem _ hmem)
    | gt =>
      rw [hcompare] at h
      rcases List.mem_cons.mp h with heq | hmem
      · exact .inr (heq ▸ List.mem_cons_self)
      · rcases ih hmem with heq | hmem
        · exact .inl heq
        · exact .inr (List.mem_cons_of_mem _ hmem)

theorem Ascending.insertSorted [TransOrd κ] [LawfulEqOrd κ] (h : Ascending entries) :
    Ascending (insertSorted key value entries) := by
  induction entries with
  | nil => exact List.pairwise_singleton _ _
  | cons entry entries ih =>
    obtain ⟨hhead, htail⟩ := List.pairwise_cons.mp h
    rw [Flpdf.insertSorted]
    cases hcompare : compare key entry.1 with
    | lt =>
      apply List.pairwise_cons.mpr ⟨?_, h⟩
      intro e he
      rcases List.mem_cons.mp he with rfl | he
      · exact hcompare
      · exact TransCmp.lt_trans hcompare (hhead e he)
    | eq =>
      obtain rfl := LawfulEqCmp.eq_of_compare hcompare
      exact List.pairwise_cons.mpr ⟨hhead, htail⟩
    | gt =>
      apply List.pairwise_cons.mpr ⟨?_, ih htail⟩
      intro e he
      rcases mem_insertSorted he with rfl | he
      · exact OrientedCmp.lt_of_gt hcompare
      · exact hhead e he

/-- A key behind all others goes to the end. -/
theorem insertSorted_last [OrientedOrd κ] (h : ∀ e ∈ entries, compare e.1 key = .lt) :
    insertSorted key value entries = entries ++ [(key, value)] := by
  induction entries with
  | nil => rfl
  | cons entry entries ih =>
    have hcompare : compare key entry.1 = .gt :=
      OrientedCmp.gt_of_lt (h entry List.mem_cons_self)
    rw [insertSorted, hcompare, List.cons_append, ← ih]
    intro e he
    exact h e (List.mem_cons_of_mem _ he)

/-- Entries that come in order build the map of these entries. -/
theorem foldl_insertSorted [OrientedOrd κ] (h : Ascending (before ++ entries)) :
    entries.foldl (fun map e => insertSorted e.1 e.2 map) before = before ++ entries := by
  induction entries generalizing before with
  | nil => rw [List.foldl_nil, List.append_nil]
  | cons entry entries ih =>
    rw [List.foldl_cons, insertSorted_last, ih, List.append_assoc, List.singleton_append]
    · rwa [List.append_assoc, List.singleton_append]
    · intro e he
      exact (List.pairwise_append.mp h).2.2 e he entry List.mem_cons_self

/-- Behind the last of the visited entries comes the first of the others. -/
theorem nextAfter_append [OrientedOrd κ]
    (h : Ascending (before ++ after)) :
    nextAfter (before.getLast?.map Prod.fst) (before ++ after) = after.head? := by
  cases before.eq_nil_or_concat with
  | inl hnil =>
    subst hnil
    rw [nextAfter, List.nil_append, List.getLast?_nil, Option.map_none]
    cases after <;> rfl
  | inr hconcat =>
    obtain ⟨front, last, rfl⟩ := hconcat
    have hnot : ∀ e ∈ front.concat last, ¬(compare last.1 e.1 == .lt) = true := by
      intro e he
      rw [List.concat_eq_append] at h he
      rw [List.append_assoc] at h
      rcases List.mem_append.mp he with hfront | hlast
      · have hlt := (List.pairwise_append.mp h).2.2 e hfront last List.mem_cons_self
        rw [OrientedCmp.gt_of_lt hlt]
        decide
      · obtain rfl := List.mem_singleton.mp hlast
        have hself : compare e.1 e.1 = .eq := ReflCmp.compare_self
        rw [hself]
        decide
    rw [List.concat_eq_append] at hnot h ⊢
    rw [nextAfter, List.getLast?_concat, Option.map_some, List.find?_append,
      List.find?_eq_none.mpr hnot, Option.none_or]
    cases after with
    | nil => rfl
    | cons entry after =>
      have hlt := (List.pairwise_append.mp h).2.2 last (by simp) entry List.mem_cons_self
      rw [List.find?_cons_of_pos, List.head?_cons]
      dsimp only
      rw [hlt]
      rfl

/-- The value of a key, as the map has it. -/
theorem lookup_append [BEq κ] [LawfulBEq κ] [ReflOrd κ] [OrientedOrd κ]
    (h : Ascending (before ++ (key, value) :: after)) :
    (before ++ (key, value) :: after).lookup key = some value := by
  induction before with
  | nil => exact List.lookup_cons_self
  | cons entry before ih =>
    obtain ⟨hhead, htail⟩ := List.pairwise_cons.mp h
    have hlt := hhead (key, value) (by simp)
    have hne : (key == entry.1) = false := by
      apply beq_eq_false_iff_ne.mpr
      rintro rfl
      have hself : compare entry.1 entry.1 = .eq := ReflCmp.compare_self
      rw [hself] at hlt
      cases hlt
    rw [List.cons_append, List.lookup_cons, hne]
    exact ih htail

section Lookups

variable [BEq κ] [LawfulBEq κ] [LawfulEqOrd κ]

/-- The inserted key has the inserted value, the others have what they had. -/
theorem lookup_insertSorted (key key' : κ) (value : α) (entries : List (κ × α)) :
    (insertSorted key value entries).lookup key' =
      if key' == key then some value else entries.lookup key' := by
  induction entries with
  | nil =>
    rw [insertSorted, List.lookup_cons]
    cases key' == key <;> rfl
  | cons entry entries ih =>
    obtain ⟨k, v⟩ := entry
    rw [insertSorted]
    cases hcompare : compare key k with
    | lt =>
      dsimp only
      rw [List.lookup_cons]
      cases key' == key <;> rfl
    | eq =>
      obtain rfl := LawfulEqCmp.eq_of_compare hcompare
      dsimp only
      rw [List.lookup_cons, List.lookup_cons]
      cases key' == key <;> rfl
    | gt =>
      dsimp only
      rw [List.lookup_cons, List.lookup_cons, ih]
      cases hk : key' == k with
      | false => rfl
      | true =>
        have hne : (key' == key) = false := by
          apply beq_eq_false_iff_ne.mpr
          rintro rfl
          rw [eq_of_beq hk, LawfulEqOrd.compare_eq_iff_eq.mpr rfl] at hcompare
          cases hcompare
        rw [hne]
        rfl

omit [Ord κ] [LawfulEqOrd κ] in
theorem mem_of_lookup (h : entries.lookup key = some value) : (key, value) ∈ entries := by
  obtain ⟨front, back, rfl, -⟩ := List.lookup_eq_some_iff.mp h
  exact List.mem_append_right _ List.mem_cons_self

/-- Of the entries of one key that are inserted the last is kept. -/
theorem lookup_foldl_insertSorted (key : κ) (entries map : List (κ × α)) :
    (entries.foldl (fun map e => insertSorted e.1 e.2 map) map).lookup key =
      (entries.reverse ++ map).lookup key := by
  induction entries generalizing map with
  | nil => rfl
  | cons entry entries ih =>
    rw [List.foldl_cons, ih, List.reverse_cons, List.append_assoc, List.lookup_append,
      List.lookup_append, lookup_insertSorted, List.singleton_append, List.lookup_cons]
    cases key == entry.1 <;> rfl

/-- Every entry is found under its key. -/
theorem Ascending.lookup_eq_some [OrientedOrd κ] (h : Ascending entries) :
    entries.lookup key = some value ↔ (key, value) ∈ entries := by
  constructor
  · exact mem_of_lookup
  · intro hmem
    obtain ⟨front, back, rfl⟩ := List.append_of_mem hmem
    exact lookup_append h

end Lookups

/-- A map that is built by insertion is in order. -/
theorem ascending_foldl_insertSorted [TransOrd κ] [LawfulEqOrd κ] (entries : List (κ × α))
    {map : List (κ × α)} (h : Ascending map) :
    Ascending (entries.foldl (fun map e => insertSorted e.1 e.2 map) map) := by
  induction entries generalizing map with
  | nil => exact h
  | cons entry entries ih => exact ih h.insertSorted

end Flpdf
