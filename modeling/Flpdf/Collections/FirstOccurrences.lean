import Mathlib.Data.List.Induction
import Mathlib.Data.List.Nodup
import Mathlib.Data.List.Sort
import Mathlib.Data.List.Pairwise

/-!
# First occurrences

A list of requests, of which each element is served once, in the order of the first requests.
Requests that come in rounds are served in ascending order exactly when no element is asked
for in an earlier round than a smaller one.
-/

namespace Flpdf

variable {α : Type*} [DecidableEq α]

/-- An element is put last, unless it is there. -/
def insertLast (served : List α) (a : α) : List α :=
  if a ∈ served then served else served ++ [a]

def firstOccurrences (requests : List α) : List α := requests.foldl insertLast []

theorem insertLast_of_mem {served : List α} {a : α} (h : a ∈ served) :
    insertLast served a = served := if_pos h

theorem insertLast_of_notMem {served : List α} {a : α} (h : a ∉ served) :
    insertLast served a = served ++ [a] := if_neg h

theorem mem_insertLast {served : List α} {a b : α} :
    b ∈ insertLast served a ↔ b ∈ served ∨ b = a := by
  by_cases h : a ∈ served
  · rw [insertLast_of_mem h]
    constructor
    · exact Or.inl
    · rintro (hb | rfl)
      · exact hb
      · exact h
  · rw [insertLast_of_notMem h, List.mem_append, List.mem_singleton]

theorem mem_foldl_insertLast {requests served : List α} {b : α} :
    b ∈ requests.foldl insertLast served ↔ b ∈ served ∨ b ∈ requests := by
  induction requests generalizing served with
  | nil => simp
  | cons a requests ih =>
    rw [List.foldl_cons, ih, mem_insertLast, List.mem_cons, or_assoc]

theorem mem_firstOccurrences {requests : List α} {b : α} :
    b ∈ firstOccurrences requests ↔ b ∈ requests := by
  rw [firstOccurrences, mem_foldl_insertLast]
  simp

/-- Requests for what is served change nothing. -/
theorem foldl_insertLast_of_subset {requests served : List α}
    (h : ∀ a ∈ requests, a ∈ served) : requests.foldl insertLast served = served := by
  induction requests with
  | nil => rfl
  | cons a requests ih =>
    rw [List.foldl_cons, insertLast_of_mem (h a List.mem_cons_self)]
    exact ih fun b hb => h b (List.mem_cons_of_mem a hb)

theorem firstOccurrences_concat (requests : List α) (a : α) :
    firstOccurrences (requests ++ [a]) = insertLast (firstOccurrences requests) a := by
  rw [firstOccurrences, List.foldl_append]
  rfl

/-- The elements stand in the order of their first requests. -/
theorem pairwise_firstOccurrences (requests : List α) :
    (firstOccurrences requests).Pairwise fun a b => requests.idxOf a < requests.idxOf b := by
  induction requests using List.reverseRecOn with
  | nil => exact List.Pairwise.nil
  | append_singleton requests x ih =>
    have hkeep : (firstOccurrences requests).Pairwise fun a b =>
        (requests ++ [x]).idxOf a < (requests ++ [x]).idxOf b := by
      refine ih.imp_of_mem ?_
      intro a b ha hb hab
      rw [List.idxOf_append_of_mem (mem_firstOccurrences.mp ha),
        List.idxOf_append_of_mem (mem_firstOccurrences.mp hb)]
      exact hab
    rw [firstOccurrences_concat]
    by_cases hx : x ∈ firstOccurrences requests
    · rw [insertLast_of_mem hx]
      exact hkeep
    · rw [insertLast_of_notMem hx, List.pairwise_append]
      refine ⟨hkeep, List.pairwise_singleton _ _, ?_⟩
      intro a ha b hb
      rw [List.mem_singleton] at hb
      subst hb
      have hmem := mem_firstOccurrences.mp ha
      have hnot : b ∉ requests := fun h => hx (mem_firstOccurrences.mpr h)
      rw [List.idxOf_append_of_mem hmem, List.idxOf_append_of_notMem hnot]
      have hlt := List.idxOf_lt_length_of_mem hmem
      omega

theorem nodup_firstOccurrences (requests : List α) : (firstOccurrences requests).Nodup :=
  (pairwise_firstOccurrences requests).imp fun h heq => absurd (heq ▸ h) (lt_irrefl _)

/-- What is served first stays in front. -/
theorem prefix_foldl_insertLast (requests served : List α) :
    served <+: requests.foldl insertLast served := by
  induction requests generalizing served with
  | nil => exact List.prefix_rfl
  | cons a requests ih =>
    refine List.IsPrefix.trans ?_ (ih (insertLast served a))
    by_cases h : a ∈ served
    · exact (insertLast_of_mem h).symm ▸ List.prefix_rfl
    · rw [insertLast_of_notMem h]
      exact List.prefix_append served [a]

theorem prefix_firstOccurrences_append (requests more : List α) :
    firstOccurrences requests <+: firstOccurrences (requests ++ more) := by
  rw [firstOccurrences, firstOccurrences, List.foldl_append]
  exact prefix_foldl_insertLast more _

/-! ## Two sections and a count

A list in two sections, and a count of the second one from which the length of the first is
taken as what is left.
-/

omit [DecidableEq α] in
/-- Counted from the end, the sections are the two that are wanted exactly when the elements
that are counted are those of the second section. -/
theorem sections_iff_counted {first rest counted : List α} (hnodup : (first ++ rest).Nodup)
    (hcounted : counted.Nodup) (hsub : counted ⊆ first ++ rest) :
    ((∀ u, u ∈ (first ++ rest).take ((first ++ rest).length - counted.length) ↔ u ∈ first) ∧
      (∀ u, u ∈ (first ++ rest).drop ((first ++ rest).length - counted.length) ↔
        u ∈ counted ∧ u ∉ first)) ↔
      ∀ u, u ∈ counted ↔ u ∈ rest := by
  have hle := (List.subperm_of_subset hcounted hsub).length_le
  obtain ⟨hfirst, hrest, hdisjoint⟩ := List.nodup_append'.mp hnodup
  constructor
  · rintro ⟨htake, hdrop⟩
    have hbehind : rest ⊆ counted := by
      intro u hu
      have hnot : u ∉ first := fun h => hdisjoint h hu
      have hmem := List.mem_append_right first hu
      rw [← List.take_append_drop ((first ++ rest).length - counted.length) (first ++ rest),
        List.mem_append] at hmem
      rcases hmem with hmem | hmem
      · exact absurd ((htake u).mp hmem) hnot
      · exact ((hdrop u).mp hmem).1
    have hlength : ((first ++ rest).take ((first ++ rest).length - counted.length)).length =
        first.length :=
      ((List.perm_ext_iff_of_nodup (hnodup.sublist (List.take_sublist _ _)) hfirst).mpr
        htake).length_eq
    rw [List.length_take, List.length_append] at hlength
    rw [List.length_append] at hle
    have hperm := (List.subperm_of_subset hrest hbehind).perm_of_length_le (by omega)
    intro u
    exact hperm.mem_iff.symm
  · intro hsame
    have hlength := ((List.perm_ext_iff_of_nodup hcounted hrest).mpr hsame).length_eq
    rw [List.length_append, hlength, Nat.add_sub_cancel, List.take_left, List.drop_left]
    refine ⟨fun u => Iff.rfl, ?_⟩
    intro u
    rw [hsame]
    exact ⟨fun h => ⟨h, fun hu => hdisjoint hu h⟩, And.left⟩

section SortByKey

variable {γ : Type*} (key : γ → ℕ)

/-- `sort_unstable_by_key`. -/
def sortByKey (l : List γ) : List γ := l.insertionSort fun a b => key a ≤ key b

theorem perm_sortByKey (l : List γ) : (sortByKey key l).Perm l := List.perm_insertionSort _ l

theorem pairwise_sortByKey (l : List γ) :
    (sortByKey key l).Pairwise fun a b => key a ≤ key b := by
  have : Std.Total fun a b : γ => key a ≤ key b := ⟨fun a b => le_total (key a) (key b)⟩
  have : IsTrans γ fun a b => key a ≤ key b := ⟨fun _ _ _ => le_trans⟩
  exact List.pairwise_insertionSort _ l

end SortByKey

section Order

variable {β : Type*} [LinearOrder β]

/-- The served elements ascend when of any two the smaller is asked for first. -/
theorem pairwise_lt_filter_firstOccurrences_iff (p : β → Bool) (requests : List β) :
    ((firstOccurrences requests).filter p).Pairwise (· < ·) ↔
      ∀ a ∈ requests, ∀ b ∈ requests, p a → p b → a < b →
        requests.idxOf a < requests.idxOf b := by
  have hserved := (pairwise_firstOccurrences requests).filter p
  constructor
  · intro hlt a ha b hb hpa hpb hab
    have hboth : ((firstOccurrences requests).filter p).Pairwise fun a b =>
        (a < b → requests.idxOf a < requests.idxOf b) ∧
          (b < a → requests.idxOf b < requests.idxOf a) :=
      (hlt.and hserved).imp fun h => ⟨fun _ => h.2, fun hba => absurd h.1 hba.asymm⟩
    have hmem : ∀ {c}, c ∈ requests → p c → c ∈ (firstOccurrences requests).filter p :=
      fun hc hpc => List.mem_filter.mpr ⟨mem_firstOccurrences.mpr hc, hpc⟩
    have : Std.Symm fun a b : β =>
        (a < b → requests.idxOf a < requests.idxOf b) ∧
          (b < a → requests.idxOf b < requests.idxOf a) := ⟨fun _ _ h => ⟨h.2, h.1⟩⟩
    exact (hboth.forall (hmem ha hpa) (hmem hb hpb) hab.ne).1 hab
  · intro h
    refine hserved.imp_of_mem ?_
    intro a b ha hb hlt
    rw [List.mem_filter, mem_firstOccurrences] at ha hb
    rcases lt_trichotomy a b with hab | rfl | hba
    · exact hab
    · exact absurd hlt (lt_irrefl _)
    · exact absurd (h b hb.1 a ha.1 hb.2 ha.2 hba) hlt.asymm

/-- In an ascending list the smaller element comes first. -/
theorem idxOf_lt_idxOf_of_pairwise {l : List β} (h : l.Pairwise (· < ·)) {a b : β} (ha : a ∈ l)
    (hb : b ∈ l) (hab : a < b) : l.idxOf a < l.idxOf b := by
  have hi := List.idxOf_lt_length_of_mem ha
  have hj := List.idxOf_lt_length_of_mem hb
  rcases lt_trichotomy (l.idxOf a) (l.idxOf b) with hlt | heq | hgt
  · exact hlt
  · exact absurd (List.idxOf_inj ha |>.mp heq) hab.ne
  · have hba := List.pairwise_iff_getElem.mp h _ _ hj hi hgt
    rw [List.getElem_idxOf, List.getElem_idxOf] at hba
    exact absurd hba hab.asymm

/-- Rounds of ascending requests, with everything asked for behind them: the smaller of two
elements comes first when each round that asks for the other has one no later that asks for
it. -/
theorem idxOf_lt_idxOf_rounds {rounds : List (List β)} {all : List β}
    (hrounds : ∀ round ∈ rounds, round.Pairwise (· < ·)) (hall : all.Pairwise (· < ·)) {a b : β}
    (ha : a ∈ all) (hb : b ∈ all) (hab : a < b) :
    (rounds.flatten ++ all).idxOf a < (rounds.flatten ++ all).idxOf b ↔
      ∀ (t : ℕ) (round : List β), rounds[t]? = some round → b ∈ round →
        ∃ t' ≤ t, ∃ round', rounds[t']? = some round' ∧ a ∈ round' := by
  induction rounds with
  | nil => simpa using idxOf_lt_idxOf_of_pairwise hall ha hb hab
  | cons round rounds ih =>
    have hround := hrounds round List.mem_cons_self
    have ih := ih fun r hr => hrounds r (List.mem_cons_of_mem _ hr)
    rw [List.flatten_cons, List.append_assoc]
    by_cases hra : a ∈ round
    · have hfirst : (round ++ (rounds.flatten ++ all)).idxOf a <
          (round ++ (rounds.flatten ++ all)).idxOf b := by
        rw [List.idxOf_append_of_mem hra]
        by_cases hrb : b ∈ round
        · rw [List.idxOf_append_of_mem hrb]
          exact idxOf_lt_idxOf_of_pairwise hround hra hrb hab
        · rw [List.idxOf_append_of_notMem hrb]
          have := List.idxOf_lt_length_of_mem hra
          omega
      constructor
      · intro _ t r _ _
        exact ⟨0, Nat.zero_le t, round, rfl, hra⟩
      · intro _
        exact hfirst
    · rw [List.idxOf_append_of_notMem hra]
      by_cases hrb : b ∈ round
      · have hlast : ¬round.length + (rounds.flatten ++ all).idxOf a <
            (round ++ (rounds.flatten ++ all)).idxOf b := by
          rw [List.idxOf_append_of_mem hrb]
          have := List.idxOf_lt_length_of_mem hrb
          omega
        constructor
        · intro h
          exact absurd h hlast
        · intro h
          obtain ⟨t', ht', round', hround', hmem⟩ := h 0 round rfl hrb
          obtain rfl : t' = 0 := by omega
          cases hround'
          exact absurd hmem hra
      · rw [List.idxOf_append_of_notMem hrb, Nat.add_lt_add_iff_left, ih]
        constructor
        · intro h t r hr hbr
          cases t with
          | zero =>
            cases hr
            exact absurd hbr hrb
          | succ t =>
            obtain ⟨t', ht', r', hr', har'⟩ := h t r hr hbr
            exact ⟨t' + 1, by omega, r', hr', har'⟩
        · intro h t r hr hbr
          obtain ⟨t', ht', r', hr', har'⟩ := h (t + 1) r hr hbr
          cases t' with
          | zero =>
            cases hr'
            exact absurd har' hra
          | succ t' => exact ⟨t', by omega, r', hr', har'⟩

end Order

end Flpdf
