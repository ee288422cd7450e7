import Mathlib.Data.List.Basic

/-! # Slices of a list

`slice l i j` is the half-open range `l[i..j]` of the source, total on all
indices.  Adjacent slices join, and a slice grows by the element it reaches.
-/

namespace Flpdf

variable {α : Type*}

def slice (l : List α) (i j : ℕ) : List α := (l.drop i).take (j - i)

@[simp] theorem slice_self (l : List α) (i : ℕ) : slice l i i = [] := by simp [slice]

theorem slice_to_end (l : List α) (i : ℕ) : slice l i l.length = l.drop i := by
  simp [slice, List.take_of_length_le]

@[simp] theorem slice_length (l : List α) (i j : ℕ) :
    (slice l i j).length = min (j - i) (l.length - i) := by simp [slice]

theorem slice_length_of_le {l : List α} {i j : ℕ} (hj : j ≤ l.length) :
    (slice l i j).length = j - i := by
  rw [slice_length]
  omega

theorem slice_append_slice (l : List α) {i j k : ℕ} (hij : i ≤ j) (hjk : j ≤ k) :
    slice l i j ++ slice l j k = slice l i k := by
  obtain ⟨m, rfl⟩ := Nat.exists_eq_add_of_le hij
  obtain ⟨n, rfl⟩ := Nat.exists_eq_add_of_le hjk
  have hm : i + m - i = m := by omega
  have hn : i + m + n - (i + m) = n := by omega
  have hk : i + m + n - i = m + n := by omega
  rw [slice, slice, slice, hm, hn, hk, ← List.drop_drop, ← List.take_add]

theorem slice_append_drop (l : List α) {i j : ℕ} (hij : i ≤ j) :
    slice l i j ++ l.drop j = l.drop i := by
  obtain ⟨m, rfl⟩ := Nat.exists_eq_add_of_le hij
  have hm : i + m - i = m := by omega
  rw [slice, hm, ← List.drop_drop, List.take_append_drop]

theorem slice_succ {l : List α} {i j : ℕ} {a : α} (hij : i ≤ j) (ha : l[j]? = some a) :
    slice l i (j + 1) = slice l i j ++ [a] := by
  rw [← slice_append_slice l hij (Nat.le_succ j)]
  congr 1
  obtain ⟨hj, rfl⟩ := List.getElem?_eq_some_iff.mp ha
  have hone : j + 1 - j = 1 := by omega
  rw [slice, hone, List.drop_eq_getElem_cons hj]
  rfl

theorem drop_eq_cons_iff {l rest : List α} {i : ℕ} {a : α} :
    l.drop i = a :: rest ↔ l[i]? = some a ∧ l.drop (i + 1) = rest := by
  constructor
  · intro h
    have hi : i < l.length := by
      by_contra hc
      rw [List.drop_eq_nil_of_le (by omega)] at h
      cases h
    rw [List.drop_eq_getElem_cons hi] at h
    obtain ⟨rfl, rfl⟩ := List.cons.inj h
    exact ⟨List.getElem?_eq_getElem hi, rfl⟩
  · rintro ⟨ha, rfl⟩
    obtain ⟨hi, rfl⟩ := List.getElem?_eq_some_iff.mp ha
    exact List.drop_eq_getElem_cons hi

end Flpdf
