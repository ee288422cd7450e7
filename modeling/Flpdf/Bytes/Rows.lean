import Mathlib.Data.List.Basic

/-! # Rows of a fixed width

Data arrives in pieces of any size and is worked on row by row: at every moment it
is some whole rows and the beginning of another one.
-/

namespace Flpdf

/-- Some data as whole rows and a part of a row. -/
structure Rows {α : Type} (width : ℕ) (data : List α) (rows : List (List α)) (part : List α) :
    Prop where
  data_eq : data = rows.flatten ++ part
  length_eq : ∀ row ∈ rows, row.length = width
  part_lt : part.length < width

/-- The data filled up to whole rows. -/
def padRows {α : Type} (width : ℕ) (zero : α) (data : List α) : List α :=
  data ++ List.replicate ((width - data.length % width) % width) zero

/-- The rows with the last one filled up. -/
def filledRows {α : Type} (width : ℕ) (zero : α) (rows : List (List α)) (part : List α) :
    List (List α) :=
  if part = [] then rows else rows ++ [part ++ List.replicate (width - part.length) zero]

namespace Rows

variable {α : Type} {width : ℕ} {data more : List α} {rows rows' : List (List α)}
  {part part' : List α}

theorem nil (h : 0 < width) : Rows width ([] : List α) [] [] where
  data_eq := rfl
  length_eq := nofun
  part_lt := h

/-- More data than the row takes begins another one. -/
theorem fill (h : Rows width data rows part) (hmore : part.length + more.length = width) :
    Rows width (data ++ more) (rows ++ [part ++ more]) [] where
  data_eq := by rw [h.data_eq, List.flatten_concat, List.append_nil, List.append_assoc]
  length_eq := by
    intro row hrow
    rcases List.mem_append.mp hrow with hold | hnew
    · exact h.length_eq row hold
    · rw [List.mem_singleton.mp hnew, List.length_append, hmore]
  part_lt := Nat.zero_lt_of_lt h.part_lt

theorem extend (h : Rows width data rows part) (hmore : part.length + more.length < width) :
    Rows width (data ++ more) rows (part ++ more) where
  data_eq := by rw [h.data_eq, List.append_assoc]
  length_eq := h.length_eq
  part_lt := by rw [List.length_append]; exact hmore

/-- Data falls into rows in one way. -/
theorem unique (h : Rows width data rows part) (h' : Rows width data rows' part') :
    rows = rows' ∧ part = part' := by
  induction rows generalizing data rows' with
  | nil =>
    cases rows' with
    | nil => exact ⟨rfl, h.data_eq.symm.trans h'.data_eq⟩
    | cons row' rows' =>
      have hlength := congrArg List.length (h.data_eq.symm.trans h'.data_eq)
      have hrow := h'.length_eq row' List.mem_cons_self
      have hpart := h.part_lt
      simp only [List.flatten_nil, List.nil_append, List.flatten_cons, List.length_append] at hlength
      omega
  | cons row rows ih =>
    have hrow := h.length_eq row List.mem_cons_self
    cases rows' with
    | nil =>
      have hlength := congrArg List.length (h.data_eq.symm.trans h'.data_eq)
      have hpart := h'.part_lt
      simp only [List.flatten_nil, List.nil_append, List.flatten_cons, List.length_append] at hlength
      omega
    | cons row' rows' =>
      have hrow' := h'.length_eq row' List.mem_cons_self
      have hdata := h.data_eq.symm.trans h'.data_eq
      rw [List.flatten_cons, List.flatten_cons, List.append_assoc, List.append_assoc] at hdata
      obtain ⟨rfl, hrest⟩ := List.append_inj hdata (hrow.trans hrow'.symm)
      have hrows : Rows width (rows.flatten ++ part) rows part :=
        ⟨rfl, fun row hmem => h.length_eq row (List.mem_cons_of_mem _ hmem), h.part_lt⟩
      have hrows' : Rows width (rows.flatten ++ part) rows' part' :=
        ⟨hrest, fun row hmem => h'.length_eq row (List.mem_cons_of_mem _ hmem), h'.part_lt⟩
      obtain ⟨rfl, rfl⟩ := ih hrows hrows'
      exact ⟨rfl, rfl⟩

theorem flatten_length (h : Rows width data rows part) :
    rows.flatten.length = width * rows.length := by
  have hlength := h.length_eq
  clear h
  induction rows with
  | nil => rfl
  | cons row rows ih =>
    rw [List.flatten_cons, List.length_append, hlength row List.mem_cons_self,
      ih fun row hrow => hlength row (List.mem_cons_of_mem _ hrow), List.length_cons, Nat.mul_succ,
      Nat.add_comm]

theorem length_mod (h : Rows width data rows part) : data.length % width = part.length := by
  rw [h.data_eq, List.length_append, h.flatten_length, Nat.mul_add_mod, Nat.mod_eq_of_lt h.part_lt]

/-- Whole rows say what the padded data is. -/
theorem flatten_filledRows (h : Rows width data rows part) (zero : α) :
    (filledRows width zero rows part).flatten = padRows width zero data := by
  have hlt := h.part_lt
  rw [padRows, h.length_mod, filledRows]
  by_cases hpart : part = []
  · subst hpart
    rw [if_pos rfl, h.data_eq, List.append_nil, List.length_nil, Nat.sub_zero, Nat.mod_self]
    exact (List.append_nil _).symm
  · have hpos := List.length_pos_of_ne_nil hpart
    rw [if_neg hpart, List.flatten_concat, h.data_eq, Nat.mod_eq_of_lt (by omega),
      List.append_assoc]

theorem filledRows_length (h : Rows width data rows part) (zero : α) :
    ∀ row ∈ filledRows width zero rows part, row.length = width := by
  intro row hrow
  rw [filledRows] at hrow
  split_ifs at hrow
  · exact h.length_eq row hrow
  · rcases List.mem_append.mp hrow with hold | hnew
    · exact h.length_eq row hold
    · have hlt := h.part_lt
      rw [List.mem_singleton.mp hnew, List.length_append, List.length_replicate]
      omega

end Rows

end Flpdf
