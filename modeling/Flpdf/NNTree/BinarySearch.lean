import Mathlib.Algebra.Order.Ring.Int

/-! # The binary search of the trees

The search walks with steps that are halved from a power of two on and may point past
the end.  While it does, the end of the block of indices that are not greater than
what is looked for stays within a window of twice the step.
-/

namespace Flpdf

namespace NNTree

variable {ε : Type}

/-- The smallest power of two from `maxIndex` on that reaches the count. -/
def growMaxIndex (count : ℕ) : ℕ → ℕ → ℕ
  | 0, maxIndex => maxIndex
  | fuel + 1, maxIndex => if maxIndex < count then growMaxIndex count fuel (2 * maxIndex) else maxIndex

/-- The answer at an index; past the end everything is greater than what is looked for. -/
def statusAt (count : ℕ) (compare : ℕ → Except ε Ordering) (index : ℕ) : Except ε Ordering :=
  if index < count then compare index else .ok .lt

/-- The loop of `binary_search`: whether an index was equal, and the last one that was not
greater than what is looked for. -/
def searchLoop (count : ℕ) (compare : ℕ → Except ε Ordering) :
    ℕ → ℕ → ℕ → ℕ → Option ℕ → Except ε (Bool × Option ℕ)
  | 0, _, _, _, foundIndex => .ok (false, foundIndex)
  | fuel + 1, step, checks, index, foundIndex =>
    if checks = 0 then .ok (false, foundIndex)
    else statusAt count compare index >>= fun status =>
      let foundIndex := if status ≠ .lt then some index else foundIndex
      if status = .eq then .ok (true, foundIndex)
      else
        let checks := checks / 2
        if 0 < checks then
          let step := if step / 2 = 0 then 1 else step / 2
          searchLoop count compare fuel step checks
            (if status = .lt then index - step else index + step) foundIndex
        else searchLoop count compare fuel step checks index foundIndex

def binarySearch (count : ℕ) (returnPreviousIfMissing : Bool) (compare : ℕ → Except ε Ordering) :
    Except ε (Option ℕ) := do
  let maxIndex := growMaxIndex count count 1
  let (found, foundIndex) ← searchLoop count compare maxIndex (maxIndex / 2) maxIndex (maxIndex / 2) none
  return if found || (foundIndex.isSome && returnPreviousIfMissing) then foundIndex else none

/-- The indices before `stop` are not greater than what is looked for, the others are; only
the last one before it can be equal. -/
structure Ordered (count stop : ℕ) (order : ℕ → Ordering) : Prop where
  stop_le : stop ≤ count
  not_lt : ∀ index < stop, order index ≠ .lt
  lt : ∀ index, stop ≤ index → index < count → order index = .lt
  eq : ∀ index < stop, order index = .eq → index + 1 = stop

variable {count stop fuel low step index exponent : ℕ} {order : ℕ → Ordering}
  {compare : ℕ → Except ε Ordering} {foundIndex : Option ℕ}

/-- What the search ends with. -/
def lastIndex (stop : ℕ) : Option ℕ := if stop = 0 then none else some (stop - 1)

theorem lastIndex_succ (index : ℕ) : lastIndex (index + 1) = some index := rfl

/-- Where an equal index would be. -/
def FoundAt (stop : ℕ) (order : ℕ → Ordering) : Prop := 0 < stop ∧ order (stop - 1) = .eq

/-- The window of the loop; all before `low` is not greater, and `low` itself when it has been
looked at. -/
structure Window (stop low exponent : ℕ) (order : ℕ → Ordering) (foundIndex : Option ℕ) : Prop where
  low_le : low ≤ stop
  le_high : stop ≤ low + 2 ^ exponent
  found : foundIndex = none ∧ low = 0 ∨ foundIndex = some low ∧ low < stop ∧ order low ≠ .eq

/-- The three answers at an index. -/
theorem statusAt_cases (h : Ordered count stop order)
    (hcompare : ∀ i < count, compare i = .ok (order i)) (index : ℕ) :
    (statusAt count compare index = .ok .lt ∧ stop ≤ index) ∨
      (statusAt count compare index = .ok .eq ∧ stop = index + 1 ∧ FoundAt stop order) ∨
      (statusAt count compare index = .ok .gt ∧ index < stop ∧ order index ≠ .eq) := by
  have hle := h.stop_le
  by_cases hstop : stop ≤ index
  · refine .inl ⟨?_, hstop⟩
    rw [statusAt]
    split_ifs with hindex
    · rw [hcompare index hindex, h.lt index hstop hindex]
    · rfl
  · have hindex : index < stop := Nat.not_le.mp hstop
    have hstatus : statusAt count compare index = .ok (order index) := by
      rw [statusAt, if_pos (by omega), hcompare index (by omega)]
    cases horder : order index with
    | lt => exact absurd horder (h.not_lt index hindex)
    | eq =>
      have hlast := h.eq index hindex horder
      refine .inr (.inl ⟨by rw [hstatus, horder], hlast.symm, by omega, ?_⟩)
      rw [← hlast, Nat.add_sub_cancel, horder]
    | gt => exact .inr (.inr ⟨by rw [hstatus, horder], hindex, nofun⟩)

theorem searchLoop_done (foundIndex : Option ℕ) :
    searchLoop count compare fuel step 0 index foundIndex = .ok (false, foundIndex) := by
  cases fuel with
  | zero => rfl
  | succ fuel => rw [searchLoop, if_pos rfl]

/-- The last round, with one check left. -/
theorem searchLoop_last (h : Ordered count stop order)
    (hcompare : ∀ i < count, compare i = .ok (order i)) (hwindow : Window stop low 0 order foundIndex)
    (hindex : index = low ∨ index = low + 1 ∧ foundIndex = some low) :
    ∃ found, searchLoop count compare (fuel + 1) step 1 index foundIndex =
      .ok (found, lastIndex stop) ∧ (found = true ↔ FoundAt stop order) := by
  have hhigh := hwindow.le_high
  have hlow := hwindow.low_le
  rw [searchLoop, if_neg Nat.one_ne_zero]
  rcases statusAt_cases h hcompare index with ⟨hstatus, hstop⟩ | ⟨hstatus, hstop, hequal⟩ |
    ⟨hstatus, hstop, hnot⟩
  · refine ⟨false, ?_, ?_⟩
    · have hfound : foundIndex = lastIndex stop := by
        rcases hwindow.found with ⟨hnone, hzero⟩ | ⟨hsome, hlow', -⟩
        · have hstop' : stop = 0 := by
            rcases hindex with hindex | ⟨-, hsome⟩
            · omega
            · cases hnone.symm.trans hsome
          rw [hnone, hstop']
          rfl
        · have hstop' : stop = low + 1 := by omega
          rw [hsome, hstop', lastIndex_succ]
      rw [hstatus, hfound]
      exact searchLoop_done _
    · rcases hwindow.found with ⟨hnone, hzero⟩ | ⟨-, hlow', hnot⟩
      · have hstop' : stop = 0 := by
          rcases hindex with hindex | ⟨-, hsome⟩
          · omega
          · cases hnone.symm.trans hsome
        exact iff_of_false nofun fun hequal => absurd hstop' (Nat.ne_of_gt hequal.1)
      · have hlast : stop - 1 = low := by omega
        refine iff_of_false nofun ?_
        rintro ⟨-, hequal⟩
        exact hnot (hlast ▸ hequal)
  · refine ⟨true, ?_, iff_of_true rfl hequal⟩
    rw [hstatus, hstop, lastIndex_succ]
    rfl
  · have hlast : stop = index + 1 := by omega
    refine ⟨false, ?_, iff_of_false nofun fun hequal => hnot ?_⟩
    · rw [hstatus, hlast, lastIndex_succ]
      exact searchLoop_done _
    · rw [← hequal.2, hlast, Nat.add_sub_cancel]

/-- The rounds with more than one check left. -/
theorem searchLoop_eq (h : Ordered count stop order)
    (hcompare : ∀ i < count, compare i = .ok (order i))
    (hwindow : Window stop low (exponent + 1) order foundIndex) (hfuel : exponent + 2 ≤ fuel) :
    ∃ found, searchLoop count compare fuel (2 ^ exponent) (2 ^ (exponent + 1)) (low + 2 ^ exponent)
        foundIndex = .ok (found, lastIndex stop) ∧ (found = true ↔ FoundAt stop order) := by
  induction exponent generalizing low foundIndex fuel with
  | zero =>
    obtain ⟨fuel, rfl⟩ := Nat.exists_eq_add_of_le' hfuel
    have hhigh : stop ≤ low + 2 := hwindow.le_high
    show ∃ found, searchLoop count compare (fuel + 1 + 1) 1 2 (low + 1) foundIndex = _ ∧ _
    rw [searchLoop, if_neg (by decide)]
    rcases statusAt_cases h hcompare (low + 1) with ⟨hstatus, hstop⟩ | ⟨hstatus, hstop, hequal⟩ |
      ⟨hstatus, hstop, hnot⟩
    · rw [hstatus]
      exact searchLoop_last h hcompare ⟨hwindow.low_le, hstop, hwindow.found⟩ (.inl rfl)
    · refine ⟨true, ?_, iff_of_true rfl hequal⟩
      rw [hstatus, hstop, lastIndex_succ]
      rfl
    · rw [hstatus]
      exact searchLoop_last h hcompare ⟨Nat.le_of_lt hstop, hhigh, .inr ⟨rfl, hstop, hnot⟩⟩ (.inr ⟨rfl, rfl⟩)
  | succ exponent ih =>
    obtain ⟨fuel, rfl⟩ := Nat.exists_eq_add_of_le' (Nat.le_of_succ_le hfuel)
    have hhigh := hwindow.le_high
    have hpos : 0 < 2 ^ exponent := Nat.two_pow_pos exponent
    have hdouble : 2 ^ (exponent + 1) = 2 * 2 ^ exponent := Nat.pow_succ'
    have hdouble' : 2 ^ (exponent + 1 + 1) = 2 * 2 ^ (exponent + 1) := Nat.pow_succ'
    have hchecks : 2 ^ (exponent + 1 + 1) / 2 = 2 ^ (exponent + 1) := by omega
    have hstep : (if 2 ^ (exponent + 1) / 2 = 0 then 1 else 2 ^ (exponent + 1) / 2) = 2 ^ exponent := by
      rw [if_neg (by omega)]
      omega
    show ∃ found, searchLoop count compare (fuel + (exponent + 1) + 1) _ _ _ foundIndex = _ ∧ _
    rw [searchLoop, if_neg (by omega)]
    dsimp only
    rw [hchecks, hstep]
    rcases statusAt_cases h hcompare (low + 2 ^ (exponent + 1)) with ⟨hstatus, hstop⟩ |
      ⟨hstatus, hstop, hequal⟩ | ⟨hstatus, hstop, hnot⟩
    · have hindex : low + 2 ^ (exponent + 1) - 2 ^ exponent = low + 2 ^ exponent := by omega
      rw [hstatus]
      simp only [bind, Except.bind]
      rw [if_neg (by decide), if_pos (Nat.two_pow_pos _), if_pos trivial, hindex]
      exact ih ⟨hwindow.low_le, hstop, hwindow.found⟩ (by omega)
    · refine ⟨true, ?_, iff_of_true rfl hequal⟩
      rw [hstatus, hstop, lastIndex_succ]
      rfl
    · rw [hstatus]
      simp only [bind, Except.bind]
      rw [if_neg (by decide), if_pos (Nat.two_pow_pos _), if_neg (by decide)]
      exact ih ⟨Nat.le_of_lt hstop, by omega, .inr ⟨rfl, hstop, hnot⟩⟩ (by omega)

/-- The power of two is the first that reaches the count. -/
theorem growMaxIndex_eq (count : ℕ) (hfuel : count ≤ 2 ^ exponent + fuel) :
    ∃ exponent', growMaxIndex count fuel (2 ^ exponent) = 2 ^ exponent' ∧ count ≤ 2 ^ exponent' := by
  induction fuel generalizing exponent with
  | zero => exact ⟨exponent, rfl, hfuel⟩
  | succ fuel ih =>
    rw [growMaxIndex]
    by_cases hless : 2 ^ exponent < count
    · have hpos : 0 < 2 ^ exponent := Nat.two_pow_pos exponent
      have hdouble : 2 ^ (exponent + 1) = 2 * 2 ^ exponent := Nat.pow_succ'
      rw [if_pos hless, ← hdouble]
      exact ih (by omega)
    · rw [if_neg hless]
      exact ⟨exponent, rfl, Nat.not_lt.mp hless⟩

/-- The search gives the last index that is not greater, when it is equal or the previous one
is asked for. -/
theorem binarySearch_eq (h : Ordered count stop order) (returnPreviousIfMissing : Bool)
    (hcompare : ∀ i < count, compare i = .ok (order i)) :
    ∃ found : Bool, binarySearch count returnPreviousIfMissing compare =
        .ok (if found || returnPreviousIfMissing then lastIndex stop else none) ∧
      (found = true ↔ FoundAt stop order) := by
  obtain ⟨exponent, hgrow, hcount⟩ := @growMaxIndex_eq count 0 count (by omega)
  have hle := h.stop_le
  have hsearch : ∃ found, searchLoop count compare (2 ^ exponent) (2 ^ exponent / 2) (2 ^ exponent)
      (2 ^ exponent / 2) none = .ok (found, lastIndex stop) ∧ (found = true ↔ FoundAt stop order) := by
    cases exponent with
    | zero => exact searchLoop_last h hcompare ⟨Nat.zero_le _, by omega, .inl ⟨rfl, rfl⟩⟩ (.inl rfl)
    | succ exponent =>
      have hhalf : 2 ^ (exponent + 1) / 2 = 2 ^ exponent := by
        rw [Nat.pow_succ, Nat.mul_div_cancel _ (by decide)]
      have hfuel : exponent + 1 < 2 ^ (exponent + 1) := Nat.lt_two_pow_self
      have hrounds := searchLoop_eq h hcompare ⟨Nat.zero_le _, by omega, .inl ⟨rfl, rfl⟩⟩ hfuel
      rw [Nat.zero_add] at hrounds
      rwa [hhalf]
  obtain ⟨found, hloop, hfound⟩ := hsearch
  refine ⟨found, ?_, hfound⟩
  rw [Nat.pow_zero] at hgrow
  rw [binarySearch]
  dsimp only
  rw [hgrow, hloop]
  have hsome : lastIndex stop = if (lastIndex stop).isSome then lastIndex stop else none := by
    cases lastIndex stop <;> rfl
  cases found
  · cases returnPreviousIfMissing
    · simp [bind, Except.bind, pure, Except.pure]
    · simp [bind, Except.bind, pure, Except.pure, ← hsome]
  · rfl

/-! ## Machine words

The search on words of `width` bits, which leaves the loops only by themselves: the fuel that
runs out gives no answer.  A shift drops the bit that does not fit.
-/

/-- The first loop of `binary_search`. -/
def growWord (width count : ℕ) : ℕ → ℕ → Option ℕ
  | 0, _ => none
  | fuel + 1, maxIndex =>
    if maxIndex < count then growWord width count fuel (2 * maxIndex % 2 ^ width) else some maxIndex

/-- The second loop of `binary_search`. -/
def searchWord (width count : ℕ) (compare : ℕ → Except ε Ordering) :
    ℕ → ℕ → ℕ → ℕ → Option ℕ → Option (Except ε (Bool × Option ℕ))
  | 0, _, _, _, _ => none
  | fuel + 1, step, checks, index, foundIndex =>
    if checks = 0 then some (.ok (false, foundIndex))
    else
      match statusAt count compare index with
      | .error error => some (.error error)
      | .ok status =>
        let foundIndex := if status ≠ .lt then some index else foundIndex
        if status = .eq then some (.ok (true, foundIndex))
        else
          let checks := checks / 2
          if 0 < checks then
            let step := if step / 2 = 0 then 1 else step / 2
            searchWord width count compare fuel step checks
              (if status = .lt then index - step else min (index + step) (2 ^ width - 1))
              foundIndex
          else searchWord width count compare fuel step checks index foundIndex

def binarySearchWord (width fuel count : ℕ) (returnPreviousIfMissing : Bool)
    (compare : ℕ → Except ε Ordering) : Option (Except ε (Option ℕ)) :=
  (growWord width count fuel 1).bind fun maxIndex =>
    (searchWord width count compare fuel (maxIndex / 2) maxIndex (maxIndex / 2) none).map
      fun result => result.map fun search =>
        if search.1 || (search.2.isSome && returnPreviousIfMissing) then search.2 else none

variable {width checks maxIndex fuel' : ℕ}

/-- Up to half the range of the words the shift drops nothing. -/
theorem growWord_eq (hcount : count ≤ 2 ^ width) (hexponent : exponent ≤ width)
    (hfuel : count ≤ 2 ^ exponent + fuel) (hless : fuel < fuel') :
    growWord (width + 1) count fuel' (2 ^ exponent) =
        some (growMaxIndex count fuel (2 ^ exponent)) ∧
      growMaxIndex count fuel (2 ^ exponent) ≤ 2 ^ width := by
  induction fuel generalizing exponent fuel' with
  | zero =>
    obtain ⟨fuel', rfl⟩ := Nat.exists_eq_add_of_le' hless
    refine ⟨?_, Nat.pow_le_pow_right (by decide) hexponent⟩
    rw [growWord, if_neg (by omega)]
    rfl
  | succ fuel ih =>
    obtain ⟨fuel', rfl⟩ := Nat.exists_eq_add_of_le' (Nat.zero_lt_of_lt hless)
    rw [growWord, growMaxIndex]
    by_cases hmore : 2 ^ exponent < count
    · have hlt : exponent < width :=
        (Nat.pow_lt_pow_iff_right Nat.one_lt_two).mp (Nat.lt_of_lt_of_le hmore hcount)
      have hdouble : 2 * 2 ^ exponent = 2 ^ (exponent + 1) := Nat.pow_succ'.symm
      have hpos : 0 < 2 ^ exponent := Nat.two_pow_pos exponent
      have hfits : 2 ^ (exponent + 1) < 2 ^ (width + 1) :=
        Nat.pow_lt_pow_right (by decide) (by omega)
      rw [if_pos hmore, if_pos hmore, hdouble, Nat.mod_eq_of_lt hfits]
      exact ih hlt (by omega) (by omega)
    · rw [if_neg hmore, if_neg hmore]
      exact ⟨rfl, Nat.pow_le_pow_right (by decide) hexponent⟩

/-- Every round halves the checks, and the index stays in the range of the words. -/
theorem searchWord_eq (hchecks : checks < 2 ^ exponent) (hstep : step ≤ checks)
    (hindex : index + checks < 2 ^ width) (hfuel : exponent ≤ fuel) (hless : exponent < fuel') :
    searchWord width count compare fuel' step checks index foundIndex =
      some (searchLoop count compare fuel step checks index foundIndex) := by
  induction exponent generalizing step checks index foundIndex fuel fuel' with
  | zero =>
    obtain rfl : checks = 0 := by omega
    obtain ⟨fuel', rfl⟩ := Nat.exists_eq_add_of_le' hless
    rw [searchWord, if_pos rfl, searchLoop_done]
  | succ exponent ih =>
    obtain ⟨fuel, rfl⟩ := Nat.exists_eq_add_of_le' (Nat.zero_lt_of_lt hfuel)
    obtain ⟨fuel', rfl⟩ := Nat.exists_eq_add_of_le' (Nat.zero_lt_of_lt hless)
    rw [searchWord, searchLoop]
    by_cases hzero : checks = 0
    · rw [if_pos hzero, if_pos hzero]
    · rw [if_neg hzero, if_neg hzero]
      have hhalf : checks / 2 < 2 ^ exponent := by
        rw [Nat.pow_succ] at hchecks
        omega
      cases statusAt count compare index with
      | error error => rfl
      | ok status =>
        simp only [bind, Except.bind]
        by_cases hequal : status = .eq
        · rw [if_pos hequal, if_pos hequal]
        · rw [if_neg hequal, if_neg hequal]
          by_cases hmore : 0 < checks / 2
          · have hnext : (if step / 2 = 0 then 1 else step / 2) ≤ checks / 2 := by
              split_ifs <;> omega
            rw [if_pos hmore, if_pos hmore]
            generalize (if step / 2 = 0 then 1 else step / 2) = next at hnext ⊢
            have hmin : min (index + next) (2 ^ width - 1) = index + next := by omega
            rw [hmin]
            exact ih hhalf hnext (by split_ifs <;> omega) (by omega) (by omega)
          · rw [if_neg hmore, if_neg hmore]
            have hdone : checks / 2 = 0 := by omega
            rw [hdone, searchLoop_done]
            obtain ⟨fuel', rfl⟩ := Nat.exists_eq_add_of_le' (show 1 ≤ fuel' by omega)
            rw [searchWord, if_pos rfl]

/-- Up to half the range of the words the search ends. -/
theorem binarySearchWord_eq (hcount : count ≤ 2 ^ width) (returnPreviousIfMissing : Bool)
    (compare : ℕ → Except ε Ordering) (hfuel : count + width + 2 ≤ fuel) :
    binarySearchWord (width + 1) fuel count returnPreviousIfMissing compare =
      some (binarySearch count returnPreviousIfMissing compare) := by
  obtain ⟨hgrow, hle⟩ := @growWord_eq count count 0 width fuel hcount (Nat.zero_le _) (by omega)
    (by omega)
  obtain ⟨exponent, hpower, -⟩ := @growMaxIndex_eq count 0 count (by omega)
  rw [Nat.pow_zero] at hgrow hle hpower
  have hexponent : exponent ≤ width := by
    rw [hpower] at hle
    exact (Nat.pow_le_pow_iff_right Nat.one_lt_two).mp hle
  have hpos : 0 < 2 ^ exponent := Nat.two_pow_pos exponent
  have hself : exponent < 2 ^ exponent := Nat.lt_two_pow_self
  have hdouble : 2 ^ (exponent + 1) = 2 * 2 ^ exponent := Nat.pow_succ'
  have hrange : 2 ^ (exponent + 1) ≤ 2 ^ (width + 1) :=
    Nat.pow_le_pow_right (by decide) (by omega)
  have hsearch := @searchWord_eq ε count (2 ^ exponent) (2 ^ exponent / 2) (2 ^ exponent / 2)
    (exponent + 1) compare none (width + 1) (2 ^ exponent) fuel (by omega) (by omega) (by omega)
    (by omega) (by omega)
  rw [binarySearchWord, hgrow, Option.bind_some, hpower, hsearch, Option.map_some, binarySearch]
  dsimp only
  rw [hpower]
  cases searchLoop count compare (2 ^ exponent) (2 ^ exponent / 2) (2 ^ exponent)
    (2 ^ exponent / 2) none <;> rfl

/-- Behind half the range the first loop does not end. -/
theorem growWord_eq_none (hcount : 2 ^ width < count)
    (hmaxIndex : maxIndex = 0 ∨ ∃ exponent ≤ width, maxIndex = 2 ^ exponent) :
    growWord (width + 1) count fuel maxIndex = none := by
  induction fuel generalizing maxIndex with
  | zero => rfl
  | succ fuel ih =>
    have hless : maxIndex < count := by
      rcases hmaxIndex with rfl | ⟨exponent, hle, rfl⟩
      · exact Nat.lt_of_lt_of_le (Nat.two_pow_pos width) (Nat.le_of_lt hcount)
      · exact Nat.lt_of_le_of_lt (Nat.pow_le_pow_right Nat.two_pos hle) hcount
    rw [growWord, if_pos hless]
    apply ih
    rcases hmaxIndex with rfl | ⟨exponent, hle, rfl⟩
    · exact .inl (Nat.zero_mod _)
    · rw [← Nat.pow_succ']
      rcases Nat.lt_or_eq_of_le hle with hlt | rfl
      · have hfits : 2 ^ (exponent + 1) < 2 ^ (width + 1) :=
          Nat.pow_lt_pow_right (by decide) (by omega)
        exact .inr ⟨exponent + 1, hlt, Nat.mod_eq_of_lt hfits⟩
      · exact .inl (Nat.mod_self _)

/-- What the search is to answer: the equal index, else the last greater one when it is asked
for. -/
def Answers (count : ℕ) (order : ℕ → Ordering) (returnPreviousIfMissing : Bool) :
    Option ℕ → Prop
  | some index =>
    index < count ∧
      (order index = .eq ∨
        (∀ i < count, order i ≠ .eq) ∧ returnPreviousIfMissing ∧ order index = .gt ∧
          ∀ i < count, order i = .gt → i ≤ index)
  | none => ∀ i < count, order i ≠ .eq ∧ (returnPreviousIfMissing → order i ≠ .gt)

/-- The answer on words of 64 bits, for a count of at most half their range. -/
theorem binarySearchWord_answers (count stop : ℕ) (order : ℕ → Ordering)
    (returnPreviousIfMissing : Bool) (compare : ℕ → Except ε Ordering) (hcount : count ≤ 2 ^ 63)
    (hcompare : ∀ i < count, compare i = .ok (order i)) (h : Ordered count stop order) :
    ∃ fuel answer, (∀ fuel' ≥ fuel,
        binarySearchWord 64 fuel' count returnPreviousIfMissing compare = some (.ok answer)) ∧
      Answers count order returnPreviousIfMissing answer := by
  obtain ⟨found, hsearch, hfound⟩ := binarySearch_eq h returnPreviousIfMissing hcompare
  have hle := h.stop_le
  refine ⟨count + 65, if found || returnPreviousIfMissing then lastIndex stop else none, ?_, ?_⟩
  · intro fuel' hfuel
    rw [← hsearch]
    exact binarySearchWord_eq hcount returnPreviousIfMissing compare hfuel
  · have hequal : ∀ i < count, order i = .eq → i + 1 = stop := by
      intro i hi horder
      by_cases hstop : i < stop
      · exact h.eq i hstop horder
      · rw [h.lt i (by omega) hi] at horder
        cases horder
    have hgreater : ∀ i < count, order i = .gt → i < stop := by
      intro i hi horder
      by_contra hstop
      rw [h.lt i (by omega) hi] at horder
      cases horder
    cases found with
    | true =>
      obtain ⟨hpos, horder⟩ := hfound.mp rfl
      rw [Bool.true_or, if_pos rfl, lastIndex, if_neg (by omega)]
      exact ⟨by omega, .inl horder⟩
    | false =>
      have hnone : ∀ i < count, order i ≠ .eq := by
        intro i hi horder
        have hstop := hequal i hi horder
        refine Bool.false_ne_true (hfound.mpr ⟨by omega, ?_⟩)
        rw [← hstop, Nat.add_sub_cancel, horder]
      cases returnPreviousIfMissing with
      | false => exact fun i hi => ⟨hnone i hi, nofun⟩
      | true =>
        rw [Bool.false_or, if_pos rfl, lastIndex]
        by_cases hzero : stop = 0
        · rw [if_pos hzero]
          intro i hi
          refine ⟨hnone i hi, fun _ horder => ?_⟩
          have := hgreater i hi horder
          omega
        · rw [if_neg hzero]
          have hlast : order (stop - 1) = .gt := by
            cases horder : order (stop - 1) with
            | lt => exact absurd horder (h.not_lt (stop - 1) (by omega))
            | eq => exact absurd horder (hnone (stop - 1) (by omega))
            | gt => rfl
          refine ⟨by omega, .inr ⟨hnone, rfl, hlast, ?_⟩⟩
          intro i hi horder
          have := hgreater i hi horder
          omega

theorem binarySearchWord_answers_two :
    ∃ fuel answer, (∀ fuel' ≥ fuel,
        @binarySearchWord Unit 64 fuel' 2 true
          (fun index => .ok (if index = 0 then .gt else .lt)) = some (.ok answer)) ∧
      Answers 2 (fun index => if index = 0 then .gt else .lt) true answer := by
  refine binarySearchWord_answers 2 1 (fun index => if index = 0 then .gt else .lt) true _
    (by decide) (fun _ _ => rfl) ⟨by decide, ?_, ?_, ?_⟩
  · intro index hindex
    rw [Nat.lt_one_iff.mp hindex]
    decide
  · intro index hindex _
    rw [if_neg (by omega)]
  · intro index hindex
    rw [Nat.lt_one_iff.mp hindex]
    decide

/-- The first count that the shift does not reach; the search of it does not end. -/
theorem binarySearchWord_endless :
    Ordered (2 ^ 63 + 1) 0 (fun _ => .lt) ∧
      ∀ fuel, @binarySearchWord Unit 64 fuel (2 ^ 63 + 1) true (fun _ => .ok .lt) = none := by
  refine ⟨⟨Nat.zero_le _, nofun, fun _ _ _ => rfl, nofun⟩, ?_⟩
  intro fuel
  have hgrow : growWord 64 (2 ^ 63 + 1) fuel 1 = none :=
    growWord_eq_none (by decide) (.inr ⟨0, by decide, rfl⟩)
  rw [binarySearchWord, hgrow]
  rfl

end NNTree

end Flpdf
