import Mathlib.Algebra.Order.Ring.Int
import Mathlib.Algebra.Order.Ring.Nat
import Mathlib.Data.List.Basic
import Mathlib.Data.Int.Notation

/-!
# Object identities and cross-reference entries

The raw signed identity a cross-reference row carries, the checked reference it
projects to, and the entry kept for either. Both identities are ordered by
object number first and generation second, as the maps keyed by them are.
-/

namespace Flpdf

/-- Raw object/generation identity of a cross-reference row; any sign is possible. -/
structure QpdfObjGen where
  object : ℤ
  generation : ℤ
deriving DecidableEq, Repr

/-- Checked indirect reference. -/
structure ObjectRef where
  number : ℕ
  generation : ℕ
deriving DecidableEq, Repr

/-- A cross-reference entry. -/
inductive XrefEntry where
  | free (next : ℕ)
  | uncompressed (offset : ℕ)
  | compressed (stream index : ℕ)
deriving DecidableEq, Repr

namespace QpdfObjGen

instance : Ord QpdfObjGen where
  compare := compareLex (compareOn object) (compareOn generation)

instance : Std.TransOrd QpdfObjGen :=
  inferInstanceAs (Std.TransCmp (compareLex (compareOn object) (compareOn generation)))

instance : Std.LawfulEqOrd QpdfObjGen where
  eq_of_compare {a b} h := by
    have h : compareOn object a b = .eq ∧ compareOn generation a b = .eq :=
      Ordering.then_eq_eq.mp h
    cases a
    cases b
    simp only [mk.injEq]
    exact ⟨Std.LawfulEqOrd.eq_of_compare h.1, Std.LawfulEqOrd.eq_of_compare h.2⟩

/-- The order puts object numbers first and breaks ties by generation. -/
theorem compare_eq_lt {a b : QpdfObjGen} :
    compare a b = .lt ↔
      a.object < b.object ∨ a.object = b.object ∧ a.generation < b.generation := by
  show (compareLex (compareOn object) (compareOn generation) a b) = .lt ↔ _
  simp only [compareLex, compareOn, Ordering.then_eq_lt, Std.LawfulEqOrd.compare_eq_iff_eq,
    Std.compare_eq_lt]

/-- Only object number zero is non-indirect. -/
def isIndirect (key : QpdfObjGen) : Bool :=
  key.object != 0

/-- The checked `int` boundary an object reference crosses on its way to a raw row. -/
def tryFromObjectRef (ref : ObjectRef) : Except String QpdfObjGen :=
  if ref.number < 2 ^ 31 then .ok ⟨ref.number, ref.generation⟩
  else .error s!"integer out of range converting {ref.number} from a 4-byte unsigned type to a 4-byte signed type"

/-- The reference a raw identity denotes, when a parsed `N G R` could name it. -/
def toObjectRef (key : QpdfObjGen) : Option ObjectRef :=
  if !key.isIndirect || key.object < 1 || !(0 ≤ key.generation && key.generation < 65535) then
    none
  else
    some ⟨key.object.toNat, key.generation.toNat⟩

/-- Exactly the identities with a positive number and a generation below 65535 project. -/
theorem toObjectRef_eq_some {key : QpdfObjGen} {ref : ObjectRef} :
    key.toObjectRef = some ref ↔
      key = ⟨ref.number, ref.generation⟩ ∧ 1 ≤ ref.number ∧ ref.generation < 65535 := by
  obtain ⟨object, generation⟩ := key
  obtain ⟨number, gen⟩ := ref
  simp only [toObjectRef, isIndirect, QpdfObjGen.mk.injEq, Bool.or_eq_true, Bool.not_eq_true',
    bne_eq_false_iff_eq, decide_eq_true_eq, Bool.and_eq_false_iff, decide_eq_false_iff_not]
  by_cases h : (object = 0 ∨ object < 1) ∨ ¬ 0 ≤ generation ∨ ¬ generation < 65535
  · rw [if_pos h]
    simp only [reduceCtorEq, false_iff]
    omega
  · rw [if_neg h]
    simp only [Option.some.injEq, ObjectRef.mk.injEq]
    omega

/-- No two raw identities project to one reference. -/
theorem toObjectRef_inj {a b : QpdfObjGen} {ref : ObjectRef}
    (ha : a.toObjectRef = some ref) (hb : b.toObjectRef = some ref) : a = b := by
  rw [toObjectRef_eq_some] at ha hb
  rw [ha.1, hb.1]

end QpdfObjGen

namespace ObjectRef

instance : Ord ObjectRef where
  compare := compareLex (compareOn number) (compareOn generation)

instance : Std.TransOrd ObjectRef :=
  inferInstanceAs (Std.TransCmp (compareLex (compareOn number) (compareOn generation)))

instance : Std.LawfulEqOrd ObjectRef where
  eq_of_compare {a b} h := by
    have h : compareOn number a b = .eq ∧ compareOn generation a b = .eq :=
      Ordering.then_eq_eq.mp h
    cases a
    cases b
    simp only [mk.injEq]
    exact ⟨Std.LawfulEqOrd.eq_of_compare h.1, Std.LawfulEqOrd.eq_of_compare h.2⟩

/-- References that both fit the raw identity and are accepted by the parsed boundary. -/
def Valid (ref : ObjectRef) : Prop :=
  1 ≤ ref.number ∧ ref.number < 2 ^ 31 ∧ ref.generation < 65535

instance : DecidablePred Valid :=
  fun ref => inferInstanceAs (Decidable (1 ≤ ref.number ∧ ref.number < 2 ^ 31 ∧ _))

theorem Valid.tryFromObjectRef {ref : ObjectRef} (h : ref.Valid) :
    QpdfObjGen.tryFromObjectRef ref = .ok ⟨ref.number, ref.generation⟩ :=
  if_pos h.2.1

theorem Valid.toObjectRef {ref : ObjectRef} (h : ref.Valid) :
    QpdfObjGen.toObjectRef ⟨ref.number, ref.generation⟩ = some ref :=
  QpdfObjGen.toObjectRef_eq_some.mpr ⟨rfl, h.1, h.2.2⟩

end ObjectRef

end Flpdf
