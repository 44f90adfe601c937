/-
Binary floating-point numbers of 64 bits, read from their bit patterns: sign, classes, and the
magnitude `significand * 2 ^ scale` of a finite number. Equality is that of the floating-point
standard: a NaN differs from itself and the two zeros are equal.
-/
namespace QueryMethods

/-- A floating point number by its bits. -/
structure Binary64 where
  bits : UInt64
  deriving DecidableEq

namespace Binary64

/-! ## Fields -/

/-- Whether the sign bit is set. -/
def isNegative (x : Binary64) : Bool :=
  x.bits >>> 63 == 1

/-- The eleven bits of the exponent, as they are stored. -/
def exponentField (x : Binary64) : Nat :=
  ((x.bits >>> 52) &&& 0x7ff).toNat

/-- The fifty-two bits after the leading one. -/
def fraction (x : Binary64) : Nat :=
  (x.bits &&& 0xfffffffffffff).toNat

/-! ## Classes -/

/-- Whether the bits stand for no number. -/
def isNaN (x : Binary64) : Bool :=
  x.exponentField == 0x7ff && x.fraction != 0

/-- Whether the bits stand for an infinity of either sign. -/
def isInfinite (x : Binary64) : Bool :=
  x.exponentField == 0x7ff && x.fraction == 0

/-- Whether the bits stand for a zero of either sign. -/
def isZero (x : Binary64) : Bool :=
  x.exponentField == 0 && x.fraction == 0

/-! ## Magnitude -/

/-- The fraction with the leading bit that a normal number leaves out. -/
def significand (x : Binary64) : Nat :=
  if x.exponentField = 0 then x.fraction else x.fraction + 0x10000000000000

/-- The exponent of the last bit of the significand. -/
def scale (x : Binary64) : Int :=
  max x.exponentField 1 - 1075

/-! ## Equality -/

/-- Equality of numbers: zeros are equal whatever their sign, and what is no number is equal to
nothing. -/
def same (x y : Binary64) : Bool :=
  !x.isNaN && (x == y || x.isZero && y.isZero)

theorem same_symm {x y : Binary64} (h : x.same y = true) : y.same x = true := by
  simp only [same, Bool.and_eq_true, Bool.not_eq_true', Bool.or_eq_true, beq_iff_eq] at h ⊢
  rcases h with ⟨hn, rfl | ⟨hx, hy⟩⟩
  · exact ⟨hn, .inl rfl⟩
  · refine ⟨?_, .inr ⟨hy, hx⟩⟩
    simp only [isZero, Bool.and_eq_true, beq_iff_eq] at hy
    simp [isNaN, hy]

theorem same_trans {x y z : Binary64} (h : x.same y = true) (k : y.same z = true) :
    x.same z = true := by
  simp only [same, Bool.and_eq_true, Bool.not_eq_true', Bool.or_eq_true, beq_iff_eq] at h k ⊢
  rcases h with ⟨hn, rfl | ⟨hx, hy⟩⟩
  · exact k
  · rcases k with ⟨_, rfl | ⟨_, hz⟩⟩
    · exact ⟨hn, .inr ⟨hx, hy⟩⟩
    · exact ⟨hn, .inr ⟨hx, hz⟩⟩

/-- Only a NaN differs from itself. -/
theorem same_self (x : Binary64) : x.same x = !x.isNaN := by
  simp [same]

end Binary64

end QueryMethods
