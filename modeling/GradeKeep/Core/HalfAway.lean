/-
Rounding to the nearest integer with halves away from zero: the `round` of C's math library, which Swift's `round`
calls. Mathlib's `round` sends halves up, so it differs from this one on negative halves.

Results:
- `halfAway_mono`: rounding is monotone;
- `abs_halfAway_sub_le`: the error is at most one half;
- `halfAway_intCast`: integers are fixed;
- `halfAway_eq_zero_iff`: exactly the numbers below one half in absolute value round to 0.
`hundredths x` is the value left by `round(x) / 100`; its lemmas are the same facts, scaled.
-/
import Mathlib.Tactic
import Mathlib.Algebra.Order.Floor.Ring
import Mathlib.Data.Rat.Floor

namespace GradeKeep.HalfAway

variable {α : Type} [Field α] [LinearOrder α] [IsStrictOrderedRing α] [FloorRing α]

/-- the nearest integer, halves away from zero -/
def halfAway (x : α) : ℤ := if 0 ≤ x then ⌊x + 1 / 2⌋ else ⌈x - 1 / 2⌉

omit [IsStrictOrderedRing α] in
theorem halfAway_of_nonneg {x : α} (h : 0 ≤ x) : halfAway x = ⌊x + 1 / 2⌋ := if_pos h

omit [IsStrictOrderedRing α] in
theorem halfAway_of_neg {x : α} (h : x < 0) : halfAway x = ⌈x - 1 / 2⌉ := if_neg (not_le.2 h)

theorem halfAway_nonneg {x : α} (h : 0 ≤ x) : 0 ≤ halfAway x := by
  rw [halfAway_of_nonneg h]
  exact Int.floor_nonneg.2 (by linarith)

theorem halfAway_nonpos {x : α} (h : x < 0) : halfAway x ≤ 0 := by
  rw [halfAway_of_neg h]
  exact Int.ceil_le.2 (by push_cast; linarith)

theorem halfAway_mono {x y : α} (h : x ≤ y) : halfAway x ≤ halfAway y := by
  rcases lt_or_ge x 0 with hx | hx
  · rcases lt_or_ge y 0 with hy | hy
    · rw [halfAway_of_neg hx, halfAway_of_neg hy]
      exact Int.ceil_le_ceil (by linarith)
    · -- the two branches meet at 0
      exact (halfAway_nonpos hx).trans (halfAway_nonneg hy)
  · rw [halfAway_of_nonneg hx, halfAway_of_nonneg (hx.trans h)]
    exact Int.floor_le_floor (by linarith)

theorem abs_halfAway_sub_le (x : α) : |(halfAway x : α) - x| ≤ 1 / 2 := by
  rw [abs_le]
  rcases lt_or_ge x 0 with hx | hx
  · rw [halfAway_of_neg hx]
    have h1 := Int.le_ceil (x - 1 / 2)
    have h2 := Int.ceil_lt_add_one (x - 1 / 2)
    refine ⟨?_, ?_⟩ <;> linarith
  · rw [halfAway_of_nonneg hx]
    have h1 := Int.floor_le (x + 1 / 2)
    have h2 := Int.lt_floor_add_one (x + 1 / 2)
    refine ⟨?_, ?_⟩ <;> linarith

theorem halfAway_intCast (n : ℤ) : halfAway (n : α) = n := by
  have h := abs_le.1 (abs_halfAway_sub_le (n : α))
  have h1 : ((halfAway (n : α) : ℤ) : α) < ((n + 1 : ℤ) : α) := by push_cast; linarith [h.2]
  have h2 : ((n - 1 : ℤ) : α) < ((halfAway (n : α) : ℤ) : α) := by push_cast; linarith [h.1]
  have h1' := Int.cast_lt.1 h1
  have h2' := Int.cast_lt.1 h2
  omega

@[simp] theorem halfAway_zero : halfAway (0 : α) = 0 := by
  simpa using halfAway_intCast (α := α) 0

theorem halfAway_eq_zero_iff (x : α) : halfAway x = 0 ↔ |x| < 1 / 2 := by
  rw [abs_lt]
  rcases lt_or_ge x 0 with hx | hx
  · rw [halfAway_of_neg hx, Int.ceil_eq_iff]
    push_cast
    refine ⟨?_, ?_⟩
    · rintro ⟨h, -⟩; exact ⟨by linarith, by linarith⟩
    · rintro ⟨h, -⟩; exact ⟨by linarith, by linarith⟩
  · rw [halfAway_of_nonneg hx, Int.floor_eq_iff]
    push_cast
    refine ⟨?_, ?_⟩
    · rintro ⟨-, h⟩; exact ⟨by linarith, by linarith⟩
    · rintro ⟨-, h⟩; exact ⟨by linarith, by linarith⟩

/-! ## `round(x) / 100` -/

/-- a number of hundredths, rounded: the value of `round(x) / 100` -/
def hundredths (x : α) : α := (halfAway x : α) / 100

@[simp] theorem hundredths_zero : hundredths (0 : α) = 0 := by simp [hundredths]

/-- a whole number of hundredths is kept -/
theorem hundredths_intCast (n : ℤ) : hundredths (n : α) = n / 100 := by rw [hundredths, halfAway_intCast]

theorem hundredths_mono {x y : α} (h : x ≤ y) : hundredths x ≤ hundredths y := by
  unfold hundredths
  gcongr
  exact halfAway_mono h

theorem abs_hundredths_sub_le (x : α) : |hundredths x - x / 100| ≤ 1 / 200 := by
  have h := abs_le.1 (abs_halfAway_sub_le x)
  rw [abs_le]
  unfold hundredths
  refine ⟨?_, ?_⟩ <;> linarith [h.1, h.2]

theorem hundredths_eq_zero_iff (x : α) : hundredths x = 0 ↔ |x| < 1 / 2 := by
  rw [← halfAway_eq_zero_iff]
  simp [hundredths]

end GradeKeep.HalfAway
