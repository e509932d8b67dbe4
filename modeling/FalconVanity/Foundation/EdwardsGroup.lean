import Mathlib.Algebra.Field.ZMod
import Mathlib.Data.Int.Order.Units
import Mathlib.Tactic.LinearCombination
import Mathlib.Tactic.Ring

/-!
# Groups of Points of an Edwards Curve

A group whose elements have coordinates on the curve `y ^ 2 - x ^ 2 = 1 + d * x ^ 2 * y ^ 2`, so
that the sum of two of them is given by the addition law of the curve. Nothing is said about
which points there are.

A point is a fraction: of a pair of fractions over one denominator, or over two.

## Main results

* `EdwardsGroup.OverOne.add`, `EdwardsGroup.OverOne.double`: the sum and the double, from the
  numerators and the denominator.
* `EdwardsGroup.OverTwo.toOverOne`: one denominator instead of two.
* `EdwardsGroup.signs`: the smallest group of points.
* `EdwardsGroup.threes`: the points of order three of a curve that has them.
-/

/-- **A group of points** of an Edwards curve with parameter `d`, on which the addition law has
no exceptions. -/
structure EdwardsGroup (K G : Type*) [Field K] [AddCommGroup G] (d : K) where
  x : G → K
  y : G → K
  curve : ∀ g, y g ^ 2 - x g ^ 2 = 1 + d * x g ^ 2 * y g ^ 2
  x_zero : x 0 = 0
  y_zero : y 0 = 1
  x_neg : ∀ g, x (-g) = -x g
  y_neg : ∀ g, y (-g) = y g
  x_add : ∀ g h, x (g + h) * (1 + d * x g * x h * y g * y h) = x g * y h + x h * y g
  y_add : ∀ g h, y (g + h) * (1 - d * x g * x h * y g * y h) = y g * y h + x g * x h
  add_ne : ∀ g h, 1 + d * x g * x h * y g * y h ≠ 0
  sub_ne : ∀ g h, 1 - d * x g * x h * y g * y h ≠ 0

namespace EdwardsGroup

variable {K G : Type*} [Field K] [AddCommGroup G] {d : K} (E : EdwardsGroup K G d)

/-! ### Fractions -/

/-- The coordinates over one denominator. The denominator is not zero, so that the coordinates are
determined. -/
structure OverOne (X Y Z : K) (g : G) : Prop where
  x : X = E.x g * Z
  y : Y = E.y g * Z
  ne : Z ≠ 0

/-- The coordinates over a denominator each. This is the form in which a sum comes out, before a
common denominator is taken. -/
structure OverTwo (X Y Z T : K) (g : G) : Prop where
  x : X = E.x g * Z
  y : Y = E.y g * T
  ne_x : Z ≠ 0
  ne_y : T ≠ 0

variable {E}

/-- The neutral point over the denominator one. -/
theorem OverOne.zero : E.OverOne 0 1 1 0 where
  x := by rw [E.x_zero, zero_mul]
  y := by rw [E.y_zero, mul_one]
  ne := one_ne_zero

/-- The numerators over both denominators. -/
theorem OverTwo.toOverOne {X Y Z T : K} {g : G} (h : E.OverTwo X Y Z T g) :
    E.OverOne (X * T) (Y * Z) (Z * T) g where
  x := by rw [h.x]; ring
  y := by rw [h.y]; ring
  ne := mul_ne_zero h.ne_x h.ne_y

/-- The affine coordinates. -/
theorem OverOne.affine {X Y Z : K} {g : G} (h : E.OverOne X Y Z g) :
    X * Z⁻¹ = E.x g ∧ Y * Z⁻¹ = E.y g := by
  constructor
  · rw [h.x, mul_inv_cancel_right₀ h.ne]
  · rw [h.y, mul_inv_cancel_right₀ h.ne]

/-! ### The addition law -/

/-- **The sum** of a point over one denominator and a point with affine coordinates. -/
theorem OverOne.add (h2 : (2 : K) ≠ 0) {X Y Z T : K} {g h : G} (hg : E.OverOne X Y Z g)
    (hT : T * Z = X * Y) :
    E.OverTwo
      ((Y + X) * (E.y h + E.x h) - (Y - X) * (E.y h - E.x h))
      ((Y + X) * (E.y h + E.x h) + (Y - X) * (E.y h - E.x h))
      (Z + Z + 2 • (d * E.x h * E.y h) * T) (Z + Z - 2 • (d * E.x h * E.y h) * T) (g + h) := by
  have hT' : T = E.x g * E.y g * Z := by
    apply mul_right_cancel₀ hg.ne
    rw [hT, hg.x, hg.y]
    ring
  have hz : Z + Z + 2 • (d * E.x h * E.y h) * T =
      2 * Z * (1 + d * E.x g * E.x h * E.y g * E.y h) := by
    rw [hT', two_nsmul]
    ring
  have ht : Z + Z - 2 • (d * E.x h * E.y h) * T =
      2 * Z * (1 - d * E.x g * E.x h * E.y g * E.y h) := by
    rw [hT', two_nsmul]
    ring
  constructor
  · rw [hz, hg.x, hg.y]
    linear_combination -2 * Z * E.x_add g h
  · rw [ht, hg.x, hg.y]
    linear_combination -2 * Z * E.y_add g h
  · rw [hz]
    exact mul_ne_zero (mul_ne_zero h2 hg.ne) (E.add_ne g h)
  · rw [ht]
    exact mul_ne_zero (mul_ne_zero h2 hg.ne) (E.sub_ne g h)

/-- **The double** of a point over one denominator. -/
theorem OverOne.double {X Y Z : K} {g : G} (hg : E.OverOne X Y Z g) :
    E.OverTwo ((X + Y) ^ 2 - (Y ^ 2 + X ^ 2)) (Y ^ 2 + X ^ 2) (Y ^ 2 - X ^ 2)
      (2 • Z ^ 2 - (Y ^ 2 - X ^ 2)) (g + g) := by
  have hz : Y ^ 2 - X ^ 2 = Z ^ 2 * (1 + d * E.x g * E.x g * E.y g * E.y g) := by
    rw [hg.x, hg.y]
    linear_combination Z ^ 2 * E.curve g
  have ht : 2 • Z ^ 2 - (Y ^ 2 - X ^ 2) =
      Z ^ 2 * (1 - d * E.x g * E.x g * E.y g * E.y g) := by
    rw [hz, two_nsmul]
    ring
  have hne : Z ^ 2 ≠ 0 := pow_ne_zero 2 hg.ne
  constructor
  · rw [hz, hg.x, hg.y]
    linear_combination -Z ^ 2 * E.x_add g g
  · rw [ht, hg.x, hg.y]
    linear_combination -Z ^ 2 * E.y_add g g
  · rw [hz]
    exact mul_ne_zero hne (E.add_ne g g)
  · rw [ht]
    exact mul_ne_zero hne (E.sub_ne g g)

/-! ### The points of order two -/

variable (K d)

/-- **The neutral point and the point of order two**, which every Edwards curve has: the points
whose first coordinate is zero. -/
def signs : EdwardsGroup K (Additive ℤˣ) d where
  x _ := 0
  y g := ((g.toMul : ℤ) : K)
  curve g := by
    have hsq : ((g.toMul : ℤ) : K) ^ 2 = 1 := by
      rw [← Int.cast_pow, ← Units.val_pow_eq_pow_val, Int.units_sq, Units.val_one, Int.cast_one]
    rw [hsq]
    ring
  x_zero := rfl
  y_zero := by simp
  x_neg _ := neg_zero.symm
  y_neg g := by rw [toMul_neg, Int.units_inv_eq_self]
  x_add g h := by ring
  y_add g h := by
    rw [toMul_add, Units.val_mul, Int.cast_mul]
    ring
  add_ne g h := by simp
  sub_ne g h := by simp

/-! ### The points of order three -/

/-- The three elements of the group of order three. -/
theorem zmod_three (g : ZMod 3) : g = 0 ∨ g = 1 ∨ g = -1 := by
  revert g
  decide

/-- Twice an element of order three is its inverse. -/
theorem zmod_three_double : (1 : ZMod 3) + 1 = -1 ∧ (-1 : ZMod 3) + -1 = 1 := by decide

variable {K d}

/-- The first coordinates: those of a point and of its inverse have opposite signs. -/
def threesX (a : K) (g : ZMod 3) : K := if g = 0 then 0 else if g = 1 then a else -a

/-- The second coordinates: those of a point and of its inverse are the same. -/
def threesY (b : K) (g : ZMod 3) : K := if g = 0 then 1 else b

@[simp] theorem threesX_zero (a : K) : threesX a 0 = 0 := rfl
@[simp] theorem threesX_one (a : K) : threesX a 1 = a := rfl
@[simp] theorem threesX_neg_one (a : K) : threesX a (-1) = -a := rfl
@[simp] theorem threesY_zero (b : K) : threesY b 0 = 1 := rfl
@[simp] theorem threesY_one (b : K) : threesY b 1 = b := rfl
@[simp] theorem threesY_neg_one (b : K) : threesY b (-1) = b := rfl

/-- A point `(a, b)` of order three: its double is `(-a, b)`. That it lies on the curve follows
from the first two conditions. -/
structure OrderThree (d a b : K) : Prop where
  sq : a ^ 2 = b ^ 2 + (b + b)
  curve : d * a ^ 2 * b ^ 2 = -(b + b) - 1
  add_ne : b + b ≠ 0
  sub_ne : b + b + (1 + 1) ≠ 0

/-- What the addition law adds to one and subtracts from it. -/
theorem OrderThree.product {a b : K} (h : OrderThree d a b) (g g' : ZMod 3) :
    d * threesX a g * threesX a g' * threesY b g * threesY b g' = 0 ∨
      d * threesX a g * threesX a g' * threesY b g * threesY b g' = -(b + b) - 1 ∨
      d * threesX a g * threesX a g' * threesY b g * threesY b g' = b + b + 1 := by
  rcases zmod_three g with rfl | rfl | rfl
  · exact .inl (by simp)
  all_goals rcases zmod_three g' with rfl | rfl | rfl
  · exact .inl (by simp)
  · exact .inr (.inl (by simp; linear_combination h.curve))
  · exact .inr (.inr (by simp; linear_combination -h.curve))
  · exact .inl (by simp)
  · exact .inr (.inr (by simp; linear_combination -h.curve))
  · exact .inr (.inl (by simp; linear_combination h.curve))

/-- **The neutral point and two points of order three**, the inverses of each other. -/
def threes {a b : K} (h : OrderThree d a b) : EdwardsGroup K (ZMod 3) d where
  x := threesX a
  y := threesY b
  curve g := by
    rcases zmod_three g with rfl | rfl | rfl
    · simp
    · simp only [threesX_one, threesY_one]
      linear_combination -h.sq - h.curve
    · simp only [threesX_neg_one, threesY_neg_one]
      linear_combination -h.sq - h.curve
  x_zero := rfl
  y_zero := rfl
  x_neg g := by rcases zmod_three g with rfl | rfl | rfl <;> simp
  y_neg g := by rcases zmod_three g with rfl | rfl | rfl <;> simp
  x_add g g' := by
    obtain ⟨hone, hneg⟩ := zmod_three_double
    rcases zmod_three g with rfl | rfl | rfl <;> rcases zmod_three g' with rfl | rfl | rfl <;>
      simp only [zero_add, add_zero, add_neg_cancel, neg_add_cancel, hone, hneg, threesX_zero,
        threesX_one, threesX_neg_one, threesY_zero, threesY_one, threesY_neg_one]
    case inr.inl.inr.inl => linear_combination -a * h.curve
    case inr.inr.inr.inr => linear_combination a * h.curve
    all_goals ring
  y_add g g' := by
    obtain ⟨hone, hneg⟩ := zmod_three_double
    rcases zmod_three g with rfl | rfl | rfl <;> rcases zmod_three g' with rfl | rfl | rfl <;>
      simp only [zero_add, add_zero, add_neg_cancel, neg_add_cancel, hone, hneg, threesX_zero,
        threesX_one, threesX_neg_one, threesY_zero, threesY_one, threesY_neg_one]
    case inr.inl.inr.inl => linear_combination -h.sq - b * h.curve
    case inr.inr.inr.inr => linear_combination -h.sq - b * h.curve
    case inr.inl.inr.inr => linear_combination h.sq + h.curve
    case inr.inr.inr.inl => linear_combination h.sq + h.curve
    all_goals ring
  add_ne g g' := by
    rcases h.product g g' with hp | hp | hp <;> rw [hp]
    · exact fun h0 => one_ne_zero (by linear_combination h0)
    · exact fun h0 => h.add_ne (by linear_combination -h0)
    · exact fun h0 => h.sub_ne (by linear_combination h0)
  sub_ne g g' := by
    rcases h.product g g' with hp | hp | hp <;> rw [hp]
    · exact fun h0 => one_ne_zero (by linear_combination h0)
    · exact fun h0 => h.sub_ne (by linear_combination h0)
    · exact fun h0 => h.add_ne (by linear_combination -h0)

/-- The point `(3 / 4, 1 / 4)` has order three on the curve with parameter `-128 / 3`. -/
theorem orderThree_quarters (h : (30 : K) ≠ 0) :
    OrderThree (-128 * 3⁻¹ : K) (3 * 4⁻¹) 4⁻¹ := by
  have h2 : (2 : K) ≠ 0 := fun h0 => h (by linear_combination 15 * h0)
  have h3 : (3 : K) ≠ 0 := fun h0 => h (by linear_combination 10 * h0)
  have h4 : (4 : K) ≠ 0 := by
    have hsq : (2 : K) ^ 2 = 4 := by norm_num
    rw [← hsq]
    exact pow_ne_zero 2 h2
  have hthird : (3 : K) * 3⁻¹ = 1 := mul_inv_cancel₀ h3
  have hquarter : (4 : K) * 4⁻¹ = 1 := mul_inv_cancel₀ h4
  constructor
  · linear_combination 2 * 4⁻¹ * hquarter
  · linear_combination -384 * (4⁻¹ : K) ^ 4 * hthird -
      (96 * (4⁻¹ : K) ^ 3 + 24 * (4⁻¹ : K) ^ 2 + 6 * 4⁻¹ + 1) * hquarter
  · exact fun h0 => h2 (by linear_combination 4 * h0 - 2 * hquarter)
  · exact fun h0 => h (by linear_combination 12 * h0 - 6 * hquarter)

end EdwardsGroup
