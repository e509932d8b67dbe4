import Mathlib.Data.ZMod.Basic
import Mathlib.Tactic.LinearCombination
import Mathlib.Tactic.Ring

/-!
# Montgomery Reduction

The reduction of `z` modulo `q` divides by a radix `R` instead of `q`: a multiple of `q` is
added that clears the low digit, and the low digit is dropped. With one conditional
subtraction the result is below `q`.

## Main results

* `reduce_lt`: the bound before the conditional subtraction.
* `cast_reduce`: the value, a quotient by the radix.
-/

namespace Montgomery

/-- The multiple of `q` that clears the low digit of `z`. -/
def fill (R q p z : ℕ) : ℕ := z * p % R * q

/-- The reduction, before the conditional subtraction. -/
def reduce (R q p z : ℕ) : ℕ := (z + fill R q p z) / R

variable {R q p : ℕ}

theorem fill_le (hR : 0 < R) (z : ℕ) : fill R q p z ≤ (R - 1) * q :=
  Nat.mul_le_mul_right _ (Nat.le_sub_one_of_lt (Nat.mod_lt _ hR))

/-- The low digit is cleared. -/
theorem dvd_add_fill (hp : R ∣ q * p + 1) (z : ℕ) : R ∣ z + fill R q p z := by
  have hmod : z * p % R * q ≡ z * p * q [MOD R] := (Nat.mod_modEq _ _).mul_right _
  have hsum : z + z * p % R * q ≡ z * (q * p + 1) [MOD R] := by
    calc z + z * p % R * q ≡ z + z * p * q [MOD R] := hmod.add_left z
      _ = z * (q * p + 1) := by ring
  exact (hsum.dvd_iff dvd_rfl).mpr (hp.mul_left z)

theorem reduce_mul (hp : R ∣ q * p + 1) (z : ℕ) :
    reduce R q p z * R = z + fill R q p z :=
  Nat.div_mul_cancel (dvd_add_fill hp z)

/-- The result is below `2 * q` when the value is below `q * R`. -/
theorem reduce_lt (hR : 0 < R) {z : ℕ} (hz : z < q * R) : reduce R q p z < 2 * q := by
  refine Nat.div_lt_of_lt_mul ?_
  have hfill := fill_le (q := q) (p := p) hR z
  have hle : (R - 1) * q ≤ R * q := Nat.mul_le_mul_right _ (Nat.sub_le R 1)
  calc z + fill R q p z < q * R + R * q := by omega
    _ = R * (2 * q) := by ring

/-- Modulo `q`, the result is the value divided by the radix. -/
theorem cast_reduce (hp : R ∣ q * p + 1) (z : ℕ) :
    (reduce R q p z : ZMod q) * (R : ZMod q) = (z : ZMod q) := by
  have h := congrArg (Nat.cast : ℕ → ZMod q) (reduce_mul hp z)
  rw [Nat.cast_mul, Nat.cast_add] at h
  rw [h, fill, Nat.cast_mul, ZMod.natCast_self, mul_zero, add_zero]

end Montgomery
