import FalconVanity.Foundation.Dif
import Mathlib.RingTheory.Artinian.Module

/-!
# Real Polynomials at the Negacyclic Points

A complex number `W` with `W ^ 2 ^ L = -1` has the odd powers `W ^ (2 * k + 1)`, which are the
roots of `X ^ 2 ^ L + 1`. Real sequences of length `2 ^ L` are the elements of the quotient ring,
and are determined by their values at these points: the sum of the squares of the coefficients is
the mean of the squared absolute values. Two real sequences can share one complex transform, as
the values at conjugate points show.

## Main results

* `sum_normSq_value`: the identity of Parseval.
* `normSq_pair`, `sum_pairs`: two real sequences in one transform.
* `isUnit_of_eval`: units of the quotient ring by their values.
* `sum_quotients`: the coefficients of the two quotients by `f * adj f + g * adj g`.
-/

namespace Parseval

open Negacyclic Dif
open scoped ComplexConjugate

/-! ### Points -/

/-- The negacyclic points. -/
def point (W : ℂ) (k : ℕ) : ℂ := W ^ (2 * k + 1)

/-- The value of a sequence at a point. -/
def value (L : ℕ) (a : ℕ → ℂ) (z : ℂ) : ℂ := ∑ j ∈ Finset.range (2 ^ L), a j * z ^ j

variable {L : ℕ} {W : ℂ}

section

variable (hW : W ^ 2 ^ L = -1)
include hW

/-- The points are the roots of `X ^ 2 ^ L + 1`. -/
theorem point_pow (k : ℕ) : point W k ^ 2 ^ L = -1 := by
  rw [point, ← pow_mul, mul_comm, pow_mul, hW, pow_succ, pow_mul, neg_one_sq, one_pow, one_mul]

/-- The points are on the unit circle. -/
theorem normSq_eq_one : Complex.normSq W = 1 := by
  have hpow : Complex.normSq W ^ 2 ^ L = 1 := by
    rw [← map_pow, hW]
    simp
  exact (pow_eq_one_iff_of_nonneg (Complex.normSq_nonneg W) (Nat.two_pow_pos L).ne').mp hpow

/-- The points have the absolute value one. -/
theorem conj_mul_point (k : ℕ) : conj (point W k) * point W k = 1 := by
  rw [← Complex.normSq_eq_conj_mul_self, point, map_pow, normSq_eq_one hW, one_pow,
    Complex.ofReal_one]

/-- **Conjugate points** have complementary indices. -/
theorem point_compl {k : ℕ} (hk : k < 2 ^ L) : point W (2 ^ L - 1 - k) = conj (point W k) := by
  have hexp : 2 * (2 ^ L - 1 - k) + 1 + (2 * k + 1) = 2 ^ L * 2 := by omega
  have hone : point W (2 ^ L - 1 - k) * point W k = 1 := by
    rw [point, point, ← pow_add, hexp, pow_mul, hW, neg_one_sq]
  have hne : point W k ≠ 0 := right_ne_zero_of_mul_eq_one hone
  exact mul_right_cancel₀ hne (hone.trans (conj_mul_point hW k).symm)

/-- **The layers evaluate** a twisted sequence at the points. -/
theorem layers_twist (a : ℕ → ℂ) {p : ℕ} (hp : p < 2 ^ L) :
    layers (W ^ 2) L (fun j => a j * W ^ j) p = value L a (point W (bitRev L p)) := by
  have hω : ∀ l, L = l + 1 → (W ^ 2) ^ 2 ^ l = -1 := by
    rintro l rfl
    rw [← pow_mul, ← pow_succ']
    exact hW
  have hlayers := layers_eq_sum (fun j => a j * W ^ j) hω 0 hp
  simp only [Nat.zero_mul, Nat.zero_add] at hlayers
  rw [hlayers, value]
  refine Finset.sum_congr rfl fun j _ => ?_
  rw [mul_assoc, point, ← pow_mul, ← pow_mul, ← pow_add]
  congr 2
  ring

/-- **The identity of Parseval.** -/
theorem sum_normSq_value (a : ℕ → ℂ) :
    ∑ k ∈ Finset.range (2 ^ L), Complex.normSq (value L a (point W k)) =
      2 ^ L * ∑ j ∈ Finset.range (2 ^ L), Complex.normSq (a j) := by
  have hsq : Complex.normSq (W ^ 2) = 1 := by rw [map_pow, normSq_eq_one hW, one_pow]
  have henergy := sum_normSq_layers hsq L (fun j => a j * W ^ j) 0
  simp only [Nat.zero_mul, Nat.zero_add, Complex.normSq_mul, map_pow, normSq_eq_one hW, one_pow,
    mul_one] at henergy
  rw [← henergy, ← sum_bitRev]
  exact Finset.sum_congr rfl fun p hp => by rw [layers_twist hW a (Finset.mem_range.mp hp)]

end

/-! ### Two real sequences in one transform -/

/-- The values of a real sequence at conjugate points are conjugate. -/
theorem value_conj (f : ℕ → ℝ) (z : ℂ) :
    value L (fun j => (f j : ℂ)) (conj z) = conj (value L (fun j => (f j : ℂ)) z) := by
  rw [value, value, map_sum]
  exact Finset.sum_congr rfl fun j _ => by rw [map_mul, map_pow, Complex.conj_ofReal]

/-- A transform of two packed sequences takes both at once. -/
theorem value_add_mul_I (f g : ℕ → ℝ) (z : ℂ) :
    value L (fun j => f j + Complex.I * g j) z =
      value L (fun j => (f j : ℂ)) z + Complex.I * value L (fun j => (g j : ℂ)) z := by
  rw [value, value, value, Finset.mul_sum, ← Finset.sum_add_distrib]
  exact Finset.sum_congr rfl fun j _ => by ring

/-- The parallelogram of a pair of values and the pair of their conjugates. -/
theorem normSq_add_normSq (x y : ℂ) :
    Complex.normSq (x + Complex.I * y) + Complex.normSq (conj x + Complex.I * conj y) =
      2 * (Complex.normSq x + Complex.normSq y) := by
  simp only [Complex.normSq_apply, Complex.add_re, Complex.add_im, Complex.mul_re, Complex.mul_im,
    Complex.I_re, Complex.I_im, Complex.conj_re, Complex.conj_im]
  ring

/-- The sum of the squared absolute values of two real sequences at a point. -/
def weight (L : ℕ) (f g : ℕ → ℝ) (z : ℂ) : ℝ :=
  Complex.normSq (value L (fun j => (f j : ℂ)) z) + Complex.normSq (value L (fun j => (g j : ℂ)) z)

/-- **Two real sequences in one transform**: the values at a point and at its conjugate. -/
theorem normSq_pair (f g : ℕ → ℝ) (z : ℂ) :
    Complex.normSq (value L (fun j => f j + Complex.I * g j) z) +
      Complex.normSq (value L (fun j => f j + Complex.I * g j) (conj z)) = 2 * weight L f g z := by
  rw [value_add_mul_I, value_add_mul_I, value_conj, value_conj, normSq_add_normSq, weight]

/-- The weight is the same at conjugate points. -/
theorem weight_conj (f g : ℕ → ℝ) (z : ℂ) : weight L f g (conj z) = weight L f g z := by
  rw [weight, value_conj, value_conj, Complex.normSq_conj, Complex.normSq_conj, weight]

/-- **The sum over pairs.** A position of the bit-reversed transform and its complement hold the
values at conjugate points, so a sum over the pairs runs over all points. -/
theorem sum_pairs {W : ℂ} (hW : W ^ 2 ^ (L + 1) = -1) (f g : ℕ → ℝ) {z : ℕ → ℂ}
    (hz : ∀ p < 2 ^ (L + 1), z p =
      value (L + 1) (fun j => f j + Complex.I * g j) (point W (bitRev (L + 1) p))) :
    ∑ b ∈ Finset.range (2 ^ L),
        1 / (Complex.normSq (z b) + Complex.normSq (z (2 ^ (L + 1) - 1 - b))) =
      1 / 4 * ∑ k ∈ Finset.range (2 ^ (L + 1)), 1 / weight (L + 1) f g (point W k) := by
  have hpow : 2 ^ (L + 1) = 2 * 2 ^ L := pow_succ' 2 L
  let F k := 1 / weight (L + 1) f g (point W k)
  have hcompl : ∀ b < 2 ^ L, point W (bitRev (L + 1) (2 * 2 ^ L - 1 - b)) =
      conj (point W (bitRev (L + 1) b)) := by
    intro b hb
    have hlt : b < 2 ^ (L + 1) := by omega
    rw [← hpow, bitRev_compl hlt, point_compl hW (bitRev_lt hlt)]
  have hpair : ∀ b ∈ Finset.range (2 ^ L),
      1 / (Complex.normSq (z b) + Complex.normSq (z (2 ^ (L + 1) - 1 - b))) =
        1 / 4 * (F (bitRev (L + 1) b) + F (bitRev (L + 1) (2 * 2 ^ L - 1 - b))) := by
    intro b hb
    have hlt := Finset.mem_range.mp hb
    rw [hz b (by omega), hz _ (by omega), hpow, hcompl b hlt, normSq_pair]
    simp only [F]
    rw [hcompl b hlt, weight_conj]
    ring
  rw [Finset.sum_congr rfl hpair, ← Finset.mul_sum,
    sum_compl (fun p => F (bitRev (L + 1) p)), ← hpow, sum_bitRev]

/-! ### The quotient ring -/

/-- The ring of real polynomials modulo `X ^ 2 ^ L + 1`. -/
abbrev RealRing (L : ℕ) := AdjoinRoot (modulus ℝ L)

/-- The sum of the squares of the coefficients. -/
noncomputable def coeffNormSq (z : RealRing L) : ℝ := ∑ j ∈ Finset.range (2 ^ L), coeffs z j ^ 2

/-- The coefficients of the adjoint, which is the polynomial at the inverse of `X`. -/
def adj (L : ℕ) (f : ℕ → ℝ) (j : ℕ) : ℝ := if j = 0 then f 0 else -f (2 ^ L - j)

/-- `f * adj f + g * adj g` -/
noncomputable def gram (L : ℕ) (f g : ℕ → ℝ) : RealRing L :=
  coeffElem L f * coeffElem L (adj L f) + coeffElem L g * coeffElem L (adj L g)

/-- `q * adj h / (f * adj f + g * adj g)` -/
noncomputable def quotient (L : ℕ) (q : ℝ) (f g h : ℕ → ℝ) : RealRing L :=
  AdjoinRoot.of _ q * coeffElem L (adj L h) * Ring.inverse (gram L f g)

section

variable (hW : W ^ 2 ^ L = -1)
include hW

/-- Evaluation at a point. -/
noncomputable def evalAt (k : ℕ) : RealRing L →+* ℂ :=
  AdjoinRoot.lift Complex.ofRealHom (point W k) (by simp [modulus, point_pow hW])

/-- Evaluation at a point reads a value of the transform. -/
theorem evalAt_coeffElem (k : ℕ) (a : ℕ → ℝ) :
    evalAt hW k (coeffElem L a) = value L (fun j => (a j : ℂ)) (point W k) := by
  rw [evalAt, coeffElem, AdjoinRoot.lift_mk, Polynomial.eval₂_finsetSum, value]
  simp

/-- The sum of the squares of the coefficients, by the values. -/
theorem coeffNormSq_eq (z : RealRing L) :
    (2 : ℝ) ^ L * coeffNormSq z = ∑ k ∈ Finset.range (2 ^ L), Complex.normSq (evalAt hW k z) := by
  have hvalue : ∀ k, evalAt hW k z = value L (fun j => ((coeffs z j : ℝ) : ℂ)) (point W k) := by
    intro k
    rw [← evalAt_coeffElem hW k, coeffElem_coeffs]
  simp only [hvalue]
  rw [sum_normSq_value hW, coeffNormSq]
  simp only [Complex.normSq_ofReal, ← pow_two]

/-- An element without values is zero. -/
theorem eq_zero_of_eval {z : RealRing L} (h : ∀ k < 2 ^ L, evalAt hW k z = 0) : z = 0 := by
  have hsum : (2 : ℝ) ^ L * coeffNormSq z = 0 := by
    rw [coeffNormSq_eq hW]
    exact Finset.sum_eq_zero fun k hk => by rw [h k (Finset.mem_range.mp hk), map_zero]
  have hzero : coeffNormSq z = 0 :=
    (mul_eq_zero.mp hsum).resolve_left (pow_ne_zero L two_ne_zero)
  have hcoeff : ∀ j < 2 ^ L, coeffs z j = 0 := by
    intro j hj
    have hall := (Finset.sum_eq_zero_iff_of_nonneg fun j _ => sq_nonneg (coeffs z j)).mp hzero
    exact pow_eq_zero_iff two_ne_zero |>.mp (hall j (Finset.mem_range.mpr hj))
  have hcongr := coeffElem_congr (L := L) (a := coeffs z) (b := fun _ => 0) hcoeff
  rw [coeffElem_coeffs] at hcongr
  rw [hcongr, coeffElem]
  simp

/-- **Units** by their values. -/
theorem isUnit_of_eval {z : RealRing L} (h : ∀ k < 2 ^ L, evalAt hW k z ≠ 0) : IsUnit z := by
  have hfinite : Module.Finite ℝ (RealRing L) := modulus_monic.finite_adjoinRoot
  have hartinian : IsArtinianRing (RealRing L) := IsArtinianRing.of_finite ℝ _
  refine IsArtinianRing.isUnit_of_mem_nonZeroDivisors (mem_nonZeroDivisors_iff_right.mpr ?_)
  intro x hx
  refine eq_zero_of_eval hW fun k hk => ?_
  have hmul := congrArg (evalAt hW k) hx
  rw [map_mul, map_zero] at hmul
  exact (mul_eq_zero.mp hmul).resolve_right (h k hk)

/-! ### The adjoint -/

/-- **The values of the adjoint** are the conjugate values. -/
theorem evalAt_adj (k : ℕ) (f : ℕ → ℝ) :
    evalAt hW k (coeffElem L (adj L f)) = conj (evalAt hW k (coeffElem L f)) := by
  obtain ⟨n, hn⟩ : ∃ n, 2 ^ L = n + 1 := ⟨2 ^ L - 1, by have := Nat.two_pow_pos L; omega⟩
  have hinv := conj_mul_point hW k
  have hpow := point_pow hW k
  rw [evalAt_coeffElem, evalAt_coeffElem, ← value_conj, value, value]
  generalize point W k = z at hinv hpow
  rw [hn] at hpow ⊢
  -- A power of the point is minus a power of its conjugate, from the other end.
  have hflip : ∀ j < n, -(z ^ (n - 1 - j + 1)) = conj z ^ (j + 1) := by
    intro j hj
    have hexp : n - 1 - j + 1 + (j + 1) = n + 1 := by omega
    have hone : (conj z * z) ^ (j + 1) = 1 := by rw [hinv, one_pow]
    calc -(z ^ (n - 1 - j + 1))
        = -(z ^ (n - 1 - j + 1) * (conj z * z) ^ (j + 1)) := by rw [hone, mul_one]
      _ = -(z ^ (n - 1 - j + 1 + (j + 1)) * conj z ^ (j + 1)) := by rw [mul_pow, pow_add]; ring
      _ = conj z ^ (j + 1) := by rw [hexp, hpow, neg_one_mul, neg_neg]
  rw [Finset.sum_range_succ', Finset.sum_range_succ', ← Finset.sum_range_reflect]
  simp only [adj, hn, if_true, pow_zero, Nat.succ_ne_zero, if_false]
  congr 1
  refine Finset.sum_congr rfl fun j hj => ?_
  have hlt := Finset.mem_range.mp hj
  have hindex : n + 1 - (n - 1 - j + 1) = j + 1 := by omega
  rw [hindex, ← hflip j hlt]
  push_cast
  ring

/-! ### Quotients -/

variable {f g : ℕ → ℝ}

/-- The Gram element evaluates to the weight, which is real. -/
theorem evalAt_gram (k : ℕ) (f g : ℕ → ℝ) :
    evalAt hW k (gram L f g) = (weight L f g (point W k) : ℝ) := by
  rw [gram, map_add, map_mul, map_mul, evalAt_adj, evalAt_adj, Complex.mul_conj, Complex.mul_conj,
    evalAt_coeffElem, evalAt_coeffElem, weight, Complex.ofReal_add]

/-- The sum of the products is a unit unless two values are zero at once. -/
theorem isUnit_gram (hne : ∀ k < 2 ^ L, weight L f g (point W k) ≠ 0) : IsUnit (gram L f g) := by
  refine isUnit_of_eval hW fun k hk => ?_
  rw [evalAt_gram hW]
  exact Complex.ofReal_ne_zero.mpr (hne k hk)

/-- The values of a quotient. -/
theorem normSq_evalAt_quotient (hne : ∀ k < 2 ^ L, weight L f g (point W k) ≠ 0) (q : ℝ)
    (h : ℕ → ℝ) (k : ℕ) :
    Complex.normSq (evalAt hW k (quotient L q f g h)) =
      q ^ 2 * Complex.normSq (value L (fun j => (h j : ℂ)) (point W k)) /
        weight L f g (point W k) ^ 2 := by
  have hinverse : evalAt hW k (Ring.inverse (gram L f g)) =
      ((weight L f g (point W k) : ℝ) : ℂ)⁻¹ := by
    have hone := congrArg (evalAt hW k) (Ring.mul_inverse_cancel _ (isUnit_gram hW hne))
    rw [map_mul, map_one, evalAt_gram hW] at hone
    exact eq_inv_of_mul_eq_one_right hone
  have hof : evalAt hW k (AdjoinRoot.of (modulus ℝ L) q) = (q : ℂ) := by
    rw [evalAt, AdjoinRoot.lift_of]
    rfl
  have hval : evalAt hW k (quotient L q f g h) =
      q * conj (value L (fun j => (h j : ℂ)) (point W k)) *
        ((weight L f g (point W k) : ℝ) : ℂ)⁻¹ := by
    rw [quotient, map_mul, map_mul, hinverse, hof, evalAt_adj, evalAt_coeffElem]
  rw [hval, Complex.normSq_mul, Complex.normSq_mul, Complex.normSq_inv, Complex.normSq_ofReal,
    Complex.normSq_ofReal, Complex.normSq_conj, ← pow_two, ← pow_two, div_eq_mul_inv]

/-- **The quotients** of two adjoints by the sum of the products: the sum of the squares of their
coefficients. -/
theorem sum_quotients (hne : ∀ k < 2 ^ L, weight L f g (point W k) ≠ 0) (q : ℝ) :
    coeffNormSq (quotient L q f g f) + coeffNormSq (quotient L q f g g) =
      q ^ 2 / 2 ^ L * ∑ k ∈ Finset.range (2 ^ L), 1 / weight L f g (point W k) := by
  have hpow : (2 : ℝ) ^ L ≠ 0 := pow_ne_zero L two_ne_zero
  have hterm : ∀ k ∈ Finset.range (2 ^ L),
      Complex.normSq (evalAt hW k (quotient L q f g f)) +
        Complex.normSq (evalAt hW k (quotient L q f g g)) =
          q ^ 2 * (1 / weight L f g (point W k)) := by
    intro k hk
    have hlt := Finset.mem_range.mp hk
    have hweight := hne k hlt
    rw [normSq_evalAt_quotient hW hne q f k, normSq_evalAt_quotient hW hne q g k, ← add_div,
      ← mul_add, ← weight]
    field_simp
  have hsum : (2 : ℝ) ^ L *
      (coeffNormSq (quotient L q f g f) + coeffNormSq (quotient L q f g g)) =
        q ^ 2 * ∑ k ∈ Finset.range (2 ^ L), 1 / weight L f g (point W k) := by
    rw [mul_add, coeffNormSq_eq hW, coeffNormSq_eq hW, ← Finset.sum_add_distrib,
      Finset.sum_congr rfl hterm, Finset.mul_sum]
  rw [div_mul_eq_mul_div, eq_div_iff hpow, mul_comm, hsum]

end

end Parseval
