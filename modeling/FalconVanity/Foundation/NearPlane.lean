import FalconVanity.Foundation.Convolution
import FalconVanity.Foundation.Parseval
import Mathlib.Analysis.Complex.Polynomial.Basic

/-!
# Rounding to a Lattice by Nearest Planes

The rows `(g, -f)` and `(G, -F)` over the integer polynomials modulo `X ^ 2 ^ L + 1` span a
lattice when `f * G - g * F = q`. If `f * adj f + g * adj g` is a number `m`, the multiples of the
first row by monomials are orthogonal and equally long, and so are those of the part of the second
row that is orthogonal to them. A point `(h, 0)` is then rounded in two steps: to the nearest
translate of the plane of the first row, and inside that plane. What is left over is bounded, for
every `h`: its squared length by `2 ^ L * (q ^ 2 / m + m) / 4`.

## Main results

* `sum_sq_add_sum_sq`: a pair with a constant Gram element changes lengths by a constant factor.
* `Basis.first_mul_add`, `Basis.first_mul_sub`: the two remainders of a difference.
* `Basis.sum_sq_le`, `Basis.abs_second_le`: the size of a difference.
-/

namespace NearPlane

open Negacyclic Parseval Finset
open scoped ComplexConjugate

/-- The ring of integer polynomials modulo `X ^ 2 ^ L + 1`. -/
abbrev IntRing (L : ℕ) := AdjoinRoot (modulus ℤ L)

/-- The coefficients of the adjoint, which is the polynomial at the inverse of `X`. -/
def intAdj (L : ℕ) (f : ℕ → ℤ) (j : ℕ) : ℤ := if j = 0 then f 0 else -f (2 ^ L - j)

variable {L : ℕ}

theorem intAdj_congr {a b : ℕ → ℤ} (hab : ∀ l < 2 ^ L, a l = b l) {l : ℕ} (hl : l < 2 ^ L) :
    intAdj L a l = intAdj L b l := by
  rw [intAdj, intAdj]
  split
  · exact hab 0 (Nat.two_pow_pos L)
  · rw [hab _ (by omega)]

/-- The adjoint of a sparse polynomial is sparse. -/
theorem intAdj_spread (d : ℕ) (a : ℕ → ℤ) {l : ℕ} (hl : l < 2 ^ (L + d)) :
    intAdj (L + d) (spread (2 ^ d) a) l = spread (2 ^ d) (intAdj L a) l := by
  have hpos := Nat.two_pow_pos d
  rw [pow_add] at hl
  rw [intAdj, pow_add]
  rcases Nat.eq_zero_or_pos (l % 2 ^ d) with hmod | hmod
  · obtain ⟨j, rfl⟩ := Nat.dvd_of_mod_eq_zero hmod
    rw [Nat.mul_comm] at hl ⊢
    rw [← Nat.sub_mul, spread_mul hpos, spread_mul hpos, intAdj]
    refine if_congr (by simp) ?_ rfl
    rw [spread, if_pos (Nat.zero_mod _), Nat.zero_div]
  · have hne : (2 ^ L * 2 ^ d - l) % 2 ^ d ≠ 0 := by
      intro h
      have hdvd := Nat.dvd_sub (Nat.dvd_mul_left (2 ^ d) (2 ^ L)) (Nat.dvd_of_mod_eq_zero h)
      rw [Nat.sub_sub_self hl.le] at hdvd
      exact hmod.ne' (Nat.mod_eq_zero_of_dvd hdvd)
    have hzero : l ≠ 0 := fun h => hmod.ne' (by rw [h, Nat.zero_mod])
    rw [if_neg hzero, spread_of_mod_ne a hne, spread_of_mod_ne _ hmod.ne', neg_zero]

/-! ### Lengths -/

section Lengths

variable {W : ℂ} (hW : W ^ 2 ^ L = -1)
include hW

/-- An integer polynomial at a point. -/
noncomputable def evalInt (k : ℕ) : IntRing L →+* ℂ :=
  (evalAt hW k).comp (mapCoeffs (Int.castRingHom ℝ) L)

theorem evalInt_coeffElem (k : ℕ) (a : ℕ → ℤ) :
    evalInt hW k (coeffElem L a) = evalAt hW k (coeffElem L fun j => (a j : ℝ)) := by
  rw [evalInt, RingHom.comp_apply, mapCoeffs_coeffElem]
  rfl

/-- The values of the adjoint are the conjugate values. -/
theorem evalInt_intAdj (k : ℕ) (f : ℕ → ℤ) :
    evalInt hW k (coeffElem L (intAdj L f)) = conj (evalInt hW k (coeffElem L f)) := by
  have hadj : (fun j => (intAdj L f j : ℝ)) = adj L fun j => (f j : ℝ) := by
    funext j
    rw [intAdj, adj]
    split
    · rfl
    · rw [Int.cast_neg]
  rw [evalInt_coeffElem, hadj, evalAt_adj, ← evalInt_coeffElem]

/-- The sum of the squares of the coefficients, by the values. -/
theorem sum_normSq_evalInt (a : ℕ → ℤ) :
    ∑ k ∈ range (2 ^ L), Complex.normSq (evalInt hW k (coeffElem L a)) =
      2 ^ L * ∑ j ∈ range (2 ^ L), (a j : ℝ) ^ 2 := by
  have hvalue : ∀ k, evalInt hW k (coeffElem L a) =
      value L (fun j => (((a j : ℤ) : ℝ) : ℂ)) (point W k) := fun k => by
    rw [evalInt_coeffElem, evalAt_coeffElem]
  simp only [hvalue]
  rw [sum_normSq_value hW]
  simp only [Complex.normSq_ofReal, ← pow_two]

end Lengths

/-- There are negacyclic points. -/
theorem exists_point (L : ℕ) : ∃ W : ℂ, W ^ 2 ^ L = -1 :=
  IsAlgClosed.exists_pow_nat_eq (-1) (Nat.two_pow_pos L)

/-- The lengths of a vector and of its products with two orthogonal vectors. -/
theorem normSq_rotate (f g x y : ℂ) :
    Complex.normSq (f * x + g * y) + Complex.normSq (conj g * x - conj f * y) =
      (Complex.normSq f + Complex.normSq g) * (Complex.normSq x + Complex.normSq y) := by
  simp only [Complex.normSq_apply, Complex.add_re, Complex.add_im, Complex.sub_re, Complex.sub_im,
    Complex.mul_re, Complex.mul_im, Complex.conj_re, Complex.conj_im]
  ring

/-- **A pair with a constant Gram element** changes lengths by a constant factor. -/
theorem sum_sq_add_sum_sq {f g a b c d : ℕ → ℤ} {m : ℕ}
    (hgram : coeffElem L f * coeffElem L (intAdj L f) + coeffElem L g * coeffElem L (intAdj L g) =
      ((m : ℕ) : IntRing L))
    (hc : coeffElem L f * coeffElem L a + coeffElem L g * coeffElem L b = coeffElem L c)
    (hd : coeffElem L (intAdj L g) * coeffElem L a - coeffElem L (intAdj L f) * coeffElem L b =
      coeffElem L d) :
    ∑ j ∈ range (2 ^ L), c j ^ 2 + ∑ j ∈ range (2 ^ L), d j ^ 2 =
      m * (∑ j ∈ range (2 ^ L), a j ^ 2 + ∑ j ∈ range (2 ^ L), b j ^ 2) := by
  obtain ⟨W, hW⟩ := exists_point L
  have hpow : (2 : ℝ) ^ L ≠ 0 := pow_ne_zero L two_ne_zero
  have hterm : ∀ k, Complex.normSq (evalInt hW k (coeffElem L c)) +
      Complex.normSq (evalInt hW k (coeffElem L d)) =
        m * (Complex.normSq (evalInt hW k (coeffElem L a)) +
          Complex.normSq (evalInt hW k (coeffElem L b))) := by
    intro k
    have hweight := congrArg (evalInt hW k) hgram
    rw [map_add, map_mul, map_mul, evalInt_intAdj, evalInt_intAdj, map_natCast, Complex.mul_conj,
      Complex.mul_conj, ← Complex.ofReal_add] at hweight
    rw [← hc, ← hd, map_add, map_sub, map_mul, map_mul, map_mul, map_mul, evalInt_intAdj,
      evalInt_intAdj, normSq_rotate]
    congr 1
    exact_mod_cast hweight
  have hsum := sum_congr rfl fun k (_ : k ∈ range (2 ^ L)) => hterm k
  rw [sum_add_distrib, ← mul_sum, sum_add_distrib, sum_normSq_evalInt, sum_normSq_evalInt,
    sum_normSq_evalInt, sum_normSq_evalInt] at hsum
  have hreal : (∑ j ∈ range (2 ^ L), (c j : ℝ) ^ 2) + ∑ j ∈ range (2 ^ L), (d j : ℝ) ^ 2 =
      m * ((∑ j ∈ range (2 ^ L), (a j : ℝ) ^ 2) + ∑ j ∈ range (2 ^ L), (b j : ℝ) ^ 2) := by
    refine mul_left_cancel₀ hpow ?_
    linear_combination hsum
  exact_mod_cast hreal

/-! ### Sizes -/

/-- **The size of a convolution** with a sequence of small sum, in units of `1 / c`. -/
theorem abs_convolution_le_sum {n : ℕ} (c : ℕ) {a b : ℕ → ℤ} {M : ℤ}
    (hb : ∀ i < n, c * |b i| ≤ M) {k : ℕ} (hk : k < n) :
    c * |convolution n a b k| ≤ (∑ i ∈ range n, |a i|) * M := by
  have hterm : ∀ i ∈ range n,
      c * |if i ≤ k then a i * b (k - i) else -(a i * b (n + k - i))| ≤ |a i| * M := by
    intro i hi
    have hin := mem_range.mp hi
    split
    · rw [abs_mul, mul_left_comm]
      exact mul_le_mul_of_nonneg_left (hb _ (by omega)) (abs_nonneg _)
    · rw [abs_neg, abs_mul, mul_left_comm]
      exact mul_le_mul_of_nonneg_left (hb _ (by omega)) (abs_nonneg _)
  rw [sum_mul]
  refine (mul_le_mul_of_nonneg_left (abs_sum_le_sum_abs _ _) (Nat.cast_nonneg c)).trans ?_
  rw [mul_sum]
  exact sum_le_sum hterm

/-- The adjoint has the same coefficients, up to signs. -/
theorem sum_abs_intAdj (L : ℕ) (f : ℕ → ℤ) :
    ∑ i ∈ range (2 ^ L), |intAdj L f i| = ∑ i ∈ range (2 ^ L), |f i| := by
  obtain ⟨n, hn⟩ : ∃ n, 2 ^ L = n + 1 := ⟨2 ^ L - 1, by have := Nat.two_pow_pos L; omega⟩
  rw [hn, sum_range_succ', sum_range_succ', ← sum_range_reflect]
  refine congrArg₂ (· + ·) (sum_congr rfl fun i hi => ?_) rfl
  have hlt := mem_range.mp hi
  have hindex : n + 1 - (n - 1 - i + 1) = i + 1 := by omega
  rw [intAdj, if_neg (Nat.succ_ne_zero _), hn, hindex, abs_neg]

/-- A remainder is at most half of its modulus. -/
theorem two_mul_abs_bmod_le (x : ℤ) {q : ℕ} (hq : 0 < q) : 2 * |x.bmod q| ≤ q := by
  have hlo := Int.le_bmod (x := x) hq
  have hhi := Int.bmod_lt (x := x) hq
  rcases abs_cases (x.bmod q) with ⟨habs, -⟩ | ⟨habs, -⟩
  all_goals
    rw [habs]
    omega

/-! ### Bases -/

/-- A basis of a lattice whose first row has a constant Gram element. Rounding along its rows, one
after the other, then needs integers only. -/
structure Basis (L q m : ℕ) where
  f : ℕ → ℤ
  g : ℕ → ℤ
  F : ℕ → ℤ
  G : ℕ → ℤ
  det : coeffElem L f * coeffElem L G - coeffElem L g * coeffElem L F = ((q : ℕ) : IntRing L)
  gram : coeffElem L f * coeffElem L (intAdj L f) + coeffElem L g * coeffElem L (intAdj L g) =
    ((m : ℕ) : IntRing L)
  q_pos : 0 < q
  m_pos : 0 < m

namespace Basis

variable {q m : ℕ} (B : Basis L q m) (h : ℕ → ℤ)

/-- The multiple of the second row: the number of the nearest plane. -/
def outer (u : ℕ) : ℤ := Int.bdiv (convolution (2 ^ L) h B.f u) q

/-- The product of the two rows. -/
def cross (u : ℕ) : ℤ :=
  convolution (2 ^ L) (intAdj L B.g) B.G u + convolution (2 ^ L) (intAdj L B.f) B.F u

/-- The product of the first row and of what is left of the point. -/
def along (u : ℕ) : ℤ :=
  convolution (2 ^ L) h (intAdj L B.g) u - convolution (2 ^ L) (B.outer h) B.cross u

/-- The multiple of the first row. -/
def inner (u : ℕ) : ℤ := Int.bdiv (B.along h u) m

/-- The first half of the point of the lattice. -/
def first (u : ℕ) : ℤ :=
  convolution (2 ^ L) (B.inner h) B.g u + convolution (2 ^ L) (B.outer h) B.G u

/-- The second half of the point of the lattice, negated. -/
def second (u : ℕ) : ℤ :=
  convolution (2 ^ L) (B.inner h) B.f u + convolution (2 ^ L) (B.outer h) B.F u

/-- **The point is in the lattice.** -/
theorem coeffElem_first : coeffElem L (B.first h) =
    coeffElem L (B.inner h) * coeffElem L B.g + coeffElem L (B.outer h) * coeffElem L B.G := by
  rw [coeffElem_mul, coeffElem_mul, coeffElem_add]
  rfl

theorem coeffElem_second : coeffElem L (B.second h) =
    coeffElem L (B.inner h) * coeffElem L B.f + coeffElem L (B.outer h) * coeffElem L B.F := by
  rw [coeffElem_mul, coeffElem_mul, coeffElem_add]
  rfl

/-- A quotient and its remainder, as elements of the ring. -/
theorem coeffElem_bmod (x : ℕ → ℤ) (q : ℕ) : (coeffElem L fun u => (x u).bmod q) =
    coeffElem L x - ((q : ℕ) : IntRing L) * coeffElem L fun u => (x u).bdiv q := by
  have hcast : ((q : ℕ) : IntRing L) = AdjoinRoot.of (modulus ℤ L) ((q : ℕ) : ℤ) :=
    (map_natCast (AdjoinRoot.of (modulus ℤ L)) q).symm
  rw [hcast, ← coeffElem_smul, coeffElem_sub]
  refine coeffElem_congr fun u _ => ?_
  have hdiv := Int.bmod_eq_self_sub_mul_bdiv (x u) q
  exact hdiv

/-- **The distance from the plane.** -/
theorem first_mul_add : coeffElem L B.f * coeffElem L (fun u => h u - B.first h u) +
      coeffElem L B.g * coeffElem L (B.second h) =
    coeffElem L fun u => (convolution (2 ^ L) h B.f u).bmod q := by
  have houter : (coeffElem L fun u => Int.bdiv (convolution (2 ^ L) h B.f u) q) =
      coeffElem L (B.outer h) := rfl
  rw [coeffElem_bmod, houter, ← coeffElem_sub, ← coeffElem_mul, coeffElem_first, coeffElem_second,
    ← B.det]
  ring

/-- **The distance inside the plane.** -/
theorem first_mul_sub : coeffElem L (intAdj L B.g) * coeffElem L (fun u => h u - B.first h u) -
      coeffElem L (intAdj L B.f) * coeffElem L (B.second h) =
    coeffElem L fun u => (B.along h u).bmod m := by
  have hinner : (coeffElem L fun u => Int.bdiv (B.along h u) m) = coeffElem L (B.inner h) := rfl
  have hcross : coeffElem L B.cross = coeffElem L (intAdj L B.g) * coeffElem L B.G +
      coeffElem L (intAdj L B.f) * coeffElem L B.F := by
    rw [coeffElem_mul, coeffElem_mul, coeffElem_add]
    rfl
  have halong : coeffElem L (B.along h) = coeffElem L h * coeffElem L (intAdj L B.g) -
      coeffElem L (B.outer h) * coeffElem L B.cross := by
    rw [coeffElem_mul, coeffElem_mul, coeffElem_sub]
    rfl
  rw [coeffElem_bmod, hinner, halong, hcross, ← coeffElem_sub, coeffElem_first, coeffElem_second,
    ← B.gram]
  ring

/-- **The length of what is left over.** -/
theorem sum_sq_le : 4 * m * (∑ u ∈ range (2 ^ L), (h u - B.first h u) ^ 2 +
    ∑ u ∈ range (2 ^ L), B.second h u ^ 2) ≤ 2 ^ L * (q ^ 2 + m ^ 2 : ℤ) := by
  have hlen := sum_sq_add_sum_sq B.gram (B.first_mul_add h) (B.first_mul_sub h)
  have hrest : ∀ (x : ℕ → ℤ) {q : ℕ}, 0 < q →
      4 * ∑ u ∈ range (2 ^ L), (x u).bmod q ^ 2 ≤ 2 ^ L * (q : ℤ) ^ 2 := by
    intro x q hq
    have hterm : ∀ u ∈ range (2 ^ L), 4 * (x u).bmod q ^ 2 ≤ (q : ℤ) ^ 2 := by
      intro u _
      have hsq := pow_le_pow_left₀ (by positivity) (two_mul_abs_bmod_le (x u) hq) 2
      rwa [mul_pow, sq_abs] at hsq
    rw [mul_sum]
    refine (sum_le_card_nsmul _ _ _ hterm).trans_eq ?_
    rw [card_range, nsmul_eq_mul]
    push_cast
    rfl
  have houter := hrest (convolution (2 ^ L) h B.f) B.q_pos
  have hinner := hrest (B.along h) B.m_pos
  rw [mul_assoc, ← hlen]
  linarith

/-- **The size of the second half** of what is left over. -/
theorem abs_second_le {u : ℕ} (hu : u < 2 ^ L) : 2 * m * |B.second h u| ≤
    (∑ i ∈ range (2 ^ L), |B.g i|) * q + (∑ i ∈ range (2 ^ L), |B.f i|) * m := by
  have helem : (coeffElem L fun u => (m : ℤ) * B.second h u) =
      coeffElem L fun u =>
        convolution (2 ^ L) (intAdj L B.g) (fun u => (convolution (2 ^ L) h B.f u).bmod q) u -
          convolution (2 ^ L) B.f (fun u => (B.along h u).bmod m) u := by
    have hm : AdjoinRoot.of (modulus ℤ L) (m : ℤ) = ((m : ℕ) : IntRing L) := map_natCast _ m
    rw [← coeffElem_sub, ← coeffElem_mul, ← coeffElem_mul, ← B.first_mul_add, ← B.first_mul_sub,
      coeffElem_smul, hm, ← B.gram]
    ring
  have hu' := coeffElem_inj helem hu
  have houter := abs_convolution_le_sum 2 (a := intAdj L B.g)
    (fun i _ => two_mul_abs_bmod_le (convolution (2 ^ L) h B.f i) B.q_pos) hu
  have hinner := abs_convolution_le_sum 2 (a := B.f)
    (fun i _ => two_mul_abs_bmod_le (B.along h i) B.m_pos) hu
  rw [sum_abs_intAdj] at houter
  have hprod : (m : ℤ) * |B.second h u| = |(m : ℤ) * B.second h u| := by
    rw [abs_mul, Nat.abs_cast]
  rw [mul_assoc, hprod, hu']
  have htriangle := abs_sub (convolution (2 ^ L) (intAdj L B.g)
    (fun u => (convolution (2 ^ L) h B.f u).bmod q) u)
      (convolution (2 ^ L) B.f (fun u => (B.along h u).bmod m) u)
  push_cast at houter hinner
  linarith

end Basis

end NearPlane
