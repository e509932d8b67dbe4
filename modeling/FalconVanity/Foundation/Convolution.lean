import FalconVanity.Foundation.Negacyclic
import Mathlib.Data.ZMod.Basic

/-!
# Products of Coefficients in the Negacyclic Ring

The product of two elements of the ring of polynomials modulo `X ^ 2 ^ L + 1` has the
coefficients of their negacyclic convolution: what leaves the range of the degrees comes back
with its sign changed. Coefficients are unique, and convolutions of small integers are small, so
that an equation between products of small elements over the integers is decided modulo one
number that is large enough.

## Main results

* `coeffElem_mul`: products are convolutions.
* `coeffElem_inj`: an element determines its coefficients.
* `abs_convolution_le`: the size of a convolution of integers.
* `map_convolution`, `mapCoeffs`: ring homomorphisms on the coefficients.
* `inflate_coeffElem`: sparse elements are those of a ring of lower degree.
* `coeffElem_mul_sub_mul_eq_iff`: differences of products by evaluations.
* `scaled_inverse_mul`: products through the transform.
* `coeffElem_int_eq_iff`: equations between small products over the integers.
-/

namespace Negacyclic

open Polynomial Finset

section Ring

variable {K : Type*} [CommRing K] {L : ℕ}

/-- The coefficients of a product modulo `X ^ n + 1`. -/
def convolution (n : ℕ) (a b : ℕ → K) (k : ℕ) : K :=
  ∑ i ∈ range n, if i ≤ k then a i * b (k - i) else -(a i * b (n + k - i))

/-- The class of the variable. -/
theorem root_pow_modulus :
    (AdjoinRoot.root (modulus K L)) ^ 2 ^ L = -1 := by
  have h : AdjoinRoot.mk (modulus K L) (modulus K L) = 0 := AdjoinRoot.mk_self
  rw [modulus, map_add, map_pow, AdjoinRoot.mk_X, map_one] at h
  exact eq_neg_of_add_eq_zero_left h

/-- The element of some coefficients, as a sum of powers of the root. -/
theorem coeffElem_eq_sum (a : ℕ → K) :
    coeffElem L a =
      ∑ l ∈ range (2 ^ L), AdjoinRoot.of (modulus K L) (a l) * AdjoinRoot.root _ ^ l := by
  rw [coeffElem, map_sum]
  refine sum_congr rfl fun l _ => ?_
  rw [map_mul, map_pow, AdjoinRoot.mk_X, AdjoinRoot.mk_C]

/-- A monomial times an element: its coefficients move up, and those that leave come back
negated. -/
theorem sum_shift {R : Type*} [CommRing R] {x : R} {n i : ℕ} (hx : x ^ n = -1) (hi : i < n)
    (b : ℕ → R) :
    ∑ j ∈ range n, b j * x ^ (i + j) =
      ∑ k ∈ range n, (if i ≤ k then b (k - i) else -b (n + k - i)) * x ^ k := by
  obtain ⟨m, rfl⟩ : ∃ m, n = m + i := ⟨n - i, by omega⟩
  rw [sum_range_add, Nat.add_comm m i, sum_range_add, add_comm]
  refine congrArg₂ (· + ·) (sum_congr rfl fun k hk => ?_) (sum_congr rfl fun j _ => ?_)
  · have hki := mem_range.mp hk
    have hpow : x ^ (i + (m + k)) = -x ^ k := by
      rw [← Nat.add_assoc, Nat.add_comm i m, pow_add, hx, neg_one_mul]
    have hindex : i + m + k - i = m + k := by omega
    rw [hpow, if_neg (by omega), hindex]
    ring
  · rw [if_pos (Nat.le_add_right i j), Nat.add_sub_cancel_left]

/-- **Products are convolutions.** -/
theorem coeffElem_mul (a b : ℕ → K) :
    coeffElem L a * coeffElem L b = coeffElem L (convolution (2 ^ L) a b) := by
  let φ := AdjoinRoot.of (modulus K L)
  let x := AdjoinRoot.root (modulus K L)
  have hterm : ∀ i ∈ range (2 ^ L),
      φ (a i) * x ^ i * ∑ j ∈ range (2 ^ L), φ (b j) * x ^ j =
        ∑ k ∈ range (2 ^ L),
          φ (if i ≤ k then a i * b (k - i) else -(a i * b (2 ^ L + k - i))) * x ^ k := by
    intro i hi
    calc φ (a i) * x ^ i * ∑ j ∈ range (2 ^ L), φ (b j) * x ^ j
        = φ (a i) * ∑ j ∈ range (2 ^ L), φ (b j) * x ^ (i + j) := by
          rw [mul_assoc, mul_sum]
          refine congrArg _ (sum_congr rfl fun j _ => ?_)
          rw [pow_add]
          ring
      _ = _ := by
          rw [sum_shift root_pow_modulus (mem_range.mp hi) fun j => φ (b j), mul_sum]
          refine sum_congr rfl fun k _ => ?_
          split
          · rw [map_mul, mul_assoc]
          · rw [map_neg, map_mul]
            ring
  rw [coeffElem_eq_sum, coeffElem_eq_sum, coeffElem_eq_sum, sum_mul, sum_congr rfl hterm,
    sum_comm]
  refine sum_congr rfl fun k _ => ?_
  rw [← sum_mul, ← map_sum, convolution]

/-- Elements are subtracted coefficient by coefficient. -/
theorem coeffElem_sub (a b : ℕ → K) :
    coeffElem L a - coeffElem L b = coeffElem L fun p => a p - b p := by
  simp only [coeffElem_eq_sum, map_sub, sub_mul, sum_sub_distrib]

/-- Elements are added coefficient by coefficient. -/
theorem coeffElem_add (a b : ℕ → K) :
    coeffElem L a + coeffElem L b = coeffElem L fun p => a p + b p := by
  simp only [coeffElem_eq_sum, map_add, add_mul, sum_add_distrib]

/-- A constant, as an element of the ring. -/
theorem coeffElem_const (c : K) :
    coeffElem L (fun p => if p = 0 then c else 0) = AdjoinRoot.of (modulus K L) c := by
  rw [coeffElem_eq_sum, sum_eq_single 0]
  · rw [if_pos rfl, pow_zero, mul_one]
  · intro l _ hl
    rw [if_neg hl, map_zero, zero_mul]
  · intro h
    exact absurd (mem_range.mpr (Nat.two_pow_pos L)) h

/-- **An element determines its coefficients.** -/
theorem coeffElem_inj [Nontrivial K] {a b : ℕ → K} (h : coeffElem L a = coeffElem L b) {p : ℕ}
    (hp : p < 2 ^ L) : a p = b p := by
  have hdeg : (modulus K L).degree = (2 ^ L : ℕ) := by
    have hd := degree_X_pow_add_C (Nat.two_pow_pos L) (1 : K)
    rwa [C_1] at hd
  have hlt : ∀ c : ℕ → K,
      (∑ l ∈ range (2 ^ L), C (c l) * X ^ l).degree < (modulus K L).degree := by
    intro c
    rw [hdeg]
    refine (degree_sum_le _ _).trans_lt ((Finset.sup_lt_iff (WithBot.bot_lt_coe _)).mpr ?_)
    intro l hl
    exact (degree_C_mul_X_pow_le _ _).trans_lt (WithBot.coe_lt_coe.mpr (mem_range.mp hl))
  have hcoeff : ∀ c : ℕ → K, coeffs (coeffElem L c) p = c p := by
    intro c
    rw [coeffs, coeffElem, AdjoinRoot.modByMonicHom_mk,
      (modByMonic_eq_self_iff modulus_monic).mpr (hlt c), finsetSum_coeff,
      sum_eq_single p]
    · rw [coeff_C_mul_X_pow, if_pos rfl]
    · intro l _ hl
      rw [coeff_C_mul_X_pow, if_neg (Ne.symm hl)]
    · intro hmem
      exact absurd (mem_range.mpr hp) hmem
  rw [← hcoeff a, h, hcoeff b]

/-- Convolutions commute with ring homomorphisms. -/
theorem map_convolution {K' : Type*} [CommRing K'] (φ : K →+* K') (n : ℕ) (a b : ℕ → K)
    (k : ℕ) :
    φ (convolution n a b k) = convolution n (fun i => φ (a i)) (fun i => φ (b i)) k := by
  rw [convolution, convolution, map_sum]
  refine sum_congr rfl fun i _ => ?_
  split
  · rw [map_mul]
  · rw [map_neg, map_mul]

/-- A ring homomorphism on the coefficients. -/
noncomputable def mapCoeffs {R : Type*} [CommRing R] (φ : K →+* R) (L : ℕ) :
    AdjoinRoot (modulus K L) →+* AdjoinRoot (modulus R L) :=
  AdjoinRoot.map φ _ _ (by
    rw [modulus, modulus, Polynomial.map_add, Polynomial.map_pow, map_X, Polynomial.map_one])

/-- A homomorphism of the coefficients maps each of them. -/
theorem mapCoeffs_coeffElem {R : Type*} [CommRing R] (φ : K →+* R) (a : ℕ → K) :
    mapCoeffs φ L (coeffElem L a) = coeffElem L fun p => φ (a p) := by
  rw [coeffElem_eq_sum, coeffElem_eq_sum, map_sum]
  refine sum_congr rfl fun l _ => ?_
  rw [map_mul, map_pow, mapCoeffs, AdjoinRoot.map_of, AdjoinRoot.map_root]

/-- A multiple by a constant. -/
theorem coeffElem_smul (c : K) (a : ℕ → K) :
    (coeffElem L fun p => c * a p) = AdjoinRoot.of (modulus K L) c * coeffElem L a := by
  simp only [coeffElem_eq_sum, map_mul, mul_sum, mul_assoc]

/-- The signs of all coefficients change. -/
theorem coeffElem_neg (a : ℕ → K) : -coeffElem L a = coeffElem L fun p => -a p := by
  simp only [coeffElem_eq_sum, map_neg, neg_mul, sum_neg_distrib]

end Ring

/-! ### Sparse elements -/

section Sparse

variable {K : Type*} [CommRing K] {L : ℕ}

/-- A sequence with `s - 1` zeros after each entry. -/
def spread (s : ℕ) (a : ℕ → K) (l : ℕ) : K := if l % s = 0 then a (l / s) else 0

/-- A sum of which only the multiples of `s` matter. -/
theorem sum_range_of_dvd {M : Type*} [AddCommMonoid M] {F : ℕ → M} {s : ℕ} (hs : 0 < s)
    (hF : ∀ l, l % s ≠ 0 → F l = 0) (k : ℕ) :
    ∑ l ∈ range (k * s), F l = ∑ j ∈ range k, F (j * s) := by
  induction k with
  | zero => simp
  | succ k ih =>
      rw [Nat.succ_mul, sum_range_add, ih, sum_range_succ]
      refine congrArg _ (sum_eq_single_of_mem 0 (mem_range.mpr hs) fun i hi hne => hF _ ?_)
      rw [Nat.mul_comm, Nat.mul_add_mod, Nat.mod_eq_of_lt (mem_range.mp hi)]
      exact hne

/-- The coefficients that are spread out are found at multiples of `s`. -/
theorem spread_mul {s : ℕ} (hs : 0 < s) (a : ℕ → K) (j : ℕ) : spread s a (j * s) = a j := by
  rw [spread, if_pos (Nat.mul_mod_left j s), Nat.mul_div_cancel j hs]

/-- There are zeros in between. -/
theorem spread_of_mod_ne {s l : ℕ} (a : ℕ → K) (hl : l % s ≠ 0) : spread s a l = 0 := if_neg hl

variable (K L) in
/-- A power of the variable is a root of the modulus of a lower degree. -/
theorem eval₂_modulus (d : ℕ) : (modulus K L).eval₂ (AdjoinRoot.of (modulus K (L + d)))
    (AdjoinRoot.root (modulus K (L + d)) ^ 2 ^ d) = 0 := by
  have hpow : 2 ^ d * 2 ^ L = 2 ^ (L + d) := by rw [pow_add, Nat.mul_comm]
  have hmodulus : modulus K L = X ^ 2 ^ L + 1 := rfl
  rw [hmodulus, eval₂_add, eval₂_pow, eval₂_X, eval₂_one, ← pow_mul, hpow, root_pow_modulus,
    neg_add_cancel]

variable (K L) in
/-- The ring of a lower degree is a subring: its variable is a power of the variable. -/
noncomputable def inflate (d : ℕ) :
    AdjoinRoot (modulus K L) →+* AdjoinRoot (modulus K (L + d)) :=
  AdjoinRoot.lift (AdjoinRoot.of _) (AdjoinRoot.root _ ^ 2 ^ d) (eval₂_modulus K L d)

/-- **Sparse elements** are those of the subring. -/
theorem inflate_coeffElem (d : ℕ) (a : ℕ → K) :
    inflate K L d (coeffElem L a) = coeffElem (L + d) (spread (2 ^ d) a) := by
  have hpos := Nat.two_pow_pos d
  rw [coeffElem_eq_sum, coeffElem_eq_sum, map_sum, pow_add,
    sum_range_of_dvd hpos (fun l hl => by rw [spread_of_mod_ne a hl, map_zero, zero_mul])]
  refine sum_congr rfl fun j _ => ?_
  rw [map_mul, map_pow, inflate, AdjoinRoot.lift_of, AdjoinRoot.lift_root, spread_mul hpos,
    ← pow_mul, Nat.mul_comm]

end Sparse

/-! ### Evaluations -/

section Evaluations

variable {K : Type*} [CommRing K] {L : ℕ} {T : Twiddles K L}

/-- A constant evaluates to itself. -/
theorem forward_const (c : K) {p : ℕ} (hp : p < 2 ^ L) :
    forward T (fun l => if l = 0 then c else 0) L p = c := by
  have h := evalAt_coeffElem (T := T) ⟨p, hp⟩ fun l => if l = 0 then c else 0
  rw [coeffElem_const, evalAt, AdjoinRoot.lift_of] at h
  exact h.symm

/-- **A difference of products** by evaluations. -/
theorem coeffElem_mul_sub_mul_eq_iff [Nontrivial K] (h2 : IsUnit (2 : K)) {a b c d e : ℕ → K} :
    coeffElem L a * coeffElem L b - coeffElem L c * coeffElem L d = coeffElem L e ↔
      ∀ p < 2 ^ L, forward T a L p * forward T b L p - forward T c L p * forward T d L p =
        forward T e L p := by
  constructor
  · intro h p hp
    have hp' := congrArg (evalAt T ⟨p, hp⟩) h
    simpa [evalAt_coeffElem] using hp'
  · intro h
    refine eq_of_evalAt (T := T) h2 fun p => ?_
    rw [map_sub, map_mul, map_mul, evalAt_coeffElem, evalAt_coeffElem, evalAt_coeffElem,
      evalAt_coeffElem, evalAt_coeffElem]
    exact h p p.isLt

/-- **An equation between products** by evaluations. -/
theorem coeffElem_mul_eq_mul_iff [Nontrivial K] (h2 : IsUnit (2 : K)) {a b c d : ℕ → K} :
    coeffElem L a * coeffElem L b = coeffElem L c * coeffElem L d ↔
      ∀ p < 2 ^ L, forward T a L p * forward T b L p = forward T c L p * forward T d L p := by
  constructor
  · intro h p hp
    have hp' := congrArg (evalAt T ⟨p, hp⟩) h
    simpa [evalAt_coeffElem] using hp'
  · intro h
    refine eq_of_evalAt (T := T) h2 fun p => ?_
    rw [map_mul, map_mul, evalAt_coeffElem, evalAt_coeffElem, evalAt_coeffElem, evalAt_coeffElem]
    exact h p p.isLt

/-- The evaluations of a convolution are the products of the evaluations. -/
theorem forward_convolution (a b : ℕ → K) {p : ℕ} (hp : p < 2 ^ L) :
    forward T (convolution (2 ^ L) a b) L p = forward T a L p * forward T b L p := by
  have h := evalAt_coeffElem (T := T) ⟨p, hp⟩ (convolution (2 ^ L) a b)
  rw [← coeffElem_mul, map_mul, evalAt_coeffElem, evalAt_coeffElem] at h
  exact h.symm

end Evaluations

section Field

variable {K : Type*} [Field K] {L : ℕ} {T : Twiddles K L}

/-- The scaled inverse transform has the given evaluations. -/
theorem forward_scaled_inverse (h2 : (2 : K) ≠ 0) (x : ℕ → K) {p : ℕ} (hp : p < 2 ^ L) :
    forward T (fun p => inverse T x L p * (2 ^ L)⁻¹) L p = x p := by
  have hcomm : (fun p => inverse T x L p * (2 ^ L)⁻¹) =
      fun p => (2 ^ L : K)⁻¹ * inverse T x L p := funext fun _ => mul_comm _ _
  rw [hcomm, forward_smul, forward_inverse hp, ← mul_assoc,
    inv_mul_cancel₀ (pow_ne_zero L h2), one_mul]

/-- **The product through the transform**, with its scale. -/
theorem scaled_inverse_mul (h2 : (2 : K) ≠ 0) (a b : ℕ → K) {p : ℕ}
    (hp : p < 2 ^ L) :
    inverse T (fun p => forward T a L p * forward T b L p) L p * (2 ^ L)⁻¹ =
      convolution (2 ^ L) a b p := by
  have helem : coeffElem L (fun p =>
      inverse T (fun p => forward T a L p * forward T b L p) L p * (2 ^ L)⁻¹) =
      coeffElem L (convolution (2 ^ L) a b) := by
    refine eq_of_evalAt (T := T) h2.isUnit fun p => ?_
    rw [evalAt_coeffElem, evalAt_coeffElem, forward_scaled_inverse h2 _ p.isLt,
      forward_convolution a b p.isLt]
  exact coeffElem_inj helem hp

end Field

/-! ### Small integers -/

/-- **The size of a convolution.** -/
theorem abs_convolution_le {n : ℕ} {a b : ℕ → ℤ} {A B : ℤ} (ha : ∀ i < n, |a i| ≤ A)
    (hb : ∀ i < n, |b i| ≤ B) {k : ℕ} (hk : k < n) : |convolution n a b k| ≤ n * (A * B) := by
  have hA : 0 ≤ A := (abs_nonneg _).trans (ha k hk)
  have hterm : ∀ i ∈ range n,
      |if i ≤ k then a i * b (k - i) else -(a i * b (n + k - i))| ≤ A * B := by
    intro i hi
    have hin := mem_range.mp hi
    split
    · rw [abs_mul]
      exact mul_le_mul (ha i hin) (hb _ (by omega)) (abs_nonneg _) hA
    · rw [abs_neg, abs_mul]
      exact mul_le_mul (ha i hin) (hb _ (by omega)) (abs_nonneg _) hA
  calc |convolution n a b k|
      ≤ ∑ i ∈ range n, |if i ≤ k then a i * b (k - i) else -(a i * b (n + k - i))| :=
        abs_sum_le_sum_abs _ _
    _ ≤ ∑ _i ∈ range n, A * B := sum_le_sum hterm
    _ = n * (A * B) := by rw [sum_const, card_range, nsmul_eq_mul]

/-- **Small integers** are determined modulo a large number. -/
theorem intCast_injOn {p : ℕ} {x y : ℤ} (h : (x : ZMod p) = (y : ZMod p)) (hxy : |x - y| < p) :
    x = y := by
  have hdvd : (p : ℤ) ∣ x - y := (ZMod.intCast_eq_intCast_iff_dvd_sub y x p).mp h.symm
  exact sub_eq_zero.mp (Int.eq_zero_of_abs_lt_dvd hdvd hxy)

/-- **An equation over the integers** holds modulo every number. -/
theorem coeffElem_intCast {p L : ℕ} {a b c d e : ℕ → ℤ}
    (h : coeffElem L a * coeffElem L b - coeffElem L c * coeffElem L d = coeffElem L e) :
    coeffElem L (fun i => (a i : ZMod p)) * coeffElem L (fun i => (b i : ZMod p)) -
        coeffElem L (fun i => (c i : ZMod p)) * coeffElem L (fun i => (d i : ZMod p)) =
      coeffElem L fun i => (e i : ZMod p) := by
  have hmap := congrArg (mapCoeffs (Int.castRingHom (ZMod p)) L) h
  simpa only [map_sub, map_mul, mapCoeffs_coeffElem, eq_intCast] using hmap

/-- **Equations between small products** over the integers are decided modulo one number. -/
theorem coeffElem_int_eq_iff {p L : ℕ} [Fact (1 < p)] {a b c d e : ℕ → ℤ}
    (hsmall : ∀ k < 2 ^ L,
      |convolution (2 ^ L) a b k - convolution (2 ^ L) c d k - e k| < p) :
    coeffElem L a * coeffElem L b - coeffElem L c * coeffElem L d = coeffElem L e ↔
      coeffElem L (fun i => (a i : ZMod p)) * coeffElem L (fun i => (b i : ZMod p)) -
          coeffElem L (fun i => (c i : ZMod p)) * coeffElem L (fun i => (d i : ZMod p)) =
        coeffElem L fun i => (e i : ZMod p) := by
  constructor
  · exact coeffElem_intCast
  · intro h
    have hmap : ∀ (x y : ℕ → ℤ) (k : ℕ), ((convolution (2 ^ L) x y k : ℤ) : ZMod p) =
        convolution (2 ^ L) (fun i => (x i : ZMod p)) (fun i => (y i : ZMod p)) k :=
      fun x y k => map_convolution (Int.castRingHom (ZMod p)) _ x y k
    rw [coeffElem_mul, coeffElem_mul, coeffElem_sub] at h ⊢
    refine coeffElem_congr fun k hk => ?_
    have hk' := coeffElem_inj h hk
    rw [← hmap, ← hmap, ← Int.cast_sub] at hk'
    exact intCast_injOn hk' (hsmall k hk)

end Negacyclic
