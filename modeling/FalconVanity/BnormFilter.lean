import FalconVanity.Foundation.Parseval
import FalconVanity.Sampler
import Mathlib.Analysis.SpecialFunctions.Trigonometric.Basic

/-!
# The Norm Filter

`dev_bnorm_ok` packs the two polynomials of a sample into one complex transform and sums the
reciprocals of the squared absolute values over the pairs of positions of the output. The
floating-point operations are read as those of a field. With the twiddle table of the host as
real numbers, the result is the norm of the orthogonalized vector that key generation bounds.

## Main results

* `bnorm_eq_sum`: the result of the filter, as a sum over the negacyclic points.
* `devBnormOk_iff`: the decision of the filter.
* `norm_filter_exact`: the result of the filter is the norm in the coefficient domain.
-/

namespace FalconVanity

open Dif Parseval
open scoped Real

/-! ### The kernel -/

/-- `float2`: a pair of floating point numbers. The arithmetic is exact here. -/
structure Float2 (R : Type*) where
  x : R
  y : R

/-- The default of a pair is zero. -/
instance {R : Type*} [Zero R] : Inhabited (Float2 R) := ⟨⟨0, 0⟩⟩

section Kernel

variable {R : Type*} [Field R] (w : ℕ → Float2 R)

/-- The first loop of `dev_bnorm_ok`: `z_j = (f_j + i * g_j) * W2048[j]`, over the scratch array. -/
def twistPack (f g : SmallPoly) (z : Vector (Float2 R) 1024) : Vector (Float2 R) 1024 :=
  (List.range 1024).foldl (fun z j =>
    let a : R := (f[j]!.toInt : R)
    let b : R := (g[j]!.toInt : R)
    z.set! j ⟨a * (w j).x - b * (w j).y, a * (w j).y + b * (w j).x⟩) z

/-- The body of the innermost loop of the transform. -/
def difButterfly (s half tstep : ℕ) (z : Vector (Float2 R) 1024) (j : ℕ) :
    Vector (Float2 R) 1024 :=
  let u := z[s + j]!
  let v := z[s + j + half]!
  let dx := u.x - v.x
  let dy := u.y - v.y
  let z := z.set! (s + j) ⟨u.x + v.x, u.y + v.y⟩
  z.set! (s + j + half)
    ⟨dx * (w (j * tstep)).x - dy * (w (j * tstep)).y,
      dx * (w (j * tstep)).y + dy * (w (j * tstep)).x⟩

/-- The two inner loops of the transform: block `i` of length `len` starts at `s = i * len`. -/
def difRound (len : ℕ) (z : Vector (Float2 R) 1024) : Vector (Float2 R) 1024 :=
  (List.range (1024 / len)).foldl (fun z i =>
    (List.range (len / 2)).foldl (difButterfly w (i * len) (len / 2) (2048 / len)) z) z

/-- The loop over `len`, which is 1024 and is halved while it is at least 2. -/
def difFft (z : Vector (Float2 R) 1024) : Vector (Float2 R) 1024 :=
  (List.range 10).foldl (fun z k => difRound w (1024 >>> k) z) z

/-- The last loop of `dev_bnorm_ok`. -/
def invSum (z : Vector (Float2 R) 1024) : R :=
  (List.range 512).foldl (fun invSum b =>
    let p := z[b]!
    let r := z[1023 - b]!
    let d := p.x * p.x + p.y * p.y + r.x * r.x + r.y * r.y
    invSum + 1 / d) 0

/-- The value `bnorm` of `dev_bnorm_ok`. -/
def bnorm (f g : SmallPoly) (z : Vector (Float2 R) 1024) : R :=
  ((12289 : ℕ) : R) * ((12289 : ℕ) : R) / ((256 : ℕ) : R) *
    invSum (difFft w (twistPack w f g z))

/-- `dev_bnorm_ok`, with the bound `16822.4121`. -/
def devBnormOk [LT R] [DecidableLT R] (f g : SmallPoly) (z : Vector (Float2 R) 1024) : Bool :=
  decide (bnorm w f g z < ((168224121 : ℕ) : R) / ((10000 : ℕ) : R))

/-! ### The scratch array -/

/-- The entries after the first loop. -/
def twisted (f g : SmallPoly) (p : ℕ) : Float2 R :=
  ⟨f[p]!.toInt * (w p).x - g[p]!.toInt * (w p).y, f[p]!.toInt * (w p).y + g[p]!.toInt * (w p).x⟩

/-- The loop that packs writes all 1024 places, whatever was there before. -/
theorem getElem!_twistPack (f g : SmallPoly) (z : Vector (Float2 R) 1024) :
    ∀ p < 1024, (twistPack w f g z)[p]! = twisted w f g p := by
  refine foldl_range_inv (fun k z => ∀ p < k, z[p]! = twisted w f g p)
    (fun p hp => absurd hp (Nat.not_lt_zero p)) fun k hk z hz p hp => ?_
  rw [Words.getElem!_set! _ (by omega)]
  by_cases hpk : k = p
  · rw [if_pos hpk, hpk, twisted]
  · rw [if_neg hpk]
    exact hz p (by omega)

/-- **The scratch array** does not matter: the first loop replaces all of it. -/
theorem bnorm_scratch (f g : SmallPoly) (z z' : Vector (Float2 R) 1024) :
    bnorm w f g z = bnorm w f g z' := by
  have htwist : twistPack w f g z = twistPack w f g z' := by
    refine Vector.ext fun p hp => ?_
    have hget := (getElem!_twistPack w f g z p hp).trans (getElem!_twistPack w f g z' p hp).symm
    rwa [getElem!_pos _ p hp, getElem!_pos _ p hp] at hget
  rw [bnorm, bnorm, htwist]

end Kernel

/-- The table `PQ_W2048` of the host: `exp(-i * pi * t / 1024)`. -/
noncomputable def pqW2048 (t : ℕ) : Float2 ℝ :=
  ⟨Real.cos (-π * t / 1024), Real.sin (-π * t / 1024)⟩

/-! ### Complex numbers -/

/-- A pair as a complex number. -/
def Float2.toComplex (c : Float2 ℝ) : ℂ := ⟨c.x, c.y⟩

/-- The root of unity of the table. -/
noncomputable def rootW : ℂ := Complex.exp (-Complex.I * π / 1024)

/-- The table of the device holds the powers of a root of unity. -/
theorem toComplex_pqW2048 (t : ℕ) : (pqW2048 t).toComplex = rootW ^ t := by
  have hexp : (t : ℂ) * (-Complex.I * π / 1024) = ((-π * t / 1024 : ℝ) : ℂ) * Complex.I := by
    push_cast
    ring
  rw [rootW, ← Complex.exp_nat_mul, hexp]
  apply Complex.ext
  · rw [Complex.exp_ofReal_mul_I_re, Float2.toComplex, pqW2048]
  · rw [Complex.exp_ofReal_mul_I_im, Float2.toComplex, pqW2048]

/-- The root has order 2048: its power by 1024 is `-1`. -/
theorem rootW_pow : rootW ^ 2 ^ 10 = -1 := by
  have hexp : ((2 ^ 10 : ℕ) : ℂ) * (-Complex.I * π / 1024) = -(π * Complex.I) := by
    push_cast
    ring
  rw [rootW, ← Complex.exp_nat_mul, hexp, Complex.exp_neg, Complex.exp_pi_mul_I]
  norm_num

/-- The multiplication that the kernel writes out. -/
theorem toComplex_mul (a b : ℝ) (w : Float2 ℝ) :
    (Float2.mk (a * w.x - b * w.y) (a * w.y + b * w.x)).toComplex =
      (a + Complex.I * b) * w.toComplex := by
  apply Complex.ext <;> simp [Float2.toComplex]

/-- The square of the absolute value, as the kernel computes it. -/
theorem normSq_toComplex (c : Float2 ℝ) :
    Complex.normSq c.toComplex = c.x * c.x + c.y * c.y := rfl

/-! ### The loops -/

/-- The array `z` holds the complex numbers `a`. -/
def Holds (z : Vector (Float2 ℝ) 1024) (a : ℕ → ℂ) : Prop :=
  ∀ p < 1024, z[p]!.toComplex = a p

/-- The coefficients of a polynomial as real numbers. -/
def SmallPoly.real (f : SmallPoly) (j : ℕ) : ℝ := (f[j]!.toInt : ℝ)

/-- **The twist** and the packing. -/
theorem holds_twistPack (f g : SmallPoly) (z : Vector (Float2 ℝ) 1024) :
    Holds (twistPack pqW2048 f g z) fun j => (f.real j + Complex.I * g.real j) * rootW ^ j := by
  intro p hp
  rw [getElem!_twistPack _ _ _ _ p hp, twisted, toComplex_mul, toComplex_pqW2048]
  rfl

/-- A butterfly replaces a pair. -/
theorem Holds.difButterfly {z : Vector (Float2 ℝ) 1024} {c b : ℕ → ℂ} (hz : Holds z c)
    {s half tstep r : ℕ} (hlt : s + r + half < 1024)
    (hleft : b (s + r) = c (s + r) + c (s + r + half))
    (hright : b (s + r + half) = (c (s + r) - c (s + r + half)) * rootW ^ (r * tstep)) :
    Holds (difButterfly pqW2048 s half tstep z r) fun p =>
      if p = s + r ∨ p = s + r + half then b p else c p := by
  have hu := hz (s + r) (by omega)
  have hv := hz (s + r + half) hlt
  intro p hp
  beta_reduce
  rw [FalconVanity.difButterfly, Words.getElem!_set! _ hp]
  by_cases hp₂ : s + r + half = p
  · rw [if_pos hp₂, if_pos (.inr hp₂.symm), ← hp₂, hright, toComplex_mul, toComplex_pqW2048, ← hu,
      ← hv]
    congr 1
    apply Complex.ext <;> simp [Float2.toComplex]
  · rw [if_neg hp₂, Words.getElem!_set! _ hp]
    by_cases hp₁ : s + r = p
    · rw [if_pos hp₁, if_pos (.inl hp₁.symm), ← hp₁, hleft, ← hu, ← hv]
      rfl
    · rw [if_neg hp₁, if_neg (by omega)]
      exact hz p hp

/-- **A round** of the transform is a layer. -/
theorem Holds.difRound {z : Vector (Float2 ℝ) 1024} {a : ℕ → ℂ} (hz : Holds z a) {m h : ℕ}
    (hh : 0 < h) (hm : m * (2 * h) = 1024) :
    Holds (difRound pqW2048 (2 * h) z) (layer (fun r => (rootW ^ (2 * m)) ^ r) h a) := by
  have hcount : 1024 / (2 * h) = m := by
    rw [← hm]
    exact Nat.mul_div_cancel m (by omega)
  have hstep : 2048 / (2 * h) = 2 * m := by
    have hdouble : 2048 = 2 * (m * (2 * h)) := by omega
    rw [hdouble, ← mul_assoc]
    exact Nat.mul_div_cancel _ (by omega)
  have hhalf : 2 * h / 2 = h := Nat.mul_div_cancel_left h two_pos
  rw [FalconVanity.difRound, hcount, hstep, hhalf]
  have hrun : Holds ((List.range m).foldl (fun z i => (List.range h).foldl
      (FalconVanity.difButterfly pqW2048 (i * (2 * h)) h (2 * m)) z) z)
      (Negacyclic.progress h m 0 a (layer (fun r => (rootW ^ (2 * m)) ^ r) h a)) := by
    refine foldl_inPlace Holds hh (fun i hi r hr s c hs hl hr' => ?_) hz
    have hblock : (i + 1) * (2 * h) ≤ m * (2 * h) := Nat.mul_le_mul_right _ hi
    rw [Nat.succ_mul, hm] at hblock
    refine hs.difButterfly (by omega) ?_ ?_
    · rw [layer_left _ _ hr, hl, hr']
    · rw [layer_right _ _ hr, hl, hr', ← pow_mul, mul_comm r]
  intro p hp
  rw [hrun p hp, Negacyclic.progress_done (by rwa [hm])]

/-- **The transform** by its rounds. -/
theorem Holds.difFft {z : Vector (Float2 ℝ) 1024} {a : ℕ → ℂ} (hz : Holds z a) :
    Holds (difFft pqW2048 z) (layers (rootW ^ 2) 10 a) := by
  -- The layers that are left turn what the array holds into the transform.
  let inv (k : ℕ) (z : Vector (Float2 ℝ) 1024) : Prop :=
    ∃ b, Holds z b ∧ layers (rootW ^ (2 * 2 ^ k)) (10 - k) b = layers (rootW ^ 2) 10 a
  have hinit : inv 0 z := ⟨a, hz, by rw [pow_zero, mul_one, Nat.sub_zero]⟩
  obtain ⟨b, hb, hlayers⟩ : inv 10 (FalconVanity.difFft pqW2048 z) := by
    refine foldl_range_inv inv hinit ?_
    rintro k hk z ⟨b, hb, hlayers⟩
    have hlen : 1024 >>> k = 2 * 2 ^ (9 - k) := by interval_cases k <;> rfl
    have hblocks : 2 ^ k * (2 * 2 ^ (9 - k)) = 1024 := by interval_cases k <;> rfl
    have hleft : 10 - k = 9 - k + 1 := by omega
    have hnext : 10 - (k + 1) = 9 - k := by omega
    rw [hlen]
    refine ⟨_, hb.difRound (Nat.two_pow_pos _) hblocks, ?_⟩
    rw [← hlayers, hleft, layers, ← pow_mul, hnext, pow_succ 2 k, mul_assoc]
  rw [Nat.sub_self, layers] at hlayers
  rw [← hlayers]
  exact hb

/-! ### The sum -/

/-- The loop over the bins adds the inverses of the norms, each for a pair of conjugate points. -/
theorem invSum_eq_sum {z : Vector (Float2 ℝ) 1024} {a : ℕ → ℂ} (hz : Holds z a) :
    invSum z = ∑ b ∈ Finset.range 512,
      1 / (Complex.normSq (a b) + Complex.normSq (a (1023 - b))) := by
  refine foldl_range_inv (σ := ℝ) (fun k x => x = ∑ b ∈ Finset.range k,
      1 / (Complex.normSq (a b) + Complex.normSq (a (1023 - b)))) rfl ?_
  rintro k hk x rfl
  rw [Finset.sum_range_succ, ← hz k (by omega), ← hz (1023 - k) (by omega), normSq_toComplex,
    normSq_toComplex, ← add_assoc]

/-- **The result of the filter**, as a sum over the negacyclic points. -/
theorem bnorm_eq_sum (f g : SmallPoly) (z : Vector (Float2 ℝ) 1024) :
    bnorm pqW2048 f g z = 12289 ^ 2 / 1024 *
      ∑ k ∈ Finset.range 1024, 1 / weight 10 f.real g.real (point rootW k) := by
  have hfft := (holds_twistPack f g z).difFft
  have hsum := sum_pairs (L := 9) rootW_pow f.real g.real fun p hp => layers_twist rootW_pow _ hp
  rw [bnorm, invSum_eq_sum hfft]
  calc _ = ((12289 : ℕ) : ℝ) * ((12289 : ℕ) : ℝ) / ((256 : ℕ) : ℝ) *
        (1 / 4 * ∑ k ∈ Finset.range 1024, 1 / weight 10 f.real g.real (point rootW k)) :=
        congrArg _ hsum
    _ = _ := by
      push_cast
      ring

/-- The negacyclic points: `exp(-i * pi * (2 * k + 1) / 1024)`. -/
noncomputable def negacyclicPoint (k : ℕ) : ℂ :=
  Complex.exp (-Complex.I * π * ((2 * k + 1 : ℕ) : ℂ) / 1024)

/-- The points of the transform are the roots of the modulus. -/
theorem point_rootW (k : ℕ) : point rootW k = negacyclicPoint k := by
  have hexp : ((2 * k + 1 : ℕ) : ℂ) * (-Complex.I * π / 1024) =
      -Complex.I * π * ((2 * k + 1 : ℕ) : ℂ) / 1024 := by ring
  rw [point, rootW, ← Complex.exp_nat_mul, hexp, negacyclicPoint]

/-- The value of a polynomial at a complex number. -/
noncomputable def SmallPoly.eval (f : SmallPoly) (z : ℂ) : ℂ :=
  ∑ j ∈ Finset.range 1024, (f[j]!.toInt : ℂ) * z ^ j

/-- The value of a transform is an evaluation of the polynomial. -/
theorem value_real (f : SmallPoly) (z : ℂ) :
    value 10 (fun j => (f.real j : ℂ)) z = f.eval z := by
  refine Finset.sum_congr rfl fun j _ => ?_
  beta_reduce
  rw [SmallPoly.real, Complex.ofReal_intCast]

/-- The weight of a bin is the sum of the two norms. -/
theorem weight_real (f g : SmallPoly) (k : ℕ) :
    weight 10 f.real g.real (point rootW k) =
      Complex.normSq (f.eval (negacyclicPoint k)) +
        Complex.normSq (g.eval (negacyclicPoint k)) := by
  rw [weight, value_real, value_real, point_rootW]

/-- Without a common zero, no weight is zero. -/
theorem weight_ne_zero {f g : SmallPoly}
    (h : ∀ k < 1024, f.eval (negacyclicPoint k) ≠ 0 ∨ g.eval (negacyclicPoint k) ≠ 0) :
    ∀ k < 2 ^ 10, weight 10 f.real g.real (point rootW k) ≠ 0 := by
  intro k hk
  rw [weight_real]
  rcases h k hk with hf | hg
  · exact (add_pos_of_pos_of_nonneg (Complex.normSq_pos.mpr hf) (Complex.normSq_nonneg _)).ne'
  · exact (add_pos_of_nonneg_of_pos (Complex.normSq_nonneg _) (Complex.normSq_pos.mpr hg)).ne'

/-- The norm of the orthogonalized vector, in the coefficient domain. -/
noncomputable def orthoNormSq (f g : SmallPoly) : ℝ :=
  coeffNormSq (quotient 10 12289 f.real g.real f.real) +
    coeffNormSq (quotient 10 12289 f.real g.real g.real)

/-- **The sum over the bins** is the norm of the second vector of the orthogonalized basis. -/
theorem bnorm_eq_orthoNormSq {f g : SmallPoly}
    (h : ∀ k < 1024, f.eval (negacyclicPoint k) ≠ 0 ∨ g.eval (negacyclicPoint k) ≠ 0)
    (z : Vector (Float2 ℝ) 1024) : bnorm pqW2048 f g z = orthoNormSq f g := by
  rw [orthoNormSq, sum_quotients rootW_pow (weight_ne_zero h), bnorm_eq_sum]
  norm_num

/-- **The decision** of the filter: the norm is below the bound. -/
theorem devBnormOk_iff {f g : SmallPoly}
    (h : ∀ k < 1024, f.eval (negacyclicPoint k) ≠ 0 ∨ g.eval (negacyclicPoint k) ≠ 0)
    (z : Vector (Float2 ℝ) 1024) :
    devBnormOk pqW2048 f g z = true ↔ orthoNormSq f g < 16822.4121 := by
  rw [devBnormOk, decide_eq_true_iff, bnorm_eq_orthoNormSq h]
  norm_num

/-- **The norm filter is exact.** Over the real numbers, when `f` and `g` have no common zero
among the negacyclic points, the value that the kernel bounds is the sum of the reciprocals, and
is the norm of the orthogonalized vector, for any content of the scratch array. -/
theorem norm_filter_exact (f g : SmallPoly)
    (h : ∀ k < 1024, f.eval (negacyclicPoint k) ≠ 0 ∨ g.eval (negacyclicPoint k) ≠ 0)
    (z : Vector (Float2 ℝ) 1024) :
    bnorm pqW2048 f g z = 12289 ^ 2 / 1024 * ∑ k ∈ Finset.range 1024,
        1 / (Complex.normSq (f.eval (negacyclicPoint k)) +
          Complex.normSq (g.eval (negacyclicPoint k))) ∧
      IsUnit (gram 10 f.real g.real) ∧
      bnorm pqW2048 f g z =
        coeffNormSq (quotient 10 12289 f.real g.real f.real) +
          coeffNormSq (quotient 10 12289 f.real g.real g.real) := by
  have hsum := bnorm_eq_sum f g z
  simp only [weight_real] at hsum
  exact ⟨hsum, isUnit_gram rootW_pow (weight_ne_zero h), bnorm_eq_orthoNormSq h z⟩

/-- The constant polynomial 1 has the value 1 at every point. -/
theorem eval_one (z : ℂ) : (toSmallPoly [1]).eval z = 1 := by
  have hcoeff : ∀ j ∈ Finset.range 1024, (((toSmallPoly [1])[j]!.toInt : ℤ) : ℂ) * z ^ j =
      if j = 0 then 1 else 0 := by
    intro j hj
    have hlt := Finset.mem_range.mp hj
    rw [getElem!_pos _ j hlt, toSmallPoly, Vector.getElem_ofFn]
    cases j with
    | zero => simp
    | succ j => simp
  rw [SmallPoly.eval, Finset.sum_congr rfl hcoeff, Finset.sum_ite_eq' _ 0, if_pos (by simp)]

/-- For `f = g = 1` the norm is `q ^ 2 / 2`. -/
theorem norm_filter_exact_one :
    bnorm pqW2048 (toSmallPoly [1]) (toSmallPoly [1]) (Vector.replicate 1024 default) =
      12289 ^ 2 / 2 := by
  have hne : ∀ k < 1024, (toSmallPoly [1]).eval (negacyclicPoint k) ≠ 0 ∨
      (toSmallPoly [1]).eval (negacyclicPoint k) ≠ 0 := by
    intro k _
    rw [eval_one]
    exact .inl one_ne_zero
  obtain ⟨hsum, -, -⟩ := norm_filter_exact _ _ hne (Vector.replicate 1024 default)
  rw [hsum]
  simp only [eval_one, map_one, Finset.sum_const, Finset.card_range]
  norm_num

end FalconVanity
