import FalconVanity.Foundation.Convolution
import FalconVanity.Foundation.Field25519
import FalconVanity.NttTables
import FalconVanity.Sampler
import FalconVanity.SmallPrimeNtt

/-!
# The NTRU Equation

The solver reduces large solutions of the NTRU equation with approximate arithmetic, and trusts
none of it: at its end, it converts the words of `F` and `G` to small integers and checks the
equation modulo one prime, in the transform. What it computes before is a parameter here, and may
be anything. Since all coefficients are small, the equation modulo the prime is the equation over
the integers.

## Main results

* `polyBigToSmall_eq_some_iff`: the conversion to small integers.
* `ntruEquationOk_iff`: the check in the transform.
* `solveNtru_exact`: the solver returns the solutions, and nothing else.
-/

namespace FalconVanity

open Negacyclic Dif

/-! ### The solver, from its last step on -/

/-- `small_prime`, without the constant for the CRT. -/
structure SmallPrime where
  p : UInt32
  g : UInt32

/-- `PRIMES[0]` -/
def primesHead : SmallPrime := ⟨2147473409, 383167813⟩

/-- `zint_one_to_plain`: a word of 31 bits, with its sign, as an integer. -/
def zintOneToPlain (x : UInt32) : Int32 := (x ||| ((x &&& 0x40000000) <<< 1)).toInt32

/-- `poly_big_to_small`, into the array `d`: `none` for the return value 0. -/
def polyBigToSmall (d : SmallPoly) (s : Poly32) (lim : ℤ) : Option SmallPoly :=
  (List.range 1024).foldlM (fun d u =>
    let z := zintOneToPlain s[u]!
    if z.toInt < -lim ∨ z.toInt > lim then none else some (d.set! u z.toInt8)) d

/-- The words of the scratch memory before the last step: those of `F` and of `G`, and what the
place of the table holds. -/
structure NtruWork where
  F : Poly32
  G : Poly32
  gm : Poly32

/-- The loops that load small polynomials. -/
def loadModp (f : SmallPoly) (p : UInt32) : Poly32 :=
  Vector.ofFn fun u => modpSet f[u].toInt32 p

/-- The check of the equation `f * G - g * F = q`, over the scratch memory `tmp` and `gm`. -/
def ntruEquationOk (f g F G : SmallPoly) (gm tmp : Poly32) : Bool :=
  let p := primesHead.p
  let p0i := modpNinv31 p
  let (gm, _) := modpMkgm2 gm tmp 10 primesHead.g p p0i
  let Gt := loadModp G p
  let ft := loadModp f p
  let gt := loadModp g p
  let Ft := loadModp F p
  let ft := modpNTT2 ft gm 10 p p0i
  let gt := modpNTT2 gt gm 10 p p0i
  let Ft := modpNTT2 Ft gm 10 p p0i
  let Gt := modpNTT2 Gt gm 10 p p0i
  let r := modpMontymul 12289 1 p p0i
  (List.range 1024).all fun u =>
    modpSub (modpMontymul ft[u]! Gt[u]! p p0i) (modpMontymul gt[u]! Ft[u]! p p0i) p == r

/-- `solve_NTRU`, after the part that `reduce` stands for, into the arrays `F₀` and `G₀`: `none`
for the return value 0. -/
def solveNtru (reduce : SmallPoly → SmallPoly → Option NtruWork) (F₀ G₀ f g : SmallPoly)
    (lim : ℤ) : Option (SmallPoly × SmallPoly) := do
  let work ← reduce f g
  let F ← polyBigToSmall F₀ work.F lim
  let G ← polyBigToSmall G₀ work.G lim
  if ntruEquationOk f g F G work.gm work.F then some (F, G) else none

/-! ### The prime -/

/-- The first of the small primes is one. -/
theorem prime_primesHead : primesHead.p.toNat.Prime := by
  have hval : primesHead.p.toNat = 2147473409 := rfl
  rw [hval]
  refine prime_of_factors 3 [2, 2, 2, 2, 2, 2, 2, 2, 2, 2, 2, 1048571] ?_ ?_ ?_ ?_
  · refine ⟨?_, ?_, ?_, ?_, ?_, ?_, ?_, ?_, ?_, ?_, ?_, ?_⟩ <;> norm_num
  · norm_num
  · reduce_mod_char
  · norm_num
    reduce_mod_char
    decide

/-- The residues modulo the first small prime are a field. -/
instance : Fact primesHead.p.toNat.Prime := ⟨prime_primesHead⟩

/-- The first small prime has 31 bits, and its Montgomery constant is right. -/
theorem modulus31_primesHead : Modulus31 primesHead.p (modpNinv31 primesHead.p) where
  lt := by decide
  ge := by decide
  inv := modpNinv31_spec rfl

/-- The generator, as a class. -/
def ntruGenerator : ZMod primesHead.p.toNat := (primesHead.g.toNat : ZMod primesHead.p.toNat)

/-- The generator is a root of the modulus `X ^ 1024 + 1`. -/
theorem ntruGenerator_pow : ntruGenerator ^ 2 ^ 10 = -1 := by
  have hpow : 383167813 ^ 2 ^ 10 % 2147473409 = 2147473408 % 2147473409 := by decide +kernel
  have hcast := (ZMod.natCast_eq_natCast_iff' _ _ 2147473409).mpr hpow
  have hneg : ((2147473408 : ℕ) : ZMod 2147473409) + 1 = 0 := ZMod.natCast_self 2147473409
  rw [Nat.cast_pow] at hcast
  exact hcast.trans (eq_neg_of_add_eq_zero_left hneg)

/-- The generator is not zero. -/
theorem ntruGenerator_ne_zero : ntruGenerator ≠ 0 := by
  intro h
  have hpow := ntruGenerator_pow
  rw [h, zero_pow (by norm_num), eq_comm, neg_eq_zero] at hpow
  exact one_ne_zero hpow

/-- The twiddle factors modulo the prime. -/
def ntruTwiddles : Twiddles (ZMod primesHead.p.toNat) 10 :=
  Twiddles.ofRoot ntruGenerator ntruGenerator⁻¹ ntruGenerator_pow
    (mul_inv_cancel₀ ntruGenerator_ne_zero)

/-! ### The conversion -/

/-- The loop of the conversion, for any source of values. -/
theorem foldlM_toInt8_eq_some_iff {z : ℕ → Int32} {d : SmallPoly} {lim : ℤ} (hlim : lim ≤ 127)
    {F : SmallPoly} :
    (List.range 1024).foldlM (fun d u =>
        if (z u).toInt < -lim ∨ (z u).toInt > lim then none else some (d.set! u (z u).toInt8)) d =
      some F ↔ ∀ u < 1024, (z u).toInt = F[u]!.toInt ∧ |F[u]!.toInt| ≤ lim := by
  have hsmall : ∀ u, ¬ ((z u).toInt < -lim ∨ (z u).toInt > lim) →
      (z u).toInt8.toInt = (z u).toInt := by
    intro u hu
    rw [Int32.toInt_toInt8]
    exact Int.bmod_eq_of_le (by omega) (by omega)
  rw [Words.foldlM_check_set! (fun u => (z u).toInt < -lim ∨ (z u).toInt > lim)
    (fun u => (z u).toInt8) d le_rfl]
  constructor
  · intro h u hu
    split at h
    · rename_i hgood
      have hF := Option.some.inj h
      have hu' := hgood u hu
      have hentry : (Vector.ofFn fun v : Fin 1024 =>
          if v.val < 1024 then (z v).toInt8 else d[v])[u]! = (z u).toInt8 := by
        simp [hu]
      rw [← hF, hentry, hsmall u hu']
      exact ⟨rfl, abs_le.mpr ⟨by omega, by omega⟩⟩
    · cases h
  · intro h
    have hgood : ∀ u < 1024, ¬ ((z u).toInt < -lim ∨ (z u).toInt > lim) := by
      intro u hu
      obtain ⟨heq, hle⟩ := h u hu
      have hle' := abs_le.mp hle
      omega
    rw [if_pos hgood]
    refine congrArg some (Vector.ext fun u hu => ?_)
    have heq := (h u hu).1
    rw [getElem!_pos F u hu] at heq
    rw [Vector.getElem_ofFn, if_pos hu, ← Int8.toInt_inj, ← heq]
    exact hsmall u (hgood u hu)

/-- **The conversion to small integers.** -/
theorem polyBigToSmall_eq_some_iff {d : SmallPoly} {s : Poly32} {lim : ℤ} (hlim : lim ≤ 127)
    {F : SmallPoly} :
    polyBigToSmall d s lim = some F ↔
      ∀ u < 1024, (zintOneToPlain s[u]!).toInt = F[u]!.toInt ∧ |F[u]!.toInt| ≤ lim :=
  foldlM_toInt8_eq_some_iff hlim

/-! ### The check -/

/-- The coefficients of a small polynomial. -/
def intCoeff (f : SmallPoly) (l : ℕ) : ℤ := f[l]!.toInt

/-- The ring of polynomials with integer coefficients, modulo `X ^ 1024 + 1`. -/
abbrev Rz := AdjoinRoot (modulus ℤ 10)

/-- A small polynomial as an element of the ring. -/
noncomputable def intElem (f : SmallPoly) : Rz := coeffElem 10 (intCoeff f)

/-- The constant `q`, as the element of a constant polynomial. -/
theorem intElem_q : ((pqQ : ℕ) : Rz) =
    coeffElem 10 fun l => if l = 0 then ((pqQ : ℕ) : ℤ) else 0 := by
  rw [coeffElem_const]
  exact (map_natCast (AdjoinRoot.of (modulus ℤ 10)) pqQ).symm

/-- A signed byte is at most 128, up to its sign. -/
theorem abs_toInt_int8_le (x : Int8) : |x.toInt| ≤ 128 := by
  have hlo := x.le_toInt
  have hhi := x.toInt_lt
  exact abs_le.mpr ⟨by omega, by omega⟩

/-- Small coefficients are loaded as their residues. -/
theorem rep32_loadModp (f : SmallPoly) :
    Rep32 primesHead.p (loadModp f primesHead.p)
      fun i => (intCoeff f i : ZMod primesHead.p.toNat) := by
  intro i hi
  have hentry : (loadModp f primesHead.p)[i]! = modpSet f[i]!.toInt32 primesHead.p := by
    simp [loadModp, hi]
  have hint : f[i]!.toInt32.toInt = f[i]!.toInt := Int8.toInt_toInt32 _
  rw [hentry]
  dsimp only [intCoeff]
  rw [← hint]
  refine residue_modpSet modulus31_primesHead ?_
  rw [hint]
  exact (abs_toInt_int8_le _).trans_lt (by decide)

/-- The size of what the equation compares. -/
theorem abs_ntruEquation_lt (f g : SmallPoly) {F G : SmallPoly}
    (hF : ∀ i < 1024, |F[i]!.toInt| ≤ 127) (hG : ∀ i < 1024, |G[i]!.toInt| ≤ 127) (c : ℕ → ℤ)
    (hc : ∀ k, |c k| ≤ 12289) :
    ∀ k < 2 ^ 10, |convolution (2 ^ 10) (intCoeff f) (intCoeff G) k -
      convolution (2 ^ 10) (intCoeff g) (intCoeff F) k - c k| < primesHead.p.toNat := by
  intro k hk
  have hfG := abs_convolution_le (a := intCoeff f) (b := intCoeff G) (n := 2 ^ 10)
    (fun i _ => abs_toInt_int8_le _) hG hk
  have hgF := abs_convolution_le (a := intCoeff g) (b := intCoeff F) (n := 2 ^ 10)
    (fun i _ => abs_toInt_int8_le _) hF hk
  have hp : ((primesHead.p.toNat : ℕ) : ℤ) = 2147473409 := rfl
  have hck := hc k
  have hn : ((2 ^ 10 : ℕ) : ℤ) = 1024 := rfl
  rw [hn] at hfG hgF
  rw [hp]
  rw [abs_le] at hfG hgF hck
  rw [abs_lt]
  constructor <;> omega

/-- **The check** is the equation over the integers, for small solutions. -/
theorem ntruEquationOk_iff (f g : SmallPoly) {F G : SmallPoly}
    (hF : ∀ i < 1024, |F[i]!.toInt| ≤ 127) (hG : ∀ i < 1024, |G[i]!.toInt| ≤ 127)
    (gm tmp : Poly32) :
    ntruEquationOk f g F G gm tmp = true ↔
      intElem f * intElem G - intElem g * intElem F = ((pqQ : ℕ) : Rz) := by
  have hp := modulus31_primesHead
  have hR := radix31_ne_zero hp
  have htwo : (2 : ZMod primesHead.p.toNat) ≠ 0 := by
    have h := two_ne_zero_of_modulus hp
    rwa [Nat.cast_two] at h
  -- The arrays hold the evaluations of the four polynomials.
  have hg : Residue primesHead.p primesHead.g ntruGenerator := ⟨by decide, rfl⟩
  have htable := (modpMkgm2_spec hp gm tmp hg).1
  have hntt : ∀ h : SmallPoly, Rep32 primesHead.p
      (modpNTT2 (loadModp h primesHead.p)
        (modpMkgm2 gm tmp 10 primesHead.g primesHead.p (modpNinv31 primesHead.p)).1 10
        primesHead.p (modpNinv31 primesHead.p))
      (forward ntruTwiddles (fun i => (intCoeff h i : ZMod primesHead.p.toNat)) 10) :=
    fun h => modpNTT2_spec hp (T := ntruTwiddles) htable (rep32_loadModp h)
  have hconst : Residue primesHead.p
      (modpMontymul 12289 1 primesHead.p (modpNinv31 primesHead.p))
      ((12289 : ℕ) * (1 : ℕ) / (radix31 : ℕ)) :=
    Residue.montymul hp ⟨by decide, rfl⟩ ⟨by decide, rfl⟩
  -- The equation at a point, with the radix.
  have hpoint : ∀ a b c d : ZMod primesHead.p.toNat,
      a * d / (radix31 : ℕ) - b * c / (radix31 : ℕ) = (12289 : ℕ) * (1 : ℕ) / (radix31 : ℕ) ↔
        a * d - b * c = (12289 : ℕ) := by
    intro a b c d
    rw [← sub_div, div_left_inj' hR, Nat.cast_one, mul_one]
  have hsmall := abs_ntruEquation_lt f g hF hG (fun l => if l = 0 then ((pqQ : ℕ) : ℤ) else 0)
    fun k => by split <;> norm_num
  have : Fact (1 < primesHead.p.toNat) := ⟨prime_primesHead.one_lt⟩
  rw [intElem_q, intElem, intElem, intElem, intElem, coeffElem_int_eq_iff hsmall,
    coeffElem_mul_sub_mul_eq_iff (T := ntruTwiddles) htwo.isUnit, ntruEquationOk, List.all_eq_true]
  simp only [List.mem_range, beq_iff_eq]
  refine forall₂_congr fun i hi => ?_
  have hlhs := ((hntt f i hi).montymul hp (hntt G i hi)).sub hp
    ((hntt g i hi).montymul hp (hntt F i hi))
  have hcast : (fun l => ((if l = 0 then ((pqQ : ℕ) : ℤ) else 0 : ℤ) : ZMod primesHead.p.toNat)) =
      fun l => if l = 0 then ((12289 : ℕ) : ZMod primesHead.p.toNat) else 0 := by
    funext l
    split
    · exact Int.cast_natCast pqQ
    · exact Int.cast_zero
  rw [hcast, forward_const _ hi]
  exact (hlhs.eq_iff hconst).trans (hpoint _ _ _ _)

/-- What the solver returns, by its steps. -/
theorem solveNtru_eq_some_iff {reduce : SmallPoly → SmallPoly → Option NtruWork}
    {F₀ G₀ f g : SmallPoly} {lim : ℤ} (hlim : lim ≤ 127) {F G : SmallPoly} :
    solveNtru reduce F₀ G₀ f g lim = some (F, G) ↔
      ∃ work, reduce f g = some work ∧ polyBigToSmall F₀ work.F lim = some F ∧
        polyBigToSmall G₀ work.G lim = some G ∧
          intElem f * intElem G - intElem g * intElem F = ((pqQ : ℕ) : Rz) := by
  have hcheck : ∀ {work : NtruWork} {F G : SmallPoly}, polyBigToSmall F₀ work.F lim = some F →
      polyBigToSmall G₀ work.G lim = some G →
        (ntruEquationOk f g F G work.gm work.F = true ↔
          intElem f * intElem G - intElem g * intElem F = ((pqQ : ℕ) : Rz)) := by
    intro work F G hF hG
    exact ntruEquationOk_iff f g
      (fun i hi => ((polyBigToSmall_eq_some_iff hlim).mp hF i hi).2.trans hlim)
      (fun i hi => ((polyBigToSmall_eq_some_iff hlim).mp hG i hi).2.trans hlim) _ _
  rw [solveNtru]
  simp only [Option.bind_eq_bind, Option.bind_eq_some_iff]
  constructor
  · rintro ⟨work, hwork, F', hF, G', hG, hok⟩
    split at hok
    · rename_i hequation
      obtain ⟨rfl, rfl⟩ := Prod.mk.inj (Option.some.inj hok)
      exact ⟨work, hwork, hF, hG, (hcheck hF hG).mp hequation⟩
    · cases hok
  · rintro ⟨work, hwork, hF, hG, hequation⟩
    exact ⟨work, hwork, F, hF, G, hG, if_pos ((hcheck hF hG).mpr hequation)⟩

/-- **The solver is exact.** Whatever the steps before compute, the solver returns `F` and `G`
exactly when these are the small polynomials whose words they left, within the limit, and solve
the equation `f * G - g * F = q` in the ring of integer polynomials modulo `X ^ 1024 + 1`. -/
theorem solveNtru_exact (reduce : SmallPoly → SmallPoly → Option NtruWork)
    (F₀ G₀ f g : SmallPoly) {lim : ℤ} (hlim : lim ≤ 127) (F G : SmallPoly) :
    solveNtru reduce F₀ G₀ f g lim = some (F, G) ↔
      (∃ work, reduce f g = some work ∧ ∀ u < 1024,
        (zintOneToPlain work.F[u]!).toInt = F[u]!.toInt ∧
          (zintOneToPlain work.G[u]!).toInt = G[u]!.toInt) ∧
      (∀ u < 1024, |F[u]!.toInt| ≤ lim ∧ |G[u]!.toInt| ≤ lim) ∧
      intElem f * intElem G - intElem g * intElem F = ((pqQ : ℕ) : Rz) := by
  rw [solveNtru_eq_some_iff hlim]
  simp only [polyBigToSmall_eq_some_iff hlim]
  constructor
  · rintro ⟨work, hwork, hF, hG, hequation⟩
    exact ⟨⟨work, hwork, fun u hu => ⟨(hF u hu).1, (hG u hu).1⟩⟩,
      fun u hu => ⟨(hF u hu).2, (hG u hu).2⟩, hequation⟩
  · rintro ⟨⟨work, hwork, hwords⟩, hle, hequation⟩
    exact ⟨work, hwork, fun u hu => ⟨(hwords u hu).1, (hle u hu).1⟩,
      fun u hu => ⟨(hwords u hu).2, (hle u hu).2⟩, hequation⟩

/-- A constant polynomial. -/
def constPoly (c : Int8) : SmallPoly := (Vector.replicate 1024 0).set 0 c

/-- A constant polynomial stands for its constant. -/
theorem intElem_constPoly (c : Int8) : intElem (constPoly c) = ((c.toInt : ℤ) : Rz) := by
  have hcoeff : intElem (constPoly c) = coeffElem 10 fun l => if l = 0 then c.toInt else 0 := by
    refine coeffElem_congr fun l hl => ?_
    rw [intCoeff, getElem!_pos (constPoly c) l hl]
    by_cases h0 : l = 0
    · subst h0
      simp [constPoly]
    · simp [constPoly, h0, Ne.symm h0]
  rw [hcoeff, coeffElem_const]
  exact map_intCast (AdjoinRoot.of (modulus ℤ 10)) c.toInt

/-- The words of a constant polynomial. -/
def constWords (x : UInt32) : Poly32 := (Vector.replicate 1024 0).set 0 x

/-- The words of a constant polynomial, as the solver holds them, give back its coefficients. -/
theorem toInt_constWords {x : UInt32} {c : Int8} (hx : (zintOneToPlain x).toInt = c.toInt) :
    ∀ u < 1024, (zintOneToPlain (constWords x)[u]!).toInt = (constPoly c)[u]!.toInt := by
  intro u hu
  rw [getElem!_pos _ u hu, getElem!_pos _ u hu]
  by_cases h0 : u = 0
  · subst h0
    simpa [constPoly, constWords] using hx
  · have hzero : (zintOneToPlain 0).toInt = 0 := rfl
    simp [constPoly, constWords, Ne.symm h0, hzero]

/-- A bound on the constant bounds all coefficients. -/
theorem abs_constPoly_le {c : Int8} (hc : |c.toInt| ≤ 127) :
    ∀ u < 1024, |(constPoly c)[u]!.toInt| ≤ 127 := by
  intro u hu
  rw [getElem!_pos _ u hu]
  by_cases h0 : u = 0
  · subst h0
    simpa [constPoly] using hc
  · simp [constPoly, Ne.symm h0]

/-- For constants, `127 * 96 + 97 = q`. -/
theorem solveNtru_exact_const :
    solveNtru (fun _ _ => some ⟨constWords 97, constWords 96, constWords 0⟩) (constPoly 0)
      (constPoly 0) (constPoly 127) (constPoly (-1)) 127 =
        some (constPoly 97, constPoly 96) := by
  refine (solveNtru_exact _ _ _ _ _ le_rfl _ _).mpr ⟨⟨_, rfl, fun u hu => ⟨?_, ?_⟩⟩, ?_, ?_⟩
  · exact toInt_constWords (by decide) u hu
  · exact toInt_constWords (by decide) u hu
  · exact fun u hu =>
      ⟨abs_constPoly_le (by decide) u hu, abs_constPoly_le (by decide) u hu⟩
  · rw [intElem_constPoly, intElem_constPoly, intElem_constPoly, intElem_constPoly, ← Int.cast_mul,
      ← Int.cast_mul, ← Int.cast_sub]
    exact Int.cast_natCast pqQ

end FalconVanity
