import FalconVanity.Shake
import Mathlib.Data.Int.Basic

/-!
# The Gaussian Sampler

The secret polynomials of a key are sampled from the draws of a SHAKE256 source: a table
walk turns two draws into one sample, and samples are rejected until one may become the next
coefficient. The reference writes the rejection as a jump back, the device as a loop around
the draw. Both run over any source here, so that the comparison of the loops is separate
from the comparison of the sources.

The rejection has no bound of its own. Each rejection loop takes as fuel a bound on the
samples drawn for one coefficient, and returns `none` when it runs out.

## Main results

* `devPolySmallMkgauss_eq`: the loops are equal over any source, the final state included.
* `sample_agrees`: the two samplers of one seed, over the two sources.
* `sampler_bit_exact`: the device sampler reproduces the reference sampler.
-/

namespace FalconVanity

open Draws

/-- A polynomial with 8-bit coefficients. -/
abbrev SmallPoly := Vector Int8 1024

/-- `gauss_1024_12289` and `GAUSS_1024_12289`, which are the same table. -/
def gauss1024 : List UInt64 :=
  [1283868770400643928, 6416574995475331444, 4078260278032692663,
    2353523259288686585, 1227179971273316331, 575931623374121527,
    242543240509105209, 91437049221049666, 30799446349977173,
    9255276791179340, 2478152334826140, 590642893610164,
    125206034929641, 23590435911403, 3948334035941,
    586753615614, 77391054539, 9056793210,
    940121950, 86539696, 7062824,
    510971, 32764, 1862,
    94, 4, 0]

/-- The body of the table walk: `v` collects the index of the first entry that is not above
`r`, unless the flag `f` is set. -/
def gaussStep (r : UInt64) (s : UInt32 × UInt32) (k : UInt32) : UInt32 × UInt32 :=
  let (v, f) := s
  let t := ((r - gauss1024[k.toNat]!) >>> 63).toUInt32 ^^^ 1
  (v ||| (k &&& (0 - (t &&& (f ^^^ 1)))), f ||| t)

/-- The indices `1` to `26` of the table walk. -/
def gaussIndices : List UInt32 := (List.range' 1 26).map UInt32.ofNat

/-- One Gaussian value from two draws. -/
def gaussValue (r₁ r₂ : UInt64) : Int32 :=
  let neg := (r₁ >>> 63).toUInt32
  let r := r₁ &&& ~~~((1 : UInt64) <<< 63)
  let f := ((r - gauss1024[0]!) >>> 63).toUInt32
  let r := r₂ &&& ~~~((1 : UInt64) <<< 63)
  let v := (gaussIndices.foldl (gaussStep r) (0, f)).1
  ((v ^^^ (0 - neg)) + neg).toInt32

/-- `mod2 ^ (unsigned)(s & 1)` -/
def addParity (mod2 : UInt32) (s : Int32) : UInt32 := mod2 ^^^ (s &&& 1).toUInt32

section Source

variable {σ τ : Type} (next : σ → UInt64 × σ)

/-- `mkgauss`: for smaller degrees, several values are added up. -/
def mkgauss (logn : ℕ) (rng : σ) : Int32 × σ :=
  (List.range (1 <<< (10 - logn))).foldl
    (fun (val, rng) _ =>
      let (r₁, rng) := next rng
      let (r₂, rng) := next rng
      (val + gaussValue r₁ r₂, rng)) (0, rng)

/-- `dev_mkgauss`: a sample of the discrete Gaussian distribution, from two words of the stream. -/
def devMkgauss (s : σ) : Int32 × σ :=
  let (r₁, s) := next s
  let (r₂, s) := next s
  (gaussValue r₁ r₂, s)

/-- The code between `restart` and the assignment of coefficient `u`, in
`poly_small_mkgauss`: the sample and the updated parity. -/
def mkgaussRestart (logn u : ℕ) (mod2 : UInt32) : ℕ → σ → Option ((Int32 × UInt32) × σ)
  | 0, _ => none
  | fuel + 1, rng =>
    let (s, rng) := mkgauss next logn rng
    if s < -127 ∨ s > 127 then mkgaussRestart logn u mod2 fuel rng
    else if u = 2 ^ logn - 1 then
      if addParity mod2 s = 0 then mkgaussRestart logn u mod2 fuel rng
      else some ((s, mod2), rng)
    else some ((s, addParity mod2 s), rng)

/-- The loop of `poly_small_mkgauss`, with `k` coefficients to go. -/
def mkgaussLoop (logn fuel : ℕ) : ℕ → UInt32 → σ → Option (List Int8 × σ)
  | 0, _, rng => some ([], rng)
  | k + 1, mod2, rng =>
    (mkgaussRestart next logn (2 ^ logn - (k + 1)) mod2 fuel rng).bind fun ((s, mod2), rng) =>
      (mkgaussLoop logn fuel k mod2 rng).map fun (f, rng) => (s.toInt8 :: f, rng)

/-- A list of coefficients as a polynomial. -/
def toSmallPoly (f : List Int8) : SmallPoly := Vector.ofFn fun i => f.getD i 0

/-- `poly_small_mkgauss`, for `logn = 10`. -/
def polySmallMkgauss (fuel : ℕ) (rng : σ) : Option (SmallPoly × σ) :=
  (mkgaussLoop next 10 fuel 1024 0 rng).map fun (f, rng) => (toSmallPoly f, rng)

/-- Whether `dev_poly_small_mkgauss` keeps a sample: the negated condition of its inner
loop. -/
def devAccept (last : Bool) (mod2 : UInt32) (sv : Int32) : Bool :=
  !(decide (sv < -127) || decide (sv > 127) ||
    (last && decide (addParity mod2 sv = 0)))

/-- The loop of `dev_poly_small_mkgauss`, with `k` coefficients to go. -/
def devMkgaussLoop (fuel : ℕ) : ℕ → UInt32 → σ → Option (List Int8 × σ)
  | 0, _, s => some ([], s)
  | k + 1, mod2, s =>
    let last := decide (1024 - (k + 1) = 1024 - 1)
    (drawUntil (devMkgauss next) (devAccept last mod2) fuel s).bind fun (sv, s) =>
      let mod2 := if last then mod2 else addParity mod2 sv
      (devMkgaussLoop fuel k mod2 s).map fun (f, s) => (sv.toInt8 :: f, s)

/-- `dev_poly_small_mkgauss`: the coefficients of a small polynomial. The last one is drawn until
their sum is odd. -/
def devPolySmallMkgauss (fuel : ℕ) (s : σ) : Option (SmallPoly × σ) :=
  (devMkgaussLoop next fuel 1024 0 s).map fun (f, s) => (toSmallPoly f, s)

/-- Two polynomials, one after the other, with the reference loop. -/
def sampleFg (fuel : ℕ) (rng : σ) : Option ((SmallPoly × SmallPoly) × σ) :=
  (polySmallMkgauss next fuel rng).bind fun (f, rng) =>
    (polySmallMkgauss next fuel rng).map fun (g, rng) => ((f, g), rng)

/-- Two polynomials, one after the other, with the device loop. -/
def devSampleFgFrom (fuel : ℕ) (s : σ) : Option ((SmallPoly × SmallPoly) × σ) :=
  (devPolySmallMkgauss next fuel s).bind fun (f, s) =>
    (devPolySmallMkgauss next fuel s).map fun (g, s) => ((f, g), s)

/-! ### The loops over one source -/

theorem mkgauss_eq (rng : σ) : mkgauss next 10 rng = devMkgauss next rng := by
  simp [mkgauss, devMkgauss, List.range_succ]

theorem devAccept_iff {last : Bool} {mod2 : UInt32} {sv : Int32} :
    devAccept last mod2 sv = true ↔
      ¬ (sv < -127 ∨ sv > 127) ∧ ¬ (last = true ∧ addParity mod2 sv = 0) := by
  simp only [devAccept, Bool.not_eq_true', Bool.or_eq_false_iff, decide_eq_false_iff_not,
    Bool.and_eq_false_imp, not_or, not_and]

/-- **One coefficient.** The jump back and the loop around the draw reject the same samples;
the parity is updated unless the coefficient is the last one. -/
theorem mkgaussRestart_eq (u : ℕ) (mod2 : UInt32) (fuel : ℕ) (rng : σ) :
    mkgaussRestart next 10 u mod2 fuel rng =
      (drawUntil (devMkgauss next) (devAccept (decide (u = 1023)) mod2) fuel rng).map
        fun (sv, s) => ((sv, if u = 1023 then mod2 else addParity mod2 sv), s) := by
  induction fuel generalizing rng with
  | zero => rfl
  | succ fuel ih =>
      have hlast : 2 ^ 10 - 1 = 1023 := rfl
      rw [mkgaussRestart, drawUntil, mkgauss_eq]
      simp only [hlast]
      by_cases hacc : devAccept (decide (u = 1023)) mod2 (devMkgauss next rng).1 = true
      · obtain ⟨hrange, hpar⟩ := devAccept_iff.mp hacc
        rw [if_pos hacc, if_neg hrange]
        by_cases hu : u = 1023
        · have hne : addParity mod2 (devMkgauss next rng).1 ≠ 0 :=
            fun h => hpar ⟨decide_eq_true hu, h⟩
          rw [if_pos hu, if_neg hne, Option.map_some, if_pos hu]
        · rw [if_neg hu, Option.map_some, if_neg hu]
      · rw [if_neg hacc, ← ih]
        by_cases hrange : (devMkgauss next rng).1 < -127 ∨ (devMkgauss next rng).1 > 127
        · rw [if_pos hrange]
        · have hlast : u = 1023 ∧ addParity mod2 (devMkgauss next rng).1 = 0 := by
            by_contra h
            exact hacc (devAccept_iff.mpr ⟨hrange, by simpa using h⟩)
          rw [if_neg hrange, if_pos hlast.1, if_pos hlast.2]

/-- **All coefficients.** -/
theorem mkgaussLoop_eq (fuel k : ℕ) (hk : k ≤ 1024) (mod2 : UInt32) (rng : σ) :
    mkgaussLoop next 10 fuel k mod2 rng = devMkgaussLoop next fuel k mod2 rng := by
  induction k generalizing mod2 rng with
  | zero => rfl
  | succ k ih =>
      have hlast : (2 ^ 10 - (k + 1) = 1023) = (1024 - (k + 1) = 1024 - 1) := rfl
      rw [mkgaussLoop, devMkgaussLoop, mkgaussRestart_eq, Option.bind_map]
      simp only [hlast, decide_eq_true_eq]
      refine congrArg _ (funext fun ⟨sv, s⟩ => ?_)
      simp only [Function.comp_apply, ih (by omega)]

/-- The two loops of one polynomial are equal, the final state of the source included. -/
theorem devPolySmallMkgauss_eq (fuel : ℕ) (rng : σ) :
    devPolySmallMkgauss next fuel rng = polySmallMkgauss next fuel rng := by
  rw [devPolySmallMkgauss, polySmallMkgauss, mkgaussLoop_eq next fuel 1024 le_rfl]

/-- The two samplers are equal over any source: they return the same polynomials and leave
the source in the same state, so they consume the same draws. -/
theorem devSampleFgFrom_eq (fuel : ℕ) (rng : σ) :
    devSampleFgFrom next fuel rng = sampleFg next fuel rng := by
  simp only [devSampleFgFrom, sampleFg, devPolySmallMkgauss_eq]

/-! ### One loop over two sources -/

variable {next} {next' : τ → UInt64 × τ} {R : σ → τ → Prop}

/-- A sample takes two draws. -/
theorem agrees_devMkgauss (h : Agrees next next' R) :
    Agrees (devMkgauss next) (devMkgauss next') R := by
  intro s t hst
  obtain ⟨h₁, hst₁⟩ := h s t hst
  obtain ⟨h₂, hst₂⟩ := h _ _ hst₁
  exact ⟨by simp only [devMkgauss, h₁, h₂], hst₂⟩

theorem devMkgaussLoop_agrees (h : Agrees next next' R) (fuel k : ℕ) (mod2 : UInt32) {s : σ}
    {t : τ} (hst : R s t) :
    SameOutcome R (devMkgaussLoop next fuel k mod2 s) (devMkgaussLoop next' fuel k mod2 t) := by
  induction k generalizing mod2 s t with
  | zero => exact .some ⟨rfl, hst⟩
  | succ k ih =>
      rw [devMkgaussLoop, devMkgaussLoop]
      refine ((agrees_devMkgauss h).drawUntil _ fuel hst).bind fun sv s t hst => ?_
      simp only [Option.map_eq_bind]
      exact (ih _ hst).bind fun f s t hst => .some ⟨rfl, hst⟩

theorem devPolySmallMkgauss_agrees (h : Agrees next next' R) (fuel : ℕ) {s : σ} {t : τ}
    (hst : R s t) :
    SameOutcome R (devPolySmallMkgauss next fuel s) (devPolySmallMkgauss next' fuel t) := by
  simp only [devPolySmallMkgauss, Option.map_eq_bind]
  exact (devMkgaussLoop_agrees h fuel 1024 0 hst).bind fun f s t hst => .some ⟨rfl, hst⟩

/-- The sampler over sources that agree, across the boundary between the polynomials. -/
theorem devSampleFgFrom_agrees (h : Agrees next next' R) (fuel : ℕ) {s : σ} {t : τ}
    (hst : R s t) :
    SameOutcome R (devSampleFgFrom next fuel s) (devSampleFgFrom next' fuel t) := by
  simp only [devSampleFgFrom, Option.map_eq_bind]
  refine (devPolySmallMkgauss_agrees h fuel hst).bind fun f s t hst => ?_
  exact (devPolySmallMkgauss_agrees h fuel hst).bind fun g s t hst => .some ⟨rfl, hst⟩

end Source

/-! ### The two samplers of one seed -/

/-- `pqv_sample_fg`: the first attempt of key generation. -/
def pqvSampleFg (fuel : ℕ) (seed : List UInt8) : Option (SmallPoly × SmallPoly) :=
  (sampleFg (getRngU64 processBlock) fuel (shakeInitPrngFromSeed processBlock seed)).map
    Prod.fst

/-- `dev_sample_fg`: `f` and `g` of the first attempt of a seed. -/
def devSampleFg (fuel : ℕ) (seed : Bytes32) : Option (SmallPoly × SmallPoly) :=
  (devSampleFgFrom (shakeSqueezeU64 keccakf) fuel (shakeInitSeed32 seed)).map Prod.fst

/-- More fuel never changes the coefficients of a loop. -/
theorem devMkgaussLoop_mono {σ : Type} {next : σ → UInt64 × σ} {fuel fuel' : ℕ}
    (hle : fuel ≤ fuel') {k : ℕ} {mod2 : UInt32} {s : σ} {r : List Int8 × σ}
    (h : devMkgaussLoop next fuel k mod2 s = some r) :
    devMkgaussLoop next fuel' k mod2 s = some r := by
  induction k generalizing mod2 s r with
  | zero => exact h
  | succ k ih =>
      rw [devMkgaussLoop] at h ⊢
      obtain ⟨⟨sv, s'⟩, hdraw, hrest⟩ := Option.bind_eq_some_iff.mp h
      obtain ⟨⟨f, s''⟩, hloop, hr⟩ := Option.map_eq_some_iff.mp hrest
      rw [drawUntil_mono hle hdraw, Option.bind_some]
      exact Option.map_eq_some_iff.mpr ⟨_, ih hloop, hr⟩

/-- More fuel never changes a polynomial. -/
theorem devPolySmallMkgauss_mono {σ : Type} {next : σ → UInt64 × σ} {fuel fuel' : ℕ}
    (hle : fuel ≤ fuel') {s : σ} {r : SmallPoly × σ}
    (h : devPolySmallMkgauss next fuel s = some r) :
    devPolySmallMkgauss next fuel' s = some r := by
  obtain ⟨fs, hloop, hr⟩ := Option.map_eq_some_iff.mp h
  exact Option.map_eq_some_iff.mpr ⟨fs, devMkgaussLoop_mono hle hloop, hr⟩

/-- More fuel never changes the polynomials of a seed. -/
theorem devSampleFg_mono {fuel fuel' : ℕ} (hle : fuel ≤ fuel') {seed : Bytes32}
    {fg : SmallPoly × SmallPoly} (h : devSampleFg fuel seed = some fg) :
    devSampleFg fuel' seed = some fg := by
  obtain ⟨r, hfrom, hr⟩ := Option.map_eq_some_iff.mp h
  obtain ⟨p, hf, hrest⟩ := Option.bind_eq_some_iff.mp hfrom
  obtain ⟨p', hg, hp'⟩ := Option.map_eq_some_iff.mp hrest
  refine Option.map_eq_some_iff.mpr ⟨r, Option.bind_eq_some_iff.mpr ⟨p, ?_, ?_⟩, hr⟩
  · exact devPolySmallMkgauss_mono hle hf
  · exact Option.map_eq_some_iff.mpr ⟨p', devPolySmallMkgauss_mono hle hg, hp'⟩

/-- The outcomes of the two samplers from states that go on with the same draws: the same
polynomials, and such states again. -/
theorem sampleFg_agrees (fuel : ℕ) {rng : ShakeContext} {s : Shake} (h : Serves rng s) :
    SameOutcome Serves (sampleFg (getRngU64 processBlock) fuel rng)
      (devSampleFgFrom (shakeSqueezeU64 keccakf) fuel s) := by
  have hperm : processBlock = keccakf := funext processBlock_eq_keccakf
  rw [hperm, ← devSampleFgFrom_eq]
  exact devSampleFgFrom_agrees (agrees_draw keccakf) fuel h

/-- The outcomes of the two samplers of one seed: the same polynomials, and states that go on
with the same draws. -/
theorem sample_agrees (fuel : ℕ) (seed : Bytes32) :
    SameOutcome Serves
      (sampleFg (getRngU64 processBlock) fuel (shakeInitPrngFromSeed processBlock seed.toList))
      (devSampleFgFrom (shakeSqueezeU64 keccakf) fuel (shakeInitSeed32 seed)) :=
  sampleFg_agrees fuel (serves_init processBlock seed)

/-- The two samplers of one seed return the same polynomials. -/
theorem devSampleFg_eq_pqvSampleFg (fuel : ℕ) (seed : Bytes32) :
    devSampleFg fuel seed = pqvSampleFg fuel seed.toList := by
  refine Option.ext fun fg => ?_
  have h := (sample_agrees fuel seed).exists_iff fg
  simpa [devSampleFg, pqvSampleFg] using h.symm

/-- **The device sampler reproduces the reference sampler.** The streams of one seed are
equal for every number of draws; the two rejection loops consume the same draws of any
source, through both polynomials; and the two samplers of one seed have the same outcome. -/
theorem sampler_bit_exact :
    (∀ (seed : Bytes32) (n : ℕ),
      draws (shakeSqueezeU64 keccakf) n (shakeInitSeed32 seed) =
        draws (getRngU64 processBlock) n (shakeInitPrngFromSeed processBlock seed.toList)) ∧
    (∀ (σ : Type) (next : σ → UInt64 × σ) (fuel : ℕ) (s : σ),
      devPolySmallMkgauss next fuel s = polySmallMkgauss next fuel s ∧
        devSampleFgFrom next fuel s = sampleFg next fuel s) ∧
    (∀ (seed : Bytes32) (fuel : ℕ), devSampleFg fuel seed = pqvSampleFg fuel seed.toList) ∧
    (∀ (seed : Bytes32) (fg : SmallPoly × SmallPoly),
      (∃ fuel, pqvSampleFg fuel seed.toList = some fg) →
        ∃ fuel, ∀ fuel' ≥ fuel, devSampleFg fuel' seed = some fg) := by
  refine ⟨fun seed n => ?_, fun σ next fuel s => ?_,
    fun seed fuel => devSampleFg_eq_pqvSampleFg fuel seed, ?_⟩
  · have hperm : processBlock = keccakf := funext processBlock_eq_keccakf
    rw [hperm]
    exact ((agrees_draw keccakf).draws_eq n (serves_init keccakf seed)).symm
  · exact ⟨devPolySmallMkgauss_eq next fuel s, devSampleFgFrom_eq next fuel s⟩
  · rintro seed fg ⟨fuel, h⟩
    exact ⟨fuel, fun fuel' hle =>
      devSampleFg_mono hle (by rw [devSampleFg_eq_pqvSampleFg, h])⟩

end FalconVanity
