import FalconVanity.SampleStage

/-!
# The Retry Loop of the Device

The device samples polynomials from the stream of a seed until an attempt passes the checks
that it can make, up to a cap. Its checks are in another order than those of the reference:
the integer checks are one function with plain sums, and the test for invertibility comes
before the one of the norm. The floating-point norm is a parameter here.

## Main results

* `devFgIntOk_iff`: the integer checks are the first two of the reference.
* `devVisible_eq`: the checks of the device are the ones of the oracle.
* `retry_eq_oracle`: the loop returns the attempt that the oracle returns.
-/

namespace FalconVanity

open Draws

/-- `PQ_MAX_ATTEMPTS`: how many attempts of a seed the device makes. -/
def pqMaxAttempts : ℕ := 192

/-- The body of the loop of `dev_fg_int_ok`: the two sums, and whether a coefficient is out of
range. -/
def fgIntStep (f g : SmallPoly) (s : UInt32 × UInt32 × Bool) (u : ℕ) : UInt32 × UInt32 × Bool :=
  let (nf, ng, bad) := s
  let a := f[u]!.toInt32
  let b := g[u]!.toInt32
  (nf + (a * a).toUInt32, ng + (b * b).toUInt32,
    bad || (decide (a ≥ 16) || decide (a ≤ -16) || decide (b ≥ 16) || decide (b ≤ -16)))

/-- `dev_fg_int_ok`: the checks on `f` and `g` that need integers only. -/
def devFgIntOk (f g : SmallPoly) : Bool :=
  let (nf, ng, bad) := (List.range 1024).foldl (fgIntStep f g) (0, 0, false)
  !bad && decide (nf + ng < 16823)

section Checks

variable (bnormOk : SmallPoly → SmallPoly → Bool)

/-- The checks of an attempt in `dev_retry_sample`, with the scratch array of the transform. -/
def devVisible (fg : SmallPoly × SmallPoly) (tt : Poly16) : Bool × Poly16 :=
  let (f, g) := fg
  if devFgIntOk f g then
    let (ok, tt) := (devNttFCheck f tt).val
    if ok then (bnormOk f g, tt) else (false, tt)
  else (false, tt)

/-- The same checks, with the norm before the invertibility. -/
def devVisibleNormFirst (fg : SmallPoly × SmallPoly) (tt : Poly16) : Bool × Poly16 :=
  let (f, g) := fg
  if devFgIntOk f g then
    if bnormOk f g then (devNttFCheck f tt).val else (false, tt)
  else (false, tt)

end Checks

section Loop

variable (check : SmallPoly × SmallPoly → Poly16 → Bool × Poly16) (fuel : ℕ)

/-- The loop of `dev_retry_sample` after `att` attempts, for given checks. It ends before the
attempts to go do. -/
def devRetryLoop : ℕ → ℕ → Poly16 → Shake → Option (ℕ × (SmallPoly × SmallPoly) × Poly16)
  | 0, _, _, _ => none
  | togo + 1, att, tt, s =>
    (devSampleFgFrom (shakeSqueezeU64 keccakf) fuel s).bind fun (fg, s) =>
      let att := att + 1
      let (ok, tt) := check fg tt
      if !ok && decide (att < pqMaxAttempts) then devRetryLoop togo att tt s
      else some (if ok then att else 0, fg, tt)

/-- The result of the loop, without the scratch array. -/
def devRetryWith (tt : Poly16) (seed : Bytes32) : Option (ℕ × SmallPoly × SmallPoly) :=
  (devRetryLoop check fuel pqMaxAttempts 0 tt (shakeInitSeed32 seed)).map
    fun (r, fg, _) => (r, fg)

end Loop

/-- `dev_retry_sample`: the number of attempts made, or 0, and the polynomials. -/
def devRetrySample (bnormOk : SmallPoly → SmallPoly → Bool) (fuel : ℕ) (tt : Poly16)
    (seed : Bytes32) : Option (ℕ × SmallPoly × SmallPoly) :=
  devRetryWith (devVisible bnormOk) fuel tt seed

/-! ### The integer checks -/

section Integer

variable {f g : SmallPoly}

/-- A coefficient out of range, as a 32-bit integer. -/
theorem decide_range (c : Int8) :
    (decide (c.toInt32 ≥ 16) = decide (c.toInt ≥ 16)) ∧
      (decide (c.toInt32 ≤ -16) = decide (c.toInt ≤ -16)) := by
  simp [Int32.le_iff_toInt_le]

/-- The sums do not wrap, and the flag collects the coefficients out of range. -/
theorem foldl_fgIntStep (us : List ℕ) (nf ng : UInt32) (bad : Bool)
    (hnf : nf.toNat + us.length * 16384 < 4294967296)
    (hng : ng.toNat + us.length * 16384 < 4294967296) :
    let s := us.foldl (fgIntStep f g) (nf, ng, bad)
    s.1.toNat = nf.toNat + squareSum (us.map fun u => f[u]!.toInt) ∧
      s.2.1.toNat = ng.toNat + squareSum (us.map fun u => g[u]!.toInt) ∧
      s.2.2 = (bad || us.any fun u =>
        decide (f[u]!.toInt ≥ 16 ∨ f[u]!.toInt ≤ -16 ∨ g[u]!.toInt ≥ 16 ∨ g[u]!.toInt ≤ -16)) := by
  induction us generalizing nf ng bad with
  | nil => simp [squareSum]
  | cons u us ih =>
      have hf := square_le f[u]!
      have hg := square_le g[u]!
      rw [List.length_cons] at hnf hng
      have haddf : (nf + (f[u]!.toInt32 * f[u]!.toInt32).toUInt32).toNat =
          nf.toNat + f[u]!.toInt.natAbs * f[u]!.toInt.natAbs := by
        rw [UInt32.toNat_add, toNat_square, Nat.mod_eq_of_lt (by omega)]
      have haddg : (ng + (g[u]!.toInt32 * g[u]!.toInt32).toUInt32).toNat =
          ng.toNat + g[u]!.toInt.natAbs * g[u]!.toInt.natAbs := by
        rw [UInt32.toNat_add, toNat_square, Nat.mod_eq_of_lt (by omega)]
      rw [List.foldl_cons]
      obtain ⟨h₁, h₂, h₃⟩ := ih (nf + (f[u]!.toInt32 * f[u]!.toInt32).toUInt32)
        (ng + (g[u]!.toInt32 * g[u]!.toInt32).toUInt32) (fgIntStep f g (nf, ng, bad) u).2.2
        (by omega) (by omega)
      refine ⟨h₁.trans ?_, h₂.trans ?_, h₃.trans ?_⟩
      · rw [haddf, List.map_cons, squareSum, squareSum, List.map_cons, List.sum_cons, add_assoc]
      · rw [haddg, List.map_cons, squareSum, squareSum, List.map_cons, List.sum_cons, add_assoc]
      · rw [List.any_cons, ← Bool.or_assoc]
        congr 1
        simp only [fgIntStep, (decide_range _).1, (decide_range _).2, Bool.decide_or,
          Bool.or_assoc]

/-- **The integer checks** accept the pairs that pass the coefficient limit and the saturating
norm of the reference. -/
theorem devFgIntOk_iff :
    devFgIntOk f g = true ↔ exceedsLimit fgLimit f g = false ∧ ¬ normFg f g ≥ 16823 := by
  have hsum : ∀ f : SmallPoly, squareSum ((List.range 1024).map fun u => f[u]!.toInt) =
      squareSum (SmallPoly.reversed f) := by
    intro f
    rw [squareSum_reversed]
    refine congrArg squareSum (List.ext_getElem (by simp) fun i h₁ h₂ => ?_)
    have hi : i < 1024 := by simpa using h₁
    simp [hi]
  have hfle := squareSum_reversed_le f
  have hgle := squareSum_reversed_le g
  obtain ⟨hnf, hng, hbad⟩ := foldl_fgIntStep (f := f) (g := g) (List.range 1024) 0 0 false
    (by rw [List.length_range]; norm_num) (by rw [List.length_range]; norm_num)
  rw [hsum, UInt32.toNat_zero, Nat.zero_add] at hnf hng
  rw [devFgIntOk]
  generalize (List.range 1024).foldl (fgIntStep f g) (0, 0, false) = s at hnf hng hbad
  obtain ⟨nf, ng, bad⟩ := s
  dsimp only at hnf hng hbad ⊢
  have hnorm : nf + ng < 16823 ↔ ¬ normFg f g ≥ 16823 := by
    have hbound : (16823 : UInt32).toNat = 16823 := rfl
    rw [UInt32.lt_iff_toNat_lt, ge_iff_le, UInt32.le_iff_toNat_le, toNat_normFg, UInt32.toNat_add,
      hnf, hng, hbound, Nat.mod_eq_of_lt (by omega)]
    omega
  rw [Bool.and_eq_true, Bool.not_eq_true', decide_eq_true_eq, hnorm, hbad, Bool.false_or]
  rfl

end Integer

/-! ### All checks -/

section Visible

variable (P : FalconPrimitives) (bnormOk : SmallPoly → SmallPoly → Bool)

/-- The reference, with another test of the norm. -/
def FalconPrimitives.withBnorm : FalconPrimitives := { P with bnormLt := bnormOk }

variable {f g : SmallPoly}

/-- The test for invertibility, whatever the scratch array. -/
theorem devNttFCheck_eq (tt : Poly16) :
    (devNttFCheck f tt).val.1 = (computePublicAt (P.withBnorm bnormOk) 5 f g).isSome :=
  Bool.eq_iff_iff.mpr ((devNttFCheck_ensures f tt).result.1.trans
    (isPublicOf_computePublicAt 5).isSome_iff.symm)

/-- **The checks of the device** are the ones of the oracle. -/
theorem devVisible_eq (fg : SmallPoly × SmallPoly) (tt : Poly16) :
    (devVisible bnormOk fg tt).1 = visibleAttempt (P.withBnorm bnormOk) 0 fg := by
  obtain ⟨f, g⟩ := fg
  have hntt := devNttFCheck_eq P bnormOk (f := f) (g := g) tt
  have hbnorm : (P.withBnorm bnormOk).bnormLt f g = bnormOk f g := rfl
  rw [devVisible, visibleAttempt, hbnorm]
  by_cases hint : devFgIntOk f g = true
  · obtain ⟨hlimit, hnorm⟩ := devFgIntOk_iff.mp hint
    rw [if_pos hint, if_neg (by rw [hlimit]; exact Bool.false_ne_true), if_neg hnorm,
      Nat.add_zero, ← hntt]
    generalize (devNttFCheck f tt).val = r
    obtain ⟨ok, tt'⟩ := r
    cases ok <;> cases bnormOk f g <;> simp
  · have hfail : exceedsLimit fgLimit f g = true ∨ normFg f g ≥ 16823 := by
      by_contra h
      rw [not_or, Bool.not_eq_true] at h
      exact hint (devFgIntOk_iff.mpr h)
    rw [if_neg hint]
    rcases hfail with h | h
    · rw [if_pos h]
    · rw [if_pos h, ite_self]

/-- **The order of the last two checks** makes no difference. -/
theorem devVisibleNormFirst_eq (fg : SmallPoly × SmallPoly) (tt tt' : Poly16) :
    (devVisibleNormFirst bnormOk fg tt).1 = (devVisible bnormOk fg tt').1 := by
  obtain ⟨f, g⟩ := fg
  have hntt := (devNttFCheck_eq default bnormOk (f := f) (g := g) tt).trans
    (devNttFCheck_eq default bnormOk tt').symm
  rw [devVisibleNormFirst, devVisible]
  by_cases hint : devFgIntOk f g = true
  · rw [if_pos hint, if_pos hint]
    generalize (devNttFCheck f tt).val = r at hntt
    generalize (devNttFCheck f tt').val = r' at hntt
    obtain ⟨ok, a⟩ := r
    obtain ⟨ok', a'⟩ := r'
    obtain rfl : ok = ok' := hntt
    cases ok <;> cases bnormOk f g <;> simp
  · rw [if_neg hint, if_neg hint]

end Visible

/-! ### The loop -/

section Search

variable {check check' : SmallPoly × SmallPoly → Poly16 → Bool × Poly16} {fuel : ℕ}

/-- Checks that accept the same attempts, whatever is in the scratch array, give loops with the
same result. -/
theorem devRetryLoop_congr (h : ∀ fg tt tt', (check fg tt).1 = (check' fg tt').1) (togo att : ℕ)
    (tt tt' : Poly16) (s : Shake) :
    (devRetryLoop check fuel togo att tt s).map (fun (r, fg, _) => (r, fg)) =
      (devRetryLoop check' fuel togo att tt' s).map fun (r, fg, _) => (r, fg) := by
  induction togo generalizing att tt tt' s with
  | zero => rfl
  | succ togo ih =>
      rw [devRetryLoop, devRetryLoop]
      cases devSampleFgFrom (shakeSqueezeU64 keccakf) fuel s with
      | none => rfl
      | some out =>
          obtain ⟨fg, s'⟩ := out
          have hfg := h fg tt tt'
          simp only [Option.bind_some]
          generalize check fg tt = r at hfg
          generalize check' fg tt' = r' at hfg
          obtain ⟨ok, a⟩ := r
          obtain ⟨ok', a'⟩ := r'
          obtain rfl : ok = ok' := hfg
          by_cases hmore : (!ok && decide (att + 1 < pqMaxAttempts)) = true
          · simp only [hmore, if_true]
            exact ih (att + 1) a a' s'
          · simp only [hmore]
            rfl

/-- The result of the loop, by what a search finds: the attempts made and the polynomials, or 0
when nothing is found. -/
def RetryOutcome (att : ℕ) (found : Option (Option (ℕ × SmallPoly × SmallPoly)))
    (out : Option (ℕ × (SmallPoly × SmallPoly) × Poly16)) : Prop :=
  match found with
  | none => out = none
  | some none => ∃ fg tt, out = some (0, fg, tt)
  | some (some (k, fg)) => ∃ tt, out = some (att + k + 1, fg, tt)

theorem RetryOutcome.eq_succ_iff {found : Option (Option (ℕ × SmallPoly × SmallPoly))}
    {out : Option (ℕ × (SmallPoly × SmallPoly) × Poly16)} (h : RetryOutcome 0 found out) {k : ℕ}
    {fg : SmallPoly × SmallPoly} :
    (out.map fun (r, fg, _) => (r, fg)) = some (k + 1, fg) ↔ found = some (some (k, fg)) := by
  rcases found with _ | _ | ⟨k', fg'⟩
  · obtain rfl : out = none := h
    simp
  · obtain ⟨fg', tt, rfl⟩ := h
    simp
  · obtain ⟨tt, rfl⟩ := h
    simp

theorem RetryOutcome.eq_zero_iff {found : Option (Option (ℕ × SmallPoly × SmallPoly))}
    {out : Option (ℕ × (SmallPoly × SmallPoly) × Poly16)} (h : RetryOutcome 0 found out) :
    (∃ fg, (out.map fun (r, fg, _) => (r, fg)) = some (0, fg)) ↔ found = some none := by
  rcases found with _ | _ | ⟨k', fg'⟩
  · obtain rfl : out = none := h
    simp
  · obtain ⟨fg', tt, rfl⟩ := h
    simp
  · obtain ⟨tt, rfl⟩ := h
    simp

/-- **The loop is a search** among the attempts of the stream. -/
theorem devRetryLoop_outcome {pass : SmallPoly × SmallPoly → Bool}
    (hcheck : ∀ fg tt, (check fg tt).1 = pass fg) {togo att : ℕ} (hpos : 0 < togo)
    (hatt : att + togo = pqMaxAttempts) (tt : Poly16) (s : Shake) :
    RetryOutcome att (search (devSampleFgFrom (shakeSqueezeU64 keccakf) fuel) pass togo s)
      (devRetryLoop check fuel togo att tt s) := by
  induction togo generalizing att tt s with
  | zero => exact absurd hpos (Nat.lt_irrefl 0)
  | succ togo ih =>
      rw [devRetryLoop, search]
      cases devSampleFgFrom (shakeSqueezeU64 keccakf) fuel s with
      | none => rfl
      | some out =>
          obtain ⟨fg, s'⟩ := out
          have hok := hcheck fg tt
          simp only [Option.bind_some]
          generalize check fg tt = r at hok
          obtain ⟨ok, tt'⟩ := r
          obtain rfl : ok = pass fg := hok
          by_cases hpass : pass fg = true
          · simp only [hpass, Bool.not_true, Bool.false_and, Bool.false_eq_true, if_false, if_true]
            exact ⟨tt', rfl⟩
          · rw [Bool.not_eq_true] at hpass
            simp only [hpass, Bool.not_false, Bool.true_and, decide_eq_true_eq,
              Bool.false_eq_true, if_false]
            rcases Nat.eq_zero_or_pos togo with rfl | htogo
            · -- The cap is reached: the shorter search has no attempts.
              rw [if_neg (by omega)]
              exact ⟨fg, tt', rfl⟩
            · rw [if_pos (by omega)]
              have hrest := ih htogo (by omega : att + 1 + togo = pqMaxAttempts) tt' s'
              revert hrest
              cases search (devSampleFgFrom (shakeSqueezeU64 keccakf) fuel) pass togo s' with
              | none => exact id
              | some found =>
                  cases found with
                  | none => exact id
                  | some found =>
                      rintro ⟨tt'', h⟩
                      refine ⟨tt'', h.trans ?_⟩
                      congr 2
                      omega

end Search

/-- The attempt that the oracle returns, with its polynomials, is what the search finds. -/
theorem firstVisibleAccept_found_iff {P : FalconPrimitives} {fuel : ℕ} {seed : List UInt8}
    {m k : UInt32} (hm : m.toNat ≤ 2 ^ 31) {fg : SmallPoly × SmallPoly} :
    (firstVisibleAccept P fuel seed m = some (some k) ∧ sampleFgNth fuel seed k = some fg) ↔
      search (sampleFg (getRngU64 processBlock) fuel) (visibleAttempt P 0) m.toNat
        (seedStream seed) = some (some (k.toNat, fg)) := by
  rw [firstVisibleAccept_eq_search hm]
  constructor
  · rintro ⟨h, hfg⟩
    obtain ⟨r, hr, hmap⟩ := Option.map_eq_some_iff.mp h
    obtain ⟨⟨n, fg'⟩, rfl, hn⟩ := Option.map_eq_some_iff.mp hmap
    obtain ⟨hlt, hnth, -⟩ := search_eq_some_some_iff.mp hr
    have hkn : k.toNat = n := by
      rw [← hn, Nat.toUInt32, UInt32.toNat_ofNat', Nat.mod_eq_of_lt (by omega)]
    rw [← hkn] at hlt hnth hr
    have hfg' := (exists_nthAttempt_iff (by omega)).mp hnth
    obtain rfl : fg' = fg := Option.some.inj (hfg'.symm.trans hfg)
    exact hr
  · intro hr
    obtain ⟨hlt, hnth, -⟩ := search_eq_some_some_iff.mp hr
    rw [hr]
    exact ⟨congrArg (some ∘ some) UInt32.ofNat_toNat, (exists_nthAttempt_iff (by omega)).mp hnth⟩

/-- **The retry loop of the device equals its oracle**, for any test of the norm on both sides:
it returns `k + 1` with the polynomials of attempt `k` exactly when the oracle returns `k`, and
0 exactly when the oracle returns nothing. The integer checks accept the pairs that pass the
coefficient limit and the saturating norm of the reference, and the order of the tests for
invertibility and for the norm makes no difference. -/
theorem retry_eq_oracle (P : FalconPrimitives) (bnormOk : SmallPoly → SmallPoly → Bool)
    (fuel : ℕ) (tt : Poly16) (seed : Bytes32) :
    (∀ (k : UInt32) fg, devRetrySample bnormOk fuel tt seed = some (k.toNat + 1, fg) ↔
      firstVisibleAccept (P.withBnorm bnormOk) fuel seed.toList 192 = some (some k) ∧
        sampleFgNth fuel seed.toList k = some fg) ∧
    ((∃ fg, devRetrySample bnormOk fuel tt seed = some (0, fg)) ↔
      firstVisibleAccept (P.withBnorm bnormOk) fuel seed.toList 192 = some none) ∧
    (∀ f g, devFgIntOk f g = true ↔
      exceedsLimit fgLimit f g = false ∧ ¬ normFg f g ≥ 16823) ∧
    devRetryWith (devVisibleNormFirst bnormOk) fuel tt seed =
      devRetrySample bnormOk fuel tt seed := by
  let P' := P.withBnorm bnormOk
  have hm : (192 : UInt32).toNat ≤ 2 ^ 31 := by decide
  have hsearch : search (sampleFg (getRngU64 processBlock) fuel) (visibleAttempt P' 0) 192
      (seedStream seed.toList) = search (devSampleFgFrom (shakeSqueezeU64 keccakf) fuel)
        (visibleAttempt P' 0) pqMaxAttempts (shakeInitSeed32 seed) :=
    search_eq_of_sameOutcome (fun _ _ h => sampleFg_agrees fuel h) _ 192
      (serves_init processBlock seed)
  have hout : RetryOutcome 0 (search (devSampleFgFrom (shakeSqueezeU64 keccakf) fuel)
      (visibleAttempt P' 0) pqMaxAttempts (shakeInitSeed32 seed))
      (devRetryLoop (devVisible bnormOk) fuel pqMaxAttempts 0 tt (shakeInitSeed32 seed)) :=
    devRetryLoop_outcome (devVisible_eq P bnormOk) (by decide) (Nat.zero_add pqMaxAttempts) tt
      (shakeInitSeed32 seed)
  refine ⟨fun k fg => ?_, ?_, fun f g => devFgIntOk_iff, ?_⟩
  · rw [firstVisibleAccept_found_iff hm]
    exact hout.eq_succ_iff.trans (by rw [← hsearch]; rfl)
  · rw [firstVisibleAccept_none_iff hm]
    exact hout.eq_zero_iff.trans (by rw [← hsearch]; rfl)
  · exact devRetryLoop_congr (fun fg tt tt' => devVisibleNormFirst_eq bnormOk fg tt tt')
      pqMaxAttempts 0 tt tt (shakeInitSeed32 seed)

end FalconVanity
