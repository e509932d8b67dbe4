import FalconVanity.SaltSweep

/-!
# The Stage That Rejects a Sample

The shim has the checks of a key generation attempt in four copies. Completion returns a key
or nothing, the classifier returns the number of the check that fails, the retry oracle goes
on to the next attempt of the stream, and the public half looks at the last check only. The
oracle leaves out the NTRU solver.

## Main results

* `pqvFirstSampleStage_eq_zero_iff`: the classifier accepts the rounds of the reference loop
  that pass.
* `firstVisibleAccept_eq_search`: the oracle is a search among the attempts of the stream.
* `acceptance_copies_agree`: the copies agree, on every pair of polynomials and along every
  stream.
-/

namespace FalconVanity

open Draws

/-- `SampleStage`: how far the first sample of a seed gets. -/
inductive SampleStage
  | accepted
  | coefLimit
  | sqNorm
  | bNorm
  | notInvertible
  | solveFailed
  deriving DecidableEq

variable (P : FalconPrimitives)

/-- `pqv_first_sample_stage`: the stages of the acceptance test in the order in which key
generation makes them, as a code of the shim. -/
def pqvFirstSampleStage (fg : SmallPoly × SmallPoly) : ℤ :=
  let (f, g) := fg
  if exceedsLimit fgLimit f g then 1
  else if normFg f g ≥ 16823 then 2
  else if !P.bnormLt f g then 3
  else if (computePublicAt P 4 f g).isNone then 4
  else if (P.solveNTRU f g solveLimit).isNone then 5
  else 0

/-- The stage of a return code. -/
def SampleStage.ofCode : ℤ → SampleStage
  | 0 => .accepted
  | 1 => .coefLimit
  | 2 => .sqNorm
  | 3 => .bNorm
  | 4 => .notInvertible
  | _ => .solveFailed

/-- The stages of the samples that pass the checks before the NTRU solver. -/
def SampleStage.Visible (stage : SampleStage) : Prop := stage = .accepted ∨ stage = .solveFailed

/-- `first_sample_stage`: the code of the shim, as a stage. -/
def firstSampleStage (fg : SmallPoly × SmallPoly) : SampleStage :=
  .ofCode (pqvFirstSampleStage P fg)

/-- The checks of attempt `att` in the loop of `pqv_first_visible_accept`: whether it returns
there. -/
def visibleAttempt (att : ℕ) (fg : SmallPoly × SmallPoly) : Bool :=
  let (f, g) := fg
  if exceedsLimit fgLimit f g then false
  else if normFg f g ≥ 16823 then false
  else if !P.bnormLt f g then false
  else (computePublicAt P (5 + att) f g).isSome

/-- The loop of `pqv_first_visible_accept` from the attempt `att` on, with `togo` attempts to
go: the index is converted to a signed integer. -/
def visibleLoop {σ : Type} (next : σ → UInt64 × σ) (fuel : ℕ) : ℕ → ℕ → σ → Option ℤ
  | 0, _, _ => some (-1)
  | togo + 1, att, rng =>
    (sampleFg next fuel rng).bind fun (fg, rng) =>
      if visibleAttempt P att fg then some att.toUInt32.toInt32.toInt
      else visibleLoop next fuel togo (att + 1) rng

/-- `pqv_first_visible_accept`: the number of the first attempt that the visible tests accept, or a
negative number. -/
def pqvFirstVisibleAccept (fuel : ℕ) (seed : List UInt8) (maxAttempts : UInt32) : Option ℤ :=
  visibleLoop P (getRngU64 processBlock) fuel maxAttempts.toNat 0
    (shakeInitPrngFromSeed processBlock seed)

/-- `first_visible_accept`: the outer `none` is for an attempt that runs out of samples. -/
def firstVisibleAccept (fuel : ℕ) (seed : List UInt8) (maxAttempts : UInt32) :
    Option (Option UInt32) :=
  (pqvFirstVisibleAccept P fuel seed maxAttempts).map fun r =>
    if 0 ≤ r then some r.toNat.toUInt32 else none

/-! ### The classifier -/

section Stage

variable {P} {f g : SmallPoly} {fg : SmallPoly × SmallPoly}

/-- The stages, with the place of the call of `compute_public` in the reference loop. -/
theorem firstSampleStage_eq :
    firstSampleStage P (f, g) =
      if exceedsLimit fgLimit f g then .coefLimit
      else if normFg f g ≥ 16823 then .sqNorm
      else if !P.bnormLt f g then .bNorm
      else if (computePublicAt P 0 f g).isNone then .notInvertible
      else if (P.solveNTRU f g solveLimit).isNone then .solveFailed
      else .accepted := by
  rw [firstSampleStage, pqvFirstSampleStage, computePublicAt_eq 4 0]
  simp only [apply_ite SampleStage.ofCode]
  rfl

/-- **The classifier accepts** the rounds of the reference loop that pass. -/
theorem firstSampleStage_eq_accepted_iff :
    firstSampleStage P fg = .accepted ↔ (keygenRound P fg).isSome := by
  obtain ⟨f, g⟩ := fg
  rw [firstSampleStage_eq, keygenRound]
  cases exceedsLimit fgLimit f g with
  | true => simp
  | false =>
      by_cases hnorm : normFg f g ≥ 16823
      · simp [hnorm]
      · cases P.bnormLt f g with
        | false => simp [hnorm]
        | true =>
            cases computePublicAt P 0 f g <;> cases P.solveNTRU f g solveLimit <;> simp [hnorm]

/-- The classifier finds a polynomial not invertible when no public key is computed. -/
theorem computePublicAt_of_notInvertible (h : firstSampleStage P (f, g) = .notInvertible)
    (place : ℕ) : computePublicAt P place f g = none := by
  rw [firstSampleStage_eq] at h
  rw [computePublicAt_eq place 0]
  split_ifs at h with hlimit hnorm hbnorm hpub hsolve
  exact Option.isNone_iff_eq_none.mp hpub

/-- **The checks that the device sees** are those before the NTRU solver. -/
theorem visibleAttempt_iff (att : ℕ) :
    visibleAttempt P att fg = true ↔ (firstSampleStage P fg).Visible := by
  obtain ⟨f, g⟩ := fg
  rw [SampleStage.Visible, firstSampleStage_eq, visibleAttempt, computePublicAt_eq (5 + att) 0]
  cases exceedsLimit fgLimit f g with
  | true => simp
  | false =>
      by_cases hnorm : normFg f g ≥ 16823
      · simp [hnorm]
      · cases P.bnormLt f g with
        | false => simp [hnorm]
        | true =>
            cases computePublicAt P 0 f g <;> cases P.solveNTRU f g solveLimit <;> simp [hnorm]

/-- The attempt makes no difference to the checks. -/
theorem visibleAttempt_eq (att att' : ℕ) :
    visibleAttempt P att fg = visibleAttempt P att' fg :=
  Bool.eq_iff_iff.mpr ((visibleAttempt_iff att).trans (visibleAttempt_iff att').symm)

/-- **A key that is completed** has the public key of the public half. -/
theorem pubkeyFromFg_of_completeFromFg {kp : Keypair} (h : completeFromFg P fg = some kp) :
    pubkeyFromFg P fg = some kp.publicKey := by
  obtain ⟨f, g⟩ := fg
  rw [completeFromFg] at h
  rw [pubkeyFromFg, computePublicAt_eq 3 2]
  split_ifs at h with hlimit hnorm hbnorm
  cases hpub : computePublicAt P 2 f g with
  | none => simp [hpub] at h
  | some r =>
      cases hF : P.solveNTRU f g solveLimit with
      | none => simp [hpub, hF] at h
      | some F =>
          cases hsk : encodePrivkey f g F with
          | none => simp [hpub, hF, hsk] at h
          | some sk =>
              cases hpk : encodePubkey r with
              | none => simp [hpub, hF, hsk, hpk] at h
              | some pk =>
                  simp only [hpub, hF, hsk, hpk, Option.some.injEq] at h
                  rw [← h]
                  exact hpk

end Stage

/-! ### The retry oracle -/

section Oracle

variable {P} {fuel : ℕ} {seed : List UInt8} {m : UInt32}

/-- The index of an attempt, as a signed integer. -/
theorem toInt_attempt {att : ℕ} (hatt : att < 2 ^ 31) :
    att.toUInt32.toInt32.toInt = (att : ℤ) := by
  have hval : att.toUInt32.toNat = att := by
    rw [Nat.toUInt32, UInt32.toNat_ofNat', Nat.mod_eq_of_lt (by omega)]
  rw [Words.UInt32.toInt_toInt32, hval, if_pos hatt]

/-- The loop of the oracle is a search for an attempt that passes the visible checks. -/
theorem visibleLoop_eq_search {σ : Type} {next : σ → UInt64 × σ} {togo att : ℕ} {rng : σ}
    (hatt : att + togo ≤ 2 ^ 31) :
    visibleLoop P next fuel togo att rng =
      (search (sampleFg next fuel) (visibleAttempt P 0) togo rng).map fun r =>
        r.elim (-1) fun (k, _) => ((att + k : ℕ) : ℤ) := by
  induction togo generalizing att rng with
  | zero => rfl
  | succ togo ih =>
      rw [visibleLoop, search]
      cases sampleFg next fuel rng with
      | none => rfl
      | some out =>
          obtain ⟨fg, rng'⟩ := out
          simp only [Option.bind_some, visibleAttempt_eq att 0]
          by_cases hpass : visibleAttempt P 0 fg = true
          · rw [if_pos hpass, if_pos hpass, toInt_attempt (by omega)]
            rfl
          · rw [if_neg hpass, if_neg hpass, ih (by omega), Option.map_map]
            refine congrArg (Option.map · _) (funext fun r => ?_)
            cases r with
            | none => rfl
            | some r =>
                obtain ⟨k, a⟩ := r
                simp only [Function.comp_apply, Option.map_some, Option.elim_some]
                congr 1
                omega

/-- **The oracle is a search** among the attempts of the stream of the seed. -/
theorem firstVisibleAccept_eq_search (hm : m.toNat ≤ 2 ^ 31) :
    firstVisibleAccept P fuel seed m =
      (search (sampleFg (getRngU64 processBlock) fuel) (visibleAttempt P 0) m.toNat
        (seedStream seed)).map fun r => r.map fun (k, _) => k.toUInt32 := by
  rw [firstVisibleAccept, pqvFirstVisibleAccept, visibleLoop_eq_search (by omega),
    Option.map_map]
  refine congrArg (Option.map · _) (funext fun r => ?_)
  cases r with
  | none => rfl
  | some r => simp

theorem visibleAttempt_eq_false_iff {att : ℕ} {fg : SmallPoly × SmallPoly} :
    visibleAttempt P att fg = false ↔ ¬ (firstSampleStage P fg).Visible := by
  rw [← visibleAttempt_iff att, Bool.not_eq_true]

/-- The attempts of the stream are the samples with their indices. -/
theorem exists_nthAttempt_iff {k : UInt32} (hk : k.toNat < 2 ^ 31) {fg : SmallPoly × SmallPoly} :
    (∃ t, nthAttempt (sampleFg (getRngU64 processBlock) fuel) k.toNat (seedStream seed) =
      some (fg, t)) ↔ sampleFgNth fuel seed k = some fg := by
  have hval : k.toNat.toUInt32 = k := UInt32.ofNat_toNat
  have hnth : sampleFgNth fuel seed k.toNat.toUInt32 =
      (nthAttempt (sampleFg (getRngU64 processBlock) fuel) k.toNat (seedStream seed)).map
        Prod.fst := sampleFgNth_eq hk
  rw [hval] at hnth
  rw [hnth, Option.map_eq_some_iff]
  constructor
  · rintro ⟨t, ht⟩
    exact ⟨_, ht, rfl⟩
  · rintro ⟨⟨fg', t⟩, ht, rfl⟩
    exact ⟨t, ht⟩

/-- **The attempt that the oracle returns.** -/
theorem firstVisibleAccept_eq_some_iff (hm : m.toNat ≤ 2 ^ 31) {k : UInt32} :
    firstVisibleAccept P fuel seed m = some (some k) ↔
      k < m ∧ (∃ fg, sampleFgNth fuel seed k = some fg ∧ (firstSampleStage P fg).Visible) ∧
        ∀ j < k, ∃ fg, sampleFgNth fuel seed j = some fg ∧
          ¬ (firstSampleStage P fg).Visible := by
  rw [firstVisibleAccept_eq_search hm]
  constructor
  · intro h
    obtain ⟨r, hr, hmap⟩ := Option.map_eq_some_iff.mp h
    obtain ⟨⟨n, fg⟩, rfl, hn⟩ := Option.map_eq_some_iff.mp hmap
    obtain ⟨hlt, hnth, hpass, hbefore⟩ := search_eq_some_some_iff.mp hr
    have hkn : k.toNat = n := by
      rw [← hn, Nat.toUInt32, UInt32.toNat_ofNat', Nat.mod_eq_of_lt (by omega)]
    rw [← hkn] at hlt hnth hbefore
    refine ⟨UInt32.lt_iff_toNat_lt.mpr hlt, ⟨fg, (exists_nthAttempt_iff (by omega)).mp hnth,
      (visibleAttempt_iff 0).mp hpass⟩, fun j hj => ?_⟩
    rw [UInt32.lt_iff_toNat_lt] at hj
    obtain ⟨fg', t', hj', hfail⟩ := hbefore j.toNat hj
    exact ⟨fg', (exists_nthAttempt_iff (by omega)).mp ⟨t', hj'⟩,
      visibleAttempt_eq_false_iff.mp hfail⟩
  · rintro ⟨hlt, ⟨fg, hfg, hvis⟩, hbefore⟩
    rw [UInt32.lt_iff_toNat_lt] at hlt
    have hsearch : search (sampleFg (getRngU64 processBlock) fuel) (visibleAttempt P 0) m.toNat
        (seedStream seed) = some (some (k.toNat, fg)) := by
      refine search_eq_some_some_iff.mpr ⟨hlt, (exists_nthAttempt_iff (by omega)).mpr hfg,
        (visibleAttempt_iff 0).mpr hvis, fun j hj => ?_⟩
      have hval : j.toUInt32.toNat = j := by
        rw [Nat.toUInt32, UInt32.toNat_ofNat', Nat.mod_eq_of_lt (by omega)]
      obtain ⟨fg', hfg', hfail⟩ := hbefore j.toUInt32
        (UInt32.lt_iff_toNat_lt.mpr (by rwa [hval]))
      obtain ⟨t, ht⟩ := (exists_nthAttempt_iff (by omega)).mpr hfg'
      rw [hval] at ht
      exact ⟨fg', t, ht, visibleAttempt_eq_false_iff.mpr hfail⟩
    rw [hsearch]
    exact congrArg (some ∘ some) UInt32.ofNat_toNat

/-- The oracle returns no attempt when the search finds nothing. -/
theorem firstVisibleAccept_none_iff (hm : m.toNat ≤ 2 ^ 31) :
    firstVisibleAccept P fuel seed m = some none ↔
      search (sampleFg (getRngU64 processBlock) fuel) (visibleAttempt P 0) m.toNat
        (seedStream seed) = some none := by
  rw [firstVisibleAccept_eq_search hm, Option.map_eq_some_iff]
  constructor
  · rintro ⟨r, hr, hmap⟩
    rw [hr, Option.map_eq_none_iff.mp hmap]
  · intro hr
    exact ⟨none, hr, rfl⟩

/-- **When the oracle returns no attempt.** -/
theorem firstVisibleAccept_eq_none_iff (hm : m.toNat ≤ 2 ^ 31) :
    firstVisibleAccept P fuel seed m = some none ↔
      ∀ j < m, ∃ fg, sampleFgNth fuel seed j = some fg ∧
        ¬ (firstSampleStage P fg).Visible := by
  rw [firstVisibleAccept_none_iff hm, search_eq_some_none_iff]
  constructor
  · intro hall j hj
    rw [UInt32.lt_iff_toNat_lt] at hj
    obtain ⟨fg, t, ht, hfail⟩ := hall j.toNat hj
    exact ⟨fg, (exists_nthAttempt_iff (by omega)).mp ⟨t, ht⟩,
      visibleAttempt_eq_false_iff.mp hfail⟩
  · intro hall j hj
    have hval : j.toUInt32.toNat = j := by
      rw [Nat.toUInt32, UInt32.toNat_ofNat', Nat.mod_eq_of_lt (by omega)]
    obtain ⟨fg, hfg, hfail⟩ := hall j.toUInt32 (UInt32.lt_iff_toNat_lt.mpr (by rwa [hval]))
    obtain ⟨t, ht⟩ := (exists_nthAttempt_iff (by omega)).mpr hfg
    rw [hval] at ht
    exact ⟨fg, t, ht, visibleAttempt_eq_false_iff.mpr hfail⟩

end Oracle

/-- **The copies of the acceptance predicate agree.** Completion returns a key exactly for the
samples that the classifier accepts, with the public key of the public half, which returns
nothing when the classifier finds the polynomial not invertible. The retry oracle returns the
least index below its bound whose sample is accepted or fails in the NTRU solver only, and
nothing if there is no such index. -/
theorem acceptance_copies_agree (P : FalconPrimitives) :
    (∀ fg, (completeFromFg P fg).isSome ↔ firstSampleStage P fg = .accepted) ∧
    (∀ fg, firstSampleStage P fg = .accepted → ∃ kp, completeFromFg P fg = some kp ∧
      pubkeyFromFg P fg = some kp.publicKey) ∧
    (∀ fg, firstSampleStage P fg = .notInvertible → pubkeyFromFg P fg = none) ∧
    (∀ (fuel : ℕ) (seed : List UInt8) (m : UInt32), m.toNat ≤ 2 ^ 31 →
      (∀ k, firstVisibleAccept P fuel seed m = some (some k) ↔
        k < m ∧ (∃ fg, sampleFgNth fuel seed k = some fg ∧ (firstSampleStage P fg).Visible) ∧
          ∀ j < k, ∃ fg, sampleFgNth fuel seed j = some fg ∧
            ¬ (firstSampleStage P fg).Visible) ∧
      (firstVisibleAccept P fuel seed m = some none ↔
        ∀ j < m, ∃ fg, sampleFgNth fuel seed j = some fg ∧
          ¬ (firstSampleStage P fg).Visible)) := by
  have hsome : ∀ fg, (completeFromFg P fg).isSome ↔ firstSampleStage P fg = .accepted :=
    fun fg => completeFromFg_isSome_iff.trans firstSampleStage_eq_accepted_iff.symm
  refine ⟨hsome, fun fg hfg => ?_, fun fg hfg => ?_, fun fuel seed m hm =>
    ⟨fun k => firstVisibleAccept_eq_some_iff hm, firstVisibleAccept_eq_none_iff hm⟩⟩
  · obtain ⟨kp, hkp⟩ := Option.isSome_iff_exists.mp ((hsome fg).mpr hfg)
    exact ⟨kp, hkp, pubkeyFromFg_of_completeFromFg hkp⟩
  · rw [pubkeyFromFg, computePublicAt_of_notInvertible hfg]
    rfl

theorem acceptance_copies_agree_ones :
    firstVisibleAccept default 64 (List.replicate 32 1) 192 = some (some 0) := by
  obtain ⟨fg, kp, hfg, hkp⟩ := completeFromFg_of_runAttempt (P := default) runAttempt_ones
    (fun _ _ => rfl) fun _ _ => rfl
  obtain ⟨hstage, -, -, horacle⟩ := acceptance_copies_agree default
  have hnth : sampleFgNth 64 (List.replicate 32 1) 0 = some fg := by
    rw [sampleFgNth_zero, ← hfg, devSampleFg_eq_pqvSampleFg]
    rfl
  refine ((horacle 64 (List.replicate 32 1) 192 (by decide)).1 0).mpr ⟨by decide,
    ⟨fg, hnth, .inl ((hstage fg).mp (by rw [hkp]; rfl))⟩, fun j hj => ?_⟩
  exact absurd hj (UInt32.not_lt_zero)

end FalconVanity
