import FalconVanity.Codec

/-!
# Key Generation, in One Loop and in Single Attempts

The reference samples polynomials from one stream until an attempt passes all checks, and
encodes the key afterwards. The split primitives sample the attempt with a given index, and
complete one attempt to a key: the checks and the encoding in one function, with no way to
sample again. The floating-point norm and the NTRU solver are the same functions on both
sides, of which only the range of the solution is known; the public key polynomial and the
encoders are embedded.

The loop of the reference has no bound of its own. It takes the number of attempts as fuel,
and the bound on the samples for one coefficient that the sampler takes.

## Main results

* `encode_of_keygenRound`, `completeFromFg_of_keygenRound_eq_none`: completion passes the same
  checks as a round of the loop, and no encoder fails after them.
* `split_keygen`: the split primitives give the keys of the reference.
-/

namespace FalconVanity

open Draws

/-- What key generation uses of the reference and is not embedded: the floating-point norm and
the NTRU solver, and what its calls find in the scratch arrays of `compute_public`. -/
structure FalconPrimitives where
  /-- `fpr_lt(bnorm, fpr_bnorm_max)` -/
  bnormLt : SmallPoly → SmallPoly → Bool
  /-- `solve_NTRU`: the polynomial `F`, or `none` for the return value 0. -/
  solveNTRU : SmallPoly → SmallPoly → ℤ → Option SmallPoly
  /-- `poly_big_to_small` rejects what is not within the limit. -/
  solveNTRU_le : ∀ f g lim F, solveNTRU f g lim = some F → ∀ i < 1024, |F[i]!.toInt| ≤ lim
  /-- The scratch arrays at a call, by the polynomials and the place of the call. -/
  leftover : SmallPoly → SmallPoly → ℕ → Poly16 × Poly16

/-- An example in which every candidate passes, and the solver returns zero. -/
instance : Inhabited FalconPrimitives where
  default :=
    { bnormLt := fun _ _ => true
      solveNTRU := fun _ _ lim => if 0 ≤ lim then some (Vector.replicate 1024 0) else none
      solveNTRU_le := by
        intro f g lim F hF i hi
        split at hF
        · cases hF
          simpa [hi]
        · cases hF
      leftover := fun _ _ _ => (Vector.replicate 1024 0, Vector.replicate 1024 0) }

/-- `Keypair`: an encoded public key and an encoded private key. -/
structure Keypair where
  publicKey : Vector UInt8 pubkeySize
  privateKey : Vector UInt8 privkeySize

/-- `FalconError`, with the return code of the reference. It says in which call the reference
failed. -/
inductive FalconError
  | keygen (rc : ℤ)
  | sign (rc : ℤ)
  | verify (rc : ℤ)
  | pubkeyDecode (rc : ℤ)

/-- `FALCON_ERR_INTERNAL`: an error that should not occur. -/
def falconErrInternal : ℤ := -6

/-- `1 << (max_fg_bits[10] - 1)` -/
def fgLimit : ℤ := ((1 <<< (maxFgBits.getD 10 0 - 1) : ℕ) : ℤ)

/-- `(1 << (max_FG_bits[10] - 1)) - 1` -/
def solveLimit : ℤ := ((1 <<< (maxFGBits.getD 10 0 - 1) : ℕ) : ℤ) - 1

/-! ### The checks of an attempt -/

/-- Some coefficient is not strictly between `-lim` and `lim`. -/
def exceedsLimit (lim : ℤ) (f g : SmallPoly) : Bool :=
  (List.range 1024).any fun u =>
    decide (f[u]!.toInt ≥ lim ∨ f[u]!.toInt ≤ -lim ∨ g[u]!.toInt ≥ lim ∨ g[u]!.toInt ≤ -lim)

/-- `poly_small_sqnorm`: the squared norm, saturated when its top bit was ever set. -/
def polySmallSqnorm (f : SmallPoly) : UInt32 :=
  let (s, ng) := (List.range 1024).foldl (fun ((s, ng) : UInt32 × UInt32) u =>
    let z := f[u]!.toInt32
    let s := s + (z * z).toUInt32
    (s, ng ||| s)) (0, 0)
  s ||| ((0 : UInt32) - (ng >>> 31))

/-- The squared norm of `(g, -f)`, saturated. -/
def normFg (f g : SmallPoly) : UInt32 :=
  let normf := polySmallSqnorm f
  let normg := polySmallSqnorm g
  (normf + normg) ||| ((0 : UInt32) - ((normf ||| normg) >>> 31))

variable (P : FalconPrimitives)

/-- The call of `compute_public` at a place of the sources. -/
def computePublicAt (place : ℕ) (f g : SmallPoly) : Option Poly16 :=
  (computePublic f g (P.leftover f g place).1 (P.leftover f g place).2).val

/-- One round of the loop of `keygen`, after `f` and `g` were sampled: the polynomial `F`, or
`none` for `continue`. -/
def keygenRound (fg : SmallPoly × SmallPoly) : Option SmallPoly :=
  let (f, g) := fg
  if exceedsLimit fgLimit f g then none
  else if normFg f g ≥ 16823 then none
  else if !P.bnormLt f g then none
  else if (computePublicAt P 0 f g).isNone then none
  else P.solveNTRU f g solveLimit

/-! ### The reference -/

section Reference

variable {σ : Type} (next : σ → UInt64 × σ) (fuel : ℕ)

/-- `keygen`, with a bound on the attempts: `f` and `g`, `F`, and the stream. -/
def keygen (attempts : ℕ) (rng : σ) : Option (((SmallPoly × SmallPoly) × SmallPoly) × σ) :=
  retry (sampleFg next fuel) (keygenRound P) attempts rng

/-- The part of `falcon_keygen_make` after `keygen`. -/
def encodeKeys (f g F : SmallPoly) : Except ℤ Keypair :=
  match encodePrivkey f g F with
  | none => .error falconErrInternal
  | some sk =>
    match computePublicAt P 1 f g with
    | none => .error falconErrInternal
    | some h =>
      match encodePubkey h with
      | none => .error falconErrInternal
      | some pk => .ok ⟨pk, sk⟩

/-- `falcon_keygen_make`, for the degree and the buffer sizes that `falcon_det1024_keygen`
passes. -/
def falconKeygenMake (attempts : ℕ) (rng : σ) : Option (Except ℤ Keypair × σ) :=
  (keygen P next fuel attempts rng).map fun (((f, g), F), rng) => (encodeKeys P f g F, rng)

end Reference

/-- `keygen_from_seed`: the reference key generation, with the SHAKE stream of the seed. -/
def keygenFromSeed (fuel attempts : ℕ) (seed : List UInt8) :
    Option (Except FalconError Keypair) :=
  (falconKeygenMake P (getRngU64 processBlock) fuel attempts
    (shakeInitPrngFromSeed processBlock seed)).map fun (r, _) => r.mapError FalconError.keygen

/-! ### The split primitives -/

/-- `pqv_sample_fg_nth`: the loop makes `n + 1` attempts and keeps the last one. For the last
32-bit index it does not end. -/
def sampleFgNth (fuel : ℕ) (seed : List UInt8) (n : UInt32) : Option (SmallPoly × SmallPoly) :=
  if n = 0xFFFFFFFF then none
  else
    (nthAttempt (sampleFg (getRngU64 processBlock) fuel) n.toNat
      (shakeInitPrngFromSeed processBlock seed)).map Prod.fst

/-- `pqv_complete_from_fg`: `none` for the return value 0. -/
def completeFromFg (fg : SmallPoly × SmallPoly) : Option Keypair :=
  let (f, g) := fg
  if exceedsLimit fgLimit f g then none
  else if normFg f g ≥ 16823 then none
  else if !P.bnormLt f g then none
  else
    match computePublicAt P 2 f g with
    | none => none
    | some h =>
      match P.solveNTRU f g solveLimit with
      | none => none
      | some F =>
        match encodePrivkey f g F with
        | none => none
        | some sk =>
          match encodePubkey h with
          | none => none
          | some pk => some ⟨pk, sk⟩

/-- `pqv_pubkey_from_fg`: `none` for the return value 0. -/
def pubkeyFromFg (fg : SmallPoly × SmallPoly) : Option (Vector UInt8 pubkeySize) :=
  (computePublicAt P 3 fg.1 fg.2).bind encodePubkey

/-! ### Completion -/

section Completion

variable {P} {f g F : SmallPoly}

/-- What the checks of a round ensure. -/
theorem keygenRound_eq_some_iff :
    keygenRound P (f, g) = some F ↔
      exceedsLimit fgLimit f g = false ∧ ¬ normFg f g ≥ 16823 ∧
        P.bnormLt f g = true ∧ (computePublicAt P 0 f g).isSome ∧
          P.solveNTRU f g solveLimit = some F := by
  rw [keygenRound]
  cases exceedsLimit fgLimit f g <;>
    by_cases hnorm : normFg f g ≥ 16823 <;> cases P.bnormLt f g <;>
      cases computePublicAt P 0 f g <;> simp [hnorm]

/-- At every place of a call, the public key of the pair is computed. -/
theorem isPublicOf_computePublicAt (place : ℕ) :
    IsPublicOf f g (computePublicAt P place f g) := by
  rw [computePublicAt]
  exact (computePublic_ensures f g _ _).result

/-- The place of a call of `compute_public` makes no difference. -/
theorem computePublicAt_eq (place place' : ℕ) :
    computePublicAt P place f g = computePublicAt P place' f g :=
  (isPublicOf_computePublicAt place).unique (isPublicOf_computePublicAt place')

/-- The coefficients are within the limit if each of them is. -/
theorem exceedsLimit_eq_false_iff {lim : ℤ} :
    exceedsLimit lim f g = false ↔
      ∀ i < 1024, |f[i]!.toInt| < lim ∧ |g[i]!.toInt| < lim := by
  simp only [exceedsLimit, List.any_eq_false, List.mem_range, decide_eq_true_eq, abs_lt]
  exact forall₂_congr fun i _ => by omega

/-- **A round that passes is encoded.** -/
theorem encode_of_keygenRound (h : keygenRound P (f, g) = some F) :
    ∃ kp, encodeKeys P f g F = .ok kp ∧ completeFromFg P (f, g) = some kp := by
  obtain ⟨hlimit, hnorm, hbnorm, hpub, hsolve⟩ := keygenRound_eq_some_iff.mp h
  have hfg := exceedsLimit_eq_false_iff.mp hlimit
  have hlim : fgLimit = 16 := rfl
  have hf : ∀ i < 1024, |f[i]!.toInt| ≤ 15 := fun i hi => by
    have hlt := (hfg i hi).1
    omega
  have hg : ∀ i < 1024, |g[i]!.toInt| ≤ 15 := fun i hi => by
    have hlt := (hfg i hi).2
    omega
  have hF : ∀ i < 1024, |F[i]!.toInt| ≤ 127 := P.solveNTRU_le f g solveLimit F hsolve
  obtain ⟨sk, hsk⟩ := Option.isSome_iff_exists.mp (encodePrivkey_isSome hf hg hF)
  obtain ⟨r, hr⟩ := Option.isSome_iff_exists.mp hpub
  have hlt : ∀ i < 1024, r[i]!.toNat < 12289 := fun i hi => by
    rw [← UInt16.toNat_toUInt32]
    exact ((isPublicOf_computePublicAt 0).rep r hr i hi).lt
  obtain ⟨pk, hpk⟩ := Option.isSome_iff_exists.mp (encodePubkey_isSome hlt)
  refine ⟨⟨pk, sk⟩, ?_, ?_⟩
  · rw [encodeKeys, hsk, computePublicAt_eq 1 0, hr]
    simp only [hpk]
  · simp only [completeFromFg, hlimit, hnorm, hbnorm, Bool.not_true, Bool.false_eq_true,
      if_false, computePublicAt_eq 2 0, hr, hsolve, hsk, hpk]

/-- **A round that does not pass is not completed.** -/
theorem completeFromFg_of_keygenRound_eq_none (h : keygenRound P (f, g) = none) :
    completeFromFg P (f, g) = none := by
  have hpub := computePublicAt_eq (P := P) (f := f) (g := g) 2 0
  rw [keygenRound] at h
  rw [completeFromFg]
  cases hlimit : exceedsLimit fgLimit f g with
  | true => rfl
  | false =>
      by_cases hnorm : normFg f g ≥ 16823
      · simp [hnorm]
      · cases hbnorm : P.bnormLt f g with
        | false => simp
        | true =>
            cases hr : computePublicAt P 0 f g with
            | none => simp [hpub, hr]
            | some r =>
                simp only [hlimit, hnorm, hbnorm, hr, Bool.not_true, Bool.false_eq_true,
                  if_false, Option.isNone_some] at h
                simp [hpub, hr, h]

end Completion

/-- Completion succeeds exactly on the rounds that pass. -/
theorem completeFromFg_isSome_iff {P : FalconPrimitives} {fg : SmallPoly × SmallPoly} :
    (completeFromFg P fg).isSome ↔ (keygenRound P fg).isSome := by
  obtain ⟨f, g⟩ := fg
  cases h : keygenRound P (f, g) with
  | none =>
      rw [completeFromFg_of_keygenRound_eq_none h]
      rfl
  | some F =>
      obtain ⟨kp, -, hkp⟩ := encode_of_keygenRound h
      rw [hkp]
      rfl

/-- The completion fails if the round of key generation does. -/
theorem completeFromFg_eq_none_iff {P : FalconPrimitives} {fg : SmallPoly × SmallPoly} :
    completeFromFg P fg = none ↔ keygenRound P fg = none := by
  rw [← Option.not_isSome_iff_eq_none, ← Option.not_isSome_iff_eq_none,
    completeFromFg_isSome_iff]

/-! ### The split -/

section Split

variable (fuel : ℕ) (seed : List UInt8)

/-- The stream of a seed, at the start of key generation. -/
def seedStream : ShakeContext := shakeInitPrngFromSeed processBlock seed

/-- The loop of `keygen` accepts at its attempt with index `n`. -/
def KeygenAcceptsAt (n : ℕ) : Prop :=
  EndsAt (sampleFg (getRngU64 processBlock) fuel) (keygenRound P) (seedStream seed) n

variable {P fuel seed}

/-- The split sampler draws the attempt with the number, from the stream of the seed. -/
theorem sampleFgNth_eq {n : ℕ} (hn : n < 2 ^ 31) :
    sampleFgNth fuel seed n.toUInt32 =
      (nthAttempt (sampleFg (getRngU64 processBlock) fuel) n (seedStream seed)).map Prod.fst := by
  have hval : n.toUInt32.toNat = n := by
    rw [Nat.toUInt32, UInt32.toNat_ofNat', Nat.mod_eq_of_lt (by omega)]
  have hne : n.toUInt32 ≠ 0xFFFFFFFF := by
    intro h
    have hlast : (0xFFFFFFFF : UInt32).toNat = 2 ^ 32 - 1 := rfl
    rw [← h, hval] at hlast
    omega
  rw [sampleFgNth, if_neg hne, hval, seedStream]

/-- The first attempt is `sample_fg`. -/
theorem sampleFgNth_zero : sampleFgNth fuel seed 0 = pqvSampleFg fuel seed :=
  sampleFgNth_eq (n := 0) (by norm_num)

/-- An attempt that completes, after attempts that do not, gives the key of the reference in
any run with enough attempts. -/
theorem keygenFromSeed_eq_ok {n : ℕ} {fg : SmallPoly × SmallPoly} {t : ShakeContext}
    {F : SmallPoly} {kp : Keypair}
    (hnth : nthAttempt (sampleFg (getRngU64 processBlock) fuel) n (seedStream seed) = some (fg, t))
    (hF : keygenRound P fg = some F) (hkp : completeFromFg P fg = some kp)
    (hbefore : ∀ m < n, ∃ fg t, nthAttempt (sampleFg (getRngU64 processBlock) fuel) m
      (seedStream seed) = some (fg, t) ∧ keygenRound P fg = none)
    {attempts : ℕ} (hn : n < attempts) :
    keygenFromSeed P fuel attempts seed = some (.ok kp) := by
  obtain ⟨f, g⟩ := fg
  obtain ⟨kp', hok, hkp'⟩ := encode_of_keygenRound hF
  obtain rfl : kp' = kp := Option.some.inj (hkp'.symm.trans hkp)
  have hkey : keygen P (getRngU64 processBlock) fuel attempts (seedStream seed) =
      some (((f, g), F), t) := retry_eq_some_iff.mpr ⟨n, hn, hnth, hF, hbefore⟩
  rw [keygenFromSeed, falconKeygenMake, ← seedStream, hkey]
  simp only [Option.map_some, hok]
  rfl

/-- More attempts do not change the key of the reference. -/
theorem keygenFromSeed_mono {attempts attempts' : ℕ} (hle : attempts ≤ attempts')
    {r : Except FalconError Keypair} (h : keygenFromSeed P fuel attempts seed = some r) :
    keygenFromSeed P fuel attempts' seed = some r := by
  rw [keygenFromSeed, falconKeygenMake, Option.map_map, Option.map_eq_some_iff] at h ⊢
  obtain ⟨key, hkey, hr⟩ := h
  exact ⟨key, retry_mono hle hkey, hr⟩

/-- **A first sample that completes** gives the key of the reference. -/
theorem keygenFromSeed_of_completeFromFg {fg : SmallPoly × SmallPoly} {kp : Keypair}
    (hfg : pqvSampleFg fuel seed = some fg) (hkp : completeFromFg P fg = some kp)
    {attempts : ℕ} (hpos : 0 < attempts) :
    keygenFromSeed P fuel attempts seed = some (.ok kp) := by
  rw [pqvSampleFg, Option.map_eq_some_iff] at hfg
  obtain ⟨⟨fg', t⟩, hnth, rfl⟩ := hfg
  obtain ⟨F, hF⟩ := Option.isSome_iff_exists.mp
    (completeFromFg_isSome_iff.mp (Option.isSome_iff_exists.mpr ⟨kp, hkp⟩))
  exact keygenFromSeed_eq_ok (n := 0) hnth hF hkp (fun m hm => absurd hm (Nat.not_lt_zero m)) hpos

end Split

/-- **The split key generation equals the reference loop.** The reference accepts at its
attempt with index `n` exactly when `n` is the least index whose sample completes; the key of
this completion is then the key that the reference returns, and no encoder fails. For the
first sample, completion decides whether the reference accepts it. -/
theorem split_keygen (P : FalconPrimitives) (fuel : ℕ) (seed : List UInt8) {n : ℕ}
    (hn : n < 2 ^ 31) :
    (KeygenAcceptsAt P fuel seed n ↔
      (∃ fg, sampleFgNth fuel seed n.toUInt32 = some fg ∧ (completeFromFg P fg).isSome) ∧
        ∀ m < n, ∃ fg, sampleFgNth fuel seed m.toUInt32 = some fg ∧
          completeFromFg P fg = none) ∧
    (KeygenAcceptsAt P fuel seed n → ∃ fg kp, sampleFgNth fuel seed n.toUInt32 = some fg ∧
      completeFromFg P fg = some kp ∧
        ∀ attempts > n, keygenFromSeed P fuel attempts seed = some (.ok kp)) ∧
    (∀ fg, pqvSampleFg fuel seed = some fg →
      (∀ kp, completeFromFg P fg = some kp →
        ∀ attempts > 0, keygenFromSeed P fuel attempts seed = some (.ok kp)) ∧
      (completeFromFg P fg = none →
        keygen P (getRngU64 processBlock) fuel 1 (seedStream seed) = none)) := by
  have hsample : ∀ m ≤ n, ∀ fg, sampleFgNth fuel seed m.toUInt32 = some fg ↔
      ∃ t, nthAttempt (sampleFg (getRngU64 processBlock) fuel) m (seedStream seed) =
        some (fg, t) := by
    intro m hm fg
    rw [sampleFgNth_eq (hm.trans_lt hn)]
    simp
  refine ⟨?_, fun h => ?_, fun fg hfg => ?_⟩
  · rw [KeygenAcceptsAt, endsAt_iff]
    refine and_congr ⟨?_, ?_⟩ (forall₂_congr fun m hm => ⟨?_, ?_⟩)
    · rintro ⟨fg, F, t, hnth, hF⟩
      exact ⟨fg, (hsample n le_rfl fg).mpr ⟨t, hnth⟩,
        completeFromFg_isSome_iff.mpr (by rw [hF]; rfl)⟩
    · rintro ⟨fg, hfg, hsome⟩
      obtain ⟨t, hnth⟩ := (hsample n le_rfl fg).mp hfg
      obtain ⟨F, hF⟩ := Option.isSome_iff_exists.mp (completeFromFg_isSome_iff.mp hsome)
      exact ⟨fg, F, t, hnth, hF⟩
    · rintro ⟨fg, t, hnth, hnone⟩
      exact ⟨fg, (hsample m hm.le fg).mpr ⟨t, hnth⟩, completeFromFg_eq_none_iff.mpr hnone⟩
    · rintro ⟨fg, hfg, hnone⟩
      obtain ⟨t, hnth⟩ := (hsample m hm.le fg).mp hfg
      exact ⟨fg, t, hnth, completeFromFg_eq_none_iff.mp hnone⟩
  · obtain ⟨⟨⟨f, g⟩, F, t, hnth, hF⟩, hbefore⟩ := endsAt_iff.mp h
    obtain ⟨kp, -, hkp⟩ := encode_of_keygenRound hF
    exact ⟨(f, g), kp, (hsample n le_rfl (f, g)).mpr ⟨t, hnth⟩, hkp,
      fun attempts hlt => keygenFromSeed_eq_ok hnth hF hkp hbefore hlt⟩
  · obtain ⟨t, hnth⟩ := (hsample 0 (Nat.zero_le n) fg).mp (sampleFgNth_zero.trans hfg)
    refine ⟨fun kp hkp attempts hpos => keygenFromSeed_of_completeFromFg hfg hkp hpos,
      fun hnone => ?_⟩
    · rw [nthAttempt] at hnth
      rw [keygen, retry, hnth]
      simp only [Option.bind_some, completeFromFg_eq_none_iff.mp hnone, retry]

end FalconVanity
