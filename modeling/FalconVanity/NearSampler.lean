import FalconVanity.GeneratedKeys
import FalconVanity.PointEvaluator
import FalconVanity.Sign

/-!
# A Sampler for the Sparse Key

The signer takes its sampler as a parameter. For the sparse key there is one that needs no
floating-point numbers: it rounds the hashed point to the lattice of the key by nearest planes.
The rounded point satisfies what is asked of a sampler, and it is so near that the signer keeps
it at the first attempt and that the coefficients fit in each of the formats.

## Main results

* `samplesLattice_near`: the sampler returns points of the lattice, in the range of the signer.
* `doSignDyn_near`: the signer keeps what it returns.
* `falconSignDynFinish_near`: a signer with this sampler returns a signature, in all formats.
-/

namespace FalconVanity

open Negacyclic NearPlane Finset

/-! ### The sampler -/

/-- The modulus is positive. -/
theorem pqQ_pos : 0 < pqQ := by norm_num

/-- The norm that the basis is divided by is positive. -/
theorem sparseGram_pos : 0 < sparseGram := by decide

/-- The basis of the lattice of the sparse key. -/
def sparseBasis : Basis 10 pqQ sparseGram where
  f := intCoeff sparseKey.f
  g := intCoeff sparseKey.g
  F := intCoeff sparseKey.F
  G := intCoeff sparseKey.G
  det := sparseKey_equation
  gram := sparseKey_gram
  q_pos := pqQ_pos
  m_pos := sparseGram_pos

/-- The coefficients of a hashed point, as integers. -/
def pointCoeff (hm : Poly16) (u : ℕ) : ℤ := hm[u]!.toNat

/-- The point of the lattice of the sparse key that nearest planes find for a hashed point. -/
def nearPoint (hm : Poly16) : RoundedPoint where
  t0 := Vector.ofFn fun u => Int64.ofInt (sparseBasis.first (pointCoeff hm) u.val)
  t1 := Vector.ofFn fun u => Int64.ofInt (-sparseBasis.second (pointCoeff hm) u.val)

/-- The sampler that returns this point for every state of the stream. -/
def nearSampler (_ : PrivatePolys) (hm : Poly16) (rng : ShakeContext) :
    RoundedPoint × ShakeContext := (nearPoint hm, rng)

section Near

variable (hm : Poly16)

/-- **The length of the difference** between a hashed point and the rounded one. -/
theorem near_sq_le :
    ∑ u ∈ range 1024, (pointCoeff hm u - sparseBasis.first (pointCoeff hm) u) ^ 2 +
      ∑ u ∈ range 1024, sparseBasis.second (pointCoeff hm) u ^ 2 ≤ 6367654 := by
  have hle := sparseBasis.sum_sq_le (pointCoeff hm)
  have hsize : 2 ^ 10 = 1024 := rfl
  have hm' : ((sparseGram : ℕ) : ℤ) = 10525 := rfl
  rw [hsize, hm'] at hle
  norm_num at hle
  omega

/-- The first half of the near point is less than 2524 away from the hashed point, in each
coefficient. -/
theorem abs_near_first_lt {u : ℕ} (hu : u < 1024) :
    |pointCoeff hm u - sparseBasis.first (pointCoeff hm) u| < 2524 := by
  have hterm := single_le_sum (f := fun u =>
    (pointCoeff hm u - sparseBasis.first (pointCoeff hm) u) ^ 2) (fun _ _ => sq_nonneg _)
    (mem_range.mpr hu)
  have hrest : 0 ≤ ∑ u ∈ range 1024, sparseBasis.second (pointCoeff hm) u ^ 2 :=
    sum_nonneg fun _ _ => sq_nonneg _
  have hle := near_sq_le hm
  refine abs_lt_of_sq_lt_sq ?_ (by norm_num)
  linarith

/-- The absolute values of the coefficients of a sparse polynomial add up to those of its list. -/
theorem sum_abs_sparsePoly (c : List Int8) :
    ∑ l ∈ range 1024, |intCoeff (sparsePoly c) l| = ∑ j ∈ range 32, |listCoeff c j| := by
  have hspread : ∑ l ∈ range 1024, |intCoeff (sparsePoly c) l| =
      ∑ l ∈ range (32 * 32), |spread 32 (listCoeff c) l| :=
    sum_congr rfl fun l hl => by rw [intCoeff_sparsePoly c (mem_range.mp hl)]
  rw [hspread, sum_range_of_dvd (by norm_num) fun l hl => by rw [spread_of_mod_ne _ hl, abs_zero]]
  exact sum_congr rfl fun j _ => by rw [spread_mul (by norm_num)]

/-- The second half of the difference is small in every coefficient. -/
theorem abs_near_second_le {u : ℕ} (hu : u < 1024) :
    |sparseBasis.second (pointCoeff hm) u| ≤ 392 := by
  have hle := sparseBasis.abs_second_le (pointCoeff hm) hu
  have hf : ∑ i ∈ range (2 ^ 10), |sparseBasis.f i| = 363 :=
    (sum_abs_sparsePoly sparseF).trans (by decide)
  have hg : ∑ i ∈ range (2 ^ 10), |sparseBasis.g i| = 362 :=
    (sum_abs_sparsePoly sparseG).trans (by decide)
  have hm' : ((sparseGram : ℕ) : ℤ) = 10525 := rfl
  rw [hf, hg, hm'] at hle
  norm_num at hle
  omega

/-- The first half of the rounded result, as integers: there is no overflow. -/
theorem toInt_nearPoint_t0 {u : ℕ} (hu : u < 1024) :
    (nearPoint hm).t0[u]!.toInt = sparseBasis.first (pointCoeff hm) u := by
  have hlt := hm[u]!.toNat_lt
  have hnear := abs_lt.mp (abs_near_first_lt hm hu)
  rw [nearPoint, getElem!_pos _ u hu, Vector.getElem_ofFn]
  rw [pointCoeff] at hnear
  dsimp only
  refine Int64.toInt_ofInt_of_le ?_ ?_ <;> omega

/-- The second half of the rounded result, as integers. -/
theorem toInt_nearPoint_t1 {u : ℕ} (hu : u < 1024) :
    (nearPoint hm).t1[u]!.toInt = -sparseBasis.second (pointCoeff hm) u := by
  have hsmall := abs_le.mp (abs_near_second_le hm hu)
  rw [nearPoint, getElem!_pos _ u hu, Vector.getElem_ofFn]
  dsimp only
  refine Int64.toInt_ofInt_of_le ?_ ?_ <;> omega

/-- The rounded result stays within the range in which the signer computes. -/
theorem fits_nearPoint : (nearPoint hm).Fits hm := by
  refine ⟨fun u hu => ?_, fun u hu => ?_⟩
  · have hnear := (abs_near_first_lt hm hu).le
    rw [toInt_nearPoint_t0 hm hu]
    exact hnear.trans (by norm_num)
  · rw [toInt_nearPoint_t1 hm hu, abs_neg]
    exact (abs_near_second_le hm hu).trans (by norm_num)

/-- The rounded result is a point of the lattice of the key. -/
theorem inLattice_nearPoint : (nearPoint hm).InLattice sparseKey := by
  refine ⟨coeffElem 10 (sparseBasis.inner (pointCoeff hm)),
    coeffElem 10 (sparseBasis.outer (pointCoeff hm)), ?_, ?_⟩
  · rw [roundedElem, coeffElem_congr fun l hl => toInt_nearPoint_t0 hm hl]
    exact sparseBasis.coeffElem_first (pointCoeff hm)
  · rw [roundedElem, coeffElem_congr fun l hl => toInt_nearPoint_t1 hm hl, ← coeffElem_neg]
    exact congrArg _ (sparseBasis.coeffElem_second (pointCoeff hm))

end Near

/-- **The sampler does what is asked of it**, for the sparse key. -/
theorem samplesLattice_near : SamplesLattice nearSampler sparseKey :=
  ⟨fun hm _ _ => fits_nearPoint hm, fun hm _ _ => inLattice_nearPoint hm⟩

/-! ### What the signer keeps -/

/-- The second half of the difference, as the signer stores it. -/
def nearHalf (hm : Poly16) : PolyS16 :=
  Vector.ofFn fun u => Int16.ofInt (sparseBasis.second (pointCoeff hm) u.val)

section Kept

variable (hm : Poly16)

/-- The half that is encoded, as integers. -/
theorem toInt_nearHalf {u : ℕ} (hu : u < 1024) :
    (nearHalf hm)[u]!.toInt = sparseBasis.second (pointCoeff hm) u := by
  have hsmall := abs_le.mp (abs_near_second_le hm hu)
  rw [nearHalf, getElem!_pos _ u hu, Vector.getElem_ofFn]
  dsimp only
  refine Int16.toInt_ofInt_of_le ?_ ?_ <;> omega

/-- The two halves of the difference, in the units of the norm test. -/
theorem near_norm_le :
    ∑ u ∈ range 1024, (firstHalf hm (nearPoint hm) u).natAbs ^ 2 + normSq (nearHalf hm) ≤
      6367654 := by
  have hle := near_sq_le hm
  have hfirst : ∑ u ∈ range 1024, (pointCoeff hm u - sparseBasis.first (pointCoeff hm) u) ^ 2 =
      ((∑ u ∈ range 1024, (firstHalf hm (nearPoint hm) u).natAbs ^ 2 : ℕ) : ℤ) := by
    rw [Nat.cast_sum]
    refine sum_congr rfl fun u hu => ?_
    rw [Nat.cast_pow, Int.natCast_natAbs, sq_abs, firstHalf,
      toInt_nearPoint_t0 hm (mem_range.mp hu), pointCoeff]
  have hsecond : ∑ u ∈ range 1024, sparseBasis.second (pointCoeff hm) u ^ 2 =
      ((normSq (nearHalf hm) : ℕ) : ℤ) := by
    rw [normSq, Nat.cast_sum]
    refine sum_congr rfl fun u hu => ?_
    rw [Nat.cast_pow, Int.natCast_natAbs, sq_abs, toInt_nearHalf hm (mem_range.mp hu)]
  rw [hfirst, hsecond] at hle
  omega

/-- **The signer keeps the rounded point.** -/
theorem doSignDyn_near : doSignDyn hm (nearPoint hm) = some (nearHalf hm) := by
  refine (doSignDyn_eq_some_iff (fits_nearPoint hm)).mpr ⟨fun u hu => ?_, ?_⟩
  · rw [toInt_nearHalf hm hu, toInt_nearPoint_t1 hm hu, neg_neg]
  · exact (near_norm_le hm).trans (by norm_num)

/-- What the signer keeps is in the range of the formats. -/
theorem compRange_nearHalf : ∀ c ∈ (nearHalf hm).toList, CompRange c := by
  intro c hc
  obtain ⟨u, hu, rfl⟩ := List.getElem_of_mem hc
  rw [Vector.length_toList] at hu
  have hentry := toInt_nearHalf hm hu
  rw [getElem!_pos _ u hu] at hentry
  rw [CompRange, Vector.getElem_toList, hentry]
  exact (abs_near_second_le hm hu).trans (by norm_num)

/-- A squared norm is a sum over the list. -/
theorem normSq_eq_sum (s : PolyS16) :
    (s.toList.map fun z => z.toInt.natAbs ^ 2).sum = normSq s := by
  have hlist : s.toList = List.ofFn fun u : Fin 1024 => s[u.val]! := by
    refine List.ext_getElem (by rw [Vector.length_toList, List.length_ofFn]) fun u hu _ => ?_
    rw [Vector.length_toList] at hu
    rw [Vector.getElem_toList, List.getElem_ofFn, getElem!_pos s u hu]
  rw [normSq, sum_range, hlist, List.map_ofFn, List.sum_ofFn]
  rfl

/-- The compressed half is not long. -/
theorem exists_compEncode_near {m : ℕ} (hm' : 1201 ≤ m) :
    ∃ bytes, compEncode m (nearHalf hm) = some bytes := by
  have hbits := length_flatMap_compCode_le (nearHalf hm).toList
  have hnorm := near_norm_le hm
  rw [normSq_eq_sum, Vector.length_toList] at hbits
  exact exists_compEncode (compRange_nearHalf hm) (by omega)

end Kept

/-! ### Signatures -/

section Signed

variable {perm : Lanes → Lanes} {key : SigningKey} {fuel : ℕ} {tmp : SignScratch}
  {rng hd : ShakeContext} {sigLen : ℕ} {sigType : SigType} {nonce : List UInt8}

/-- There is room for what the signer keeps, in all formats. -/
theorem exists_signPayload_near (hm : Poly16) (hroom : 1280 ≤ sigLen ∧
      (sigType = .compressed ∨ sigType = .padded ∨ sigType = .ct ∧ 1577 ≤ sigLen)) :
    ∃ es, signPayload sigType sigLen (nearHalf hm) = some es := by
  have hpadded : falconSigPaddedSize 10 = 1280 := rfl
  have hbits : maxSigBits.getD 10 0 = 12 := rfl
  obtain ⟨hle, rfl | rfl | ⟨rfl, hct⟩⟩ := hroom
  · rw [signPayload]
    exact exists_compEncode_near hm (by omega)
  · obtain ⟨es, hes⟩ := exists_compEncode_near hm (m := 1280 - 41) (by norm_num)
    rw [signPayload, hpadded, hes]
    exact ⟨_, rfl⟩
  · obtain ⟨es, hes, -⟩ := exists_trimI16Encode (m := sigLen - 41) (by omega)
      (compRange_nearHalf hm)
    rw [signPayload, hbits, hes]
    exact ⟨_, rfl⟩

/-- **A signature is returned** at the first attempt, in every format with enough room, when the
samples of the hash are enough. -/
theorem falconSignDynFinish_near (hfuel : 1311 ≤ fuel)
    (hroom : 1280 ≤ sigLen ∧
      (sigType = .compressed ∨ sigType = .padded ∨ sigType = .ct ∧ 1577 ≤ sigLen))
    (henough : 1024 ≤ (residues (extractU16 perm) 1311 (shakeFlip hd)).length) :
    ∃ sig, falconSignDynFinish perm nearSampler fuel 1 tmp rng sigLen sigType key.privateKey hd
      nonce = some (.ok sig) := by
  obtain ⟨hm, hpoint⟩ : ∃ hm, messagePoint perm fuel (sigType = .ct) (shakeFlip hd) tmp.samples =
      some hm := exists_messagePoint hfuel henough
  obtain ⟨es, hes⟩ := exists_signPayload_near hm hroom
  have hchecks : signChecks key.privateKey.toList sigType sigLen = .ok () := by
    refine (signChecks_eq_ok_iff key.logn).mpr ⟨by omega, ?_⟩
    obtain ⟨hle, htype | htype | ⟨htype, hct⟩⟩ := hroom
    · exact .inl htype
    · exact .inr (.inl ⟨htype, hle⟩)
    · exact .inr (.inr ⟨htype, hct⟩)
  exact ⟨_, falconSignDynFinish_of_kept hchecks hpoint (doSignDyn_near hm) hes⟩

end Signed

/-- The sparse key signs. -/
theorem exists_sparse_signingKey : ∃ key : SigningKey, key.polys = sparseKey := by
  obtain ⟨kp, hkp⟩ := exists_sparse_keypair
  exact ⟨⟨kp, sparseKey, hkp⟩, rfl⟩

/-- **A compressed signature of the sparse key**, for the empty message: the encodings of its
halves, and the equation that they solve. -/
theorem exists_sparse_solution : ∃ (key : SigningKey) (h : Poly16) (s2 : PolyS16)
    (bytes : List UInt8) (c : Poly16) (sc : ShakeContext), key.polys = sparseKey ∧
      devModqEncode h = key.publicKey.toList ∧ ReducedPoly h ∧ compEncode 1421 s2 = some bytes ∧
        hashToPointVartime (extractU16 processBlock) 1311 (saltedContext processBlock 0 []) =
          some (c, sc) ∧ Solves (wordElem c) (wordElem h) s2 := by
  obtain ⟨key, hpolys⟩ := exists_sparse_signingKey
  obtain ⟨h, hhead, hdecode, -, hsolves⟩ := key.solves
  obtain ⟨hkey, hred⟩ := decodePubkey_eq_some_iff.mp ⟨hhead, hdecode⟩
  let S : Samples := ⟨Vector.replicate 1024 0, Vector.replicate 1024 0, Vector.replicate 63 0⟩
  obtain ⟨sc, hpoint⟩ := hashToPointVartime_eq_some.mpr
    ⟨1311, le_rfl, enoughSamples_empty, toList_hashToPointCt S enoughSamples_empty⟩
  obtain ⟨bytes, hbytes⟩ := exists_compEncode_near (hashToPointCt (extractU16 processBlock)
    (saltedContext processBlock 0 []) S).1 (m := 1421) (by norm_num)
  exact ⟨key, h, _, bytes, _, sc, hpolys, hkey, hred, hbytes, hpoint,
    hsolves (fits_nearPoint _) (hpolys ▸ inLattice_nearPoint _) (doSignDyn_near _)⟩

end FalconVanity
