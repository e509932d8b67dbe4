import FalconVanity.PrivateKey
import FalconVanity.Verify

/-!
# Signing

The signer loads the private key, hashes the message to a point, samples a point of the lattice of
the key near it, and keeps the difference when it is short. The sampler works with floating-point
numbers and is a parameter; what follows it, from the rounding of its result on, is not: the norm
in saturated arithmetic, the choice to try again, and the encoding in one of three formats, one of
which tries again when the encoding is too long.

The signer measures the vector that it sampled, and the verifier the shortest one that it
recomputes from half of it. Signatures are accepted because the first is a solution of the
equation that the second solves, as long as the rounded point is in the lattice.

All loops take their attempts as fuel.

## Main results

* `doSignDyn_eq_some_iff`: which vectors the signer keeps.
* `falconVerifyFinish_of_sign`: what is returned is accepted, in all formats.
-/

namespace FalconVanity

open Negacyclic Logged Draws Finset

/-! ### The functions of the reference -/

/-- The sampled point of the lattice, rounded: what `fpr_rint` returns for `t0` and `t1`. The
sampler over floating-point numbers is a parameter of the signer, and this is its result. -/
structure RoundedPoint where
  t0 : Vector Int64 1024
  t1 : Vector Int64 1024

/-- The coefficient `z` of the first half of the vector. -/
def signedDiff (hm : Poly16) (t0 : Vector Int64 1024) (u : ℕ) : Int32 :=
  hm[u]!.toUInt32.toInt32 - t0[u]!.toInt32

/-- The body of the loop of `do_sign_dyn` that computes the norm. -/
def signNormStep (hm : Poly16) (t0 : Vector Int64 1024) (st : UInt32 × UInt32) (u : ℕ) :
    UInt32 × UInt32 :=
  let (sqn, ng) := st
  let z := signedDiff hm t0 u
  let sqn := sqn + (z * z).toUInt32
  let ng := ng ||| sqn
  (sqn, ng)

/-- The norm of the first half, saturated. -/
def signNorm (hm : Poly16) (t0 : Vector Int64 1024) : UInt32 :=
  let (sqn, ng) := (List.range 1024).foldl (signNormStep hm t0) (0, 0)
  sqn ||| ((0 : UInt32) - (ng >>> 31))

/-- The part of `do_sign_dyn` after the sampling: the second half, or `none` for the return value
0. -/
def doSignDyn (hm : Poly16) (r : RoundedPoint) : Option PolyS16 :=
  let sqn := signNorm hm r.t0
  let s2tmp : PolyS16 := r.t1.map fun x => (-x).toInt16
  if isShortHalf sqn s2tmp then some s2tmp else none

/-- The checks of `falcon_sign_dyn_finish` before the key is decoded, for a buffer of `sigLen`
bytes. -/
def signChecks (sk : List UInt8) (sigType : SigType) (sigLen : ℕ) : Except ℤ Unit :=
  match privkeyLogn sk with
  | none => .error falconErrFormat
  | some logn =>
    if sigLen < 41 then .error falconErrSize
    else
      match sigType with
      | .compressed => .ok ()
      | .padded => if sigLen < falconSigPaddedSize logn then .error falconErrSize else .ok ()
      | .ct => if sigLen < falconSigCtSize logn then .error falconErrSize else .ok ()
      | .unspecified | .other => .error falconErrBadarg

/-- The encoded half in a signature, for `logn = 10`: `none` for the return value 0 of the
encoder. -/
def signPayload (sigType : SigType) (sigLen : ℕ) (sv : PolyS16) : Option (List UInt8) :=
  match sigType with
  | .compressed => compEncode (sigLen - 41) sv
  | .padded =>
    let tu := falconSigPaddedSize 10
    (compEncode (tu - 41) sv).map fun es => es ++ List.replicate (tu - (41 + es.length)) 0
  | .ct => (trimI16Encode (sigLen - 41) sv (maxSigBits.getD 10 0)).map Prod.snd
  | .unspecified | .other => none

/-- The first byte of a signature. -/
def signHeader (sigType : SigType) : UInt8 :=
  if sigType = .ct then 0x50 + 10 else 0x30 + 10

/-- The end of the loop of `falcon_sign_dyn_finish`: `none` for `continue`. -/
def signEncode (sigType : SigType) (sigLen : ℕ) (nonce : List UInt8) (sv : PolyS16) :
    Option (Except ℤ (List UInt8)) :=
  match signPayload sigType sigLen sv with
  | some es => some (.ok (signHeader sigType :: (nonce ++ es)))
  | none => if sigType = .padded then none else some (.error falconErrSize)

/-- What a call of the signer finds in its scratch memory. -/
structure SignScratch where
  load : LoadScratch
  samples : Samples

section Signer

variable (perm : Lanes → Lanes)
  (sample : PrivatePolys → Poly16 → ShakeContext → RoundedPoint × ShakeContext)

/-- `sign_dyn`, with the sampler that `prng_init` seeds. -/
def signDyn (attempts : ℕ) (K : PrivatePolys) (hm : Poly16) (rng : ShakeContext) :
    Option (PolyS16 × ShakeContext) :=
  (retry (fun rng => some (sample K hm rng)) (doSignDyn hm) attempts rng).map
    fun ((_, sv), rng) => (sv, rng)

/-- An attempt of the loop of `falcon_sign_dyn_finish`. -/
def signAttempt (fuel attempts : ℕ) (S : Samples) (sigType : SigType) (K : PrivatePolys)
    (hashData : ShakeContext) (rng : ShakeContext) : Option (PolyS16 × ShakeContext) :=
  (messagePoint perm fuel (sigType = .ct) hashData S).bind fun hm =>
    signDyn sample attempts K hm rng

/-- `falcon_sign_dyn_finish`, for a private key of the length of the degree 1024: the bytes
written, of which the length is stored in `sig_len`. -/
def falconSignDynFinish (fuel attempts : ℕ) (tmp : SignScratch) (rng : ShakeContext)
    (sigLen : ℕ) (sigType : SigType) (privkey : Vector UInt8 privkeySize)
    (hashData : ShakeContext) (nonce : List UInt8) : Option (Except ℤ (List UInt8)) :=
  match signChecks privkey.toList sigType sigLen with
  | .error e => some (.error e)
  | .ok () =>
    (loadPrivkey privkey tmp.load).elim (some (.error falconErrFormat)) fun K =>
      (retry (signAttempt perm sample fuel attempts tmp.samples sigType K (shakeFlip hashData))
        (signEncode sigType sigLen nonce) attempts rng).map fun ((_, r), _) => r

/-- `falcon_sign_start`: the nonce, the context of the message, and the stream. -/
def falconSignStart (rng : ShakeContext) : List UInt8 × ShakeContext × ShakeContext :=
  let (nonce, rng) := shakeExtract perm rng 40
  (nonce, shakeInject perm shakeInit nonce, rng)

/-- `falcon_sign_dyn`: a nonce is drawn, the message is hashed after it, and the hash is signed. -/
def falconSignDyn (fuel attempts : ℕ) (tmp : SignScratch) (rng : ShakeContext) (sigLen : ℕ)
    (sigType : SigType) (privkey : Vector UInt8 privkeySize) (data : List UInt8) :
    Option (Except ℤ (List UInt8)) :=
  let (nonce, hd, rng) := falconSignStart perm rng
  falconSignDynFinish perm sample fuel attempts tmp rng sigLen sigType privkey
    (shakeInject perm hd data) nonce

/-- `falcon_get_logn`: the degree that the low half of the first byte names, or an error. -/
def falconGetLogn (obj : List UInt8) : ℤ :=
  match obj with
  | [] => falconErrFormat
  | b :: _ =>
    let logn := (b &&& 0x0F).toNat
    if logn < 1 ∨ logn > 10 then falconErrFormat else logn

/-- The end of `falcon_det1024_sign_compressed`: the salt is left out. -/
def unsalt (salted : List UInt8) : List UInt8 :=
  (salted.getD 0 0 ||| 0x80) :: 0 :: salted.drop 41

/-- `falcon_det1024_sign_compressed`, with `FALCON_DET1024_CURRENT_SALT_VERSION` 0. -/
def signCompressed (fuel attempts : ℕ) (tmp : SignScratch)
    (privkey : Vector UInt8 privkeySize) (data : List UInt8) :
    Option (Except ℤ (List UInt8)) :=
  if falconGetLogn privkey.toList ≠ 10 then some (.error falconErrFormat)
  else
    let detrng := shakeInject perm shakeInit [10]
    let detrng := shakeInject perm detrng privkey.toList
    let detrng := shakeFlip (shakeInject perm detrng data)
    let salt := writeSalt 0
    let hd := shakeInject perm (shakeInject perm shakeInit salt) data
    (falconSignDynFinish perm sample fuel attempts tmp detrng (falconSigCompressedMaxsize 10)
      .compressed privkey hd salt).map fun r => r.map unsalt

/-- `Keypair::sign`: the compressed deterministic signature of a message. -/
def Keypair.sign (fuel attempts : ℕ) (tmp : SignScratch) (kp : Keypair) (msg : List UInt8) :
    Option (Except FalconError (List UInt8)) :=
  (signCompressed perm sample fuel attempts tmp kp.privateKey msg).map
    fun r => r.mapError FalconError.sign

end Signer

/-- `verify_with_pubkey`: the verification with a public key only. A code other than zero is an
error. -/
def verifyWithPubkey (perm : Lanes → Lanes) (fuel : ℕ) (tmp : VerifyScratch)
    (publicKey : Vector UInt8 pubkeySize) (msg sig : List UInt8) :
    Option (Except FalconError Unit) :=
  (verifyCompressed perm fuel tmp sig publicKey msg).map fun rc =>
    if rc ≠ 0 then .error (.verify rc) else .ok ()

/-- `Keypair::verify`: the verification with the public key of the pair. -/
def Keypair.verify (perm : Lanes → Lanes) (fuel : ℕ) (tmp : VerifyScratch) (kp : Keypair)
    (msg sig : List UInt8) : Option (Except FalconError Unit) :=
  verifyWithPubkey perm fuel tmp kp.publicKey msg sig

/-! ### The norm -/

section Norm

variable {hm : Poly16} {r : RoundedPoint} {s2 : PolyS16}

/-- The rounded point stays in the range in which the signer computes without overflow. The squares
of the first differences fit in 31 bits, and the second half in 16 bits. -/
structure RoundedPoint.Fits (hm : Poly16) (r : RoundedPoint) : Prop where
  first : ∀ u < 1024, |(hm[u]!.toNat : ℤ) - r.t0[u]!.toInt| ≤ 46340
  second : ∀ u < 1024, |r.t1[u]!.toInt| ≤ 32767

/-- The first half of the vector, over the integers. -/
def firstHalf (hm : Poly16) (r : RoundedPoint) (u : ℕ) : ℤ := (hm[u]!.toNat : ℤ) - r.t0[u]!.toInt

/-- A coefficient of the first half does not overflow. -/
theorem toInt_signedDiff (hr : r.Fits hm) {u : ℕ} (hu : u < 1024) :
    (signedDiff hm r.t0 u).toInt = firstHalf hm r u := by
  have hle := abs_le.mp (hr.first u hu)
  have hlt := hm[u]!.toNat_lt
  have hpoint : hm[u]!.toUInt32.toInt32.toInt = hm[u]!.toNat := by
    rw [Words.UInt32.toInt_toInt32, UInt16.toNat_toUInt32, if_pos (by omega)]
  have ht : r.t0[u]!.toInt32.toInt = r.t0[u]!.toInt := by
    rw [Int64.toInt_toInt32]
    exact Int.bmod_eq_of_le (by omega) (by omega)
  rw [signedDiff, Int32.toInt_sub, hpoint, ht]
  exact Int.bmod_eq_of_le (by omega) (by omega)

/-- The norm that the signer accumulates. -/
theorem tracks_signNorm (hr : r.Fits hm) {n : ℕ} (hn : n ≤ 1024) :
    Saturating.Tracks (∑ u ∈ range n, (firstHalf hm r u).natAbs ^ 2)
      ((List.range n).foldl (signNormStep hm r.t0) (0, 0)) := by
  induction n with
  | zero => exact Saturating.tracks_zero
  | succ n ih =>
      have hz := toInt_signedDiff hr (u := n) (by omega)
      have hle : (signedDiff hm r.t0 n).toInt.natAbs ≤ 46340 := by
        have hrange := abs_le.mp (hr.first n (by omega))
        rw [hz, firstHalf]
        omega
      obtain ⟨hsquare, hlt⟩ := toNat_mul_self hle
      rw [List.range_succ, List.foldl_append, sum_range_succ, ← hz, ← hsquare]
      exact (ih (by omega)).add (by omega)

/-- **The vectors that the signer keeps**: the second half is negated and stored, and the whole
vector is within the bound. -/
theorem doSignDyn_eq_some_iff (hr : r.Fits hm) :
    doSignDyn hm r = some s2 ↔ (∀ u < 1024, s2[u]!.toInt = -r.t1[u]!.toInt) ∧
      ∑ u ∈ range 1024, (firstHalf hm r u).natAbs ^ 2 + normSq s2 ≤ 70265242 := by
  have hsecond : ∀ u < 1024,
      (r.t1.map fun x : Int64 => (-x).toInt16)[u]!.toInt = -r.t1[u]!.toInt := by
    intro u hu
    have hle := abs_le.mp (hr.second u hu)
    have hneg : (-r.t1[u]!).toInt = -r.t1[u]!.toInt := by
      rw [Int64.toInt_neg]
      exact Int.bmod_eq_of_le (by omega) (by omega)
    rw [getElem!_pos _ u hu, Vector.getElem_map, ← getElem!_pos r.t1 u hu, Int64.toInt_toInt16,
      hneg]
    exact Int.bmod_eq_of_le (by omega) (by omega)
  have hentries : (∀ u < 1024, s2[u]!.toInt = -r.t1[u]!.toInt) ↔
      (r.t1.map fun x : Int64 => (-x).toInt16) = s2 := by
    constructor
    · intro h
      refine Vector.ext fun u hu => ?_
      have hu' := (hsecond u hu).trans (h u hu).symm
      rw [getElem!_pos _ u hu, getElem!_pos s2 u hu] at hu'
      exact Int16.toInt_inj.mp hu'
    · rintro rfl
      exact hsecond
  -- A saturated norm is over the bound.
  have hnorm : ∀ n, (signNorm hm r.t0).toNat + n ≤ 70265242 ↔
      ∑ u ∈ range 1024, (firstHalf hm r u).natAbs ^ 2 + n ≤ 70265242 := by
    intro n
    have hresult := (tracks_signNorm hr le_rfl).result_eq
    rw [signNorm]
    generalize (List.range 1024).foldl (signNormStep hm r.t0) (0, 0) = st at hresult ⊢
    obtain ⟨sqn, ng⟩ := st
    change (Saturating.result (sqn, ng)).toNat + n ≤ _ ↔ _
    omega
  rw [hentries, doSignDyn]
  by_cases hshort : isShortHalf (signNorm hm r.t0) (r.t1.map fun x : Int64 => (-x).toInt16) = true
  · rw [if_pos hshort, Option.some_inj]
    refine (and_iff_left_of_imp ?_).symm
    rintro rfl
    exact (hnorm _).mp (isShortHalf_iff.mp hshort)
  · rw [if_neg hshort]
    refine iff_of_false (fun h => Option.some_ne_none _ h.symm) ?_
    rintro ⟨rfl, hle⟩
    exact hshort (isShortHalf_iff.mpr ((hnorm _).mpr hle))

end Norm

/-! ### The lattice -/

section Lattice

variable {K : PrivatePolys} {hm h : Poly16} {r : RoundedPoint} {s2 : PolyS16}

/-- The coefficients of a rounded half. -/
noncomputable def roundedElem (t : Vector Int64 1024) : Rz := coeffElem 10 fun l => t[l]!.toInt

/-- **The lattice of a key**: the rows `(g, -f)` and `(G, -F)` span it. -/
def RoundedPoint.InLattice (K : PrivatePolys) (r : RoundedPoint) : Prop :=
  ∃ x0 x1 : Rz, roundedElem r.t0 = x0 * intElem K.g + x1 * intElem K.G ∧
    roundedElem r.t1 = -(x0 * intElem K.f + x1 * intElem K.F)

/-- Modulo `q`, the lattice is the set of solutions of `t0 + t1 * h = 0`. -/
theorem RoundedPoint.InLattice.modq {z : Rq} (hr : r.InLattice K) (hunit : IsUnit (smallElem K.f))
    (hK : smallElem K.f * smallElem K.G = smallElem K.g * smallElem K.F)
    (hz : z * smallElem K.f = smallElem K.g) :
    (coeffElem 10 fun l => (r.t0[l]!.toInt : ZMod pqQ)) +
      (coeffElem 10 fun l => (r.t1[l]!.toInt : ZMod pqQ)) * z = 0 := by
  obtain ⟨x0, x1, h0, h1⟩ := hr
  let φ := mapCoeffs (Int.castRingHom (ZMod pqQ)) 10
  have hsmall : ∀ f : SmallPoly, φ (intElem f) = smallElem f := fun f => by
    rw [intElem, mapCoeffs_coeffElem]
    rfl
  have hround : ∀ t : Vector Int64 1024, φ (roundedElem t) =
      coeffElem 10 fun l => (t[l]!.toInt : ZMod pqQ) := fun t => by
    rw [roundedElem, mapCoeffs_coeffElem]
    rfl
  have h0' := congrArg φ h0
  have h1' := congrArg φ h1
  rw [hround, map_add, map_mul, map_mul, hsmall, hsmall] at h0'
  rw [hround, map_neg, map_add, map_mul, map_mul, hsmall, hsmall] at h1'
  -- The polynomial `G` is `F * h`, since `f` is invertible.
  have hG : smallElem K.G = smallElem K.F * z := by
    refine hunit.mul_left_cancel ?_
    rw [hK, ← hz]
    ring
  rw [h0', h1', hG, ← hz]
  ring

/-- **What the signer keeps solves the equation** that the verifier decides. -/
theorem solves_of_doSignDyn (hfits : r.Fits hm) (hr : r.InLattice K)
    (hunit : IsUnit (smallElem K.f))
    (hK : smallElem K.f * smallElem K.G = smallElem K.g * smallElem K.F)
    (hh : wordElem h * smallElem K.f = smallElem K.g) (hs2 : doSignDyn hm r = some s2) :
    Solves (wordElem hm) (wordElem h) s2 := by
  obtain ⟨hneg, hle⟩ := (doSignDyn_eq_some_iff hfits).mp hs2
  refine ⟨firstHalf hm r, ?_, hle⟩
  have hfirst : (coeffElem 10 fun l => (firstHalf hm r l : ZMod pqQ)) =
      wordElem hm - coeffElem 10 fun l => (r.t0[l]!.toInt : ZMod pqQ) := by
    rw [wordElem, coeffElem_sub]
    refine coeffElem_congr fun l _ => ?_
    rw [firstHalf, Int.cast_sub, Int.cast_natCast]
  have hsecond : signedElem s2 = -coeffElem 10 fun l => (r.t1[l]!.toInt : ZMod pqQ) := by
    rw [signedElem, coeffElem_neg]
    refine coeffElem_congr fun l hl => ?_
    rw [signedCoeff, hneg l hl, Int.cast_neg]
  rw [hfirst, hsecond]
  linear_combination -hr.modq hunit hK hh

end Lattice

/-! ### The bytes -/

section Bytes

variable {sigType : SigType} {sigLen : ℕ} {sv : PolyS16} {es nonce : List UInt8}

/-- An encoding fits in its own length. -/
theorem compEncode_length {m : ℕ} (h : compEncode m sv = some es) :
    es.length ≤ m ∧ compEncode es.length sv = some es := by
  obtain ⟨hrange, hle, hbits⟩ := compEncode_eq_some_iff.mp h
  exact ⟨hle, compEncode_eq_some_iff.mpr ⟨hrange, le_rfl, hbits⟩⟩

/-- What follows the nonce. -/
theorem drop_signed (hnonce : nonce.length = 40) (b : UInt8) :
    (b :: (nonce ++ es)).drop 41 = es := by
  rw [List.drop_succ_cons]
  exact List.drop_left' hnonce

theorem length_signed (hnonce : nonce.length = 40) (b : UInt8) (es : List UInt8) :
    (b :: (nonce ++ es)).length = 41 + es.length := by
  rw [List.length_cons, List.length_append, hnonce]
  omega

/-- A padded encoding is decoded, and the padding is skipped. -/
theorem decodeSig_padded (hnonce : nonce.length = 40) (b : UInt8) {m n : ℕ}
    (hes : compEncode m sv = some es) :
    decodeSig (b :: (nonce ++ (es ++ List.replicate n 0))) .padded false = some sv := by
  have hdec : compDecode (es ++ List.replicate n 0) = some (es.length, sv) := by
    refine compDecode_eq_some_iff.mpr ⟨?_, ?_⟩
    · rw [List.length_append]
      exact Nat.le_add_right _ _
    · rw [List.take_left]
      exact (compEncode_length hes).2
  have hrest : (b :: (nonce ++ (es ++ List.replicate n 0))).drop (41 + es.length) =
      List.replicate n 0 := by
    rw [← List.drop_drop, drop_signed hnonce, List.drop_left]
  have hzeros : (List.replicate n (0 : UInt8)).any (· ≠ 0) = false := by
    rw [List.any_eq_false]
    intro x hx
    rw [List.eq_of_mem_replicate hx]
    decide
  rw [decodeSig]
  dsimp only
  rw [if_neg Bool.false_ne_true, drop_signed hnonce, hdec, Option.bind_some]
  dsimp only
  rw [hrest, hzeros, if_neg Bool.false_ne_true]
  split
  · exact if_pos (.inr rfl)
  · rfl

/-- The checks of the signer admit three formats, and enough room for each. -/
theorem signChecks_eq_ok_iff {sk : List UInt8} (hsk : privkeyLogn sk = some 10) :
    signChecks sk sigType sigLen = .ok () ↔ 41 ≤ sigLen ∧
      (sigType = .compressed ∨ sigType = .padded ∧ 1280 ≤ sigLen ∨
        sigType = .ct ∧ 1577 ≤ sigLen) := by
  have hpadded : falconSigPaddedSize 10 = 1280 := rfl
  have hct : falconSigCtSize 10 = 1577 := rfl
  rw [signChecks, hsk]
  dsimp only
  rw [hpadded, hct]
  by_cases hshort : sigLen < 41
  · rw [if_pos hshort]
    exact iff_of_false (fun h => nomatch h) fun h => by omega
  · rw [if_neg hshort]
    rcases sigType with _ | _ | _ | _ | _
    all_goals dsimp only
    · simp
    · simp; omega
    · by_cases hroom : sigLen < 1280
      · rw [if_pos hroom]
        exact iff_of_false (fun h => nomatch h) (by simp; omega)
      · rw [if_neg hroom]
        exact iff_of_true rfl (by simp; omega)
    · by_cases hroom : sigLen < 1577
      · rw [if_pos hroom]
        exact iff_of_false (fun h => nomatch h) (by simp; omega)
      · rw [if_neg hroom]
        exact iff_of_true rfl (by simp; omega)
    · simp

/-- **The bytes of a signature** pass the checks of the verifier of their format, and are decoded
to what was encoded. -/
theorem signed_bytes (hnonce : nonce.length = 40) (hroom : 41 ≤ sigLen ∧
      (sigType = .compressed ∨ sigType = .padded ∧ 1280 ≤ sigLen ∨
        sigType = .ct ∧ 1577 ≤ sigLen))
    (hes : signPayload sigType sigLen sv = some es) :
    (signHeader sigType :: (nonce ++ es)).length ≤ sigLen ∧
      sigTypeChecks sigType (signHeader sigType) (signHeader sigType :: (nonce ++ es)).length 10 =
        .ok (sigType = .ct) ∧
      decodeSig (signHeader sigType :: (nonce ++ es)) sigType (sigType = .ct) = some sv ∧
      InRange sv := by
  have hmax : maxSigBits.getD 10 0 = 11 + 1 := rfl
  have hsize : falconSigPaddedSize 10 = 1280 := rfl
  obtain ⟨h41, rfl | ⟨rfl, hpad⟩ | ⟨rfl, hct⟩⟩ := hroom
  · obtain ⟨hle, hown⟩ := compEncode_length hes
    have hlen := length_signed hnonce (signHeader .compressed) es
    refine ⟨by omega, rfl, ?_, inRange_of_forall (compEncode_eq_some_iff.mp hes).1⟩
    refine (decodeSig_compressed_eq_some_iff (by omega)).mpr ?_
    rw [hlen, Nat.add_sub_cancel_left, drop_signed hnonce]
    exact hown
  · rw [signPayload, hsize] at hes
    obtain ⟨es', hes', rfl⟩ := Option.map_eq_some_iff.mp hes
    have hle := (compEncode_length hes').1
    have hlen := length_signed hnonce (signHeader .padded)
      (es' ++ List.replicate (1280 - (41 + es'.length)) 0)
    rw [List.length_append, List.length_replicate] at hlen
    refine ⟨by omega, ?_, decodeSig_padded hnonce _ hes',
      inRange_of_forall (compEncode_eq_some_iff.mp hes').1⟩
    have htotal : (signHeader .padded :: (nonce ++ (es' ++
        List.replicate (1280 - (41 + es'.length)) 0))).length = 1280 := by omega
    rw [htotal]
    rfl
  · rw [signPayload, hmax] at hes
    obtain ⟨⟨v, es'⟩, hes', rfl⟩ := Option.map_eq_some_iff.mp hes
    dsimp only
    obtain ⟨hv, -, hrange, hbytes⟩ := (trimI16Encode_eq_some_iff (k := 11) (by norm_num)).mp hes'
    obtain rfl : v = 1536 := hv
    have hbits := congrArg List.length hbytes
    rw [List.length_map, Positional.length_digitsBE] at hbits
    have hlen := length_signed hnonce (signHeader .ct) es'
    have htotal : (signHeader .ct :: (nonce ++ es')).length = 1577 := by omega
    refine ⟨by omega, ?_, ?_, inRange_of_forall hrange⟩
    · rw [htotal]
      rfl
    · refine (decodeSig_ct_eq_some_iff htotal).mpr ?_
      rw [drop_signed hnonce]
      exact (trimI16Encode_eq_some_iff (k := 11) (by norm_num)).mpr
        ⟨rfl, by norm_num, hrange, hbytes⟩

end Bytes

/-! ### Signing and verifying -/

/-- A key pair with the polynomials that belong to it, as key generation writes it. Loading the
private key returns the polynomials, and they solve the equation of the public key. -/
structure SigningKey extends Keypair where
  polys : PrivatePolys
  loads : toKeypair.LoadsAs polys

/-- What is asked of the sampler for a key, for the points that hashing returns: the rounded
result is a point of the lattice of the key, and it is near enough to the hashed point to stay in
the range in which the signer computes. -/
structure SamplesLattice
    (sample : PrivatePolys → Poly16 → ShakeContext → RoundedPoint × ShakeContext)
    (K : PrivatePolys) : Prop where
  fits : ∀ hm rng, ReducedPoly hm → (sample K hm rng).1.Fits hm
  inLattice : ∀ hm rng, ReducedPoly hm → (sample K hm rng).1.InLattice K

section RoundTrip

variable {perm : Lanes → Lanes}
  {sample : PrivatePolys → Poly16 → ShakeContext → RoundedPoint × ShakeContext}
  {key : SigningKey} {fuel attempts : ℕ} {tmp : SignScratch} {rng hd : ShakeContext} {sigLen : ℕ}
  {sigType : SigType} {nonce sig : List UInt8}

/-- The header of the private key. -/
theorem SigningKey.logn (key : SigningKey) : privkeyLogn key.privateKey.toList = some 10 := by
  have hlen : key.privateKey.toList.length = privkeySize := Vector.length_toList
  have hload := key.loads.load ⟨Vector.replicate 1024 0, Vector.replicate 1024 0,
    Vector.replicate 1024 0⟩
  obtain ⟨hhead, -⟩ := encodePrivkey_eq_some_iff_drop.mp (loadPrivkey_eq_some_iff.mp hload).1
  exact (privkeyLogn_eq_some_iff hlen).mpr ⟨rfl, hhead⟩

/-- The degree that the header names. -/
theorem SigningKey.falconGetLogn (key : SigningKey) :
    falconGetLogn key.privateKey.toList = 10 := by
  obtain ⟨-, hhead⟩ := (privkeyLogn_eq_some_iff Vector.length_toList).mp key.logn
  obtain ⟨sk, hsk⟩ := List.head?_eq_some_iff.mp hhead
  rw [hsk]
  rfl

/-- What the signer keeps for a message solves its equation for the public key. -/
theorem SigningKey.solves (key : SigningKey) : ∃ h, key.publicKey.toList.getD 0 0 = 0x0A ∧
    decodePubkey key.publicKey = some h ∧ ReducedPoly h ∧
      ∀ {hm r s2}, r.Fits hm → r.InLattice key.polys → doSignDyn hm r = some s2 →
        Solves (wordElem hm) (wordElem h) s2 := by
  have hload := key.loads.load ⟨Vector.replicate 1024 0, Vector.replicate 1024 0,
    Vector.replicate 1024 0⟩
  obtain ⟨hunit, -, hK⟩ := completePrivate_eq_some_iff.mp (loadPrivkey_eq_some_iff.mp hload).2
  obtain ⟨h, hencode, hcoeffs, hh⟩ := key.loads.coeffs
  have hlen : (key.publicKey.toList.drop 1).length = 1792 := by
    rw [List.length_drop, Vector.length_toList]
    rfl
  have hred := (devModqEncode_of_modqDecode hlen (pubkeyCoeffs_eq_ok_iff.mp hcoeffs)).2
  obtain ⟨hhead, hdecode⟩ := decodePubkey_eq_some_iff.mpr ⟨devModqEncode_eq hencode, hred⟩
  exact ⟨h, hhead, hdecode, hred, fun hfits hr hs2 =>
    solves_of_doSignDyn hfits hr hunit hK hh hs2⟩

/-- The steps of a signature. -/
theorem falconSignDynFinish_eq_ok
    (h : falconSignDynFinish perm sample fuel attempts tmp rng sigLen sigType key.privateKey hd
      nonce = some (.ok sig)) :
    signChecks key.privateKey.toList sigType sigLen = .ok () ∧
      ∃ hm rng' sv es, messagePoint perm fuel (sigType = .ct) (shakeFlip hd) tmp.samples =
          some hm ∧ doSignDyn hm (sample key.polys hm rng').1 = some sv ∧
        signPayload sigType sigLen sv = some es ∧ sig = signHeader sigType :: (nonce ++ es) := by
  rw [falconSignDynFinish] at h
  cases hchecks : signChecks key.privateKey.toList sigType sigLen with
  | error e =>
      rw [hchecks] at h
      cases h
  | ok =>
      rw [hchecks, key.loads.load, Option.elim_some, Option.map_eq_some_iff] at h
      obtain ⟨⟨⟨sv, out⟩, rng''⟩, hloop, hout⟩ := h
      obtain rfl : out = .ok sig := hout
      obtain ⟨⟨rng₀, hattempt⟩, hencode⟩ := exists_sample_of_retry hloop
      rw [signAttempt, Option.bind_eq_some_iff] at hattempt
      obtain ⟨hm, hpoint, hsign⟩ := hattempt
      rw [signDyn, Option.map_eq_some_iff] at hsign
      obtain ⟨⟨⟨r, sv'⟩, rng₁⟩, hretry, heq⟩ := hsign
      obtain ⟨rfl, -⟩ := Prod.mk.inj heq
      obtain ⟨⟨rng', hsample⟩, hkept⟩ := exists_sample_of_retry hretry
      have hr : (sample key.polys hm rng').1 = r := congrArg Prod.fst (Option.some.inj hsample)
      rw [← hr] at hkept
      rw [signEncode] at hencode
      cases hpayload : signPayload sigType sigLen sv' with
      | none =>
          rw [hpayload] at hencode
          dsimp only at hencode
          split at hencode
          · cases hencode
          · cases Option.some.inj hencode
      | some es =>
          rw [hpayload] at hencode
          exact ⟨rfl, hm, rng', sv', es, hpoint, hkept, hpayload,
            (Except.ok.inj (Option.some.inj hencode)).symm⟩

/-- **A first attempt that is kept** and can be encoded is what the signer returns. -/
theorem falconSignDynFinish_of_kept {hm : Poly16} {sv : PolyS16} {es : List UInt8}
    (hchecks : signChecks key.privateKey.toList sigType sigLen = .ok ())
    (hpoint : messagePoint perm fuel (sigType = .ct) (shakeFlip hd) tmp.samples = some hm)
    (hkept : doSignDyn hm (sample key.polys hm rng).1 = some sv)
    (hes : signPayload sigType sigLen sv = some es) :
    falconSignDynFinish perm sample fuel 1 tmp rng sigLen sigType key.privateKey hd nonce =
      some (.ok (signHeader sigType :: (nonce ++ es))) := by
  have hattempt : signAttempt perm sample fuel 1 tmp.samples sigType key.polys (shakeFlip hd) rng =
      some (sv, (sample key.polys hm rng).2) := by
    have hretry : retry (fun rng => some (sample key.polys hm rng)) (doSignDyn hm) 1 rng =
        some (((sample key.polys hm rng).1, sv), (sample key.polys hm rng).2) :=
      retry_of_first rfl hkept
    rw [signAttempt, hpoint, Option.bind_some, signDyn, hretry]
    rfl
  have hencode : signEncode sigType sigLen nonce sv =
      some (.ok (signHeader sigType :: (nonce ++ es))) := by
    rw [signEncode, hes]
  have hretry : retry (signAttempt perm sample fuel 1 tmp.samples sigType key.polys (shakeFlip hd))
      (signEncode sigType sigLen nonce) 1 rng =
        some ((sv, .ok (signHeader sigType :: (nonce ++ es))), (sample key.polys hm rng).2) :=
    retry_of_first hattempt hencode
  rw [falconSignDynFinish, hchecks, key.loads.load, Option.elim_some, hretry]
  rfl

/-- The codes that a signer with a key may fail with. -/
theorem falconSignDynFinish_eq_error {e : ℤ}
    (h : falconSignDynFinish perm sample fuel attempts tmp rng sigLen sigType key.privateKey hd
      nonce = some (.error e)) :
    e = falconErrSize ∨
      e = falconErrBadarg ∧ (sigType = .unspecified ∨ sigType = .other) := by
  rw [falconSignDynFinish] at h
  cases hchecks : signChecks key.privateKey.toList sigType sigLen with
  | error e' =>
      rw [hchecks] at h
      obtain rfl := Except.error.inj (Option.some.inj h)
      rw [signChecks, key.logn] at hchecks
      dsimp only at hchecks
      by_cases hshort : sigLen < 41
      · rw [if_pos hshort] at hchecks
        exact .inl (Except.error.inj hchecks).symm
      · rw [if_neg hshort] at hchecks
        rcases sigType with _ | _ | _ | _ | _
        all_goals dsimp only at hchecks
        · exact .inr ⟨(Except.error.inj hchecks).symm, .inl rfl⟩
        · cases hchecks
        · split at hchecks
          · exact .inl (Except.error.inj hchecks).symm
          · cases hchecks
        · split at hchecks
          · exact .inl (Except.error.inj hchecks).symm
          · cases hchecks
        · exact .inr ⟨(Except.error.inj hchecks).symm, .inr rfl⟩
  | ok =>
      rw [hchecks, key.loads.load, Option.elim_some, Option.map_eq_some_iff] at h
      obtain ⟨⟨⟨sv, out⟩, rng''⟩, hloop, hout⟩ := h
      obtain rfl : out = .error e := hout
      have hencode := (exists_sample_of_retry hloop).2
      rw [signEncode] at hencode
      cases hpayload : signPayload sigType sigLen sv with
      | none =>
          rw [hpayload] at hencode
          dsimp only at hencode
          split at hencode
          · cases hencode
          · exact .inl (Except.error.inj (Option.some.inj hencode)).symm
      | some es =>
          rw [hpayload] at hencode
          cases Option.some.inj hencode

/-- Enough samples give a point, in both variants. -/
theorem exists_messagePoint {ct : Bool} {S : Samples} (hfuel : 1311 ≤ fuel)
    (henough : 1024 ≤ (residues (extractU16 perm) 1311 hd).length) :
    ∃ hm, messagePoint perm fuel ct hd S = some hm := by
  cases ct with
  | true => exact ⟨_, by rw [messagePoint, if_pos rfl]⟩
  | false =>
      obtain ⟨sc, hrun⟩ := hashToPointVartime_eq_some.mpr
        ⟨1311, hfuel, henough, toList_hashToPointCt S henough⟩
      exact ⟨_, by rw [messagePoint, if_neg Bool.false_ne_true, hrun, Option.map_some]⟩

/-- What is hashed is reduced, when its samples are enough. -/
theorem reducedPoly_of_messagePoint {S : Samples} {hm : Poly16}
    (henough : sigType = .ct → 1024 ≤ (residues (extractU16 perm) 1311 hd).length)
    (hpoint : messagePoint perm fuel (sigType = .ct) hd S = some hm) : ReducedPoly hm := by
  by_cases hct : sigType = .ct
  · rw [messagePoint, if_pos (decide_eq_true hct)] at hpoint
    rw [← Option.some.inj hpoint]
    exact reducedPoly_of_residues (toList_hashToPointCt _ (henough hct))
  · rw [messagePoint, if_neg (by simpa using hct), Option.map_eq_some_iff] at hpoint
    obtain ⟨⟨c, sc⟩, hvar, rfl⟩ := hpoint
    obtain ⟨m, -, -, hc⟩ := hashToPointVartime_eq_some.mp ⟨sc, hvar⟩
    exact reducedPoly_of_residues hc

/-- **What the signer returns is accepted**, for the same message and format. -/
theorem falconVerifyFinish_of_sign (tmp' : VerifyScratch)
    (hsample : SamplesLattice sample key.polys) (hnonce : nonce.length = 40)
    (henough : sigType = .ct → 1024 ≤ (residues (extractU16 perm) 1311 (shakeFlip hd)).length)
    (h : falconSignDynFinish perm sample fuel attempts tmp rng sigLen sigType key.privateKey hd
      nonce = some (.ok sig)) :
    (∃ es, sig = signHeader sigType :: (nonce ++ es)) ∧ sig.length ≤ sigLen ∧
      falconVerifyFinish perm fuel tmp' sig sigType key.publicKey hd = some 0 := by
  obtain ⟨hchecks, hm, rng', sv, es, hpoint, hkept, hes, rfl⟩ := falconSignDynFinish_eq_ok h
  have hroom := (signChecks_eq_ok_iff key.logn).mp hchecks
  obtain ⟨hle, htype, hdecode, hrange⟩ := signed_bytes hnonce hroom hes
  obtain ⟨hpub, hhead, hkey, hred, hsolves⟩ := key.solves
  have hlow : (signHeader sigType &&& 0x0F).toNat = 10 := by
    rw [signHeader]
    split <;> rfl
  have hpoint' : messagePoint perm fuel (sigType = .ct) (shakeFlip hd) tmp'.samples = some hm := by
    rw [← hpoint]
    exact messagePoint_samples
  have hreduced := reducedPoly_of_messagePoint henough hpoint
  refine ⟨⟨es, rfl⟩, hle, falconVerifyFinish_eq_zero_iff.mpr
    ⟨sigType = .ct, hpub, sv, hm, ?_, hkey, hdecode, hpoint', ?_⟩⟩
  · refine (verifyHeader_eq_ok_iff Vector.length_toList).mpr ⟨?_, hhead, hlow, htype⟩
    rw [length_signed hnonce]
    exact Nat.le_add_right _ _
  · refine (verifyIn_eq_true_iff hreduced hred hrange).mpr (hsolves ?_ ?_ hkept)
    · exact hsample.fits hm rng' hreduced
    · exact hsample.inLattice hm rng' hreduced

end RoundTrip

end FalconVanity
