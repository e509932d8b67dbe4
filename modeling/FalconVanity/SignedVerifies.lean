import FalconVanity.NearSampler

/-!
# Signing and Verifying

What a key pair of key generation signs is accepted by the verifier, in all formats, as long as
the sampler does what is asked of it. The sparse key with its sampler is an example: a signature is
returned, and accepted.

## Main results

* `falconSignDyn_verifies`: the signer and the verifier of the reference.
* `signed_verifies`: what a key pair signs deterministically, it verifies.
* `verifyWithPubkey_ok_iff`: what the public verifier accepts.
-/

namespace FalconVanity

open Draws

/-! ### A signature of the sparse key -/

/-- A stream of which the next bytes are the fixed salt. -/
def saltStream : ShakeContext :=
  ⟨xorBytes (Vector.replicate 25 0) 0 (writeSalt 0), 0, Nat.zero_le _⟩

/-- The nonce that the signer takes from this stream, and the context of the message. -/
theorem falconSignStart_saltStream (perm : Lanes → Lanes) :
    (falconSignStart perm saltStream).1 = writeSalt 0 ∧
      (falconSignStart perm saltStream).2.1 = shakeInject perm shakeInit (writeSalt 0) := by
  have hbytes : (List.range 40).map (fun u => laneByte saltStream.A (saltStream.dptr + u)) =
      writeSalt 0 := by decide +kernel
  have hrefill : shakeRefill perm saltStream = saltStream := if_neg (Nat.zero_ne_add_one 135)
  have hclen : min (shakeRate - saltStream.dptr) 40 = 40 := rfl
  have hnonce : (shakeExtract perm saltStream 40).1 = writeSalt 0 := by
    rw [shakeExtract, dif_neg (by norm_num)]
    simp only [hrefill, hclen, hbytes, Nat.sub_self]
    rw [shakeExtract, dif_pos rfl, List.append_nil]
  exact ⟨hnonce, congrArg (shakeInject perm shakeInit) hnonce⟩

/-! ### Signatures are accepted -/

/-- **Signatures are accepted**, in every format: a signer with a key pair of key generation, and
a sampler that does for its key what is asked of it, runs out of its attempts, has too little
room, is asked for no format that it knows, or returns bytes that fit and that the verifier
accepts for the message and the public key. For the format of constant length, the samples of the
hash have to be enough. -/
theorem falconSignDyn_verifies (perm : Lanes → Lanes)
    {sample : PrivatePolys → Poly16 → ShakeContext → RoundedPoint × ShakeContext}
    {key : SigningKey} (hsample : SamplesLattice sample key.polys) (fuel attempts : ℕ)
    (tmp : SignScratch) (tmp' : VerifyScratch) (rng : ShakeContext) (sigLen : ℕ)
    (sigType : SigType) (data : List UInt8) :
    let out := falconSignDyn perm sample fuel attempts tmp rng sigLen sigType key.privateKey data
    out = none ∨ out = some (.error falconErrSize) ∨
      (out = some (.error falconErrBadarg) ∧ (sigType = .unspecified ∨ sigType = .other)) ∨
      (sigType = .ct ∧ (residues (extractU16 perm) 1311 (shakeFlip
        (shakeInject perm (falconSignStart perm rng).2.1 data))).length < 1024) ∨
      ∃ sig, out = some (.ok sig) ∧ sig.length ≤ sigLen ∧
        falconVerify perm fuel tmp' sig sigType key.publicKey data = some 0 := by
  intro out
  by_cases henough : sigType = .ct ∧ (residues (extractU16 perm) 1311 (shakeFlip
      (shakeInject perm (falconSignStart perm rng).2.1 data))).length < 1024
  · exact .inr (.inr (.inr (.inl henough)))
  · have hnonce : (falconSignStart perm rng).1.length = 40 := length_shakeExtract perm rng 40
    cases hout : out with
    | none => exact .inl rfl
    | some r =>
        cases r with
        | error e =>
            rcases falconSignDynFinish_eq_error hout with rfl | ⟨rfl, htype⟩
            · exact .inr (.inl rfl)
            · exact .inr (.inr (.inl ⟨rfl, htype⟩))
        | ok sig =>
            have henough' : sigType = .ct → 1024 ≤ (residues (extractU16 perm) 1311 (shakeFlip
                (shakeInject perm (falconSignStart perm rng).2.1 data))).length :=
              fun hct => Nat.le_of_not_lt fun hlt => henough ⟨hct, hlt⟩
            obtain ⟨⟨es, hsig⟩, hle, hverify⟩ :=
              falconVerifyFinish_of_sign tmp' hsample hnonce henough' hout
            refine .inr (.inr (.inr (.inr ⟨sig, rfl, hle, ?_⟩)))
            have hlen := length_signed hnonce (signHeader sigType) es
            rw [falconVerify, falconVerifyStart, hsig, if_neg (by omega), List.drop_one,
              List.tail_cons, List.take_left' hnonce, ← hsig]
            exact hverify

/-- The sparse key signs the empty message in every format, and the verifier accepts. -/
theorem falconSignDyn_verifies_sparse : ∃ key : SigningKey, key.polys = sparseKey ∧
    ∀ tmp tmp', ∀ sigType ∈ [SigType.compressed, .padded, .ct], ∃ sig,
      falconSignDyn processBlock nearSampler 1311 1 tmp saltStream 1577 sigType key.privateKey [] =
        some (.ok sig) ∧
      falconVerify processBlock 1311 tmp' sig sigType key.publicKey [] = some 0 := by
  obtain ⟨key, hkey⟩ := exists_sparse_signingKey
  refine ⟨key, hkey, fun tmp tmp' sigType htype => ?_⟩
  have hroom : 1280 ≤ 1577 ∧ (sigType = .compressed ∨ sigType = .padded ∨
      sigType = .ct ∧ 1577 ≤ 1577) := by
    simp only [List.mem_cons, List.not_mem_nil, or_false] at htype
    exact ⟨by norm_num, htype.imp_right (Or.imp_right fun hct => ⟨hct, le_rfl⟩)⟩
  obtain ⟨hnonce, hcontext⟩ := falconSignStart_saltStream processBlock
  have henough : 1024 ≤ (residues (extractU16 processBlock) 1311 (shakeFlip (shakeInject
      processBlock (falconSignStart processBlock saltStream).2.1 []))).length := by
    rw [hcontext]
    exact enoughSamples_empty
  obtain ⟨sig, hsig⟩ : ∃ sig, falconSignDyn processBlock nearSampler 1311 1 tmp saltStream 1577
      sigType key.privateKey [] = some (.ok sig) := falconSignDynFinish_near le_rfl hroom henough
  refine ⟨sig, hsig, ?_⟩
  obtain hnone | hsize | ⟨hbad, -⟩ | ⟨-, hfew⟩ | ⟨sig', hsig', -, hverify⟩ :=
    falconSignDyn_verifies processBlock (hkey ▸ samplesLattice_near) 1311 1 tmp tmp' saltStream
      1577 sigType []
  · cases hsig.symm.trans hnone
  · cases hsig.symm.trans hsize
  · cases hsig.symm.trans hbad
  · exact absurd henough (Nat.not_le.mpr hfew)
  · obtain rfl := Except.ok.inj (Option.some.inj (hsig.symm.trans hsig'))
    exact hverify

/-- **What a key pair signs, it verifies.** With such a sampler, the deterministic signer runs out
of its attempts, or fails because the signature is too long, or returns a signature that the pair
verifies for the message: leaving out the salt and putting it back loses nothing. -/
theorem signed_verifies (perm : Lanes → Lanes)
    {sample : PrivatePolys → Poly16 → ShakeContext → RoundedPoint × ShakeContext}
    {key : SigningKey} (hsample : SamplesLattice sample key.polys) (fuel attempts : ℕ)
    (tmp : SignScratch) (tmp' : VerifyScratch) (msg : List UInt8) :
    let out := key.toKeypair.sign perm sample fuel attempts tmp msg
    out = none ∨ out = some (.error (.sign falconErrSize)) ∨
      ∃ sig, out = some (.ok sig) ∧ sig.length ≤ 1423 ∧
        key.toKeypair.verify perm fuel tmp' msg sig = some (.ok ()) := by
  intro out
  have hmax : falconSigCompressedMaxsize 10 = 1462 := rfl
  have hnonce := length_writeSalt 0
  set salted := falconSignDynFinish perm sample fuel attempts tmp
    (shakeFlip (shakeInject perm (shakeInject perm (shakeInject perm shakeInit [10])
      key.privateKey.toList) msg)) 1462 .compressed key.privateKey
    (shakeInject perm (shakeInject perm shakeInit (writeSalt 0)) msg) (writeSalt 0) with hsalted
  have hout : out =
      (salted.map fun r => r.map unsalt).map fun r => r.mapError FalconError.sign := by
    rw [hsalted]
    change Keypair.sign _ _ _ _ _ _ _ = _
    rw [Keypair.sign, signCompressed, key.falconGetLogn, if_neg (not_not.mpr rfl), hmax]
  cases hrun : salted with
  | none => exact .inl (by rw [hout, hrun]; rfl)
  | some r =>
      rw [hrun] at hout
      cases r with
      | error e =>
          obtain rfl | ⟨-, htype | htype⟩ := falconSignDynFinish_eq_error hrun
          · exact .inr (.inl hout)
          · cases htype
          · cases htype
      | ok sig =>
          obtain ⟨⟨es, rfl⟩, hle, hverify⟩ :=
            falconVerifyFinish_of_sign tmp' hsample hnonce
              (fun h : SigType.compressed = .ct => nomatch h) hrun
          have hunsalt : unsalt (signHeader .compressed :: (writeSalt 0 ++ es)) =
              0xBA :: 0 :: es := by
            have htop : signHeader .compressed ||| 0x80 = 0xBA := by decide
            rw [unsalt, drop_signed hnonce, List.getD_cons_zero, htop]
          have hheader : (0xBA : UInt8) &&& ~~~0x80 = signHeader .compressed := by decide
          have hresalt : resalt (0xBA :: 0 :: es) =
              signHeader .compressed :: (writeSalt 0 ++ es) := by rw [resalt_cons, hheader]
          have hlen := length_signed hnonce (signHeader .compressed) es
          refine .inr (.inr ⟨0xBA :: 0 :: es, ?_, ?_, ?_⟩)
          · rw [hout, ← hunsalt, Option.map_some, Option.map_some]
            simp only [Except.map, Except.mapError]
          · rw [List.length_cons, List.length_cons]
            omega
          · have hzero : verifyCompressed perm fuel tmp' (0xBA :: 0 :: es) key.publicKey msg =
                some 0 :=
              verifyCompressed_eq_zero_iff.mpr ⟨0, es, rfl, by omega, by rwa [hresalt]⟩
            rw [Keypair.verify, verifyWithPubkey, hzero]
            rfl

/-- The sparse key signs the empty message deterministically, and verifies its signature. -/
theorem signed_verifies_sparse : ∃ key : SigningKey, key.polys = sparseKey ∧ ∀ tmp tmp', ∃ sig,
    key.toKeypair.sign processBlock nearSampler 1311 1 tmp [] = some (.ok sig) ∧
      key.toKeypair.verify processBlock 1311 tmp' [] sig = some (.ok ()) := by
  obtain ⟨key, hkey⟩ := exists_sparse_signingKey
  refine ⟨key, hkey, fun tmp tmp' => ?_⟩
  obtain ⟨salted, hsalted⟩ : ∃ salted, falconSignDynFinish processBlock nearSampler 1311 1 tmp
      (shakeFlip (shakeInject processBlock (shakeInject processBlock
        (shakeInject processBlock shakeInit [10]) key.privateKey.toList) [])) 1462 .compressed
      key.privateKey
      (shakeInject processBlock (shakeInject processBlock shakeInit (writeSalt 0)) [])
      (writeSalt 0) = some (.ok salted) :=
    falconSignDynFinish_near le_rfl ⟨by norm_num, .inl rfl⟩ enoughSamples_empty
  have hsign : key.toKeypair.sign processBlock nearSampler 1311 1 tmp [] =
      some (.ok (unsalt salted)) := by
    have hmax : falconSigCompressedMaxsize 10 = 1462 := rfl
    rw [Keypair.sign, signCompressed, key.falconGetLogn, if_neg (not_not.mpr rfl), hmax]
    dsimp only
    rw [hsalted]
    rfl
  obtain hnone | hsize | ⟨sig, hsig, -, hverify⟩ :=
    signed_verifies processBlock (hkey ▸ samplesLattice_near) 1311 1 tmp tmp' []
  · cases hsign.symm.trans hnone
  · cases hsign.symm.trans hsize
  · exact ⟨sig, hsig, hverify⟩

/-! ### The public verifier -/

/-- **The public verifier, exactly.** It succeeds exactly for the header, a version and the
encoding of a half for which the equation of the public key and the point of the message has a
short solution. -/
theorem verifyWithPubkey_ok_iff (perm : Lanes → Lanes) (fuel : ℕ) (tmp : VerifyScratch)
    (publicKey : Vector UInt8 pubkeySize) (msg sig : List UInt8) :
    verifyWithPubkey perm fuel tmp publicKey msg sig = some (.ok ()) ↔
      ∃ version s2 bytes h c sc, sig = 0xBA :: version :: bytes ∧
        compEncode 1421 s2 = some bytes ∧ devModqEncode h = publicKey.toList ∧ ReducedPoly h ∧
          hashToPointVartime (extractU16 perm) fuel (saltedContext perm version msg) =
            some (c, sc) ∧ Solves (wordElem c) (wordElem h) s2 := by
  rw [← verifyCompressed_exact perm fuel tmp, verifyWithPubkey, Option.map_eq_some_iff]
  constructor
  · rintro ⟨rc, hrc, hok⟩
    by_cases hzero : rc ≠ 0
    · rw [if_pos hzero] at hok
      cases hok
    · rw [hrc, not_not.mp hzero]
  · intro hzero
    exact ⟨0, hzero, if_neg (not_not.mpr rfl)⟩

end FalconVanity
