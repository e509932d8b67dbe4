import FalconVanity.NearSampler

/-!
# Signatures of Constant Length

A compressed signature is converted to one of constant length by decoding its coefficients and
encoding them again. The conversion keeps the version and the coefficients, and never fails for
coefficients that were decoded. It forgets what follows the coefficients: the verifier of
compressed signatures refuses such bytes, the converter does not read them. Otherwise both
verifiers agree on a signature and its conversion, as long as the constant-time variant of
hashing has enough samples.

## Main results

* `convertCompressedToCt_eq_ok_iff`: what the conversion returns.
* `convert_verifies_iff`: when a signature and its conversion are accepted.
* `verifyCt_iff_coeffs`: the verifier and the functions that compute its coefficients.
-/

namespace FalconVanity

open Positional

/-- `falcon_det1024_convert_compressed_to_ct`: the compressed half is decoded, and encoded with a
constant length. -/
def convertCompressedToCt (sigCompressed : List UInt8) : Except ℤ (List UInt8) :=
  if sigCompressed.getD 0 0 ≠ 0x3A ||| 0x80 then .error falconErrBadsig
  else
    (compDecode (sigCompressed.drop 2)).elim (.error falconErrSize) fun (_, coeffs) =>
      (trimI16Encode (falconDet1024SigCtSize - 2) coeffs (maxSigBits.getD 10 0)).elim
        (.error falconErrSize) fun (_, bytes) =>
          .ok ((0x5A ||| 0x80) :: sigCompressed.getD 1 0 :: bytes)

/-- `falcon_det1024_s2_coeffs`: `none` for `FALCON_ERR_FORMAT`. -/
def s2Coeffs (sig : Vector UInt8 falconDet1024SigCtSize) : Option PolyS16 :=
  if sig.toList.getD 0 0 ≠ 0x5A ||| 0x80 then none
  else
    (trimI16Decode (maxSigBits.getD 10 0) (sig.toList.drop 2) (falconDet1024SigCtSize - 2)).bind
      fun (v, s2) => if v ≠ falconDet1024SigCtSize - 2 then none else some s2

/-- `falcon_det1024_get_salt_version`: the byte after the header. -/
def getSaltVersion (sig : List UInt8) : UInt8 := sig.getD 1 0

/-- `falcon_det1024_hash_to_point_coeffs`, with the scratch array of its call. -/
def hashToPointCoeffs (perm : Lanes → Lanes) (S : Samples) (data : List UInt8)
    (saltVersion : UInt8) : Poly16 :=
  (hashToPointCt (extractU16 perm) (saltedContext perm saltVersion data) S).1

/-! ### The formats -/

theorem falconDet1024SigCtSize_eq : falconDet1024SigCtSize = 1538 := rfl

/-- **The coefficients of a signature of constant length.** -/
theorem s2Coeffs_eq_some_iff {ct : Vector UInt8 falconDet1024SigCtSize} {s2 : PolyS16} :
    s2Coeffs ct = some s2 ↔ ct.toList.getD 0 0 = 0xDA ∧
      trimI16Encode 1536 s2 12 = some (1536, ct.toList.drop 2) := by
  have hlen : (ct.toList.drop 2).length = 1536 := by
    rw [List.length_drop, Vector.length_toList]
    rfl
  have hbits : maxSigBits.getD 10 0 = 11 + 1 := rfl
  have hsize : falconDet1024SigCtSize - 2 = 1536 := rfl
  have hbyte : (0x5A ||| 0x80 : UInt8) = 0xDA := rfl
  have hdec : ∀ v, trimI16Decode (11 + 1) (ct.toList.drop 2) 1536 = some (v, s2) ↔
      trimI16Encode 1536 s2 (11 + 1) = some (v, (ct.toList.drop 2).take v) := fun v =>
    trimI16Decode_eq_some_iff (by norm_num) (by rw [hlen])
  rw [s2Coeffs, hbits, hsize, hbyte]
  by_cases hhead : ct.toList.getD 0 0 = 0xDA
  · rw [if_neg (not_not.mpr hhead), and_iff_right hhead, Option.bind_eq_some_iff]
    constructor
    · rintro ⟨⟨v, s2'⟩, hsome, hout⟩
      dsimp only at hout
      by_cases hv : v ≠ 1536
      · rw [if_pos hv] at hout
        cases hout
      · rw [if_neg hv] at hout
        obtain rfl := Option.some.inj hout
        rw [not_not.mp hv] at hsome
        have hencode := (hdec 1536).mp hsome
        rwa [List.take_of_length_le hlen.le] at hencode
    · intro hencode
      refine ⟨(1536, s2), (hdec 1536).mpr ?_, if_neg (not_not.mpr rfl)⟩
      rwa [List.take_of_length_le hlen.le]
  · rw [if_pos hhead]
    exact iff_of_false (fun h => nomatch h) fun h => hhead h.1

/-- The converted signature has the header, the version and the coefficients. -/
theorem toList_ct_eq {ct : Vector UInt8 falconDet1024SigCtSize} {version : UInt8}
    {bytes : List UInt8} : ct.toList = 0xDA :: version :: bytes ↔
      ct.toList.getD 0 0 = 0xDA ∧ ct.toList.getD 1 0 = version ∧ ct.toList.drop 2 = bytes := by
  obtain ⟨v, bs, hct⟩ := exists_cons_cons (l := ct.toList) (by
    rw [Vector.length_toList, falconDet1024SigCtSize_eq]
    norm_num)
  rw [hct]
  constructor
  · intro h
    obtain ⟨h0, h1⟩ := List.cons.inj h
    obtain ⟨rfl, rfl⟩ := List.cons.inj h1
    exact ⟨h0, rfl, rfl⟩
  · rintro ⟨h0, rfl, rfl⟩
    change ct.toList.getD 0 0 = 0xDA at h0
    rw [h0]
    rfl

/-- **The conversion, exactly**: the version and the coefficients are kept, and nothing else is
read. It fails only for another header, or where no coefficients can be decoded. -/
theorem convertCompressedToCt_eq_ok_iff {sig : List UInt8}
    {ct : Vector UInt8 falconDet1024SigCtSize} :
    convertCompressedToCt sig = .ok ct.toList ↔ sig.getD 0 0 = 0xBA ∧
      getSaltVersion ct.toList = getSaltVersion sig ∧
        ∃ v s2, compDecode (sig.drop 2) = some (v, s2) ∧ s2Coeffs ct = some s2 := by
  have hbits : maxSigBits.getD 10 0 = 12 := rfl
  have hsize : falconDet1024SigCtSize - 2 = 1536 := rfl
  have hbyte : (0x3A ||| 0x80 : UInt8) = 0xBA := rfl
  have hbyte' : (0x5A ||| 0x80 : UInt8) = 0xDA := rfl
  rw [convertCompressedToCt, hbits, hsize, hbyte, hbyte', getSaltVersion, getSaltVersion]
  by_cases hhead : sig.getD 0 0 = 0xBA
  · rw [if_neg (not_not.mpr hhead), and_iff_right hhead]
    cases hdec : compDecode (sig.drop 2) with
    | none =>
        refine iff_of_false (fun h => nomatch h) ?_
        rintro ⟨-, v, s2, hnone, -⟩
        cases hnone
    | some r =>
        obtain ⟨v, s2⟩ := r
        have hrange := (compEncode_eq_some_iff.mp (compDecode_eq_some_iff.mp hdec).2).1
        obtain ⟨bytes, hbytes, -⟩ := exists_trimI16Encode le_rfl hrange
        dsimp only [Option.elim]
        rw [hbytes]
        constructor
        · intro h
          obtain ⟨h0, h1, hdrop⟩ := toList_ct_eq.mp (Except.ok.inj h).symm
          refine ⟨h1, v, s2, rfl, s2Coeffs_eq_some_iff.mpr ⟨h0, ?_⟩⟩
          rw [hdrop]
          exact hbytes
        · rintro ⟨h1, v', s2', hsome, hs2⟩
          obtain ⟨rfl, rfl⟩ := Prod.mk.inj (Option.some.inj hsome)
          obtain ⟨h0, hencode⟩ := s2Coeffs_eq_some_iff.mp hs2
          obtain ⟨-, hdrop⟩ := Prod.mk.inj (Option.some.inj (hbytes.symm.trans hencode))
          exact congrArg Except.ok (toList_ct_eq.mpr ⟨h0, h1, hdrop.symm⟩).symm
  · rw [if_pos hhead]
    exact iff_of_false (fun h => nomatch h) fun h => hhead h.1

/-! ### Verifying the converted signature -/

section Verified

variable {perm : Lanes → Lanes} {fuel : ℕ} {tmp : VerifyScratch} {data : List UInt8}
  {pubkey : Vector UInt8 pubkeySize} {ct : Vector UInt8 falconDet1024SigCtSize}

/-- **A signature of constant length is accepted** when its coefficients satisfy the test for the
point that was hashed with a fixed number of samples. -/
theorem verifyCt_eq_zero_iff :
    verifyCt perm fuel tmp ct pubkey data = some 0 ↔
      ∃ s2 h, s2Coeffs ct = some s2 ∧ devModqEncode h = pubkey.toList ∧ ReducedPoly h ∧
        verifyIn tmp.tt (hashToPointCt (extractU16 perm)
          (saltedContext perm (getSaltVersion ct.toList) data) tmp.samples).1 s2 h = true := by
  have hbadsig : ¬ (some falconErrBadsig = some 0) := by decide
  have hbyte : (0x5A ||| 0x80 : UInt8) = 0xDA := rfl
  have hmask : (0xDA : UInt8) &&& ~~~0x80 = 0x5A := by decide
  have hlow : ((0x5A : UInt8) &&& 0x0F).toNat = 10 := by decide
  have hhigh : ¬ ((0x5A : UInt8) &&& 0xF0 ≠ 0x50) := by decide
  have hpub : pubkey.toList.length = pubkeySize := Vector.length_toList
  rw [verifyCt, hbyte]
  by_cases hhead : ct.toList.getD 0 0 = 0xDA
  · obtain ⟨version, bytes, hct⟩ : ∃ version bytes, ct.toList = 0xDA :: version :: bytes :=
      ⟨_, _, toList_ct_eq.mpr ⟨hhead, rfl, rfl⟩⟩
    have hlen : bytes.length = 1536 := by
      have hcount := congrArg List.length hct
      rw [Vector.length_toList, falconDet1024SigCtSize_eq, List.length_cons,
        List.length_cons] at hcount
      omega
    have hsalted : (resalt (0xDA :: version :: bytes)).length = 1577 := by
      rw [length_resalt, hlen]
    have hsize : ¬ ((resalt (0xDA :: version :: bytes)).length ≠ falconSigCtSize 10) :=
      not_not.mpr hsalted
    have hversion : getSaltVersion ct.toList = version := by
      rw [hct]
      rfl
    have hdrop : ct.toList.drop 2 = bytes := by
      rw [hct]
      rfl
    have hheader : ∀ {b}, verifyHeader (resalt (0xDA :: version :: bytes)) .ct pubkey.toList =
        .ok b ↔ pubkey.toList.getD 0 0 = 0x0A ∧ b = true := by
      intro b
      have hfirst : (resalt (0xDA :: version :: bytes)).getD 0 0 = 0x5A := hmask
      rw [verifyHeader_eq_ok_iff hpub, hfirst, sigTypeChecks, if_neg hhigh, if_neg hsize]
      refine ⟨fun h => ⟨h.2.1, (Except.ok.inj h.2.2.2).symm⟩, ?_⟩
      rintro ⟨h, rfl⟩
      exact ⟨by omega, h, hlow, rfl⟩
    have hsig : ∀ {s2}, decodeSig (resalt (0xDA :: version :: bytes)) .ct true = some s2 ↔
        s2Coeffs ct = some s2 := by
      intro s2
      rw [decodeSig_ct_eq_some_iff hsalted, drop_resalt, s2Coeffs_eq_some_iff,
        and_iff_right hhead, hdrop]
    rw [if_neg (not_not.mpr hhead), hversion, hct, falconVerify_resalt,
      falconVerifyFinish_eq_zero_iff]
    constructor
    · rintro ⟨b, h, s2, c, hok, hkey, hdec, hpoint, hverify⟩
      obtain ⟨hfirst, rfl⟩ := hheader.mp hok
      obtain ⟨hkey', hred⟩ := decodePubkey_eq_some_iff.mp ⟨hfirst, hkey⟩
      rw [messagePoint, if_pos rfl] at hpoint
      obtain rfl := Option.some.inj hpoint
      exact ⟨s2, h, hsig.mp hdec, hkey', hred, hverify⟩
    · rintro ⟨s2, h, hdec, hkey, hred, hverify⟩
      obtain ⟨hfirst, hkey'⟩ := decodePubkey_eq_some_iff.mpr ⟨hkey, hred⟩
      refine ⟨true, h, s2, _, hheader.mpr ⟨hfirst, rfl⟩, hkey', hsig.mpr hdec, ?_, hverify⟩
      rw [messagePoint, if_pos rfl]
      rfl
  · rw [if_pos hhead]
    refine iff_of_false hbadsig ?_
    rintro ⟨s2, h, hdec, -⟩
    exact hhead (s2Coeffs_eq_some_iff.mp hdec).1

/-- The coefficients of a public key are reduced. -/
theorem reducedPoly_of_pubkeyCoeffs {h : Poly16} (hcoeffs : pubkeyCoeffs pubkey = .ok h) :
    ReducedPoly h := by
  have hlen : (pubkey.toList.drop 1).length = 1792 := by
    rw [List.length_drop, Vector.length_toList]
    rfl
  exact (devModqEncode_of_modqDecode hlen (pubkeyCoeffs_eq_ok_iff.mp hcoeffs)).2

/-- The coefficients of a signature of constant length are reduced by one addition. -/
theorem inRange_of_s2Coeffs {s2 : PolyS16} (h : s2Coeffs ct = some s2) : InRange s2 := by
  have hencode := (s2Coeffs_eq_some_iff.mp h).2
  exact inRange_of_forall ((trimI16Encode_eq_some_iff (k := 11) (by norm_num)).mp hencode).2.2.1

end Verified

/-- **A signature and its conversion.** When the samples are enough, compressed bytes are accepted
exactly when they are not too long, hold the coefficients and nothing else, and are converted to
a signature of constant length that is accepted. -/
theorem convert_verifies_iff (perm : Lanes → Lanes) (tmp tmp' : VerifyScratch)
    (sig : List UInt8) (pubkey : Vector UInt8 pubkeySize) (data : List UInt8)
    (henough : EnoughSamples perm (getSaltVersion sig) data) :
    (∃ fuel, verifyCompressed perm fuel tmp sig pubkey data = some 0) ↔
      2 ≤ sig.length ∧ sig.length ≤ 1423 ∧
        (∃ s2, compDecode (sig.drop 2) = some (sig.length - 2, s2)) ∧
          ∃ ct, convertCompressedToCt sig = .ok ct.toList ∧
            verifyCt perm 0 tmp' ct pubkey data = some 0 := by
  have hpoint : ∀ {c : Poly16}, (∃ fuel sc, hashToPointVartime (extractU16 perm) fuel
      (saltedContext perm (getSaltVersion sig) data) = some (c, sc)) ↔
        c = (hashToPointCt (extractU16 perm)
          (saltedContext perm (getSaltVersion sig) data) tmp'.samples).1 :=
    hashToPointVartime_iff_of_enough tmp'.samples henough
  have hreduced : ReducedPoly (hashToPointCt (extractU16 perm)
      (saltedContext perm (getSaltVersion sig) data) tmp'.samples).1 :=
    reducedPoly_of_residues (toList_hashToPointCt tmp'.samples henough)
  simp only [verifyCompressed_exact]
  constructor
  · rintro ⟨fuel, version, s2, bytes, h, c, sc, rfl, hs2, hkey, hred, hvar, hsolves⟩
    obtain ⟨hrange, hle, hbits⟩ := compEncode_eq_some_iff.mp hs2
    have hversion : getSaltVersion (0xBA :: version :: bytes) = version := rfl
    rw [← hversion] at hvar
    have hc := hpoint.mp ⟨fuel, sc, hvar⟩
    have hdec : compDecode bytes = some (bytes.length, s2) :=
      compDecode_eq_some_iff.mpr ⟨le_rfl, compEncode_eq_some_iff.mpr
        ⟨hrange, (List.length_take_le _ _).trans le_rfl, by rwa [List.take_length]⟩⟩
    obtain ⟨out, hout, houtlen⟩ := exists_trimI16Encode le_rfl hrange
    let ct : Vector UInt8 falconDet1024SigCtSize :=
      ⟨(0xDA :: version :: out).toArray, by
        rw [List.size_toArray, List.length_cons, List.length_cons, houtlen]; rfl⟩
    have hs2' : s2Coeffs ct = some s2 := s2Coeffs_eq_some_iff.mpr ⟨rfl, hout⟩
    have hlen : (0xBA :: version :: bytes).length = bytes.length + 2 := rfl
    have hversion' : getSaltVersion ct.toList = getSaltVersion (0xBA :: version :: bytes) := rfl
    refine ⟨by omega, by omega, ⟨s2, hdec⟩, ct, ?_, ?_⟩
    · exact convertCompressedToCt_eq_ok_iff.mpr ⟨rfl, rfl, _, s2, hdec, hs2'⟩
    · refine verifyCt_eq_zero_iff.mpr ⟨s2, h, hs2', hkey, hred, ?_⟩
      rw [hversion', ← hc]
      rw [← hc] at hreduced
      exact (verifyIn_eq_true_iff hreduced hred (inRange_of_s2Coeffs hs2')).mpr hsolves
  · rintro ⟨hmin, hmax, ⟨s2, hdec⟩, ct, hconv, hct⟩
    obtain ⟨hhead, hversion, v, s2', hdec', hs2⟩ := convertCompressedToCt_eq_ok_iff.mp hconv
    obtain ⟨-, rfl⟩ := Prod.mk.inj (Option.some.inj (hdec.symm.trans hdec'))
    obtain ⟨s2', h, hs2', hkey, hred, hverify⟩ := verifyCt_eq_zero_iff.mp hct
    obtain rfl := Option.some.inj (hs2.symm.trans hs2')
    rw [hversion] at hverify
    obtain ⟨fuel, sc, hvar⟩ := hpoint.mpr rfl
    obtain ⟨version, bytes, hsig⟩ := exists_cons_cons hmin
    have hversion' : getSaltVersion sig = version := by
      rw [hsig]
      rfl
    rw [hversion'] at hvar hverify hreduced
    rw [hhead] at hsig
    subst hsig
    obtain ⟨hle, hencode⟩ := compDecode_eq_some_iff.mp hdec
    obtain ⟨hrange, -, hbits⟩ := compEncode_eq_some_iff.mp hencode
    have hlen : (0xBA :: version :: bytes).length = bytes.length + 2 := rfl
    have hdrop : (0xBA :: version :: bytes).drop 2 = bytes := rfl
    rw [hdrop, hlen, Nat.add_sub_cancel, List.take_length] at hbits
    refine ⟨fuel, version, s2, bytes, h, _, sc, rfl,
      compEncode_eq_some_iff.mpr ⟨hrange, by omega, hbits⟩, hkey, hred, hvar, ?_⟩
    exact (verifyIn_eq_true_iff hreduced hred (inRange_of_s2Coeffs hs2)).mp hverify

/-- The sparse key accepts a signature of the empty message, and its conversion. -/
theorem convert_verifies_sparse : ∃ (key : SigningKey) (sig : List UInt8), key.polys = sparseKey ∧
    ∀ tmp tmp', verifyCompressed processBlock 1311 tmp sig key.publicKey [] = some 0 ∧
      ∃ ct, convertCompressedToCt sig = .ok ct.toList ∧
        verifyCt processBlock 0 tmp' ct key.publicKey [] = some 0 := by
  obtain ⟨key, h, s2, bytes, c, sc, hpolys, hkey, hred, hs2, hpoint, hsolves⟩ :=
    exists_sparse_solution
  refine ⟨key, 0xBA :: 0 :: bytes, hpolys, fun tmp tmp' => ?_⟩
  have hverify : verifyCompressed processBlock 1311 tmp (0xBA :: 0 :: bytes) key.publicKey [] =
      some 0 :=
    (verifyCompressed_exact _ _ _ _ _ _).mpr
      ⟨0, s2, bytes, h, c, sc, rfl, hs2, hkey, hred, hpoint, hsolves⟩
  obtain ⟨-, -, -, hct⟩ := (convert_verifies_iff processBlock tmp tmp' (0xBA :: 0 :: bytes)
    key.publicKey [] enoughSamples_empty).mp ⟨1311, hverify⟩
  exact ⟨hverify, hct⟩

/-- **The verifier in parts.** When the samples are enough, a signature of constant length is
accepted exactly when the public key has its header and the functions that return the
coefficients of the public key, of the point, and of both halves succeed one after the other. The
coefficients that they return are then a short solution of the equation. -/
theorem verifyCt_iff_coeffs (perm : Lanes → Lanes) (fuel : ℕ) (tmp : VerifyScratch) (S : Samples)
    (tt : Poly16) (ct : Vector UInt8 falconDet1024SigCtSize) (pubkey : Vector UInt8 pubkeySize)
    (data : List UInt8) (henough : EnoughSamples perm (getSaltVersion ct.toList) data) :
    (verifyCt perm fuel tmp ct pubkey data = some 0 ↔
      pubkey.toList.getD 0 0 = 0x0A ∧ ∃ h s1 s2, pubkeyCoeffs pubkey = .ok h ∧
        s2Coeffs ct = some s2 ∧
        (s1Coeffs h (hashToPointCoeffs perm S data (getSaltVersion ct.toList)) s2 tt).val =
          some s1) ∧
    ∀ h s1 s2, pubkeyCoeffs pubkey = .ok h → s2Coeffs ct = some s2 →
      (s1Coeffs h (hashToPointCoeffs perm S data (getSaltVersion ct.toList)) s2 tt).val =
        some s1 →
      signedElem s1 + signedElem s2 * wordElem h =
        wordElem (hashToPointCoeffs perm S data (getSaltVersion ct.toList)) ∧
      normSq s1 + normSq s2 ≤ 70265242 := by
  have hlist := toList_hashToPointCt S henough
  have hpoint : (hashToPointCt (extractU16 perm)
      (saltedContext perm (getSaltVersion ct.toList) data) tmp.samples).1 =
        hashToPointCoeffs perm S data (getSaltVersion ct.toList) :=
    Vector.toList_inj.mp ((toList_hashToPointCt tmp.samples henough).trans hlist.symm)
  have hc : ReducedPoly (hashToPointCoeffs perm S data (getSaltVersion ct.toList)) :=
    reducedPoly_of_residues hlist
  rw [verifyCt_eq_zero_iff, hpoint]
  generalize hashToPointCoeffs perm S data (getSaltVersion ct.toList) = c at hc ⊢
  refine ⟨⟨?_, ?_⟩, fun h s1 s2 hcoeffs hs2 hs1 => ?_⟩
  · rintro ⟨s2, h, hs2, hkey, hred, hverify⟩
    have hrange := inRange_of_s2Coeffs hs2
    obtain ⟨hhead, -⟩ := decodePubkey_eq_some_iff.mpr ⟨hkey, hred⟩
    obtain ⟨s1, hs1⟩ := (exists_s1Coeffs_iff hc hred hrange tt).mpr
      ((verifyIn_eq_true_iff hc hred hrange).mp hverify)
    refine ⟨hhead, h, s1, s2, ?_, hs2, hs1⟩
    rw [pubkeyCoeffs_eq_ok_iff, ← hkey]
    exact modqDecode_devModqEncode hred
  · rintro ⟨hhead, h, s1, s2, hcoeffs, hs2, hs1⟩
    have hrange := inRange_of_s2Coeffs hs2
    have hred := reducedPoly_of_pubkeyCoeffs hcoeffs
    have hdecode : decodePubkey pubkey = some h := by
      have hsize : pubkeySize - 1 = 1792 := rfl
      rw [decodePubkey, hsize, pubkeyCoeffs_eq_ok_iff.mp hcoeffs, Option.bind_some]
      exact if_neg (not_not.mpr rfl)
    obtain ⟨hkey, -⟩ := decodePubkey_eq_some_iff.mp ⟨hhead, hdecode⟩
    exact ⟨s2, h, hs2, hkey, hred, (verifyIn_eq_true_iff hc hred hrange).mpr
      ((exists_s1Coeffs_iff hc hred hrange tt).mp ⟨s1, hs1⟩)⟩
  · obtain ⟨-, hequation, hle⟩ := (s1Coeffs_eq_some_iff hc (reducedPoly_of_pubkeyCoeffs hcoeffs)
      (inRange_of_s2Coeffs hs2)).mp hs1
    exact ⟨hequation, hle⟩

/-- For a signature of the sparse key, the functions return coefficients. -/
theorem verifyCt_coeffs_sparse : ∃ (key : SigningKey) (ct : Vector UInt8 falconDet1024SigCtSize),
    key.polys = sparseKey ∧ ∀ tmp S tt,
      verifyCt processBlock 0 tmp ct key.publicKey [] = some 0 ∧
        ∃ h s1 s2, pubkeyCoeffs key.publicKey = .ok h ∧ s2Coeffs ct = some s2 ∧
          (s1Coeffs h (hashToPointCoeffs processBlock S [] 0) s2 tt).val = some s1 ∧
          normSq s1 + normSq s2 ≤ 70265242 := by
  obtain ⟨key, h, s2, bytes, c, sc, hpolys, hkey, hred, hs2, hpoint, hsolves⟩ :=
    exists_sparse_solution
  obtain ⟨out, hout, houtlen⟩ := exists_trimI16Encode le_rfl (compEncode_eq_some_iff.mp hs2).1
  let ct : Vector UInt8 falconDet1024SigCtSize :=
    ⟨(0xDA :: 0 :: out).toArray, by
      rw [List.size_toArray, List.length_cons, List.length_cons, houtlen]; rfl⟩
  have hct : s2Coeffs ct = some s2 := s2Coeffs_eq_some_iff.mpr ⟨rfl, hout⟩
  refine ⟨key, ct, hpolys, fun tmp S tt => ?_⟩
  have hc := (hashToPointVartime_iff_of_enough tmp.samples enoughSamples_empty).mp
    ⟨1311, sc, hpoint⟩
  have hreduced := reducedPoly_of_residues (toList_hashToPointCt tmp.samples enoughSamples_empty)
  have hverify : verifyCt processBlock 0 tmp ct key.publicKey [] = some 0 := by
    refine verifyCt_eq_zero_iff.mpr ⟨s2, h, hct, hkey, hred, ?_⟩
    rw [hc] at hsolves
    exact (verifyIn_eq_true_iff hreduced hred (inRange_of_s2Coeffs hct)).mpr hsolves
  obtain ⟨hiff, hsolution⟩ := verifyCt_iff_coeffs processBlock 0 tmp S tt ct key.publicKey []
    enoughSamples_empty
  obtain ⟨-, h', s1, s2', hh, hs2', hs1⟩ := hiff.mp hverify
  exact ⟨hverify, h', s1, s2', hh, hs2', hs1, (hsolution h' s1 s2' hh hs2' hs1).2⟩

end FalconVanity
