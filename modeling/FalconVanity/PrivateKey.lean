import FalconVanity.CompletePrivate
import FalconVanity.Keygen
import FalconVanity.TrimCodec

/-!
# Private Keys, Encoded and Loaded

A key that is found is stored as the bytes that the encoders wrote, and is loaded from them when
it signs. Loading decodes `f`, `g` and `F`, and completes `G` from them: nothing of the solver of
key generation is stored. A loaded key is the key that was generated, because its bytes
determine the three polynomials, and these determine `G`.

## Main results

* `encodePrivkey_eq_some_iff`: the layout of an encoded key.
* `loadPrivkey_exact`: which bytes are loaded, and as which key.
* `loadsAs_of_completeFromFg`: what is completed is loaded.
-/

namespace FalconVanity

open Negacyclic Logged Draws

/-! ### Loading a key -/

/-- `FALCON_PRIVKEY_SIZE`: the bytes of an encoded private key of a degree. -/
def falconPrivkeySize (logn : ℕ) : ℕ :=
  (if logn ≤ 3 then 3 <<< logn else ((10 - (logn >>> 1)) <<< (logn - 2)) + (1 <<< logn)) + 1

/-- The polynomials of a private key. The encoding holds the first three; the last one is
recomputed. -/
structure PrivatePolys where
  f : SmallPoly
  g : SmallPoly
  F : SmallPoly
  G : SmallPoly

/-- What a call finds in its scratch memory: the array `G`, and those of `complete_private`. -/
structure LoadScratch where
  G : SmallPoly
  t1 : Poly16
  t2 : Poly16

/-- The checks of the header of a private key, which `falcon_sign_dyn_finish`,
`falcon_expand_privkey` and `falcon_make_public` make: the degree, or `none` for
`FALCON_ERR_FORMAT`. -/
def privkeyLogn (sk : List UInt8) : Option ℕ :=
  match sk with
  | [] => none
  | b :: _ =>
    if b &&& 0xF0 ≠ 0x50 then none
    else
      let logn := (b &&& 0x0F).toNat
      if logn < 1 ∨ logn > 10 then none
      else if sk.length ≠ falconPrivkeySize logn then none
      else some logn

/-- The part of `falcon_sign_dyn_finish` and of `falcon_expand_privkey` that decodes a private
key and completes it, for the length of the degree 1024: `none` for `FALCON_ERR_FORMAT`. -/
def loadPrivkey (sk : Vector UInt8 privkeySize) (tmp : LoadScratch) : Option PrivatePolys := do
  let logn ← privkeyLogn sk.toList
  let u := 1
  let (v, f) ← trimI8Decode (maxFgBits.getD logn 0) (sk.toList.drop u) (privkeySize - u)
  let u := u + v
  let (v, g) ← trimI8Decode (maxFgBits.getD logn 0) (sk.toList.drop u) (privkeySize - u)
  let u := u + v
  let (v, F) ← trimI8Decode (maxFGBits.getD logn 0) (sk.toList.drop u) (privkeySize - u)
  let u := u + v
  if u ≠ privkeySize then none
  else
    let G ← (completePrivate tmp.G f g F tmp.t1 tmp.t2).val
    some ⟨f, g, F, G⟩

/-- The part of `falcon_make_public` that decodes `f` and `g`: `none` for `FALCON_ERR_FORMAT`. -/
def decodeFg (sk : Vector UInt8 privkeySize) : Option (SmallPoly × SmallPoly) := do
  let logn ← privkeyLogn sk.toList
  let u := 1
  let (v, f) ← trimI8Decode (maxFgBits.getD logn 0) (sk.toList.drop u) (privkeySize - u)
  let u := u + v
  let (_, g) ← trimI8Decode (maxFgBits.getD logn 0) (sk.toList.drop u) (privkeySize - u)
  some (f, g)

/-- What a call of `compute_public` returns, with its scratch arrays. -/
def computePublicIn (h tt : Poly16) (f g : SmallPoly) : Option Poly16 :=
  (computePublic f g h tt).val

/-- `falcon_make_public`, for the length of the degree 1024, with the scratch arrays of
`compute_public`. -/
def falconMakePublic (sk : Vector UInt8 privkeySize) (h tt : Poly16) :
    Except ℤ (Vector UInt8 pubkeySize) :=
  ((decodeFg sk).bind fun fg => computePublicIn h tt fg.1 fg.2).elim (.error falconErrFormat)
    fun h => (encodePubkey h).elim (.error falconErrInternal) .ok

/-! ### The layout -/

/-- **The header**: only the degree 1024 has the length. -/
theorem privkeyLogn_eq_some_iff {sk : List UInt8} (hlen : sk.length = privkeySize) {logn : ℕ} :
    privkeyLogn sk = some logn ↔ logn = 10 ∧ sk.head? = some 0x5A := by
  rcases sk with _ | ⟨b, sk⟩
  · exact absurd hlen (by decide)
  · have hbyte : ∀ b : UInt8, b &&& 0xF0 = 0x50 ∧ (b &&& 0x0F).toNat = 10 ↔ b = 0x5A :=
      Words.forall_byte (by decide +kernel)
    have hsize : ∀ n < 11, falconPrivkeySize n = privkeySize ↔ n = 10 := by decide
    rw [privkeyLogn, List.head?_cons, Option.some_inj, ← hbyte b, hlen]
    dsimp only
    by_cases hhead : b &&& 0xF0 = 0x50
    · rw [if_neg (not_not.mpr hhead)]
      by_cases hrange : (b &&& 0x0F).toNat < 1 ∨ (b &&& 0x0F).toNat > 10
      · rw [if_pos hrange]
        refine iff_of_false (fun h => Option.some_ne_none _ h.symm) ?_
        rintro ⟨rfl, -, h10⟩
        omega
      · rw [if_neg hrange]
        have hdegree := hsize (b &&& 0x0F).toNat (by omega)
        by_cases h10 : (b &&& 0x0F).toNat = 10
        · rw [if_neg (not_not.mpr (hdegree.mpr h10).symm), Option.some_inj, h10]
          exact ⟨fun h => ⟨h.symm, hhead, rfl⟩, fun h => h.1.symm⟩
        · rw [if_pos fun h => h10 (hdegree.mp h.symm)]
          exact iff_of_false (fun h => Option.some_ne_none _ h.symm) fun h => h10 h.2.2
    · rw [if_pos hhead]
      exact iff_of_false (fun h => Option.some_ne_none _ h.symm) fun h => hhead h.2.1

/-- The encoded polynomial fills its place. -/
theorem length_of_trimI8Encode {k m v : ℕ} (hk : k < 8) {x : SmallPoly} {bytes : List UInt8}
    (h : trimI8Encode m x (k + 1) = some (v, bytes)) :
    v = 128 * (k + 1) ∧ bytes.length = v ∧ v ≤ m := by
  obtain ⟨hv, hle, -, hbytes⟩ := (trimI8Encode_eq_some_iff hk).mp h
  have hlen := congrArg List.length hbytes
  rw [List.length_map, Positional.length_digitsBE] at hlen
  exact ⟨hv, hlen, hle⟩

/-- The room that the three calls have. -/
theorem privkeySize_sub :
    privkeySize - 1 = 2304 ∧ privkeySize - (1 + 640) = 1664 ∧
      privkeySize - (1 + 640 + 640) = 1024 := by
  norm_num

/-- What the three calls write, after the header. -/
theorem toList_writePrivkey {bf bg bF : List UInt8} (hf : bf.length = 640) (hg : bg.length = 640)
    (hF : bF.length = 1024) :
    (writeBytes (writeBytes (writeBytes ((Vector.replicate privkeySize 0).set 0 (0x50 + 10))
      1 bf) (1 + 640) bg) (1 + 640 + 640) bF).toList = 0x5A :: (bf ++ bg ++ bF) := by
  have hstart : ((Vector.replicate privkeySize (0 : UInt8)).set 0 (0x50 + 10)).toList =
      [0x5A] ++ List.replicate 2304 0 := by
    rw [Vector.toList_set, Vector.toList_replicate]
    rfl
  have h1 := toList_writeBytes hstart
    (by rw [hf, List.length_replicate]; norm_num : bf.length ≤ _)
  rw [hf, List.drop_replicate] at h1
  have h2 := toList_writeBytes h1
    (by rw [hg, List.length_replicate]; norm_num : bg.length ≤ _)
  rw [hg, List.drop_replicate, List.length_append, hf] at h2
  have h3 := toList_writeBytes h2 (by rw [hF, List.length_replicate] : bF.length ≤ _)
  rw [hF, List.drop_replicate, List.length_append, List.length_append, hf, hg] at h3
  refine h3.trans ?_
  rw [List.replicate_zero, List.append_nil, List.append_assoc, List.append_assoc,
    List.singleton_append, List.append_assoc]

/-- **The layout of a private key**: the header, and the three polynomials. -/
theorem encodePrivkey_eq_some_iff {f g F : SmallPoly} {sk : Vector UInt8 privkeySize} :
    encodePrivkey f g F = some sk ↔
      ∃ bf bg bF, trimI8Encode 2304 f 5 = some (640, bf) ∧
        trimI8Encode 1664 g 5 = some (640, bg) ∧ trimI8Encode 1024 F 8 = some (1024, bF) ∧
          sk.toList = 0x5A :: (bf ++ bg ++ bF) := by
  have hfg : maxFgBits.getD 10 0 = 4 + 1 := rfl
  have hFG : maxFGBits.getD 10 0 = 7 + 1 := rfl
  obtain ⟨hroom, hroom', hroom''⟩ := privkeySize_sub
  simp only [encodePrivkey, Option.bind_eq_bind, Option.bind_eq_some_iff, hfg, hFG]
  constructor
  · rintro ⟨⟨v, bf⟩, hf, ⟨v', bg⟩, hg, ⟨v'', bF⟩, hF, hsk⟩
    obtain ⟨hv, hlf, -⟩ := length_of_trimI8Encode (by norm_num) hf
    obtain ⟨hv', hlg, -⟩ := length_of_trimI8Encode (by norm_num) hg
    obtain ⟨hv'', hlF, -⟩ := length_of_trimI8Encode (by norm_num) hF
    obtain rfl : v = 640 := hv
    obtain rfl : v' = 640 := hv'
    obtain rfl : v'' = 1024 := hv''
    rw [hroom] at hf
    dsimp only at hg hF hsk
    rw [hroom'] at hg
    rw [hroom''] at hF
    refine ⟨bf, bg, bF, hf, hg, hF, ?_⟩
    rw [if_pos (by norm_num)] at hsk
    rw [← Option.some.inj hsk]
    exact toList_writePrivkey hlf hlg hlF
  · rintro ⟨bf, bg, bF, hf, hg, hF, hsk⟩
    obtain ⟨-, hlf, -⟩ := length_of_trimI8Encode (k := 4) (by norm_num) hf
    obtain ⟨-, hlg, -⟩ := length_of_trimI8Encode (k := 4) (by norm_num) hg
    obtain ⟨-, hlF, -⟩ := length_of_trimI8Encode (k := 7) (by norm_num) hF
    refine ⟨(640, bf), by rw [hroom]; exact hf, (640, bg), by dsimp only; rw [hroom']; exact hg,
      (1024, bF), by dsimp only; rw [hroom'']; exact hF, ?_⟩
    dsimp only
    rw [if_pos (by norm_num)]
    refine congrArg some (Vector.toList_inj.mp ?_)
    rw [hsk]
    exact toList_writePrivkey hlf hlg hlF

/-- The encoding determines the polynomials. -/
theorem encodePrivkey_eq_some_iff_drop {f g F : SmallPoly} {sk : Vector UInt8 privkeySize} :
    encodePrivkey f g F = some sk ↔ sk.toList.head? = some 0x5A ∧
      trimI8Encode 2304 f 5 = some (640, (sk.toList.drop 1).take 640) ∧
        trimI8Encode 1664 g 5 = some (640, (sk.toList.drop 641).take 640) ∧
          trimI8Encode 1024 F 8 = some (1024, (sk.toList.drop 1281).take 1024) := by
  rw [encodePrivkey_eq_some_iff]
  constructor
  · rintro ⟨bf, bg, bF, hf, hg, hF, hsk⟩
    obtain ⟨-, hlf, -⟩ := length_of_trimI8Encode (k := 4) (by norm_num) hf
    obtain ⟨-, hlg, -⟩ := length_of_trimI8Encode (k := 4) (by norm_num) hg
    obtain ⟨-, hlF, -⟩ := length_of_trimI8Encode (k := 7) (by norm_num) hF
    have h1 : sk.toList.drop 1 = bf ++ bg ++ bF := by rw [hsk, List.drop_one, List.tail_cons]
    have h2 : sk.toList.drop 641 = bg ++ bF := by
      rw [← List.drop_drop (i := 640) (j := 1), h1, List.append_assoc, List.drop_left' hlf]
    have h3 : sk.toList.drop 1281 = bF := by
      rw [← List.drop_drop (i := 640) (j := 641), h2, List.drop_left' hlg]
    rw [h1, h2, h3, List.append_assoc, List.take_left' hlf, List.take_left' hlg,
      List.take_of_length_le hlF.le]
    exact ⟨by rw [hsk]; rfl, hf, hg, hF⟩
  · rintro ⟨hhead, hf, hg, hF⟩
    refine ⟨_, _, _, hf, hg, hF, ?_⟩
    have hlen : sk.toList.length = privkeySize := Vector.length_toList
    have h1 := List.take_append_drop 640 (sk.toList.drop 1)
    have h2 := List.take_append_drop 640 (sk.toList.drop 641)
    rw [List.drop_drop] at h1 h2
    have h3 : (sk.toList.drop 1281).take 1024 = sk.toList.drop 1281 :=
      List.take_of_length_le (by rw [List.length_drop, hlen]; norm_num)
    rw [h3, List.append_assoc, h2, h1, List.drop_one]
    exact (List.cons_head?_tail hhead).symm

/-! ### Loading what was encoded -/

/-- **Loading a key.** The bytes are loaded exactly when they are the encoding of polynomials,
the first of which is invertible, and for which a small `G` solves the equation modulo `q`. -/
theorem loadPrivkey_eq_some_iff {sk : Vector UInt8 privkeySize} {tmp : LoadScratch}
    {K : PrivatePolys} :
    loadPrivkey sk tmp = some K ↔ encodePrivkey K.f K.g K.F = some sk ∧
      (completePrivate tmp.G K.f K.g K.F tmp.t1 tmp.t2).val = some K.G := by
  have hlen : sk.toList.length = privkeySize := Vector.length_toList
  have hfg : maxFgBits.getD 10 0 = 4 + 1 := rfl
  have hFG : maxFGBits.getD 10 0 = 7 + 1 := rfl
  have hf : ∀ {m v x}, trimI8Decode (4 + 1) (sk.toList.drop 1) m = some (v, x) ↔
      trimI8Encode m x (4 + 1) = some (v, (sk.toList.drop 1).take v) :=
    trimI8Decode_eq_some_iff (by norm_num) (by rw [List.length_drop, hlen]; norm_num)
  have hg : ∀ {m v x}, trimI8Decode (4 + 1) (sk.toList.drop 641) m = some (v, x) ↔
      trimI8Encode m x (4 + 1) = some (v, (sk.toList.drop 641).take v) :=
    trimI8Decode_eq_some_iff (by norm_num) (by rw [List.length_drop, hlen]; norm_num)
  have hF : ∀ {m v x}, trimI8Decode (7 + 1) (sk.toList.drop 1281) m = some (v, x) ↔
      trimI8Encode m x (7 + 1) = some (v, (sk.toList.drop 1281).take v) :=
    trimI8Decode_eq_some_iff (by norm_num) (by rw [List.length_drop, hlen]; norm_num)
  obtain ⟨hroom, hroom', hroom''⟩ := privkeySize_sub
  rw [encodePrivkey_eq_some_iff_drop, loadPrivkey]
  simp only [Option.bind_eq_bind, Option.bind_eq_some_iff, privkeyLogn_eq_some_iff hlen]
  constructor
  · rintro ⟨logn, ⟨rfl, hhead⟩, ⟨v, f⟩, hdf, ⟨v', g⟩, hdg, ⟨v'', F⟩, hdF, hout⟩
    rw [hfg, hroom, hf] at hdf
    obtain rfl : v = 640 := (length_of_trimI8Encode (by norm_num) hdf).1
    dsimp only at hdg hdF hout
    rw [hfg, hroom', hg] at hdg
    obtain rfl : v' = 640 := (length_of_trimI8Encode (by norm_num) hdg).1
    rw [hFG, hroom'', hF] at hdF
    obtain rfl : v'' = 1024 := (length_of_trimI8Encode (by norm_num) hdF).1
    rw [if_neg (by norm_num), Option.bind_eq_some_iff] at hout
    obtain ⟨G, hG, hK⟩ := hout
    obtain rfl := Option.some.inj hK
    exact ⟨⟨hhead, hdf, hdg, hdF⟩, hG⟩
  · rintro ⟨⟨hhead, hef, heg, heF⟩, hG⟩
    refine ⟨10, ⟨rfl, hhead⟩, (640, K.f), ?_, (640, K.g), ?_, (1024, K.F), ?_, ?_⟩
    · rw [hfg, hroom]
      exact hf.mpr hef
    · dsimp only
      rw [hfg, hroom']
      exact hg.mpr heg
    · dsimp only
      rw [hFG, hroom'']
      exact hF.mpr heF
    · dsimp only
      rw [if_neg (by norm_num), hG]
      rfl

/-- **Private keys, exactly.** The bytes are loaded as a key exactly when they are what the
encoders write for `f`, `g` and `F`, where `f` is invertible modulo `q` and `G` is the polynomial
with coefficients of at most 127 that solves `f * G = g * F` modulo `q`. -/
theorem loadPrivkey_exact (sk : Vector UInt8 privkeySize) (tmp : LoadScratch) (K : PrivatePolys) :
    loadPrivkey sk tmp = some K ↔ encodePrivkey K.f K.g K.F = some sk ∧
      IsUnit (smallElem K.f) ∧ (∀ u < 1024, |K.G[u]!.toInt| ≤ 127) ∧
        smallElem K.f * smallElem K.G = smallElem K.g * smallElem K.F := by
  rw [loadPrivkey_eq_some_iff, completePrivate_eq_some_iff]

/-! ### Generated keys -/

section Generated

variable (reduce : SmallPoly → SmallPoly → Option NtruWork)
  (arrays : SmallPoly → SmallPoly → SmallPoly × SmallPoly)

/-- A stored small integer is not larger than what was stored. -/
theorem abs_toInt8_le (z : Int32) : |z.toInt8.toInt| ≤ |z.toInt| := by
  rw [Int32.toInt_toInt8]
  have hlo : -(256 : ℤ) / 2 ≤ z.toInt.bmod 256 := Int.le_bmod (by norm_num)
  have hhi : z.toInt.bmod 256 < (256 + 1) / 2 := Int.bmod_lt (by norm_num)
  by_cases hsmall : -128 ≤ z.toInt ∧ z.toInt < 128
  · rw [Int.bmod_eq_of_le (by omega) (by omega)]
  · have hbmod : |z.toInt.bmod 256| ≤ 128 := abs_le.mpr ⟨by omega, by omega⟩
    have hlarge : 128 ≤ |z.toInt| := by
      rcases not_and_or.mp hsmall with h | h
      · exact le_abs.mpr (.inr (by omega))
      · exact le_abs.mpr (.inl (by omega))
    exact hbmod.trans hlarge

/-- The conversion keeps to its limit, whatever this is. -/
theorem polyBigToSmall_le {d : SmallPoly} {s : Poly32} {lim : ℤ} {F : SmallPoly}
    (h : polyBigToSmall d s lim = some F) : ∀ i < 1024, |F[i]!.toInt| ≤ lim := by
  intro i hi
  rw [polyBigToSmall, Words.foldlM_check_set!
    (fun u => (zintOneToPlain s[u]!).toInt < -lim ∨ (zintOneToPlain s[u]!).toInt > lim)
    (fun u => (zintOneToPlain s[u]!).toInt8) d le_rfl] at h
  split at h
  · rename_i hgood
    have hentry : F[i]! = (zintOneToPlain s[i]!).toInt8 := by
      rw [← Option.some.inj h]
      simp [hi]
    have hle := hgood i hi
    rw [hentry]
    exact (abs_toInt8_le _).trans (abs_le.mpr ⟨by omega, by omega⟩)
  · cases h

/-- The primitives of key generation, with the last step of the solver. -/
def FalconPrimitives.ofReduction (bnormLt : SmallPoly → SmallPoly → Bool)
    (leftover : SmallPoly → SmallPoly → ℕ → Poly16 × Poly16) : FalconPrimitives where
  bnormLt := bnormLt
  solveNTRU f g lim :=
    (solveNtru reduce (arrays f g).1 (arrays f g).2 f g lim).map Prod.fst
  solveNTRU_le := by
    intro f g lim F hF
    obtain ⟨⟨F', G⟩, hsolve, rfl⟩ := Option.map_eq_some_iff.mp hF
    rw [solveNtru] at hsolve
    simp only [Option.bind_eq_bind, Option.bind_eq_some_iff] at hsolve
    obtain ⟨work, -, F'', hbig, G', -, hok⟩ := hsolve
    split at hok
    · obtain ⟨rfl, -⟩ := Prod.mk.inj (Option.some.inj hok)
      exact polyBigToSmall_le hbig
    · cases hok
  leftover := leftover

/-- A key pair, and the polynomials that belong to it: the private key is loaded as these,
whatever the memory holds, they solve the equation, the public key is computed from them again,
and it encodes the quotient of `g` by `f`. -/
structure Keypair.LoadsAs (kp : Keypair) (K : PrivatePolys) : Prop where
  load : ∀ tmp, loadPrivkey kp.privateKey tmp = some K
  equation : intElem K.f * intElem K.G - intElem K.g * intElem K.F = ((pqQ : ℕ) : Rz)
  makePublic : ∀ h tt, falconMakePublic kp.privateKey h tt = .ok kp.publicKey
  coeffs : ∃ h, encodePubkey h = some kp.publicKey ∧ pubkeyCoeffs kp.publicKey = .ok h ∧
    wordElem h * smallElem K.f = smallElem K.g

variable {reduce arrays}

/-- The steps of a completion. -/
theorem steps_of_completeFromFg {P : FalconPrimitives} {f g : SmallPoly} {kp : Keypair}
    (hkp : completeFromFg P (f, g) = some kp) :
    ∃ r F, computePublicAt P 2 f g = some r ∧ P.solveNTRU f g solveLimit = some F ∧
      encodePrivkey f g F = some kp.privateKey ∧ encodePubkey r = some kp.publicKey := by
  rw [completeFromFg] at hkp
  split at hkp
  · cases hkp
  split at hkp
  · cases hkp
  split at hkp
  · cases hkp
  split at hkp
  · cases hkp
  rename_i r hr
  split at hkp
  · cases hkp
  rename_i F hF
  split at hkp
  · cases hkp
  rename_i sk hsk
  split at hkp
  · cases hkp
  rename_i pk hpk
  refine ⟨r, F, hr, hF, ?_, ?_⟩
  · exact hsk.trans (congrArg (fun kp => some (Keypair.privateKey kp)) (Option.some.inj hkp))
  · exact hpk.trans (congrArg (fun kp => some (Keypair.publicKey kp)) (Option.some.inj hkp))

/-- A key of the reference is the completion of a sample. -/
theorem completeFromFg_of_keygenFromSeed {P : FalconPrimitives} {fuel attempts : ℕ}
    {seed : List UInt8} {kp : Keypair}
    (h : keygenFromSeed P fuel attempts seed = some (.ok kp)) :
    ∃ f g, completeFromFg P (f, g) = some kp := by
  rw [keygenFromSeed, falconKeygenMake, Option.map_map, Option.map_eq_some_iff] at h
  obtain ⟨⟨⟨⟨f, g⟩, F⟩, t⟩, hkey, hencode⟩ := h
  obtain ⟨n, -, -, hF, -⟩ := retry_eq_some_iff.mp hkey
  obtain ⟨kp', hok, hkp'⟩ := encode_of_keygenRound hF
  dsimp only [Function.comp_apply] at hencode
  rw [hok] at hencode
  obtain rfl : kp' = kp := Except.ok.inj hencode
  exact ⟨f, g, hkp'⟩

/-- The equation over the integers, modulo `q`. -/
theorem smallElem_of_equation {f g F G : SmallPoly}
    (h : intElem f * intElem G - intElem g * intElem F = ((pqQ : ℕ) : Rz)) :
    smallElem f * smallElem G = smallElem g * smallElem F := by
  rw [intElem_q] at h
  have hmod := coeffElem_intCast (p := pqQ) h
  have hzero : coeffElem 10 (fun l => (((if l = 0 then ((pqQ : ℕ) : ℤ) else 0) : ℤ) : ZMod pqQ)) =
      0 := by
    have hcoeff : (fun l => (((if l = 0 then ((pqQ : ℕ) : ℤ) else 0) : ℤ) : ZMod pqQ)) =
        fun l => if l = 0 then (0 : ZMod pqQ) else 0 := by
      funext l
      split
      · rw [Int.cast_natCast, ZMod.natCast_self]
      · rw [Int.cast_zero]
    rw [hcoeff, coeffElem_const, map_zero]
  rw [hzero] at hmod
  exact sub_eq_zero.mp hmod

/-- The public key is computed again from an encoded private key. -/
theorem falconMakePublic_of_encodePrivkey {f g F : SmallPoly} {sk : Vector UInt8 privkeySize}
    (hsk : encodePrivkey f g F = some sk) {h tt r : Poly16} {pk : Vector UInt8 pubkeySize}
    (hr : computePublicIn h tt f g = some r) (hpk : encodePubkey r = some pk) :
    falconMakePublic sk h tt = .ok pk := by
  have hlen : sk.toList.length = privkeySize := Vector.length_toList
  have hfg : maxFgBits.getD 10 0 = 4 + 1 := rfl
  obtain ⟨hroom, hroom', -⟩ := privkeySize_sub
  obtain ⟨hhead, hef, heg, -⟩ := encodePrivkey_eq_some_iff_drop.mp hsk
  have hlogn : privkeyLogn sk.toList = some 10 :=
    (privkeyLogn_eq_some_iff hlen).mpr ⟨rfl, hhead⟩
  have hdf : trimI8Decode (4 + 1) (sk.toList.drop 1) 2304 = some (640, f) :=
    (trimI8Decode_eq_some_iff (by norm_num) (by rw [List.length_drop, hlen]; norm_num)).mpr hef
  have hdg : trimI8Decode (4 + 1) (sk.toList.drop 641) 1664 = some (640, g) :=
    (trimI8Decode_eq_some_iff (by norm_num) (by rw [List.length_drop, hlen]; norm_num)).mpr heg
  have hdecode : decodeFg sk = some (f, g) := by
    simp only [decodeFg, Option.bind_eq_bind, Option.bind_eq_some_iff]
    refine ⟨10, hlogn, (640, f), ?_, (640, g), ?_, rfl⟩
    · rw [hfg, hroom]
      exact hdf
    · dsimp only
      rw [hfg, hroom']
      exact hdg
  rw [falconMakePublic, hdecode, Option.bind_some, hr, Option.elim_some, hpk, Option.elim_some]

/-- A key that is completed is loaded as what it was completed from. -/
theorem loadsAs_of_completeFromFg {bnormLt : SmallPoly → SmallPoly → Bool}
    {leftover : SmallPoly → SmallPoly → ℕ → Poly16 × Poly16} {f g : SmallPoly} {kp : Keypair}
    (hkp : completeFromFg (.ofReduction reduce arrays bnormLt leftover) (f, g) = some kp) :
    ∃ F G, solveNtru reduce (arrays f g).1 (arrays f g).2 f g solveLimit = some (F, G) ∧
      kp.LoadsAs ⟨f, g, F, G⟩ := by
  obtain ⟨r, F, hr, hsolve, hsk, hpk⟩ := steps_of_completeFromFg hkp
  obtain ⟨⟨F', G⟩, hFG, rfl⟩ := Option.map_eq_some_iff.mp hsolve
  have hlimit : solveLimit ≤ 127 := le_rfl
  obtain ⟨work, -, -, hG, hequation⟩ := (solveNtru_eq_some_iff hlimit).mp hFG
  have hpublic : IsPublicOf f g (some r) := hr ▸ isPublicOf_computePublicAt 2
  have hne := hpublic.isSome_iff.mp rfl
  have hunit : IsUnit (smallElem f) :=
    (isUnit_coeffElem_iff (T := twiddles) two_ne_zero_modq).mpr hne
  have hlt : ∀ i < 1024, r[i]!.toNat < 12289 := fun i hi => by
    rw [← UInt16.toNat_toUInt32]
    exact (hpublic.rep r rfl i hi).lt
  refine ⟨F', G, hFG, fun tmp => ?_, hequation, fun h tt => ?_, r, hpk, ?_, ?_⟩
  · exact loadPrivkey_eq_some_iff.mpr ⟨hsk, completePrivate_eq_some_iff.mpr
      ⟨hunit, polyBigToSmall_le hG, smallElem_of_equation hequation⟩⟩
  · have hr' : computePublicIn h tt f g = some r := by
      rw [computePublicIn]
      exact (computePublic_ensures f g h tt).result.unique hpublic
    exact falconMakePublic_of_encodePrivkey hsk hr' hpk
  · rw [pubkeyCoeffs_eq_ok_iff, ← devModqEncode_eq hpk]
    exact modqDecode_devModqEncode hlt
  · exact wordElem_mul_smallElem hne (hpublic.rep r rfl)

end Generated

end FalconVanity
