import FalconVanity.Emission
import FalconVanity.KeygenEvaluator
import FalconVanity.Matcher
import FalconVanity.Sha512

/-!
# The Salt Sweep

What a thread of the `f1` kernel does with an entropy: it computes the public key of the first
sample, and tries salts until an address matches. The loop counts salts in 32 bits up to and
including `max_salt`, and hashes the low byte of each.

The thread stops at the first address that matches, whether it is compliant or not. The CPU
search goes on to the first one that is compliant too.

## Main results

* `saltLoop_skip`: the loop after salts that do not match.
* `sweep_reports_least_iff`: when the loop ends with the least salt that matches.
* `devSeedFromEntropy_streamed`, `devPqAddr32_streamed`: the hashes of the device.
* `devPubkeyFromSeed_eq`: the public key of the thread is that of the reference.
* `gpu_keeps_cpu_hit_iff`: when the thread reports a key that the CPU search reports.
-/

namespace FalconVanity

/-! ### The loop -/

/-- The salt loop of `pq_search_kernel`, with a bound on the iterations: the salt of the hit
that is appended, if any. `hit` is the outcome of the matcher for the address of a salt. -/
def saltLoop (hit : UInt8 → Bool) (maxSalt : UInt32) : ℕ → UInt32 → Option (Option UInt8)
  | 0, _ => none
  | fuel + 1, salt =>
    if salt ≤ maxSalt then
      if hit salt.toUInt8 then some (some salt.toUInt8)
      else saltLoop hit maxSalt fuel (salt + 1)
    else some none

/-- The salts that the loop is meant to try, and whose address matches. -/
def matchingSalts (hit : UInt8 → Bool) (maxSalt : UInt32) : Set UInt8 :=
  {s | s.toNat ≤ min maxSalt.toNat 255 ∧ hit s = true}

/-- The loop ends, with a hit if a salt matches, which is the least one. -/
def SweepsRight (hit : UInt8 → Bool) (maxSalt : UInt32) : Prop :=
  ∃ fuel r, saltLoop hit maxSalt fuel 0 = some r ∧
    (r.isSome ↔ (matchingSalts hit maxSalt).Nonempty) ∧
    ∀ s, r = some s → IsLeast (matchingSalts hit maxSalt) s

variable {hit : UInt8 → Bool} {maxSalt : UInt32}

/-- The salts of the sweep that match. -/
theorem mem_matchingSalts_iff {s : UInt8} :
    s ∈ matchingSalts hit maxSalt ↔ s.toNat ≤ maxSalt.toNat ∧ hit s = true := by
  have hs := s.toNat_lt
  rw [matchingSalts, Set.mem_ofPred_eq]
  exact and_congr_left fun _ => by omega

/-- An iteration. -/
theorem saltLoop_succ {j : ℕ} (hj : j < 2 ^ 32) (fuel : ℕ) :
    saltLoop hit maxSalt (fuel + 1) j.toUInt32 =
      if j ≤ maxSalt.toNat then
        if hit j.toUInt8 then some (some j.toUInt8)
        else saltLoop hit maxSalt fuel (j + 1).toUInt32
      else some none := by
  have hval : j.toUInt32.toNat = j := by
    rw [Nat.toUInt32_eq, UInt32.toNat_ofNat', Nat.mod_eq_of_lt hj]
  have hbyte : j.toUInt32.toUInt8 = j.toUInt8 := by
    apply UInt8.toNat_inj.mp
    rw [UInt32.toNat_toUInt8, hval, Nat.toUInt8_eq, UInt8.toNat_ofNat']
  have hnext : j.toUInt32 + 1 = (j + 1).toUInt32 := by
    rw [Nat.toUInt32_eq, Nat.toUInt32_eq, UInt32.ofNat_add]
    rfl
  rw [saltLoop, hbyte, hnext]
  simp only [UInt32.le_iff_toNat_le, hval]

/-- **The loop after salts that do not match.** -/
theorem saltLoop_skip {n : ℕ} (hn : n ≤ maxSalt.toNat + 1)
    (hmiss : ∀ j < n, hit j.toUInt8 = false) (fuel : ℕ) :
    saltLoop hit maxSalt (n + fuel) 0 = saltLoop hit maxSalt fuel n.toUInt32 := by
  induction n generalizing fuel with
  | zero => rw [Nat.zero_add]; rfl
  | succ n ih =>
      have hlt := maxSalt.toNat_lt
      rw [Nat.add_assoc, Nat.add_comm 1, ih (by omega) (fun j hj => hmiss j (by omega)),
        saltLoop_succ (by omega), if_pos (by omega), hmiss n (by omega)]
      rfl

/-- The result does not depend on the bound. -/
theorem saltLoop_mono {fuel fuel' : ℕ} (hle : fuel ≤ fuel') {salt : UInt32}
    {r : Option UInt8} (h : saltLoop hit maxSalt fuel salt = some r) :
    saltLoop hit maxSalt fuel' salt = some r := by
  induction fuel generalizing fuel' salt with
  | zero => cases h
  | succ fuel ih =>
      obtain ⟨m, rfl⟩ : ∃ m, fuel' = m + 1 := ⟨fuel' - 1, by omega⟩
      rw [saltLoop] at h ⊢
      split
      case isTrue hs =>
        rw [if_pos hs] at h
        split
        case isTrue hh => rwa [if_pos hh] at h
        case isFalse hh =>
          rw [if_neg hh] at h
          exact ih (by omega) h
      case isFalse hs => rwa [if_neg hs] at h

/-- The loop ends with the least salt that matches. -/
theorem saltLoop_of_isLeast {s : UInt8} (hs : IsLeast (matchingSalts hit maxSalt) s) :
    saltLoop hit maxSalt (s.toNat + 1) 0 = some (some s) := by
  obtain ⟨hle, hhit⟩ := mem_matchingSalts_iff.mp hs.1
  have hlt := s.toNat_lt
  have hself : s.toNat.toUInt8 = s := UInt8.ofNat_toNat
  have hmiss : ∀ j < s.toNat, hit j.toUInt8 = false := by
    intro j hj
    by_contra hj'
    have hval : j.toUInt8.toNat = j := by
      rw [Nat.toUInt8_eq, UInt8.toNat_ofNat', Nat.mod_eq_of_lt (by omega)]
    have hmem := hs.2 (mem_matchingSalts_iff.mpr
      ⟨by rw [hval]; omega, Bool.eq_true_of_not_eq_false hj'⟩)
    have := UInt8.le_iff_toNat_le.mp hmem
    omega
  rw [saltLoop_skip (by omega) hmiss, saltLoop_succ (by omega), if_pos hle, hself, if_pos hhit]

/-- Without a matching salt up to the last one, no salt that is tried matches. -/
theorem miss_of_not_nonempty (h : ¬ (matchingSalts hit maxSalt).Nonempty) {j : ℕ}
    (hj : j ≤ maxSalt.toNat) : hit j.toUInt8 = false := by
  by_contra hj'
  refine h ⟨j.toUInt8, mem_matchingSalts_iff.mpr ⟨?_, Bool.eq_true_of_not_eq_false hj'⟩⟩
  rw [Nat.toUInt8_eq, UInt8.toNat_ofNat']
  exact (Nat.mod_le _ _).trans hj

/-- The loop ends without a hit if no salt matches, unless its bound is the last number. -/
theorem saltLoop_of_not_nonempty (h : ¬ (matchingSalts hit maxSalt).Nonempty)
    (hmax : maxSalt.toNat < 2 ^ 32 - 1) :
    saltLoop hit maxSalt (maxSalt.toNat + 2) 0 = some none := by
  have hfuel : maxSalt.toNat + 2 = maxSalt.toNat + 1 + 1 := rfl
  rw [hfuel, saltLoop_skip le_rfl (fun j hj => miss_of_not_nonempty h (by omega)),
    saltLoop_succ (by omega), if_neg (by omega)]

/-- The loop does not end if its bound is the last number and no salt matches. -/
theorem saltLoop_diverges (hmax : maxSalt.toNat = 2 ^ 32 - 1) (hmiss : ∀ s, hit s = false)
    (fuel : ℕ) (salt : UInt32) : saltLoop hit maxSalt fuel salt = none := by
  induction fuel generalizing salt with
  | zero => rfl
  | succ fuel ih =>
      have hlt := salt.toNat_lt
      rw [saltLoop, if_pos (UInt32.le_iff_toNat_le.mpr (by omega)), hmiss]
      exact ih (salt + 1)

/-- A set of bytes has a least element. -/
theorem exists_isLeast_byte {s : Set UInt8} (h : s.Nonempty) : ∃ b, IsLeast s b := by
  obtain ⟨b, hb⟩ := h
  have hex : ∃ n : ℕ, n.toUInt8 ∈ s := ⟨b.toNat, by rwa [Nat.toUInt8_eq, UInt8.ofNat_toNat]⟩
  classical
  refine ⟨(Nat.find hex).toUInt8, Nat.find_spec hex, fun c hc => ?_⟩
  have hle : Nat.find hex ≤ c.toNat :=
    Nat.find_min' hex (by rwa [Nat.toUInt8_eq, UInt8.ofNat_toNat])
  rw [UInt8.le_iff_toNat_le, Nat.toUInt8_eq, UInt8.toNat_ofNat']
  exact (Nat.mod_le _ _).trans hle

/-- **When the sweep ends with the least salt that matches.** For every bound and every outcome
of the matcher for each salt byte, the loop ends, appends a hit exactly when a salt up to the
bound matches, and stores the least such salt, if and only if the bound is not the last 32-bit
number or some salt matches. -/
theorem sweep_reports_least_iff (hit : UInt8 → Bool) (maxSalt : UInt32) :
    SweepsRight hit maxSalt ↔ maxSalt ≠ 4294967295 ∨ ∃ s, hit s = true := by
  have hmax : maxSalt.toNat = 2 ^ 32 - 1 ↔ maxSalt = 4294967295 :=
    ⟨fun h => UInt32.toNat_inj.mp h, fun h => by rw [h]; rfl⟩
  have hlt := maxSalt.toNat_lt
  constructor
  · rintro ⟨fuel, r, hr, -⟩
    by_contra! hbad
    rw [saltLoop_diverges (hmax.mpr hbad.1)
      (fun s => Bool.eq_false_of_not_eq_true (hbad.2 s))] at hr
    cases hr
  · intro hcond
    by_cases hne : (matchingSalts hit maxSalt).Nonempty
    · obtain ⟨s, hs⟩ := exists_isLeast_byte hne
      refine ⟨_, _, saltLoop_of_isLeast hs, iff_of_true rfl hne, ?_⟩
      rintro s' ⟨⟩
      exact hs
    · have hbound : maxSalt.toNat < 2 ^ 32 - 1 := by
        by_contra hge
        rcases hcond with hno | ⟨s, hs⟩
        · exact hno (hmax.mp (by omega))
        · have := s.toNat_lt
          exact hne ⟨s, mem_matchingSalts_iff.mpr ⟨by omega, hs⟩⟩
      refine ⟨_, _, saltLoop_of_not_nonempty hne hbound, iff_of_false Bool.false_ne_true hne, ?_⟩
      rintro s ⟨⟩

/-- With `--max-salt 4294967295` the loop for a key without a matching address never ends. -/
theorem sweep_never_ends : ¬ SweepsRight (fun _ => false) 4294967295 := by
  rintro ⟨fuel, r, hr, -⟩
  rw [saltLoop_diverges rfl fun _ => rfl] at hr
  cases hr

/-! ### The public key of a thread -/

/-- `dev_modq_encode`: there is no tail, since 1024 values of 14 bits are whole bytes. -/
def devModqEncode (x : Poly16) : List UInt8 :=
  let (_, _, buf) := (x.toList.map UInt16.toUInt32).foldl (packStep 14) (0, 0, [])
  (0x00 + 10) :: buf

/-- `dev_pubkey_from_seed`: an inner `none` for the return value 0. The arrays `h` and `tt`
are not initialized. -/
def devPubkeyFromSeed (fuel : ℕ) (h tt : Poly16) (seed : Bytes32) : Option (Option (List UInt8)) :=
  (devSampleFg fuel seed).map fun (f, g) => (devComputePublic f g h tt).val.map devModqEncode

/-- **The encoding of the device** is the one of the reference, where this does not fail. -/
theorem devModqEncode_eq {h : Poly16} {pk : Vector UInt8 pubkeySize}
    (hpk : encodePubkey h = some pk) : devModqEncode h = pk.toList := by
  have hws : (h.toList.map UInt16.toUInt32).length = 1024 := by
    rw [List.length_map, Vector.length_toList]
  obtain ⟨hlen, hlt⟩ :=
    foldl_packStep_length 14 (h.toList.map UInt16.toUInt32) (0, 0, []) (by norm_num)
  have hbits := length_packBits 14 (h.toList.map UInt16.toUInt32)
  rw [hws] at hlen hbits
  have hpack : packBits 14 (h.toList.map UInt16.toUInt32) =
      ((h.toList.map UInt16.toUInt32).foldl (packStep 14) (0, 0, [])).2.2 := by
    have hzero : ((h.toList.map UInt16.toUInt32).foldl (packStep 14) (0, 0, [])).2.1 = 0 := by
      simp only [List.length_nil] at hlen
      omega
    rw [packBits]
    simp only [hzero]
    rfl
  have hbuf : ((Vector.replicate pubkeySize (0 : UInt8)).set 0 (0x00 + 10)).toList =
      [0x00 + 10] ++ List.replicate 1792 0 := by
    rw [Vector.toList_set, Vector.toList_replicate]
    rfl
  have hfits : (packBits 14 (h.toList.map UInt16.toUInt32)).length ≤
      (List.replicate 1792 (0 : UInt8)).length := by
    rw [hbits, List.length_replicate]
  have hwrite := toList_writeBytes hbuf hfits
  rw [hbits, List.drop_eq_nil_of_le (by rw [List.length_replicate]), List.append_nil] at hwrite
  rw [encodePubkey, Option.bind_eq_bind] at hpk
  obtain ⟨⟨v, bytes⟩, hencode, hpk⟩ := Option.bind_eq_some_iff.mp hpk
  have hbytes : bytes = packBits 14 (h.toList.map UInt16.toUInt32) := by
    rw [modqEncode] at hencode
    split at hencode
    · cases hencode
    · dsimp only at hencode
      split at hencode
      · cases hencode
      · exact (congrArg Prod.snd (Option.some.inj hencode)).symm
  simp only [Option.ite_none_right_eq_some, Option.some.injEq] at hpk
  rw [← hpk.2, hbytes]
  exact (congrArg (List.cons (0x00 + 10)) hpack.symm).trans hwrite.symm

/-- The public key of a key that is completed. -/
theorem encodePubkey_of_completeFromFg {P : FalconPrimitives} {f g : SmallPoly} {kp : Keypair}
    (hkp : completeFromFg P (f, g) = some kp) :
    ∃ r, computePublicAt P 2 f g = some r ∧ encodePubkey r = some kp.publicKey := by
  rw [completeFromFg] at hkp
  split at hkp
  · cases hkp
  split at hkp
  · cases hkp
  split at hkp
  · cases hkp
  split at hkp
  · cases hkp
  rename_i r hr
  split at hkp
  · cases hkp
  split at hkp
  · cases hkp
  split at hkp
  · cases hkp
  rename_i pk hpk
  exact ⟨r, hr, hpk.trans (congrArg (fun kp => some (Keypair.publicKey kp)) (Option.some.inj hkp))⟩

/-- **The public key of the thread** is that of the reference, if this completes the first
sample. -/
theorem devPubkeyFromSeed_eq {P : FalconPrimitives} {fuel : ℕ} {seed : Bytes32}
    {fg : SmallPoly × SmallPoly} {kp : Keypair} (hfg : pqvSampleFg fuel seed.toList = some fg)
    (hkp : completeFromFg P fg = some kp) (h tt : Poly16) :
    devPubkeyFromSeed fuel h tt seed = some (some kp.publicKey.toList) := by
  obtain ⟨f, g⟩ := fg
  obtain ⟨r, hr, hpk⟩ := encodePubkey_of_completeFromFg hkp
  have hpub : (devComputePublic f g h tt).val = some r := by
    rw [← hr, computePublicAt]
    exact devComputePublic_eq_computePublic f g h tt _ _
  rw [devPubkeyFromSeed, devSampleFg_eq_pqvSampleFg, hfg, Option.map_some]
  dsimp only
  rw [hpub, Option.map_some, devModqEncode_eq hpk]

/-! ### A thread -/

section Thread

variable (L : Libraries)

/-- `PQK_PREFIX`: the tag that is hashed before the entropy. -/
def pqkPrefix : List UInt8 := byteString "PQKf1".toList

/-- `dev_seed_from_entropy`: the seed of a candidate on the device. -/
def devSeedFromEntropy (entropy : Bytes32) : Bytes32 :=
  L.sha512_256 (pqkPrefix ++ entropy.toList)

/-- `dev_pq_addr32`: the address of a key and a salt on the device. -/
def devPqAddr32 (pk : List UInt8) (salt : UInt8) : Address :=
  L.sha512_256 (byteString "PQAf1".toList ++ [salt] ++ pk)

/-- A thread of `pq_search_kernel` that has an entropy: the hit that it appends, if any. The
bounds are on the draws of a sample and the iterations of the salt loop. -/
def pqSearchThread (fuel saltFuel : ℕ) (h tt : Poly16) (table : List PqTarget)
    (maxSalt : UInt32) (entropy : Bytes32) : Option (Option DeviceHit) := do
  match ← devPubkeyFromSeed fuel h tt (devSeedFromEntropy L entropy) with
  | none => some none
  | some pk =>
    let salt ← saltLoop (fun salt => pqMatchTargets L.toPrimitives (devPqAddr32 L pk salt) table)
      maxSalt saltFuel 0
    some (salt.map (DeviceHit.mk entropy))

/-- The body of the CPU search for an entropy calls `record_hit` with a key, under these flags:
it is the first key whose address matches and that is usable. -/
def Worker.WouldRecord {κ : Type} (W : Worker κ) (S : TargetSet) (active : Active)
    (entropy : Bytes32) (c : κ) : Prop :=
  ∃ k, W.candidate entropy k = some c ∧ (S.firstMatch W.P active (W.address c)).isSome ∧
    W.usable c = true ∧ ∀ j < k, ∃ c', W.candidate entropy j = some c' ∧
      ¬ ((S.firstMatch W.P active (W.address c')).isSome ∧ W.usable c' = true)

variable (S : TargetSet) (active : Active) (canonicalOnly : Bool) (pk : List UInt8)

/-- The address of a salt matches an active target. -/
def SaltMatches (salt : UInt8) : Prop :=
  ∃ i, S.Matches active (Address.toAddressString L.toPrimitives
    (pqAddress L.toPrimitives salt pk)) i

/-- The address of a salt is compliant, and that of the canonical salt if only this is
searched for. -/
def SaltUsable (salt : UInt8) : Prop :=
  Address.isPqCompliant L.toPrimitives (pqAddress L.toPrimitives salt pk) = true ∧
    (canonicalOnly = true → (canonicalPqSalt L.toPrimitives pk).map Prod.fst = some salt)

end Thread

section Comparison

variable {L : Libraries} {S : TargetSet} {active : Active} {canonicalOnly : Bool}
  {pk : List UInt8}

/-- The seed on the device is that of the host. -/
theorem devSeedFromEntropy_eq (entropy : Bytes32) :
    devSeedFromEntropy L entropy = keygenSeedFromEntropy L.toPrimitives entropy := rfl

/-- The address on the device is that of the host. -/
theorem devPqAddr32_eq (salt : UInt8) :
    devPqAddr32 L pk salt = pqAddress L.toPrimitives salt pk := rfl

/-- The hash of two parts, as the device computes it. -/
theorem sha512_256_two_parts (hL : L.sha512_256 = Sha2.sha512_256) (garbage : Vector UInt8 128)
    {pre data : List UInt8} (hpre : pre.length < 2 ^ 31) (hdata : data.length < 2 ^ 31) :
    sha512_256Final (sha512Part (sha512Part (sha512_256Init garbage) pre) data) =
      L.sha512_256 (pre ++ data) := by
  obtain ⟨_, hs⟩ := (Streams.init garbage).update hpre
  obtain ⟨_, hs⟩ := hs.update hdata
  rw [hL, hs.final (by rw [List.nil_append, List.length_append]; omega), List.nil_append]

/-- **The seed of an entropy**, as the device hashes it. -/
theorem devSeedFromEntropy_streamed (hL : L.sha512_256 = Sha2.sha512_256)
    (garbage : Vector UInt8 128) (entropy : Bytes32) :
    sha512_256Final (sha512Part (sha512Part (sha512_256Init garbage) pqkPrefix)
      entropy.toList) = devSeedFromEntropy L entropy :=
  sha512_256_two_parts hL garbage (by decide) (by rw [Vector.length_toList]; decide)

/-- **The address of a public key**, as the device hashes it. -/
theorem devPqAddr32_streamed (hL : L.sha512_256 = Sha2.sha512_256) (garbage : Vector UInt8 128)
    (salt : UInt8) (hpk : pk.length = pubkeySize) :
    sha512_256Final (sha512Part (sha512Part (sha512_256Init garbage)
      (byteString "PQAf1".toList ++ [salt])) pk) = devPqAddr32 L pk salt :=
  sha512_256_two_parts hL garbage
    (by rw [List.length_append, List.length_singleton]; decide) (by rw [hpk]; decide)

/-- A matcher returns an index exactly when some active target occurs. -/
theorem firstMatchDisplay_isSome_iff {display : Str} :
    (S.firstMatchDisplay active display).isSome ↔ ∃ i, S.Matches active display i := by
  constructor
  · intro h
    obtain ⟨i, hi⟩ := Option.isSome_iff_exists.mp h
    exact ⟨i, ((S.firstMatchDisplay_eq_some_iff active).mp hi).1⟩
  · intro h
    classical
    exact Option.isSome_iff_exists.mpr ⟨Nat.find h, (S.firstMatchDisplay_eq_some_iff active).mpr
      ⟨Nat.find_spec h, fun j hj => Nat.find_min h hj⟩⟩

/-- The salt that a thread reports is the least one whose address matches. -/
theorem pqSearchThread_eq_some_iff (hgpu : S.checkGpu = .ok ()) {fuel m : ℕ} (hm : m ≤ 255)
    {h tt : Poly16} {entropy : Bytes32}
    (hpub : devPubkeyFromSeed fuel h tt (devSeedFromEntropy L entropy) = some (some pk))
    {hit : DeviceHit} :
    (∃ saltFuel, pqSearchThread L fuel saltFuel h tt (S.deviceTable active) m.toUInt32 entropy =
        some (some hit)) ↔
      hit.entropy = entropy ∧ IsLeast {s | s.toNat ≤ m ∧ SaltMatches L S active pk s} hit.salt := by
  have hval : m.toUInt32.toNat = m := by
    rw [Nat.toUInt32_eq, UInt32.toNat_ofNat', Nat.mod_eq_of_lt (by omega)]
  have hset : matchingSalts
      (fun salt => pqMatchTargets L.toPrimitives (devPqAddr32 L pk salt) (S.deviceTable active))
      m.toUInt32 = {s | s.toNat ≤ m ∧ SaltMatches L S active pk s} := by
    ext s
    rw [mem_matchingSalts_iff, hval, Set.mem_ofPred_eq, pqMatchTargets_iff _ hgpu, devPqAddr32_eq]
    rfl
  rw [← hset]
  simp only [pqSearchThread, hpub, Option.bind_eq_bind, Option.bind_some]
  constructor
  · rintro ⟨saltFuel, hrun⟩
    obtain ⟨salt, hsalt, hhit⟩ := Option.bind_eq_some_iff.mp hrun
    obtain ⟨s, rfl, rfl⟩ := Option.map_eq_some_iff.mp (Option.some.inj hhit)
    refine ⟨rfl, ?_⟩
    by_cases hne : (matchingSalts (fun salt => pqMatchTargets L.toPrimitives
        (devPqAddr32 L pk salt) (S.deviceTable active)) m.toUInt32).Nonempty
    · obtain ⟨s', hs'⟩ := exists_isLeast_byte hne
      have hrun' := saltLoop_of_isLeast hs'
      obtain rfl : s = s' := by
        rcases Nat.le_total saltFuel (s'.toNat + 1) with hle | hle
        · simpa using (saltLoop_mono hle hsalt).symm.trans hrun'
        · simpa using hsalt.symm.trans (saltLoop_mono hle hrun')
      exact hs'
    · have hrun' := saltLoop_of_not_nonempty hne (by omega)
      rcases Nat.le_total saltFuel (m.toUInt32.toNat + 2) with hle | hle
      · simpa using (saltLoop_mono hle hsalt).symm.trans hrun'
      · simpa using hsalt.symm.trans (saltLoop_mono hle hrun')
  · rintro ⟨rfl, hleast⟩
    refine ⟨hit.salt.toNat + 1, ?_⟩
    rw [saltLoop_of_isLeast hleast]
    rfl

/-- A value behind two checks. -/
theorem isSome_guarded_iff {α : Type} {p q : Prop} [Decidable p] [Decidable q] {a : α} :
    (if p then none else if q then none else some a).isSome ↔ ¬ p ∧ ¬ q := by
  split
  case isTrue hp => exact iff_of_false Bool.false_ne_true fun h => h.1 hp
  case isFalse hp =>
    split
    case isTrue hq => exact iff_of_false Bool.false_ne_true fun h => h.2 hq
    case isFalse hq => exact iff_of_true rfl ⟨hp, hq⟩

/-- A raw hit for an entropy whose first sample is completed survives verification exactly if
its salt matches and is usable. -/
theorem verifyOne_isSome_iff {fuel : ℕ} {entropy : Bytes32} {fg : SmallPoly × SmallPoly}
    {kp : Keypair}
    (hfg : pqvSampleFg fuel (keygenSeedFromEntropy L.toPrimitives entropy).toList = some fg)
    (hkp : completeFromFg L.falcon fg = some kp) {salt : UInt8} :
    (verifyOne L S fuel canonicalOnly active ⟨entropy, salt⟩).isSome ↔
      SaltMatches L S active kp.publicKey.toList salt ∧
        SaltUsable L canonicalOnly kp.publicKey.toList salt := by
  rw [SaltMatches, SaltUsable, ← firstMatchDisplay_isSome_iff]
  simp only [verifyOne, hfg, hkp, Option.bind_eq_bind, Option.bind_some]
  generalize pqAddress L.toPrimitives salt kp.publicKey.toList = addr
  generalize (canonicalPqSalt L.toPrimitives kp.publicKey.toList).map Prod.fst = canonical
  generalize Address.isPqCompliant L.toPrimitives addr = compliant
  generalize S.firstMatchDisplay active (Address.toAddressString L.toPrimitives addr) = found
  rcases found with _ | target
  · rw [Option.bind_none]
    exact iff_of_false Bool.false_ne_true fun h => Bool.false_ne_true h.1
  · rw [Option.bind_some, isSome_guarded_iff]
    cases compliant <;> cases canonicalOnly <;> simp

/-- The CPU search records a key exactly if some salt matches and is usable. -/
theorem exists_wouldRecord_iff {fuel attempts m : ℕ} (hm : m ≤ 255) {entropy : Bytes32}
    {kp : Keypair} (hkey : keygenFromEntropy L fuel attempts entropy = some (.ok kp)) :
    (∃ c, (f1Worker L fuel attempts canonicalOnly m.toUInt16).WouldRecord S active entropy c ∧
        c.salt.toNat ≤ m) ↔
      ∃ s : UInt8, (s.toNat ≤ m ∧ SaltMatches L S active kp.publicKey.toList s) ∧
        SaltUsable L canonicalOnly kp.publicKey.toList s := by
  have hmatch : ∀ addr, (S.firstMatch L.toPrimitives active addr).isSome ↔
      ∃ i, S.Matches active (Address.toAddressString L.toPrimitives addr) i := by
    intro addr
    rw [S.firstMatch_eq_firstMatchDisplay, firstMatchDisplay_isSome_iff]
  constructor
  · rintro ⟨c, ⟨k, hc, hfirst, husable, -⟩, hle⟩
    obtain ⟨-, hkey', haddr, hcanonical⟩ := f1Worker_candidate hc
    rw [hkey, Option.some.injEq, Except.ok.injEq] at hkey'
    rw [← hkey'] at haddr hcanonical
    refine ⟨c.salt, ⟨hle, ?_⟩, ?_, fun hco => ?_⟩
    · rw [SaltMatches, ← haddr]
      exact (hmatch c.addr).mp hfirst
    · rw [← haddr]
      cases hco : canonicalOnly with
      | true => exact ((canonicalPqSalt_eq_some_iff _).mp (hcanonical hco)).2.1
      | false =>
          have husable' : (canonicalOnly || Address.isPqCompliant L.toPrimitives c.addr) = true :=
            husable
          rwa [hco, Bool.false_or] at husable'
    · rw [hcanonical hco, Option.map_some]
  · intro hex
    obtain ⟨s, ⟨⟨hle, hs⟩, hu⟩, hmin⟩ := exists_isLeast_byte
      (s := {s | (s.toNat ≤ m ∧ SaltMatches L S active kp.publicKey.toList s) ∧
        SaltUsable L canonicalOnly kp.publicKey.toList s}) hex
    cases hco : canonicalOnly with
    | true =>
        obtain ⟨⟨salt, addr⟩, hsalt, rfl⟩ := Option.map_eq_some_iff.mp (hu.2 hco)
        have haddr := ((canonicalPqSalt_eq_some_iff _).mp hsalt).1
        refine ⟨⟨entropy, salt, addr, kp⟩, ⟨0, ?_, ?_, rfl, fun j hj => absurd hj (by omega)⟩, hle⟩
        · simp [f1Worker, hkey, hsalt]
        · exact (hmatch addr).mpr (haddr ▸ hs)
    | false =>
        have hmval : m.toUInt16.toNat = m := by
          rw [Nat.toUInt16_eq, UInt16.toNat_ofNat', Nat.mod_eq_of_lt (by omega)]
        have hcand : ∀ j ≤ m, (f1Worker L fuel attempts false m.toUInt16).candidate entropy j =
            some ⟨entropy, j.toUInt8,
              pqAddress L.toPrimitives j.toUInt8 kp.publicKey.toList, kp⟩ := by
          intro j hj
          simp [f1Worker, hkey, hmval, hj]
        have hself : s.toNat.toUInt8 = s := UInt8.ofNat_toNat
        refine ⟨_, ⟨s.toNat, hcand _ hle, ?_, ?_, fun j hj => ⟨_, hcand j (by omega), ?_⟩⟩, ?_⟩
        · dsimp only [f1Worker]
          rw [hself]
          exact (hmatch _).mpr hs
        · dsimp only [f1Worker]
          rw [hself, hu.1]
          rfl
        · rintro ⟨hfirst, husable⟩
          have hval : j.toUInt8.toNat = j := by
            rw [Nat.toUInt8_eq, UInt8.toNat_ofNat', Nat.mod_eq_of_lt (by omega)]
          have hmem := hmin (a := j.toUInt8) ⟨⟨by omega, (hmatch _).mp hfirst⟩,
            by simpa [f1Worker] using husable, fun h => absurd (hco.symm.trans h) (by simp)⟩
          have := UInt8.le_iff_toNat_le.mp hmem
          omega
        · dsimp only
          rw [hself]
          exact hle

end Comparison

/-- **When the device reports what the CPU search reports.** For every set of targets that the
device admits, all flags, every bound up to 255, both modes, and every entropy whose first
sample the reference completes: whenever the body of the CPU search records the key with a salt
within the bound, the thread appends a hit for it that survives verification, if and only if no
salt below the least one that matches and is usable matches. -/
theorem gpu_keeps_cpu_hit_iff (L : Libraries) (S : TargetSet) (hgpu : S.checkGpu = .ok ())
    (active : Active) (m : ℕ) (hm : m ≤ 255) (canonicalOnly : Bool) (fuel attempts : ℕ)
    (hattempts : 0 < attempts) (h tt : Poly16) (entropy : Bytes32)
    (fg : SmallPoly × SmallPoly) (kp : Keypair)
    (hfg : pqvSampleFg fuel (keygenSeedFromEntropy L.toPrimitives entropy).toList = some fg)
    (hkp : completeFromFg L.falcon fg = some kp) :
    ((∃ c, (f1Worker L fuel attempts canonicalOnly m.toUInt16).WouldRecord S active entropy c ∧
        c.salt.toNat ≤ m) →
      ∃ salt, (∃ saltFuel, pqSearchThread L fuel saltFuel h tt (S.deviceTable active) m.toUInt32
          entropy = some (some ⟨entropy, salt⟩)) ∧
        (verifyOne L S fuel canonicalOnly active ⟨entropy, salt⟩).isSome) ↔
      ∀ s, IsLeast {s | (s.toNat ≤ m ∧ SaltMatches L S active kp.publicKey.toList s) ∧
          SaltUsable L canonicalOnly kp.publicKey.toList s} s →
        ∀ s' < s, ¬ SaltMatches L S active kp.publicKey.toList s' := by
  have hkey : keygenFromEntropy L fuel attempts entropy = some (.ok kp) :=
    keygenFromSeed_of_completeFromFg hfg hkp hattempts
  have hpub : devPubkeyFromSeed fuel h tt (devSeedFromEntropy L entropy) =
      some (some kp.publicKey.toList) := devPubkeyFromSeed_eq hfg hkp h tt
  have hthread : ∀ salt, ((∃ saltFuel, pqSearchThread L fuel saltFuel h tt (S.deviceTable active)
        m.toUInt32 entropy = some (some ⟨entropy, salt⟩)) ∧
      (verifyOne L S fuel canonicalOnly active ⟨entropy, salt⟩).isSome) ↔
      IsLeast {s | s.toNat ≤ m ∧ SaltMatches L S active kp.publicKey.toList s} salt ∧
        SaltUsable L canonicalOnly kp.publicKey.toList salt := by
    intro salt
    rw [pqSearchThread_eq_some_iff hgpu hm hpub, verifyOne_isSome_iff hfg hkp]
    exact ⟨fun hs => ⟨hs.1.2, hs.2.2⟩, fun hs => ⟨⟨rfl, hs.1⟩, hs.1.1.2, hs.2⟩⟩
  rw [exists_wouldRecord_iff hm hkey, exists_congr hthread]
  refine (Scan.exists_least_and_iff (fun _ => exists_isLeast_byte)
    (M := fun s : UInt8 => s.toNat ≤ m ∧ SaltMatches L S active kp.publicKey.toList s)
    (U := SaltUsable L canonicalOnly kp.publicKey.toList)).trans ?_
  refine forall₂_congr fun s hs => forall₂_congr fun s' hlt => ?_
  have hle := hs.1.1.1
  have := UInt8.lt_iff_toNat_lt.mp hlt
  exact not_congr ⟨fun h => h.2, fun h => ⟨by omega, h⟩⟩

/-! ### Keys that are reported, and lost -/

/-- Libraries in which every entropy has the same keygen seed, and the address of a salt is
zero but for its last byte, which is the salt. -/
def saltLibraries (isEdwards25519Point : Bytes32 → Bool) : Libraries :=
  { (default : Libraries) with
    sha512_256 := fun bytes =>
      if bytes.take 3 = hashidPqKey then Vector.replicate 32 1
      else if bytes.take 3 = hashidPqAddress then
        (Vector.replicate 32 0).set! 31 (bytes.getD 5 0)
      else Vector.replicate 32 0
    isEdwards25519Point := isEdwards25519Point }

/-- In the example, every entropy has a key. -/
theorem saltLibraries_completes (isEdwards25519Point : Bytes32 → Bool) (entropy : Bytes32) :
    ∃ fg kp, pqvSampleFg 64 (keygenSeedFromEntropy
        (saltLibraries isEdwards25519Point).toPrimitives entropy).toList = some fg ∧
      completeFromFg (saltLibraries isEdwards25519Point).falcon fg = some kp := by
  obtain ⟨fg, kp, hfg, hkp⟩ := completeFromFg_of_runAttempt
    (P := (saltLibraries isEdwards25519Point).falcon) runAttempt_ones (fun _ _ => rfl)
    (fun _ _ => rfl)
  exact ⟨fg, kp, by rw [← devSampleFg_eq_pqvSampleFg]; exact hfg, hkp⟩

/-- In the example, an address shows its salt in the last byte. -/
theorem pqAddress_saltLibraries (isEdwards25519Point : Bytes32 → Bool) (salt : UInt8)
    (pk : List UInt8) : pqAddress (saltLibraries isEdwards25519Point).toPrimitives salt pk =
      (Vector.replicate 32 0).set! 31 salt := rfl

/-- Whether a salt matches, by the string of its address: the point test has no part in it. -/
theorem saltMatches_saltLibraries (isEdwards25519Point : Bytes32 → Bool) {S : TargetSet}
    (pk : List UInt8) {salt : UInt8} :
    SaltMatches (saltLibraries isEdwards25519Point) S (fun _ => true) pk salt ↔
      (S.firstMatchDisplay (fun _ => true) (Address.toAddressString
        (saltLibraries fun _ => false).toPrimitives
        ((Vector.replicate 32 0).set! 31 salt))).isSome = true := by
  have hdisplay : ∀ addr,
      Address.toAddressString (saltLibraries isEdwards25519Point).toPrimitives addr =
        Address.toAddressString (saltLibraries fun _ => false).toPrimitives addr := fun _ => rfl
  rw [SaltMatches, pqAddress_saltLibraries, ← firstMatchDisplay_isSome_iff, hdisplay]

/-- In the example, the addresses of both salts match. -/
theorem saltMatches_singleA (isEdwards25519Point : Bytes32 → Bool) (pk : List UInt8)
    {salt : UInt8} (hsalt : salt ≤ 1) :
    SaltMatches (saltLibraries isEdwards25519Point) singleA (fun _ => true) pk salt := by
  refine (saltMatches_saltLibraries isEdwards25519Point pk).mpr ?_
  obtain rfl | rfl : salt = 0 ∨ salt = 1 := by
    rw [← UInt8.toNat_inj, ← UInt8.toNat_inj]
    have := UInt8.le_iff_toNat_le.mp hsalt
    exact Nat.le_one_iff_eq_zero_or_eq_one.mp this
  · decide +kernel
  · decide +kernel

/-- The set of a target that matches the address of salt 1, and not that of salt 0. -/
def singleQ : TargetSet :=
  TargetSet.single ⟨[], "QAAAAAA".toList⟩ (checkTarget_eq_ok_iff.mp rfl)

/-- If all addresses are compliant, the thread reports a key whose salt 1 is the first to
match. -/
theorem gpu_keeps_cpu_hit_above_zero : ∃ salt, salt ≠ 0 ∧
    (∃ saltFuel, pqSearchThread (saltLibraries fun _ => false) 64 saltFuel (Vector.replicate 1024 0)
        (Vector.replicate 1024 0) (singleQ.deviceTable fun _ => true) (1 : ℕ).toUInt32
        (Vector.replicate 32 0) = some (some ⟨Vector.replicate 32 0, salt⟩)) ∧
      (verifyOne (saltLibraries fun _ => false) singleQ 64 false (fun _ => true)
        ⟨Vector.replicate 32 0, salt⟩).isSome := by
  obtain ⟨fg, kp, hfg, hkp⟩ := saltLibraries_completes (fun _ => false) (Vector.replicate 32 0)
  have hzero : ¬ SaltMatches (saltLibraries fun _ => false) singleQ (fun _ => true)
      kp.publicKey.toList 0 :=
    (saltMatches_saltLibraries _ _).not.mpr (by decide +kernel)
  have hone : SaltMatches (saltLibraries fun _ => false) singleQ (fun _ => true)
      kp.publicKey.toList 1 :=
    (saltMatches_saltLibraries _ _).mpr (by decide +kernel)
  have hiff := gpu_keeps_cpu_hit_iff (saltLibraries fun _ => false) singleQ rfl (fun _ => true) 1
    (by norm_num) false 64 1 Nat.one_pos (Vector.replicate 1024 0) (Vector.replicate 1024 0)
    (Vector.replicate 32 0) fg kp hfg hkp
  obtain ⟨salt, hthread, hverify⟩ := hiff.mpr (by
    intro s hs s' hlt
    have hle := hs.1.1.1
    have hlt' := UInt8.lt_iff_toNat_lt.mp hlt
    obtain rfl : s' = 0 := UInt8.toNat_inj.mp (Nat.lt_one_iff.mp (hlt'.trans_le hle))
    exact hzero) ((exists_wouldRecord_iff (by norm_num)
      (keygenFromSeed_of_completeFromFg hfg hkp Nat.one_pos)).mpr
        ⟨1, ⟨le_rfl, hone⟩, rfl, nofun⟩)
  refine ⟨salt, ?_, hthread, hverify⟩
  rintro rfl
  exact hzero ((pqSearchThread_eq_some_iff (S := singleQ) rfl (by norm_num)
    (devPubkeyFromSeed_eq hfg hkp _ _)).mp hthread).2.1.2

/-- If the address of salt 0 is on the curve and that of salt 1 is not, and both match, the CPU
search records the key with salt 1, and the thread reports it with salt 0 only. -/
theorem gpu_loses_cpu_hit : ∃ fg kp,
    pqvSampleFg 64 (keygenSeedFromEntropy (saltLibraries fun a => a[31]! == 0).toPrimitives
        (Vector.replicate 32 0)).toList = some fg ∧
      completeFromFg (saltLibraries fun a => a[31]! == 0).falcon fg = some kp ∧
      (∃ c, (f1Worker (saltLibraries fun a => a[31]! == 0) 64 1 false
          (1 : ℕ).toUInt16).WouldRecord singleA (fun _ => true) (Vector.replicate 32 0) c ∧
        c.salt.toNat ≤ 1) ∧
      ¬ ∃ salt, (∃ saltFuel, pqSearchThread (saltLibraries fun a => a[31]! == 0) 64 saltFuel
            (Vector.replicate 1024 0) (Vector.replicate 1024 0)
            (singleA.deviceTable fun _ => true) (1 : ℕ).toUInt32 (Vector.replicate 32 0) =
          some (some ⟨Vector.replicate 32 0, salt⟩)) ∧
        (verifyOne (saltLibraries fun a => a[31]! == 0) singleA 64 false (fun _ => true)
          ⟨Vector.replicate 32 0, salt⟩).isSome := by
  obtain ⟨fg, kp, hfg, hkp⟩ :=
    saltLibraries_completes (fun a => a[31]! == 0) (Vector.replicate 32 0)
  refine ⟨fg, kp, hfg, hkp, ?_, ?_⟩
  · exact (exists_wouldRecord_iff (by norm_num)
      (keygenFromSeed_of_completeFromFg hfg hkp Nat.one_pos)).mpr
        ⟨1, ⟨le_rfl, saltMatches_singleA _ _ (by decide)⟩, rfl, nofun⟩
  · rintro ⟨salt, hthread, hverify⟩
    have hleast := ((pqSearchThread_eq_some_iff (S := singleA) rfl (by norm_num)
      (devPubkeyFromSeed_eq hfg hkp _ _)).mp hthread).2
    have hmem : (0 : UInt8) ∈ {s : UInt8 | s.toNat ≤ 1 ∧ SaltMatches
        (saltLibraries fun a => a[31]! == 0) singleA (fun _ => true) kp.publicKey.toList s} :=
      ⟨by decide, saltMatches_singleA _ _ (by decide)⟩
    have hzero := hleast.2 hmem
    obtain rfl : salt = 0 := by
      apply UInt8.toNat_inj.mp
      have := UInt8.le_iff_toNat_le.mp hzero
      exact Nat.le_zero.mp this
    have hcompliant := ((verifyOne_isSome_iff hfg hkp).mp hverify).2.1
    rw [pqAddress_saltLibraries] at hcompliant
    exact absurd hcompliant (by decide)

end FalconVanity
