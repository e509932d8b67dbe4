import FalconVanity.CpuSearch
import FalconVanity.Keygen

/-!
# The Two Schemes

What a search derives from a mix output. For `f1` it is one Falcon key, whose address
depends on a salt; for `ed25519` it is a run of seeds that share all bytes but a counter, and
an address is the public key itself.

SHA-512/256, the test for Edwards25519 points, the missing parts of Falcon, Ed25519 and the
signatures are functions of other libraries.

## Main results

* `seedAt_runStart`: the first seed of a run is the mix output.
* `f1Worker_candidate`, `ed25519Worker_candidate`: the keys that the workers try.
-/

namespace FalconVanity

/-- The functions of other libraries that a search rests on. They are parameters throughout, and
nothing is asked of them. -/
structure Libraries extends Primitives where
  falcon : FalconPrimitives
  /-- `SigningKey::from_bytes`, then `verifying_key().to_bytes()`. -/
  ed25519PublicKey : Bytes32 → Bytes32
  /-- A Falcon signature of the message verifies. -/
  falconSigns : Keypair → List UInt8 → Bool
  /-- An Ed25519 signature of the message verifies. -/
  ed25519Signs : Bytes32 → List UInt8 → Bool

instance : Inhabited Libraries where
  default :=
    { sha512_256 := fun _ => Vector.replicate 32 0
      isEdwards25519Point := fun _ => false
      falcon := default
      ed25519PublicKey := fun _ => Vector.replicate 32 0
      falconSigns := fun _ _ => true
      ed25519Signs := fun _ _ => true }

variable (L : Libraries)

/-! ### Classic keys -/

/-- `ClassicKeypair`: a signing key, by its bytes. -/
structure ClassicKeypair where
  signing : Bytes32

/-- `ClassicKeypair::from_seed`: the seed is the signing key. -/
def ClassicKeypair.fromSeed (seed : Bytes32) : ClassicKeypair := ⟨seed⟩

/-- `ClassicKeypair::public_key`: the public key that the library derives from the signing key. -/
def ClassicKeypair.publicKey (kp : ClassicKeypair) : Bytes32 := L.ed25519PublicKey kp.signing

/-- `ClassicKeypair::address`: an address of Ed25519 is the public key itself. -/
def ClassicKeypair.address (kp : ClassicKeypair) : Address := ClassicKeypair.publicKey L kp

/-- `ClassicKeypair::roundtrip`: a signature of the message verifies. -/
def ClassicKeypair.roundtrip (kp : ClassicKeypair) (msg : List UInt8) : Bool :=
  L.ed25519Signs kp.signing msg

/-- A seed with its key pair. This is what a classic search tries, and what it reports. -/
structure ClassicKey where
  seed : Bytes32
  kp : ClassicKeypair

/-- `CPU_RUN`: how many candidates a CPU worker derives from one mix output. -/
def cpuRun : ℕ := 1 <<< 15

/-- `ROUNDTRIP_MSG`: what a classic key has to sign before it is reported. -/
def roundtripMsg : List UInt8 := byteString "pq-vanity-classic-emit-check".toList

/-- `seed_at`: the base with the counter in its last eight bytes. -/
def seedAt (base : Bytes32) (counter : UInt64) : Bytes32 :=
  Vector.ofFn fun i =>
    if i.val < 24 then base[i] else (counter >>> (8 * (i.val - 24)).toUInt64).toUInt8

/-- `run_start`: the counter in the last eight bytes of a mix output. -/
def runStart (base : Bytes32) : UInt64 :=
  base[24]!.toUInt64 ||| base[25]!.toUInt64 <<< 8 ||| base[26]!.toUInt64 <<< 16 |||
    base[27]!.toUInt64 <<< 24 ||| base[28]!.toUInt64 <<< 32 ||| base[29]!.toUInt64 <<< 40 |||
    base[30]!.toUInt64 <<< 48 ||| base[31]!.toUInt64 <<< 56

/-- The keys of a mix output: seeds with a counter that starts at its own and wraps. -/
def ed25519Worker : Worker ClassicKey where
  P := L.toPrimitives
  returns _ := true
  candidate base i :=
    if i < cpuRun then
      let seed := seedAt base (runStart base + i.toUInt64)
      some ⟨seed, .fromSeed seed⟩
    else none
  address c := ClassicKeypair.address L c.kp
  usable _ := true
  polls i := (i + 1) % 1024 == 0
  roundtrip c := ClassicKeypair.roundtrip L c.kp roundtripMsg

/-! ### Falcon keys -/

/-- A key of an entropy with a salt and the address for it. This is what a search for Falcon keys
tries, and what it reports. -/
structure F1Key where
  entropy : Bytes32
  salt : UInt8
  addr : Address
  kp : Keypair

/-- `keygen_from_seed(&keygen_seed_from_entropy(&entropy))`, with bounds on the samples and
the attempts. -/
def keygenFromEntropy (fuel attempts : ℕ) (entropy : Bytes32) :
    Option (Except FalconError Keypair) :=
  keygenFromSeed L.falcon fuel attempts (keygenSeedFromEntropy L.toPrimitives entropy).toList

/-- The keys of a mix output: its one key, at the canonical salt, or at the salts from 0 to
`max_salt`, which are reduced to a byte. An entropy whose key generation fails has none. -/
def f1Worker (fuel attempts : ℕ) (canonicalOnly : Bool) (maxSalt : UInt16) : Worker F1Key where
  P := L.toPrimitives
  returns entropy := (keygenFromEntropy L fuel attempts entropy).isSome
  candidate entropy k :=
    match keygenFromEntropy L fuel attempts entropy with
    | some (.ok kp) =>
      if canonicalOnly then
        if k = 0 then
          (canonicalPqSalt L.toPrimitives kp.publicKey.toList).map fun (salt, addr) =>
            ⟨entropy, salt, addr, kp⟩
        else none
      else if k ≤ maxSalt.toNat then
        let salt := k.toUInt8
        some ⟨entropy, salt, pqAddress L.toPrimitives salt kp.publicKey.toList, kp⟩
      else none
    | _ => none
  address c := c.addr
  usable c := canonicalOnly || Address.isPqCompliant L.toPrimitives c.addr
  polls _ := false
  roundtrip c := L.falconSigns c.kp (byteString "pq-vanity-emit-check".toList)

/-! ### What the workers try -/

variable {L}

/-- A key of the `ed25519` search is a seed of the run of its mix output. -/
theorem ed25519Worker_candidate {base : Bytes32} {i : ℕ} {c : ClassicKey}
    (h : (ed25519Worker L).candidate base i = some c) :
    c.seed = seedAt base (runStart base + i.toUInt64) ∧ c.kp = .fromSeed c.seed := by
  simp only [ed25519Worker, Option.ite_none_right_eq_some, Option.some.injEq] at h
  obtain ⟨-, rfl⟩ := h
  exact ⟨rfl, rfl⟩

/-- A key of the `f1` search is the key of its mix output, with the address for its salt,
which is the canonical one if only that is searched for. -/
theorem f1Worker_candidate {fuel attempts : ℕ} {canonicalOnly : Bool} {maxSalt : UInt16}
    {entropy : Bytes32} {k : ℕ} {c : F1Key}
    (h : (f1Worker L fuel attempts canonicalOnly maxSalt).candidate entropy k = some c) :
    c.entropy = entropy ∧ keygenFromEntropy L fuel attempts entropy = some (.ok c.kp) ∧
      c.addr = pqAddress L.toPrimitives c.salt c.kp.publicKey.toList ∧
      (canonicalOnly = true →
        canonicalPqSalt L.toPrimitives c.kp.publicKey.toList = some (c.salt, c.addr)) := by
  simp only [f1Worker] at h
  split at h
  case h_1 kp hkey =>
    cases canonicalOnly with
    | true =>
        simp only [if_true, Option.ite_none_right_eq_some, Option.map_eq_some_iff] at h
        obtain ⟨-, ⟨salt, addr⟩, hsalt, rfl⟩ := h
        exact ⟨rfl, hkey, ((canonicalPqSalt_eq_some_iff _).mp hsalt).1, fun _ => hsalt⟩
    | false =>
        simp only [Bool.false_eq_true, if_false, Option.ite_none_right_eq_some,
          Option.some.injEq] at h
        obtain ⟨-, rfl⟩ := h
        exact ⟨rfl, hkey, rfl, fun hf => nomatch hf⟩
  case h_2 => cases h

end FalconVanity
