import FalconVanity.CpuHygiene
import FalconVanity.GpuSearch

/-!
# What Is Emitted

The records of all four searches. A record is right when its printed mnemonic decodes to its
entropy, its key is the one that the reference derivation gives for this entropy, its address
is the one of the key, and the display string of the address shows the target, which was
still searched for when the record claimed it.

The CPU search derives the key with the loop of the reference; the GPU search completes the
first sample only, for every list of raw hits that the device returns.

## Main results

* `verifyOne_right`: a raw hit that survives verification is right.
* `emission_sound`: the records of all searches are right.
* `one_record_for_each_mix_output`: no two records stem from one call of the mixer.
-/

namespace FalconVanity

variable (L : Libraries) (W : WordList) (S : TargetSet)

/-! ### Records that are right -/

/-- The mnemonic that is printed for an entropy decodes to it. -/
def MnemonicControls (entropy : Bytes32) : Prop :=
  ∃ m, keyToMnemonic W L.sha512_256 entropy = some m ∧
    mnemonicToKey W L.sha512_256 m = some (.ok entropy)

/-- The display string of an address shows a target of the list. -/
def ShowsTarget (addr : Address) (target : ℕ) : Prop :=
  (Address.toAddressString L.toPrimitives addr).length = 58 ∧
    ∃ t, S.list[target]? = some t ∧ t.pfx <+: Address.toAddressString L.toPrimitives addr ∧
      t.sfx <:+ Address.toAddressString L.toPrimitives addr

/-- A record of a Falcon search is right: `keygen_from_seed` gives its key, with enough
attempts, its address is compliant, and the canonical one if only that is searched for. -/
structure F1Right (fuel : ℕ) (canonicalOnly : Bool) (c : F1Key) (target : ℕ) : Prop where
  mnemonic : MnemonicControls L W c.entropy
  keygen : ∃ n, ∀ attempts ≥ n, keygenFromEntropy L fuel attempts c.entropy = some (.ok c.kp)
  address : c.addr = pqAddress L.toPrimitives c.salt c.kp.publicKey.toList
  shows : ShowsTarget L S c.addr target
  compliant : Address.isPqCompliant L.toPrimitives c.addr = true
  canonical : canonicalOnly = true →
    canonicalPqSalt L.toPrimitives c.kp.publicKey.toList = some (c.salt, c.addr)

/-- A record of a classic search is right. Its address is the public key. -/
structure ClassicRight (c : ClassicKey) (target : ℕ) : Prop where
  mnemonic : MnemonicControls L W c.seed
  keypair : c.kp = .fromSeed c.seed
  address : ClassicKeypair.address L c.kp = ClassicKeypair.publicKey L c.kp
  shows : ShowsTarget L S (ClassicKeypair.address L c.kp) target

variable {L W S}

/-- The words that are shown give back the entropy. -/
theorem mnemonicControls (entropy : Bytes32) : MnemonicControls L W entropy := by
  obtain ⟨m, hm, -, hiff⟩ := mnemonicToKey_keyToMnemonic W L.sha512_256 entropy
  exact ⟨m, hm, (hiff m).mpr rfl⟩

/-- An address that matches an active target shows it. -/
theorem showsTarget_of_matches {active : Active} {addr : Address} {target : ℕ}
    (h : S.Matches active (Address.toAddressString L.toPrimitives addr) target) :
    ShowsTarget L S addr target :=
  ⟨Address.length_toAddressString _ addr, h.2⟩

/-! ### The CPU searches -/

section Cpu

variable {cfg : SearchConfig} {mix : EntropyMix}

/-- A record of a CPU search is a hit of its worker, and its target was active. -/
theorem hit_of_mem_emitted {κ : Type} {V : Worker κ} {s : SearchState κ cfg}
    (h : SearchReachable V cfg mix s) {r : HitRecord κ} (hr : r ∈ s.shared.emitted) :
    r.hit.Sound V cfg s.shared ∧ r.wasActive = true := by
  have hmem : r ∈ s.shared.accepted :=
    (Multiset.coe_le.mp (emitted_le_accepted h)).subset hr
  obtain ⟨hsound, hactive, -⟩ := (Sound.reachable h).accepted r hmem
  exact ⟨hsound, hactive⟩

/-- What a CPU search for Falcon keys emits is right, for every interleaving. -/
theorem f1_cpu_right {fuel attempts : ℕ} {canonicalOnly : Bool} {maxSalt : UInt16}
    {s : SearchState F1Key cfg}
    (h : SearchReachable (f1Worker L fuel attempts canonicalOnly maxSalt) cfg mix s)
    {r : HitRecord F1Key} (hr : r ∈ s.shared.emitted) :
    r.wasActive = true ∧ F1Right L W cfg.targets fuel canonicalOnly r.hit.key r.hit.target := by
  obtain ⟨hsound, hactive⟩ := hit_of_mem_emitted h hr
  obtain ⟨hentropy, hkey, haddr, hcanonical⟩ := f1Worker_candidate hsound.candidate
  refine ⟨hactive, mnemonicControls _, ⟨attempts, fun n hn => ?_⟩, haddr,
    ⟨Address.length_toAddressString _ _, hsound.shows⟩, ?_, hcanonical⟩
  · rw [hentropy]
    exact keygenFromSeed_mono hn hkey
  · have husable : (canonicalOnly || Address.isPqCompliant L.toPrimitives r.hit.key.addr) = true :=
      hsound.usable
    cases hc : canonicalOnly with
    | true => exact ((canonicalPqSalt_eq_some_iff _).mp (hcanonical hc)).2.1
    | false => rwa [hc, Bool.false_or] at husable

/-- What a CPU search for Ed25519 keys emits is right, for every interleaving. -/
theorem classic_cpu_right {s : SearchState ClassicKey cfg}
    (h : SearchReachable (ed25519Worker L) cfg mix s) {r : HitRecord ClassicKey}
    (hr : r ∈ s.shared.emitted) :
    r.wasActive = true ∧ ClassicRight L W cfg.targets r.hit.key r.hit.target := by
  obtain ⟨hsound, hactive⟩ := hit_of_mem_emitted h hr
  obtain ⟨-, hkp⟩ := ed25519Worker_candidate hsound.candidate
  exact ⟨hactive, mnemonicControls _, hkp, rfl, Address.length_toAddressString _ _, hsound.shows⟩

end Cpu

/-! ### The GPU searches -/

/-- **A raw hit that survives verification is right**, and its target was active. -/
theorem verifyOne_right {fuel : ℕ} {canonicalOnly : Bool} {active : Active} {hit : DeviceHit}
    {v : VerifiedHit} (h : verifyOne L S fuel canonicalOnly active hit = some v) :
    F1Right L W S fuel canonicalOnly v.toF1Key v.target := by
  simp only [verifyOne, bind, Option.bind_eq_some_iff] at h
  obtain ⟨fg, hfg, kp, hkp, target, htarget, h⟩ := h
  split at h
  · cases h
  split at h
  · cases h
  rename_i hcompliant hcanonical
  cases h
  have hcompliant' : Address.isPqCompliant L.toPrimitives
      (pqAddress L.toPrimitives hit.salt kp.publicKey.toList) = true := by simpa using hcompliant
  refine ⟨mnemonicControls _, ⟨1, fun n hn => keygenFromSeed_of_completeFromFg hfg hkp hn⟩, rfl,
    showsTarget_of_matches ((S.firstMatchDisplay_eq_some_iff active).mp htarget).1, hcompliant',
    fun hc => ?_⟩
  rw [hc, Bool.true_and, decide_eq_true_eq, not_not, Option.map_eq_some_iff] at hcanonical
  obtain ⟨⟨salt, addr⟩, hsalt, rfl⟩ := hcanonical
  rw [hsalt, ((canonicalPqSalt_eq_some_iff _).mp hsalt).1]

section Gpu

variable {cfg : GpuConfig} {mix : EntropyMix}

/-- What a GPU search for Falcon keys emits is right, for all lists of raw hits. -/
theorem f1_gpu_right {fuel : ℕ} {canonicalOnly : Bool} {s : GpuState VerifiedHit}
    (h : GpuReachable (f1Filter L cfg.targets fuel canonicalOnly) cfg mix s)
    {r : GpuRecord VerifiedHit} (hr : r ∈ s.records) :
    r.wasActive = true ∧
      F1Right L W cfg.targets fuel canonicalOnly r.key.toF1Key r.target := by
  obtain ⟨flags, raw, hbatch⟩ := (BatchRecords.reachable h).picked r hr
  obtain ⟨v, hv, active, hpick, hwas⟩ := hbatch.picked
  obtain ⟨hit, -, hverify⟩ := List.mem_filterMap.mp hv
  simp only [f1Filter, Option.ite_none_right_eq_some, Option.some.injEq, Prod.mk.injEq] at hpick
  obtain ⟨hactive, rfl, htarget⟩ := hpick
  rw [← htarget] at hwas ⊢
  exact ⟨hwas.trans hactive, verifyOne_right hverify⟩

/-- What a GPU search for Ed25519 keys emits is right, for all lists of raw hits. -/
theorem classic_gpu_right {s : GpuState ClassicKey}
    (h : GpuReachable (ed25519Filter L cfg.targets) cfg mix s) {r : GpuRecord ClassicKey}
    (hr : r ∈ s.records) :
    r.wasActive = true ∧ ClassicRight L W cfg.targets r.key r.target := by
  obtain ⟨flags, raw, hbatch⟩ := (BatchRecords.reachable h).picked r hr
  obtain ⟨seed, -, active, hpick, hwas⟩ := hbatch.picked
  simp only [ed25519Filter, Option.map_eq_some_iff, Prod.mk.injEq] at hpick
  obtain ⟨target, htarget, hkey, rfl⟩ := hpick
  have hmatches := ((cfg.targets.firstMatchDisplay_eq_some_iff active).mp htarget).1
  rw [← hkey]
  exact ⟨hwas.trans hmatches.1, mnemonicControls _, rfl, rfl, showsTarget_of_matches hmatches⟩

end Gpu

/-! ### All searches -/

/-- **Emission soundness.** In every state of every run of the four searches, for every
interleaving of the threads and all lists of raw hits that the device returns, every record
is right, and its target was active when it was claimed. -/
theorem emission_sound (L : Libraries) (W : WordList) (mix : EntropyMix) (fuel : ℕ) :
    (∀ (attempts : ℕ) (canonicalOnly : Bool) (maxSalt : UInt16) (cfg : SearchConfig)
      (s : SearchState F1Key cfg),
      SearchReachable (f1Worker L fuel attempts canonicalOnly maxSalt) cfg mix s →
        ∀ r ∈ s.shared.emitted, r.wasActive = true ∧
          F1Right L W cfg.targets fuel canonicalOnly r.hit.key r.hit.target) ∧
    (∀ (cfg : SearchConfig) (s : SearchState ClassicKey cfg),
      SearchReachable (ed25519Worker L) cfg mix s →
        ∀ r ∈ s.shared.emitted, r.wasActive = true ∧
          ClassicRight L W cfg.targets r.hit.key r.hit.target) ∧
    (∀ (canonicalOnly : Bool) (cfg : GpuConfig) (s : GpuState VerifiedHit),
      GpuReachable (f1Filter L cfg.targets fuel canonicalOnly) cfg mix s →
        ∀ r ∈ s.records, r.wasActive = true ∧
          F1Right L W cfg.targets fuel canonicalOnly r.key.toF1Key r.target) ∧
    (∀ (cfg : GpuConfig) (s : GpuState ClassicKey),
      GpuReachable (ed25519Filter L cfg.targets) cfg mix s →
        ∀ r ∈ s.records, r.wasActive = true ∧
          ClassicRight L W cfg.targets r.key r.target) :=
  ⟨fun _ _ _ _ _ h _ hr => f1_cpu_right h hr, fun _ _ h _ hr => classic_cpu_right h hr,
    fun _ _ _ h _ hr => f1_gpu_right h hr, fun _ _ h _ hr => classic_gpu_right h hr⟩

/-- **One record for each mix output.** Any two records of a CPU search stem from different
calls of the mixer, and so do any two records of a GPU search that does not allow sibling
hits. A record stems from the output of its call, and all buffers that were hashed are
different while there are fewer than `2 ^ 64`. -/
theorem one_record_for_each_mix_output (P : Primitives) (extra : Option (List UInt8))
    (probe : Bytes32 × Bool) (cpuLive : Bool) (cpuName : Str) (jitter : Bytes32) :
    (∀ {κ : Type} (V : Worker κ) (cfg : SearchConfig) (s : SearchState κ cfg),
      SearchReachable V cfg (.new P extra probe cpuLive cpuName jitter) s →
        (s.shared.emitted.Pairwise fun r r' => r.hit.draw.call ≠ r'.hit.draw.call) ∧
        (∀ r ∈ s.shared.emitted, ∃ buf, s.shared.mix.calls[r.hit.draw.call]? = some buf ∧
          r.hit.draw.entropy = V.P.sha512_256 buf) ∧
        (s.shared.mix.calls.length < 2 ^ 64 → s.shared.mix.calls.Nodup)) ∧
    (∀ {δ ε κ : Type} (F : HitFilter δ ε κ) (cfg : GpuConfig) (s : GpuState κ),
      GpuReachable F cfg (.new P extra probe cpuLive cpuName jitter) s →
        (cfg.allowSiblingHits = false → s.records.Pairwise fun r r' => r.call ≠ r'.call) ∧
        (∀ r ∈ s.records, ∃ buf, s.mix.calls[r.call]? = some buf ∧
          r.base = F.P.sha512_256 buf) ∧
        (s.mix.calls.length < 2 ^ 64 → s.mix.calls.Nodup)) := by
  refine ⟨fun V cfg s h => ⟨?_, fun r hr => ?_, fun hlt => ?_⟩,
    fun F cfg s h => ⟨fun hallow => ?_, fun r hr => ?_, fun hlt => ?_⟩⟩
  · have hnodup := (Distinct.reachable h).nodup
    rw [servingCalls, Multiset.nodup_add] at hnodup
    exact List.pairwise_map.mp (emitted_map_nodup h (Multiset.coe_nodup.mp hnodup.1))
  · exact (hit_of_mem_emitted h hr).1.draw.output
  · exact TracedMix.calls_nodup (counted_reachable rfl h) hlt.le
  · exact List.pairwise_map.mp ((BatchRecords.reachable h).distinct hallow)
  · exact (BatchRecords.reachable h).calls r hr
  · exact TracedMix.calls_nodup (gpu_counted_reachable rfl h) hlt.le

end FalconVanity
