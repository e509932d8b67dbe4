import FalconVanity.CpuSearch
import FalconVanity.Schemes

/-!
# The GPU Searches

The host loops of the GPU searches: a mix output for each batch, a list of raw hits from the
device, and an emission loop over the hits that survive verification. Nothing is assumed of
the lists that the device returns.

The two emission loops are one, with a `pick` that decides whether an element is emitted and
for which target: the classic search compares the address at this moment, the Falcon search
has compared it before the loop and looks at the flag of the target it found.

## Main results

* `emitLoop_spec`: what the emission loop adds to the records.
* `BatchRecords.reachable`: the records of a search, over all lists of raw hits.
-/

namespace FalconVanity

open Transitions

/-! ### States -/

/-- An emitted key, with the number that is printed. `call` is the call of the mixer that the
batch stems from, `base` its output, and `wasActive` the flag of the target just before the
claim. -/
structure GpuRecord (κ : Type) where
  key : κ
  target : ℕ
  num : ℕ
  call : ℕ
  base : Bytes32
  wasActive : Bool

/-- The options of a GPU search. `cmd_gpu` rejects a count of zero. `batches` is the number
of batches after which a benchmark stops, or 0. -/
structure GpuConfig where
  targets : TargetSet
  count : ℕ
  count_pos : 1 ≤ count
  allowSiblingHits : Bool
  batches : ℕ

/-- The variables of the batch loop. `done` says that the loop was left. -/
structure GpuState (κ : Type) where
  mix : TracedMix
  active : Active
  found : ℕ
  batch : ℕ
  batchEmitted : ℕ
  siblings : ℕ
  records : List (GpuRecord κ)
  done : Bool

/-- What a batch gets from outside: the entropy sources, and the raw hits of the device,
unless the launch fails. -/
structure BatchSources (δ : Type) where
  sources : Sources
  device : Option (List δ)

/-- How a scheme treats the raw hits `δ` of a batch: it verifies them to a list of candidates
`ε`, and picks from each the key to emit and its target, under the flags of the moment. -/
structure HitFilter (δ ε κ : Type) where
  P : Primitives
  verify : Active → List δ → List ε
  pick : Active → ε → Option (κ × ℕ)

variable {δ ε κ : Type} (F : HitFilter δ ε κ) (cfg : GpuConfig)

/-! ### The loops -/

/-- One emission: the claim, the record, and the counters. -/
def emitHit (call : ℕ) (base : Bytes32) (s : GpuState κ) (key : κ) (target : ℕ) : GpuState κ :=
  { s with
    active := (cfg.targets.claim s.active target).2
    found := s.found + 1
    batchEmitted := s.batchEmitted + 1
    records := s.records ++ [⟨key, target, s.found + 1, call, base, s.active target⟩] }

/-- The emission loop of a batch. -/
def emitLoop (call : ℕ) (base : Bytes32) : List ε → GpuState κ → GpuState κ
  | [], s => s
  | x :: xs, s =>
    match F.pick s.active x with
    | none => emitLoop call base xs s
    | some (key, target) =>
      if !cfg.allowSiblingHits && s.batchEmitted ≥ 1 then
        emitLoop call base xs { s with siblings := s.siblings + 1 }
      else
        let s := emitHit cfg call base s key target
        if s.found ≥ cfg.count || !cfg.targets.anyActive s.active then s
        else emitLoop call base xs s

/-- One round of the batch loop. It is left with an error when the entropy source or the
launch fails. -/
def gpuBatch (s : GpuState κ) (b : BatchSources δ) : Option (GpuState κ) :=
  if s.done then none
  else
    let mix :=
      if s.batch > 0 then s.mix.refresh b.sources.jitter b.sources.tpm else s.mix
    match mix.next F.P b.sources.os b.sources.cpu with
    | none => some { s with mix := mix, done := true }
    | some (base, mix') =>
      match b.device with
      | none => some { s with mix := mix', done := true }
      | some raw =>
        let s := emitLoop F cfg mix.calls.length base (F.verify s.active raw)
          { s with mix := mix', batchEmitted := 0 }
        let stop := s.found ≥ cfg.count || !cfg.targets.anyActive s.active ||
          cfg.batches ≠ 0 && s.batch + 1 ≥ cfg.batches
        some { s with batch := s.batch + 1, done := stop }

/-- The state before the first batch. -/
def gpuStart (mix : EntropyMix) : GpuState κ where
  mix := .start mix
  active := fun _ => true
  found := 0
  batch := 0
  batchEmitted := 0
  siblings := 0
  records := []
  done := false

/-- A state between two batches, or after the last one, for some lists of raw hits. -/
def GpuReachable (mix : EntropyMix) (s : GpuState κ) : Prop :=
  Reachable (gpuBatch F cfg) (gpuStart mix) s

/-! ### The schemes -/

section Schemes

variable (L : Libraries) (S : TargetSet)

/-- `pq_cuda::Hit`: what the device returns of a hit: the entropy, and the salt that it stores. -/
structure DeviceHit where
  entropy : Bytes32
  salt : UInt8

/-- A raw device hit that survived verification and is ready to emit. Its target is the first one
that matched before the batch. -/
structure VerifiedHit extends F1Key where
  roundtrip : Bool
  /-- Index of the matched target in the target set. -/
  target : ℕ

/-- `verify_one`: re-derive, complete, and check one raw device hit. -/
def verifyOne (fuel : ℕ) (canonicalOnly : Bool) (active : Active) (hit : DeviceHit) :
    Option VerifiedHit := do
  let seed := keygenSeedFromEntropy L.toPrimitives hit.entropy
  let fg ← pqvSampleFg fuel seed.toList
  let kp ← completeFromFg L.falcon fg
  let addr := pqAddress L.toPrimitives hit.salt kp.publicKey.toList
  let target ← S.firstMatchDisplay active (Address.toAddressString L.toPrimitives addr)
  if !Address.isPqCompliant L.toPrimitives addr then none
  else if canonicalOnly &&
      (canonicalPqSalt L.toPrimitives kp.publicKey.toList).map Prod.fst ≠ some hit.salt then none
  else
    some
      { entropy := hit.entropy
        salt := hit.salt
        addr := addr
        kp := kp
        roundtrip := L.falconSigns kp (byteString "pq-vanity-gpu-emit".toList)
        target := target }

/-- `verify_hits`: the hits in their order, without the culled ones. The chunks that are
verified in parallel have their own slots, and the flags do not change meanwhile. -/
def verifyHits (fuel : ℕ) (canonicalOnly : Bool) (active : Active) (hits : List DeviceHit) :
    List VerifiedHit :=
  hits.filterMap (verifyOne L S fuel canonicalOnly active)

/-- The Falcon search: a verified hit is emitted if its target is still active. -/
def f1Filter (fuel : ℕ) (canonicalOnly : Bool) : HitFilter DeviceHit VerifiedHit VerifiedHit where
  P := L.toPrimitives
  verify := verifyHits L S fuel canonicalOnly
  pick active v := if active v.target then some (v, v.target) else none

/-- The classic search: a seed is re-derived, and emitted if some active target matches. -/
def ed25519Filter : HitFilter Bytes32 Bytes32 ClassicKey where
  P := L.toPrimitives
  verify _ seeds := seeds
  pick active seed :=
    let kp := ClassicKeypair.fromSeed seed
    (S.firstMatchDisplay active
      (Address.toAddressString L.toPrimitives (ClassicKeypair.address L kp))).map (⟨seed, kp⟩, ·)

end Schemes

/-! ### The emission loop -/

variable {F cfg}

/-- A record of a batch: some element that survived verification was picked for it. -/
structure GpuRecord.OfBatch (F : HitFilter δ ε κ) (call : ℕ) (base : Bytes32) (xs : List ε)
    (r : GpuRecord κ) : Prop where
  call_eq : r.call = call
  base_eq : r.base = base
  picked : ∃ x ∈ xs, ∃ active : Active,
    F.pick active x = some (r.key, r.target) ∧ r.wasActive = active r.target

theorem GpuRecord.OfBatch.cons {call : ℕ} {base : Bytes32} {x : ε} {xs : List ε}
    {r : GpuRecord κ} (h : r.OfBatch F call base xs) : r.OfBatch F call base (x :: xs) := by
  obtain ⟨y, hy, hpick⟩ := h.picked
  exact ⟨h.call_eq, h.base_eq, y, List.mem_cons_of_mem x hy, hpick⟩

/-- What the emission loop of a batch does: it appends records of the batch, numbered on from
the hits found so far, and without sibling hits at most one in the batch. -/
structure Emits (F : HitFilter δ ε κ) (cfg : GpuConfig) (call : ℕ) (base : Bytes32)
    (xs : List ε) (s t : GpuState κ) (new : List (GpuRecord κ)) : Prop where
  records : t.records = s.records ++ new
  ofBatch : ∀ r ∈ new, r.OfBatch F call base xs
  nums : new.map GpuRecord.num = List.range' (s.found + 1) new.length
  found : t.found = s.found + new.length
  mix : t.mix = s.mix
  batch : t.batch = s.batch
  siblings : cfg.allowSiblingHits = false → s.batchEmitted + new.length ≤ max 1 s.batchEmitted

/-- The loop passes over an element. -/
theorem Emits.skip {call : ℕ} {base : Bytes32} {x : ε} {xs : List ε} {s s' t : GpuState κ}
    {new : List (GpuRecord κ)} (h : Emits F cfg call base xs s' t new)
    (hrecords : s'.records = s.records) (hfound : s'.found = s.found) (hmix : s'.mix = s.mix)
    (hbatch : s'.batch = s.batch) (hemitted : s'.batchEmitted = s.batchEmitted) :
    Emits F cfg call base (x :: xs) s t new where
  records := hrecords ▸ h.records
  ofBatch := fun r hr => (h.ofBatch r hr).cons
  nums := hfound ▸ h.nums
  found := hfound ▸ h.found
  mix := h.mix.trans hmix
  batch := h.batch.trans hbatch
  siblings := hemitted ▸ h.siblings

/-- The loop emits a hit for an element, and goes on. -/
theorem Emits.emit {call : ℕ} {base : Bytes32} {x : ε} {xs : List ε} {s t : GpuState κ}
    {key : κ} {target : ℕ} {new : List (GpuRecord κ)}
    (h : Emits F cfg call base xs (emitHit cfg call base s key target) t new)
    (hpick : F.pick s.active x = some (key, target))
    (hfirst : cfg.allowSiblingHits = false → s.batchEmitted = 0) :
    Emits F cfg call base (x :: xs) s t
      (⟨key, target, s.found + 1, call, base, s.active target⟩ :: new) where
  records := by
    rw [h.records, emitHit, List.append_assoc, List.singleton_append]
  ofBatch := by
    intro r hr
    rcases List.mem_cons.mp hr with rfl | hr
    · exact ⟨rfl, rfl, x, List.mem_cons_self, s.active, hpick, rfl⟩
    · exact (h.ofBatch r hr).cons
  nums := by
    rw [List.map_cons, h.nums, List.length_cons, List.range'_succ]
    rfl
  found := by
    have hfound := h.found
    simp only [emitHit, List.length_cons] at hfound ⊢
    omega
  mix := h.mix
  batch := h.batch
  siblings := by
    intro hallow
    have hle := h.siblings hallow
    have hzero := hfirst hallow
    simp only [emitHit, List.length_cons] at hle ⊢
    omega

/-- The loop ends. -/
theorem Emits.nil (call : ℕ) (base : Bytes32) (xs : List ε) (s : GpuState κ) :
    Emits F cfg call base xs s s [] where
  records := (List.append_nil _).symm
  ofBatch := by simp
  nums := rfl
  found := rfl
  mix := rfl
  batch := rfl
  siblings := fun _ => le_max_right _ _

/-- **The emission loop** appends records of its batch. -/
theorem emitLoop_emits (call : ℕ) (base : Bytes32) (xs : List ε) (s : GpuState κ) :
    ∃ new, Emits F cfg call base xs s (emitLoop F cfg call base xs s) new := by
  induction xs generalizing s with
  | nil => exact ⟨[], .nil call base [] s⟩
  | cons x xs ih =>
      rw [emitLoop]
      cases hpick : F.pick s.active x with
      | none =>
          obtain ⟨new, h⟩ := ih s
          exact ⟨new, h.skip rfl rfl rfl rfl rfl⟩
      | some kt =>
          obtain ⟨key, target⟩ := kt
          dsimp only
          by_cases hsibling : (!cfg.allowSiblingHits && decide (s.batchEmitted ≥ 1)) = true
          · rw [if_pos hsibling]
            obtain ⟨new, h⟩ := ih { s with siblings := s.siblings + 1 }
            exact ⟨new, h.skip rfl rfl rfl rfl rfl⟩
          · have hfirst : cfg.allowSiblingHits = false → s.batchEmitted = 0 := by
              intro hallow
              rw [hallow] at hsibling
              simpa using hsibling
            rw [if_neg hsibling]
            split
            · exact ⟨_, (Emits.nil call base xs _).emit hpick hfirst⟩
            · obtain ⟨new, h⟩ := ih (emitHit cfg call base s key target)
              exact ⟨_, h.emit hpick hfirst⟩

/-! ### Whole searches -/

/-- The records of a search. -/
structure BatchRecords (F : HitFilter δ ε κ) (cfg : GpuConfig) (s : GpuState κ) : Prop where
  found : s.found = s.records.length
  nums : s.records.map GpuRecord.num = List.range' 1 s.records.length
  calls : ∀ r ∈ s.records, ∃ buf, s.mix.calls[r.call]? = some buf ∧
    r.base = F.P.sha512_256 buf
  picked : ∀ r ∈ s.records, ∃ flags raw, r.OfBatch F r.call r.base (F.verify flags raw)
  distinct : cfg.allowSiblingHits = false → (s.records.map GpuRecord.call).Nodup

/-- The mixer at the draw of a batch: refreshed, or as it was. -/
def Renewed (m m' : TracedMix) : Prop := m' = m ∨ ∃ jitter tpm, m' = m.refresh jitter tpm

theorem Renewed.calls {m m' : TracedMix} (h : Renewed m m') : m'.calls = m.calls := by
  rcases h with rfl | ⟨jitter, tpm, rfl⟩
  · rfl
  · rfl

theorem Renewed.counted {m m' : TracedMix} (h : Renewed m m') (hm : m.Counted) :
    m'.Counted := by
  rcases h with rfl | ⟨jitter, tpm, rfl⟩
  · exact hm
  · exact hm.refresh jitter tpm

/-- A round of the batch loop, with the mixer `m` at its draw. One mix output is drawn, and all
records of the round have it as their base. -/
inductive Round (F : HitFilter δ ε κ) (cfg : GpuConfig) (s : GpuState κ) (m : TracedMix) :
    GpuState κ → Prop
  | noEntropy : Round F cfg s m { s with mix := m, done := true }
  | launchFailed (os cpu : Bytes32) :
      Round F cfg s m { s with mix := m.count os cpu m.cached, done := true }
  | batch (os cpu : Bytes32) (raw : List δ) (t : GpuState κ) (new : List (GpuRecord κ))
      (stop : Bool) :
      Emits F cfg m.calls.length (F.P.sha512_256 (m.buffer os cpu m.cached))
        (F.verify s.active raw) { s with mix := m.count os cpu m.cached, batchEmitted := 0 } t new →
      Round F cfg s m { t with batch := t.batch + 1, done := stop }

theorem Round.of_gpuBatch {s t : GpuState κ} {b : BatchSources δ}
    (h : gpuBatch F cfg s b = some t) : ∃ m, Renewed s.mix m ∧ Round F cfg s m t := by
  rw [gpuBatch] at h
  split at h
  · cases h
  dsimp only at h
  refine ⟨if s.batch > 0 then s.mix.refresh b.sources.jitter b.sources.tpm else s.mix, ?_, ?_⟩
  · split
    · exact .inr ⟨_, _, rfl⟩
    · exact .inl rfl
  generalize (if s.batch > 0 then s.mix.refresh b.sources.jitter b.sources.tpm else s.mix) = m
    at h ⊢
  rw [TracedMix.next] at h
  cases hos : b.sources.os with
  | none =>
      rw [hos] at h
      cases h
      exact .noEntropy
  | some os =>
      rw [hos] at h
      cases hdev : b.device with
      | none =>
          rw [hdev] at h
          cases h
          exact .launchFailed os b.sources.cpu
      | some raw =>
          rw [hdev] at h
          cases h
          obtain ⟨new, hnew⟩ := @emitLoop_emits _ _ _ F cfg m.calls.length
            (F.P.sha512_256 (m.buffer os b.sources.cpu m.cached)) (F.verify s.active raw)
            { s with mix := m.count os b.sources.cpu m.cached, batchEmitted := 0 }
          exact .batch os b.sources.cpu raw _ new _ hnew

/-- A round that emits nothing. -/
theorem BatchRecords.of_mix {s : GpuState κ} (h : BatchRecords F cfg s) {m : TracedMix}
    {more : List (List UInt8)} (hcalls : m.calls = s.mix.calls ++ more) (stop : Bool) :
    BatchRecords F cfg { s with mix := m, done := stop } where
  found := h.found
  nums := h.nums
  calls := by
    intro r hr
    obtain ⟨buf, hbuf, hbase⟩ := h.calls r hr
    refine ⟨buf, ?_, hbase⟩
    dsimp only
    rw [hcalls, List.getElem?_append_left (List.getElem?_eq_some_iff.mp hbuf).1, hbuf]
  picked := h.picked
  distinct := h.distinct

/-- A round that emits hits of its batch. -/
theorem BatchRecords.of_emits {s t : GpuState κ} {m : TracedMix} {os cpu : Bytes32}
    {flags : Active} {raw : List δ} {new : List (GpuRecord κ)} (h : BatchRecords F cfg s)
    (hcalls : m.calls = s.mix.calls)
    (he : Emits F cfg m.calls.length (F.P.sha512_256 (m.buffer os cpu m.cached))
      (F.verify flags raw) { s with mix := m.count os cpu m.cached, batchEmitted := 0 } t new)
    (n : ℕ) (stop : Bool) : BatchRecords F cfg { t with batch := n, done := stop } := by
  have hmix : t.mix = m.count os cpu m.cached := he.mix
  have hrecords : t.records = s.records ++ new := he.records
  have hlt : ∀ r ∈ s.records, r.call < m.calls.length := by
    intro r hr
    obtain ⟨buf, hbuf, -⟩ := h.calls r hr
    rw [hcalls]
    exact (List.getElem?_eq_some_iff.mp hbuf).1
  refine ⟨?_, ?_, ?_, ?_, ?_⟩
  · have hfound := he.found
    dsimp only at hfound ⊢
    rw [hfound, hrecords, h.found, List.length_append]
  · have hnums := he.nums
    dsimp only at hnums ⊢
    rw [hrecords, List.map_append, h.nums, hnums, h.found, List.length_append,
      ← List.range'_append_1, add_comm 1]
  · intro r hr
    dsimp only at hr ⊢
    rw [hmix, TracedMix.count_calls]
    rw [hrecords] at hr
    rcases List.mem_append.mp hr with hr | hr
    · obtain ⟨buf, hbuf, hbase⟩ := h.calls r hr
      refine ⟨buf, ?_, hbase⟩
      rw [List.getElem?_append_left (hlt r hr), hcalls, hbuf]
    · have hr := he.ofBatch r hr
      exact ⟨m.buffer os cpu m.cached, by rw [hr.call_eq, List.getElem?_concat_length],
        hr.base_eq⟩
  · intro r hr
    dsimp only at hr
    rw [hrecords] at hr
    rcases List.mem_append.mp hr with hr | hr
    · exact h.picked r hr
    · have hr := he.ofBatch r hr
      exact ⟨flags, raw, rfl, rfl, hr.picked⟩
  · intro hallow
    dsimp only
    have hone : new.length ≤ 1 := by
      have hle := he.siblings hallow
      dsimp only at hle
      omega
    rw [hrecords, List.map_append, List.nodup_append]
    refine ⟨h.distinct hallow, ?_, ?_⟩
    · rcases new with _ | ⟨r, _ | ⟨r', rest⟩⟩
      · exact List.nodup_nil
      · exact List.nodup_singleton _
      · simp at hone
    · intro c hc c' hc'
      obtain ⟨r, hr, rfl⟩ := List.mem_map.mp hc
      obtain ⟨r', hr', rfl⟩ := List.mem_map.mp hc'
      rw [(he.ofBatch r' hr').call_eq]
      exact (hlt r hr).ne

/-- **The records of a GPU search**, whatever lists the device returns. -/
theorem BatchRecords.reachable {mix : EntropyMix} {s : GpuState κ}
    (h : GpuReachable F cfg mix s) : BatchRecords F cfg s := by
  refine Reachable.invariant h ?_ fun {s b t} _ hI hstep => ?_
  · exact ⟨rfl, rfl, by simp [gpuStart], by simp [gpuStart], by simp [gpuStart]⟩
  · obtain ⟨m, hrenewed, hround⟩ := Round.of_gpuBatch hstep
    cases hround with
    | noEntropy => exact hI.of_mix (hrenewed.calls.trans (List.append_nil _).symm) true
    | launchFailed os cpu =>
        have hcalls : (m.count os cpu m.cached).calls =
            s.mix.calls ++ [m.buffer os cpu m.cached] := by
          rw [TracedMix.count_calls, hrenewed.calls]
        exact hI.of_mix hcalls true
    | batch os cpu raw t new stop he => exact hI.of_emits hrenewed.calls he _ stop

/-- The buffers of the mixer carry the counter. -/
theorem gpu_counted_reachable {mix : EntropyMix} (hmix : mix.ctr = 0) {s : GpuState κ}
    (h : GpuReachable F cfg mix s) : s.mix.Counted := by
  refine Reachable.invariant h (I := fun s => s.mix.Counted) (.start hmix)
    fun {s b t} _ hI hstep => ?_
  obtain ⟨m, hrenewed, hround⟩ := Round.of_gpuBatch hstep
  have hm := hrenewed.counted hI
  cases hround with
  | noEntropy => exact hm
  | launchFailed os cpu => exact hm.count os cpu m.cached
  | batch os cpu raw t new stop he =>
      have hmix : t.mix = m.count os cpu m.cached := he.mix
      dsimp only
      rw [hmix]
      exact hm.count os cpu m.cached

end FalconVanity
