import FalconVanity.CpuSearch

/-!
# Soundness of the Hits of the CPU Search

Every hit that a thread carries to the accounting stems from a call of the mixer, is the key
that the worker derives from its output, and matches a target that was still searched for
when it was claimed. This is what the thread knows at each place of its loop, and no move of
another thread makes it false.

## Main results

* `Sound.reachable`: the hits that threads carry and the records accepted are sound.
-/

namespace FalconVanity

open Transitions

variable {κ : Type} (W : Worker κ) (cfg : SearchConfig)

/-- A mix output: the hash of the buffer of its call, made from a cache that had been
refreshed as often as it says. -/
structure Draw.Sound (s : Shared κ) (d : Draw) : Prop where
  generation_le : d.generation ≤ s.mix.generation
  output : ∃ buf, s.mix.calls[d.call]? = some buf ∧ d.entropy = W.P.sha512_256 buf

/-- A hit: a usable key of its mix output, whose address shows the target. This is what a thread
knows of a hit, before and after it is recorded. -/
structure Hit.Sound (s : Shared κ) (h : Hit κ) : Prop where
  draw : h.draw.Sound W s
  returns : W.returns h.draw.entropy = true
  candidate : W.candidate h.draw.entropy h.index = some h.key
  usable : W.usable h.key = true
  target_lt : h.target < cfg.targets.list.length
  shows : ∃ t, cfg.targets.list[h.target]? = some t ∧
    t.pfx <+: Address.toAddressString W.P (W.address h.key) ∧
      t.sfx <:+ Address.toAddressString W.P (W.address h.key)

/-- What a thread knows of the mix output and the hit it carries. -/
def Pc.Sound (s : Shared κ) : Pc κ → Prop
  | .count _ _ _ generation => generation ≤ s.mix.generation
  | .attempt d _ => d.Sound W s
  | .scan d k c _ =>
    d.Sound W s ∧ W.returns d.entropy = true ∧ W.candidate d.entropy k = some c
  | .poll d _ => d.Sound W s
  | .claim h => h.Sound W cfg s
  | .add h wasActive => h.Sound W cfg s ∧ wasActive = true
  | _ => True

/-- The hits that threads carry and the records accepted are sound. Targets that are not
retired stay active. -/
structure Sound (s : SearchState κ cfg) : Prop where
  keep : cfg.targets.retire = false → ∀ j, s.shared.active j = true
  pcs : ∀ i, (s.pc i).Sound W cfg s.shared
  accepted : ∀ r ∈ s.shared.accepted, r.hit.Sound W cfg s.shared ∧ r.wasActive = true ∧
    r.roundtrip = W.roundtrip r.hit.key

variable {W cfg}

/-- A draw remains sound, whatever other threads do. -/
theorem Draw.Sound.mono {s t : Shared κ} {d : Draw} (hle : s.Le t) (h : d.Sound W s) :
    d.Sound W t := by
  obtain ⟨buf, hbuf, heq⟩ := h.output
  obtain ⟨rest, hrest⟩ := hle.calls
  refine ⟨h.generation_le.trans hle.generation, buf, ?_, heq⟩
  rw [← hrest, List.getElem?_append_left (List.getElem?_eq_some_iff.mp hbuf).1, hbuf]

/-- A hit remains sound, whatever other threads do. -/
theorem Hit.Sound.mono {s t : Shared κ} {h : Hit κ} (hle : s.Le t) (hs : h.Sound W cfg s) :
    h.Sound W cfg t :=
  { hs with draw := hs.draw.mono hle }

/-- What a thread holds remains sound, whatever other threads do. -/
theorem Pc.Sound.mono {s t : Shared κ} {p : Pc κ} (hle : s.Le t) (h : p.Sound W cfg s) :
    p.Sound W cfg t := by
  cases p with
  | count os cpu cached generation => exact h.trans hle.generation
  | attempt d k => exact Draw.Sound.mono hle h
  | scan d k c i => exact ⟨h.1.mono hle, h.2⟩
  | poll d k => exact Draw.Sound.mono hle h
  | claim k => exact Hit.Sound.mono hle h
  | add k wasActive => exact ⟨h.1.mono hle, h.2⟩
  | _ => trivial

/-- Moves that leave the shared variables as they are keep what the thread knows. -/
theorem Quiet.sound {s : Shared κ} {p q : Pc κ} (h : Quiet W cfg s p q)
    (hp : p.Sound W cfg s) : q.Sound W cfg s := by
  cases h with
  | read os cpu => exact le_rfl
  | derived hr hc => exact ⟨hp, hr, hc⟩
  | matched hi hm hu =>
      obtain ⟨hd, hr, hc⟩ := hp
      exact ⟨hd, hr, hc, hu, hi, (TargetSet.matchesAt_iff W.P).mp hm⟩
  | unmatched d k c i => exact hp
  | skipped d k c i => exact hp.1
  | polling d k c i => exact hp.1
  | polled d k => exact hp
  | _ => trivial

/-- A claim that succeeds finds the target active. -/
theorem Sound.claimed {S : Shared κ} {pc : Fin cfg.threads → Pc κ} {active : Active} {i : ℕ}
    (h : Sound W cfg ⟨S, pc⟩) (hclaim : cfg.targets.claim S.active i = (true, active)) :
    S.active i = true := by
  rcases TargetSet.claim_of_eq_true hclaim with ⟨-, hactive, -⟩ | ⟨hr, -⟩
  · exact hactive
  · exact h.keep hr i

/-- A step of one thread keeps the soundness of the state. -/
theorem Sound.move {S S' : Shared κ} {pc : Fin cfg.threads → Pc κ} {i : Fin cfg.threads}
    {p p' : Pc κ} (h : Sound W cfg ⟨S, pc⟩) (hp : pc i = p) (hm : Move W cfg S p S' p') :
    Sound W cfg ⟨S', Function.update pc i p'⟩ := by
  have hle := hm.le
  have hsound : p.Sound W cfg S := hp ▸ h.pcs i
  have hold : ∀ r ∈ S.accepted, r.hit.Sound W cfg S' ∧ r.wasActive = true ∧
      r.roundtrip = W.roundtrip r.hit.key :=
    fun r hr => (h.accepted r hr).imp_left (.mono hle)
  suffices hmove : (cfg.targets.retire = false → S'.active = S.active) ∧ p'.Sound W cfg S' ∧
      ∀ r ∈ S'.accepted, r ∈ S.accepted ∨ r.hit.Sound W cfg S' ∧ r.wasActive = true ∧
        r.roundtrip = W.roundtrip r.hit.key by
    refine ⟨fun hr j => ?_, ?_, fun r hr => (hmove.2.2 r hr).elim (hold r) id⟩
    · dsimp only
      rw [hmove.1 hr]
      exact h.keep hr j
    · rw [Function.forall_update_iff pc fun _ q => q.Sound W cfg S']
      exact ⟨hmove.2.1, fun j _ => (h.pcs j).mono hle⟩
  cases hm with
  | quiet hq => exact ⟨fun _ => rfl, hq.sound hsound, fun r => .inl⟩
  | draw os cpu cached generation =>
      refine ⟨fun _ => rfl, ⟨hsound, S.mix.buffer os cpu cached, ?_, rfl⟩, fun r => .inl⟩
      rw [TracedMix.count_calls, List.getElem?_concat_length]
  | claimed hclaim =>
      refine ⟨fun hr => ?_, ⟨hsound.mono hle, h.claimed hclaim⟩, fun r => .inl⟩
      rcases TargetSet.claim_of_eq_true hclaim with ⟨hr', -⟩ | ⟨-, rfl⟩
      · rw [hr] at hr'
        cases hr'
      · rfl
  | accept hlt =>
      refine ⟨fun _ => rfl, trivial, fun r hr => ?_⟩
      rcases List.mem_append.mp hr with hr | hr
      · exact .inl hr
      · obtain rfl := List.mem_singleton.mp hr
        exact .inr ⟨hsound.1.mono hle, hsound.2, rfl⟩
  | _ => exact ⟨fun _ => rfl, trivial, fun r => .inl⟩

/-- **The hits of the CPU search are sound**, in every interleaving. -/
theorem Sound.reachable {mix : EntropyMix} {s : SearchState κ cfg}
    (h : SearchReachable W cfg mix s) : Sound W cfg s := by
  refine h.invariant ⟨fun _ _ => rfl, fun _ => trivial, fun r hr => ?_⟩
    fun _ hI hp hm => hI.move hp hm
  cases hr

end FalconVanity
