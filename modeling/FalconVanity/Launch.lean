import FalconVanity.Foundation.Chunks
import FalconVanity.Schemes
import Mathlib.Algebra.Order.Floor.Div
import Mathlib.Data.UInt

/-!
# The Launch of a Batch

Which seeds a batch on the device evaluates. The host rounds the number of blocks up in 64
bits and passes its low 32 bits as the size of the grid; a thread evaluates one seed of an
`f1` batch, and up to eight consecutive seeds of an `ed25519` batch.

Of CUDA it is taken that the launch of a grid of size `1, …, 2 ^ 31 - 1` runs every thread
once, and that other sizes are rejected. All other calls of it are taken to succeed: where
one fails, the launcher returns the error.

## Main results

* `deriveEntropy_eq_seedAt`, `edDeriveSeed_eq_seedAt`: the seeds of the device are those of
  the host.
* `pqCudaSearch_eq`, `edCudaSearch_eq`: what a launched batch evaluates, in the order of the
  threads.
* `batch_scans_exactly_iff`: when a batch evaluates all its seeds.
-/

namespace FalconVanity

/-! ### Seeds -/

/-- `dst[i] = src[i]` for the first `n` bytes of a buffer. -/
def copyBytes (n : ℕ) (src dst : Bytes32) : Bytes32 :=
  (List.range n).foldl (fun dst i => dst.set! i src[i]!) dst

/-- `dst[24 + i] = (uint8_t)(counter >> (8 * i))` for `i` below eight. -/
def spliceCounter (counter : UInt64) (dst : Bytes32) : Bytes32 :=
  (List.range 8).foldl
    (fun dst i => dst.set! (24 + i) (counter >>> (8 * i).toUInt64).toUInt8) dst

/-- `derive_entropy`, in an array that is not initialized. -/
def deriveEntropy (baseEntropy : Bytes32) (counter : UInt64) (entropy : Bytes32) : Bytes32 :=
  spliceCounter counter (copyBytes 32 baseEntropy entropy)

/-- `ed_derive_seed`, in an array that is not initialized. -/
def edDeriveSeed (baseSeed : Bytes32) (counter : UInt64) (seed : Bytes32) : Bytes32 :=
  spliceCounter counter (copyBytes 24 baseSeed seed)

/-- A loop that writes consecutive bytes. -/
theorem getElem_foldl_set! (f : ℕ → UInt8) (off n : ℕ) (dst : Bytes32) {j : ℕ} (hj : j < 32) :
    ((List.range n).foldl (fun dst i => dst.set! (off + i) (f i)) dst)[j] =
      if off ≤ j ∧ j < off + n then f (j - off) else dst[j] := by
  induction n with
  | zero => rw [if_neg (by omega), List.range_zero, List.foldl_nil]
  | succ n ih =>
      rw [List.range_succ, List.foldl_append, List.foldl_cons, List.foldl_nil,
        Vector.set!_eq_setIfInBounds, Vector.getElem_setIfInBounds hj, ih]
      by_cases hlast : off + n = j
      · rw [if_pos hlast, if_pos (by omega)]
        congr 1
        omega
      · rw [if_neg hlast]
        by_cases hin : off ≤ j ∧ j < off + n
        · rw [if_pos hin, if_pos (by omega)]
        · rw [if_neg hin, if_neg (by omega)]

theorem getElem_copyBytes (n : ℕ) (src dst : Bytes32) {j : ℕ} (hj : j < 32) :
    (copyBytes n src dst)[j] = if j < n then src[j] else dst[j] := by
  have h := getElem_foldl_set! (fun i => src[i]!) 0 n dst hj
  simp only [Nat.zero_add, Nat.zero_le, true_and, Nat.sub_zero, getElem!_pos src j hj] at h
  exact h

/-- The counter over the last eight bytes of a buffer that agrees with the base before. -/
theorem spliceCounter_eq_seedAt {base dst : Bytes32} (counter : UInt64)
    (h : ∀ j (hj : j < 32), j < 24 → dst[j] = base[j]) :
    spliceCounter counter dst = seedAt base counter := by
  ext j hj
  rw [spliceCounter, getElem_foldl_set! (fun i => (counter >>> (8 * i).toUInt64).toUInt8) 24 8
    dst hj, seedAt, Vector.getElem_ofFn]
  by_cases hlt : j < 24
  · rw [if_neg (by omega), if_pos hlt, h j hj hlt]
    rfl
  · rw [if_pos (by omega), if_neg hlt]

/-- **The seeds of the `f1` kernel** are those of the host. -/
theorem deriveEntropy_eq_seedAt (base : Bytes32) (counter : UInt64) (entropy : Bytes32) :
    deriveEntropy base counter entropy = seedAt base counter :=
  spliceCounter_eq_seedAt counter fun j hj _ => by
    rw [getElem_copyBytes 32 base entropy hj, if_pos hj]

/-- **The seeds of the `ed25519` kernel** are those of the host. -/
theorem edDeriveSeed_eq_seedAt (base : Bytes32) (counter : UInt64) (seed : Bytes32) :
    edDeriveSeed base counter seed = seedAt base counter :=
  spliceCounter_eq_seedAt counter fun j hj hlt => by
    rw [getElem_copyBytes 24 base seed hj, if_pos hlt]

/-! ### Kernels -/

/-- A block size: the default, or what `PQ_GPU_BLOCK` says within these bounds. -/
structure BlockSize where
  val : ℕ
  ge : 32 ≤ val
  le : val ≤ 1024

/-- `cudaErrorInvalidConfiguration`, negated -/
def invalidConfiguration : ℤ := -9

/-- A launch: the threads of the grid, in the order of their indices. -/
def launch {α : Type} (grid : UInt32) (block : BlockSize) (kernel : ℕ → ℕ → List α) :
    Except ℤ (List α) :=
  if 1 ≤ grid.toNat ∧ grid.toNat ≤ 2 ^ 31 - 1 then
    .ok ((List.range grid.toNat).flatMap fun blockIdx =>
      (List.range block.val).flatMap fun threadIdx => kernel blockIdx threadIdx)
  else .error invalidConfiguration

-- what is in an array that a kernel does not initialize
variable (garbage : Bytes32)

/-- The seed that a thread of `pq_search_kernel` evaluates. -/
def pqSearchKernel (baseEntropy : Bytes32) (startCounter numItems : UInt64) (blockDim : BlockSize)
    (blockIdx threadIdx : ℕ) : List Bytes32 :=
  let gid := blockIdx.toUInt64 * blockDim.val.toUInt64 + threadIdx.toUInt64
  if gid ≥ numItems then []
  else [deriveEntropy baseEntropy (startCounter + gid) garbage]

/-- `ED_KEYS_PER_THREAD`: how many seeds a thread has. -/
def edKeysPerThread : UInt64 := 8

theorem toNat_edKeysPerThread : edKeysPerThread.toNat = 8 := rfl

/-- The seeds that a thread of `ed_search_kernel` evaluates. -/
def edSearchKernel (baseSeed : Bytes32) (startCounter numItems : UInt64) (blockDim : BlockSize)
    (blockIdx threadIdx : ℕ) : List Bytes32 :=
  let first :=
    (blockIdx.toUInt64 * blockDim.val.toUInt64 + threadIdx.toUInt64) * edKeysPerThread
  if first ≥ numItems then []
  else
    let nk := if numItems - first < edKeysPerThread then numItems - first else edKeysPerThread
    (List.range nk.toNat).map fun k =>
      edDeriveSeed baseSeed (startCounter + first + k.toUInt64) garbage

/-- The size of the grid of `pq_cuda_search`. -/
def pqGrid (numItems : UInt64) (block : BlockSize) : UInt32 :=
  let blocks := (numItems + block.val.toUInt64 - 1) / block.val.toUInt64
  (if blocks == 0 then 1 else blocks).toUInt32

/-- The size of the grid of `ed_cuda_search`. -/
def edGrid (numItems : UInt64) (block : BlockSize) : UInt32 :=
  let threads := (numItems + edKeysPerThread - 1) / edKeysPerThread
  let blocks := (threads + block.val.toUInt64 - 1) / block.val.toUInt64
  (if blocks == 0 then 1 else blocks).toUInt32

/-- The seeds that a call of `pq_cuda_search` evaluates. -/
def pqCudaScan (baseEntropy : Bytes32) (startCounter numItems : UInt64) (block : BlockSize) :
    Except ℤ (List Bytes32) :=
  launch (pqGrid numItems block) block
    (pqSearchKernel garbage baseEntropy startCounter numItems block)

/-- The seeds that a call of `ed_cuda_search` evaluates. -/
def edCudaScan (baseSeed : Bytes32) (startCounter numItems : UInt64) (block : BlockSize) :
    Except ℤ (List Bytes32) :=
  launch (edGrid numItems block) block
    (edSearchKernel garbage baseSeed startCounter numItems block)

/-! ### What a launched batch evaluates -/

variable {garbage} {base : Bytes32} {start numItems : UInt64} {block : BlockSize}

/-- A thread with a global index takes the chunk of this index. -/
theorem launch_eq {c n : ℕ} {grid : UInt32} {kernel : ℕ → ℕ → List Bytes32}
    (hkernel : ∀ i < 2 ^ 31, ∀ j < block.val, kernel i j =
      (List.range' (c * (block.val * i + j)) (min c (n - c * (block.val * i + j)))).map
        fun k => seedAt base (start + k.toUInt64))
    (hlo : 1 ≤ grid.toNat) (hhi : grid.toNat ≤ 2 ^ 31 - 1) :
    launch grid block kernel = .ok ((List.range (min n (c * (block.val * grid.toNat)))).map
      fun k => seedAt base (start + k.toUInt64)) := by
  have hrow : ∀ i ∈ List.range grid.toNat,
      (List.range block.val).flatMap (fun j => kernel i j) =
        (List.range block.val).flatMap fun j =>
          (List.range' (c * (block.val * i + j)) (min c (n - c * (block.val * i + j)))).map
            fun k => seedAt base (start + k.toUInt64) := by
    intro i hi
    refine List.flatMap_congr fun j hj => hkernel i ?_ j (List.mem_range.mp hj)
    have := List.mem_range.mp hi
    omega
  rw [launch, if_pos ⟨hlo, hhi⟩, List.flatMap_congr hrow,
    Chunks.flatMap_range_mul (fun t =>
      (List.range' (c * t) (min c (n - c * t))).map fun k => seedAt base (start + k.toUInt64)),
    ← List.map_flatMap, Chunks.flatMap_range'_min]

/-- The global index of a thread does not wrap. -/
theorem toNat_globalIndex (block : BlockSize) {i j : ℕ} (hi : i < 2 ^ 31) (hj : j < block.val) :
    (i.toUInt64 * block.val.toUInt64 + j.toUInt64).toNat = block.val * i + j := by
  have hle := block.le
  have hmul : block.val * i ≤ 1024 * i := Nat.mul_le_mul_right i hle
  rw [UInt64.toNat_add, UInt64.toNat_mul, Nat.toUInt64_eq, Nat.toUInt64_eq, Nat.toUInt64_eq,
    UInt64.toNat_ofNat', UInt64.toNat_ofNat', UInt64.toNat_ofNat', Nat.mod_eq_of_lt (a := i)
      (by omega), Nat.mod_eq_of_lt (a := block.val) (by omega), Nat.mod_eq_of_lt (a := j)
      (by omega), Nat.mul_comm i]
  omega

/-- A thread of the `f1` kernel takes a chunk of one seed. -/
theorem pqSearchKernel_eq (i : ℕ) (hi : i < 2 ^ 31) (j : ℕ) (hj : j < block.val) :
    pqSearchKernel garbage base start numItems block i j =
      (List.range' (1 * (block.val * i + j))
        (min 1 (numItems.toNat - 1 * (block.val * i + j)))).map
          fun k => seedAt base (start + k.toUInt64) := by
  have hgid := toNat_globalIndex block hi hj
  rw [pqSearchKernel]
  generalize i.toUInt64 * block.val.toUInt64 + j.toUInt64 = gid at hgid ⊢
  rw [← hgid, Nat.one_mul]
  by_cases hge : gid ≥ numItems
  · have hle := UInt64.le_iff_toNat_le.mp hge
    rw [if_pos hge, Nat.sub_eq_zero_of_le hle]
    rfl
  · have hlt := UInt64.lt_iff_toNat_lt.mp (UInt64.not_le.mp hge)
    rw [if_neg hge, min_eq_left (by omega), deriveEntropy_eq_seedAt, List.range'_one,
      List.map_singleton, Nat.toUInt64_eq, UInt64.ofNat_toNat]

/-- A thread of the `ed25519` kernel takes a chunk of up to eight seeds. -/
theorem edSearchKernel_eq (i : ℕ) (hi : i < 2 ^ 31) (j : ℕ) (hj : j < block.val) :
    edSearchKernel garbage base start numItems block i j =
      (List.range' (8 * (block.val * i + j))
        (min 8 (numItems.toNat - 8 * (block.val * i + j)))).map
          fun k => seedAt base (start + k.toUInt64) := by
  have hgid := toNat_globalIndex block hi hj
  have hfirst : ((i.toUInt64 * block.val.toUInt64 + j.toUInt64) * edKeysPerThread).toNat =
      8 * (block.val * i + j) := by
    have hmul : block.val * i ≤ 1024 * i := Nat.mul_le_mul_right i block.le
    have := block.le
    rw [UInt64.toNat_mul, hgid, toNat_edKeysPerThread]
    omega
  rw [edSearchKernel]
  generalize (i.toUInt64 * block.val.toUInt64 + j.toUInt64) * edKeysPerThread = first
    at hfirst ⊢
  dsimp only
  rw [← hfirst]
  by_cases hge : first ≥ numItems
  · have hle := UInt64.le_iff_toNat_le.mp hge
    rw [if_pos hge, Nat.sub_eq_zero_of_le hle]
    rfl
  · have hlt := UInt64.lt_iff_toNat_lt.mp (UInt64.not_le.mp hge)
    have hsub : (numItems - first).toNat = numItems.toNat - first.toNat :=
      UInt64.toNat_sub_of_le _ _ (UInt64.le_of_lt (UInt64.not_le.mp hge))
    have hnk : (if numItems - first < edKeysPerThread then numItems - first
        else edKeysPerThread).toNat = min 8 (numItems.toNat - first.toNat) := by
      split
      case isTrue h =>
        have h8 := UInt64.lt_iff_toNat_lt.mp h
        rw [hsub, toNat_edKeysPerThread] at h8
        rw [hsub]
        omega
      case isFalse h =>
        have h8 := UInt64.le_iff_toNat_le.mp (UInt64.not_lt.mp h)
        rw [hsub, toNat_edKeysPerThread] at h8
        rw [toNat_edKeysPerThread]
        omega
    rw [if_neg hge, hnk, List.range'_eq_map_range, List.map_map]
    refine List.map_congr_left fun k _ => ?_
    rw [edDeriveSeed_eq_seedAt, Function.comp_apply, Nat.toUInt64_eq, Nat.toUInt64_eq,
      UInt64.ofNat_add, UInt64.ofNat_toNat, UInt64.add_assoc]

/-! ### When a batch evaluates its seeds -/

/-- A call fails, or evaluates every seed of the batch once and nothing else. -/
def ScansExactly (scan : Except ℤ (List Bytes32)) (base : Bytes32) (start numItems : UInt64) :
    Prop :=
  (∃ e, scan = .error e) ∨ ∃ seeds, scan = .ok seeds ∧
    seeds.Perm ((List.range numItems.toNat).map fun i => seedAt base (start + i.toUInt64))

/-- A number of blocks whose low 32 bits are the number itself, or no size of a grid. -/
def GridFits (blocks : ℕ) : Prop :=
  blocks < 2 ^ 31 ∨ blocks % 2 ^ 32 = 0 ∨ 2 ^ 31 ≤ blocks % 2 ^ 32

instance (blocks : ℕ) : Decidable (GridFits blocks) := by
  unfold GridFits
  infer_instance

/-- A launch with chunks of `c` seeds evaluates the batch if it fails or its chunks cover it. -/
theorem scansExactly_launch_iff {c : ℕ} {grid : UInt32} {kernel : ℕ → ℕ → List Bytes32}
    (hkernel : ∀ i < 2 ^ 31, ∀ j < block.val, kernel i j =
      (List.range' (c * (block.val * i + j))
        (min c (numItems.toNat - c * (block.val * i + j)))).map
          fun k => seedAt base (start + k.toUInt64)) :
    ScansExactly (launch grid block kernel) base start numItems ↔
      (1 ≤ grid.toNat → grid.toNat < 2 ^ 31 →
        numItems.toNat ≤ c * (block.val * grid.toNat)) := by
  by_cases hgrid : 1 ≤ grid.toNat ∧ grid.toNat ≤ 2 ^ 31 - 1
  · rw [launch_eq hkernel hgrid.1 hgrid.2]
    constructor
    · rintro (⟨e, he⟩ | ⟨seeds, hseeds, hperm⟩) - -
      · cases he
      · cases hseeds
        have hlen := hperm.length_eq
        rw [List.length_map, List.length_map, List.length_range, List.length_range] at hlen
        exact min_eq_left_iff.mp hlen
    · intro h
      refine .inr ⟨_, rfl, ?_⟩
      rw [min_eq_left (h hgrid.1 (by omega))]
  · rw [launch, if_neg hgrid]
    exact iff_of_true (.inl ⟨_, rfl⟩) fun h₁ h₂ => absurd ⟨h₁, by omega⟩ hgrid

/-- The low 32 bits of the number of blocks that cover a batch cover it, when they are the
size of a grid, only if they are all of the number. -/
theorem covers_iff_gridFits {n items blocks grid : ℕ} (hblocks : ∀ g, n ≤ items * g ↔ blocks ≤ g)
    (hgrid : grid = max 1 blocks % 2 ^ 32) :
    (1 ≤ grid → grid < 2 ^ 31 → n ≤ items * grid) ↔ GridFits blocks := by
  rw [hblocks, GridFits]
  omega

theorem toNat_grid (blocks : UInt64) :
    (if blocks == 0 then 1 else blocks).toUInt32.toNat = max 1 blocks.toNat % 2 ^ 32 := by
  rw [UInt64.toNat_toUInt32]
  split
  case isTrue h =>
    rw [eq_of_beq h]
    rfl
  case isFalse h =>
    have hne : blocks.toNat ≠ 0 := fun h0 =>
      h (beq_iff_eq.mpr (UInt64.toNat_inj.mp h0))
    rw [max_eq_right (by omega)]

/-- **When an `f1` batch evaluates its seeds.** -/
theorem pqCudaScan_exactly_iff :
    ScansExactly (pqCudaScan garbage base start numItems block) base start numItems ↔
      numItems.toNat + block.val - 1 < 2 ^ 64 ∧ GridFits (numItems.toNat ⌈/⌉ block.val) := by
  have hlo := block.ge
  have hhi := block.le
  have hn := numItems.toNat_lt
  have hb : block.val.toUInt64.toNat = block.val := by
    rw [Nat.toUInt64_eq, UInt64.toNat_ofNat', Nat.mod_eq_of_lt (by omega)]
  have hgrid : (pqGrid numItems block).toNat =
      max 1 ((numItems.toNat + block.val - 1) % 2 ^ 64 / block.val) % 2 ^ 32 := by
    rw [pqGrid, toNat_grid, UInt64.toNat_div, UInt64.toNat_sub, UInt64.toNat_add, hb,
      UInt64.toNat_one]
    congr 3
    omega
  rw [pqCudaScan, scansExactly_launch_iff pqSearchKernel_eq, Nat.one_mul]
  by_cases hwrap : numItems.toNat + block.val - 1 < 2 ^ 64
  · rw [and_iff_right hwrap]
    rw [Nat.mod_eq_of_lt hwrap, ← Nat.ceilDiv_eq_add_pred_div] at hgrid
    exact covers_iff_gridFits (fun g => (ceilDiv_le_iff_le_mul (by omega)).symm) hgrid
  · rw [Nat.div_eq_of_lt (by omega)] at hgrid
    rw [hgrid]
    refine iff_of_false (fun h => ?_) fun h => hwrap h.1
    have := h (by norm_num) (by norm_num)
    norm_num at this
    omega

/-- **When an `ed25519` batch evaluates its seeds.** -/
theorem edCudaScan_exactly_iff :
    ScansExactly (edCudaScan garbage base start numItems block) base start numItems ↔
      numItems.toNat + 7 < 2 ^ 64 ∧ GridFits (numItems.toNat ⌈/⌉ 8 ⌈/⌉ block.val) := by
  have hlo := block.ge
  have hhi := block.le
  have hn := numItems.toNat_lt
  have hb : block.val.toUInt64.toNat = block.val := by
    rw [Nat.toUInt64_eq, UInt64.toNat_ofNat', Nat.mod_eq_of_lt (by omega)]
  have hthreads : ((numItems + edKeysPerThread - 1) / edKeysPerThread).toNat =
      (numItems.toNat + 7) % 2 ^ 64 / 8 := by
    rw [UInt64.toNat_div, UInt64.toNat_sub, UInt64.toNat_add, UInt64.toNat_one,
      toNat_edKeysPerThread]
    congr 1
    omega
  have hgrid : (edGrid numItems block).toNat =
      max 1 (((numItems.toNat + 7) % 2 ^ 64 / 8 + block.val - 1) / block.val) % 2 ^ 32 := by
    rw [edGrid, toNat_grid, UInt64.toNat_div, UInt64.toNat_sub, UInt64.toNat_add, hb, hthreads,
      UInt64.toNat_one]
    congr 3
    omega
  rw [edCudaScan, scansExactly_launch_iff edSearchKernel_eq]
  by_cases hwrap : numItems.toNat + 7 < 2 ^ 64
  · rw [and_iff_right hwrap]
    have hceil : numItems.toNat ⌈/⌉ 8 = (numItems.toNat + 7) / 8 :=
      Nat.ceilDiv_eq_add_pred_div numItems.toNat 8
    rw [Nat.mod_eq_of_lt hwrap, ← Nat.ceilDiv_eq_add_pred_div, ← hceil] at hgrid
    rw [← Nat.mul_assoc]
    refine covers_iff_gridFits (fun g => ?_) hgrid
    rw [ceilDiv_le_iff_le_mul (by omega), ceilDiv_le_iff_le_mul (by omega), Nat.mul_assoc]
  · have hzero : (numItems.toNat + 7) % 2 ^ 64 / 8 = 0 := by omega
    rw [hzero, Nat.div_eq_of_lt (by omega)] at hgrid
    rw [hgrid]
    refine iff_of_false (fun h => ?_) fun h => hwrap h.1
    have := h (by norm_num) (by norm_num)
    norm_num at this
    omega

/-- **When a batch scans exactly its candidates.** For every base, first counter, number of
items and block size, a call of either launcher fails or evaluates every seed of the batch
once and nothing else if and only if rounding up does not wrap in 64 bits and the number of
blocks is below `2 ^ 31`, or its low 32 bits are no size of a grid. -/
theorem batch_scans_exactly_iff (garbage base : Bytes32) (start numItems : UInt64)
    (block : BlockSize) :
    (ScansExactly (pqCudaScan garbage base start numItems block) base start numItems ↔
      numItems.toNat + block.val - 1 < 2 ^ 64 ∧ GridFits (numItems.toNat ⌈/⌉ block.val)) ∧
    (ScansExactly (edCudaScan garbage base start numItems block) base start numItems ↔
      numItems.toNat + 7 < 2 ^ 64 ∧ GridFits (numItems.toNat ⌈/⌉ 8 ⌈/⌉ block.val)) :=
  ⟨pqCudaScan_exactly_iff, edCudaScan_exactly_iff⟩

/-- With `--items 1099511627777` and blocks of 256 threads the grid is truncated to one
block, and with `--items 4398046511105` and blocks of 128 threads for `ed25519`. -/
theorem batch_skips_truncated_blocks :
    ¬ ScansExactly (pqCudaScan (Vector.replicate 32 0) (Vector.replicate 32 0) 0 (2 ^ 40 + 1)
      ⟨256, by decide, by decide⟩) (Vector.replicate 32 0) 0 (2 ^ 40 + 1) ∧
    ¬ ScansExactly (edCudaScan (Vector.replicate 32 0) (Vector.replicate 32 0) 0 (2 ^ 42 + 1)
      ⟨128, by decide, by decide⟩) (Vector.replicate 32 0) 0 (2 ^ 42 + 1) := by
  rw [pqCudaScan_exactly_iff, edCudaScan_exactly_iff]
  decide

end FalconVanity
