import FalconVanity.GpuSearch
import FalconVanity.Launch

/-!
# The Hit Buffer

The matching candidates of a batch are collected in a buffer on the device. A thread that has
one draws a slot from a 32-bit counter with `atomicAdd`, and writes its entry to the slot if
this lies below the capacity, by a signed comparison. The host copies as many entries as the
counter says, up to the capacity, which `pq_cuda_search` compares as signed numbers and
`ed_cuda_search` as unsigned ones.

The threads draw their slots in any order, and their writes land in any order. The memory is
read after all threads have ended.

## Main results

* `appendHits_eq`: the counter and the writes after a list of appends.
* `store_of_mem`: the memory after writes to distinct slots.
* `hit_buffer_faithful_iff`: when the buffer returns the matches.
-/

namespace FalconVanity

variable {α : Type}

/-! ### The device -/

/-- `max_hits`: the capacity of the buffer. The host passes it as an `int`, which it fits in. -/
structure HitCapacity where
  val : ℕ
  pos : 0 < val
  lt : val < 2 ^ 31

/-- `max_hits as c_int` -/
def HitCapacity.toInt32 (maxHits : HitCapacity) : Int32 := Int32.ofNat maxHits.val

/-- The counter, and the writes that were decided on, each a slot with an entry. Which writes were
decided on depends on the order of the draws only. -/
structure HitLog (α : Type) where
  hitCount : UInt32
  writes : List (UInt32 × α)

variable (maxHits : HitCapacity)

/-- The append of a hit: `atomicAdd`, the comparison `(int)slot < max_hits`, and the write. -/
def appendHit (s : HitLog α) (entry : α) : HitLog α :=
  let slot := s.hitCount
  { hitCount := s.hitCount + 1
    writes := if slot.toInt32 < maxHits.toInt32 then s.writes ++ [(slot, entry)] else s.writes }

/-- The appends in the order in which the threads perform their `atomicAdd`. -/
def appendHits (order : List α) : HitLog α := order.foldl (appendHit maxHits) ⟨0, []⟩

/-- The memory at the slots of the buffer, after writes in the order in which they land. -/
def store (mem : ℕ → α) (landed : List (UInt32 × α)) : ℕ → α :=
  landed.foldl (fun mem w => Function.update mem w.1.toNat w.2) mem

/-! ### The hosts -/

/-- The number of entries that `pq_cuda_search` copies and returns. -/
def pqCopyCount (count : UInt32) : UInt32 :=
  if count.toInt32 > maxHits.toInt32 then maxHits.toInt32.toUInt32 else count

/-- The number of entries that `ed_cuda_search` copies and returns. -/
def edCopyCount (count : UInt32) : UInt32 :=
  if count > maxHits.toInt32.toUInt32 then maxHits.toInt32.toUInt32 else count

/-- `search_batch`, `ed_search_batch`: the entries of the caller's buffer, which has `zero`
where nothing is copied, up to the returned number, or the error that this is. -/
def decodeHits (zero : α) (copied : UInt32) (mem : ℕ → α) : Except Int32 (List α) :=
  let n := copied.toInt32
  if n < 0 then .error n
  else
    .ok ((List.range (min n.toNatClampNeg maxHits.val)).map fun i =>
      if i < copied.toNat then mem i else zero)

/-! ### Runs -/

/-- A batch with the entries `matched` of its matching candidates: an order of the
`atomicAdd`, an order in which the writes land, the memory before, and the bytes of the
caller's buffer before. -/
structure BufferRun (maxHits : HitCapacity) (matched : List α) where
  order : List α
  order_perm : order.Perm matched
  landed : List (UInt32 × α)
  landed_perm : landed.Perm (appendHits maxHits order).writes
  mem : ℕ → α
  zero : α

namespace BufferRun

variable {maxHits} {matched : List α} (run : BufferRun maxHits matched)

/-- The counter and the writes after all threads have ended. -/
def log : HitLog α := appendHits maxHits run.order

/-- What the host returns when it copies a number of entries. -/
def returned (copied : UInt32) : Except Int32 (List α) :=
  decodeHits maxHits run.zero copied (store run.mem run.landed)

/-- The buffer is bounded and faithful: the writes go to different slots below the capacity,
and the host copies no more entries than that, and returns the entries of as many different
matches as it can. -/
structure Faithful (copied : UInt32) : Prop where
  bounded : ∀ w ∈ run.log.writes, w.1.toNat < maxHits.val
  distinct : (run.log.writes.map Prod.fst).Nodup
  copied_le : copied.toNat ≤ maxHits.val
  hits : ∃ hits, run.returned copied = .ok hits ∧
    hits.length = min matched.length maxHits.val ∧ hits.Subperm matched

end BufferRun

/-! ### Appends -/

variable {maxHits}

/-- **The counter and the writes** after a list of appends. -/
theorem appendHits_eq (order : List α) : appendHits maxHits order =
    ⟨order.length.toUInt32,
      (order.zipIdx.map fun p => (p.2.toUInt32, p.1)).filter
        fun w => decide (w.1.toInt32 < maxHits.toInt32)⟩ := by
  induction order using List.reverseRecOn with
  | nil => rfl
  | append_singleton order e ih =>
      rw [appendHits, List.foldl_append, List.foldl_cons, List.foldl_nil, ← appendHits, ih,
        appendHit, List.zipIdx_append, List.map_append, List.filter_append, List.length_append]
      simp only [Nat.zero_add, List.zipIdx_singleton, List.map_cons, List.map_nil,
        List.filter_cons, List.filter_nil, decide_eq_true_eq, HitLog.mk.injEq]
      refine ⟨?_, ?_⟩
      · rw [Nat.toUInt32_eq, Nat.toUInt32_eq, UInt32.ofNat_add]
        rfl
      · split <;> simp

/-- A write belongs to a slot below the capacity, as the device compares it. -/
theorem mem_writes_iff {order : List α} {w : UInt32 × α} :
    w ∈ (appendHits maxHits order).writes ↔
      w.1.toInt32 < maxHits.toInt32 ∧ ∃ i : ℕ, order[i]? = some w.2 ∧ i.toUInt32 = w.1 := by
  rw [appendHits_eq]
  simp only [List.mem_filter, decide_eq_true_eq, List.mem_map, Prod.exists,
    List.mem_zipIdx_iff_getElem?]
  constructor
  · rintro ⟨⟨e, i, hi, rfl⟩, hlt⟩
    exact ⟨hlt, i, hi, rfl⟩
  · rintro ⟨hlt, i, hi, hslot⟩
    exact ⟨⟨w.2, i, hi, by rw [hslot]⟩, hlt⟩

/-- The capacity as an `int` is not negative. -/
theorem HitCapacity.toInt_toInt32 (maxHits : HitCapacity) :
    maxHits.toInt32.toInt = (maxHits.val : ℤ) := Int32.toInt_ofNat_of_lt maxHits.lt

/-- The capacity as an unsigned number is the same. -/
theorem HitCapacity.toNat_toUInt32 (maxHits : HitCapacity) :
    maxHits.toInt32.toUInt32.toNat = maxHits.val := by
  have hlt := maxHits.lt
  have hint : (maxHits.toInt32.toUInt32.toInt32).toInt = (maxHits.val : ℤ) :=
    maxHits.toInt_toInt32
  rw [Words.UInt32.toInt_toInt32] at hint
  have := maxHits.toInt32.toUInt32.toNat_lt
  split at hint <;> omega

/-- A slot below `2 ^ 32` is not truncated. -/
theorem toNat_slot {i : ℕ} (hi : i < 2 ^ 32) : i.toUInt32.toNat = i := by
  rw [Nat.toUInt32_eq, UInt32.toNat_ofNat', Nat.mod_eq_of_lt hi]

/-- The comparison of a slot, as long as the counter is not negative as a signed number. -/
theorem slot_lt_iff {i : ℕ} (hi : i < 2 ^ 31) :
    i.toUInt32.toInt32 < maxHits.toInt32 ↔ i < maxHits.val := by
  rw [Int32.lt_iff_toInt_lt, HitCapacity.toInt_toInt32, Words.UInt32.toInt_toInt32,
    toNat_slot (by omega), if_pos hi, Nat.cast_lt]

/-- The memory after writes to distinct slots holds each of them. -/
theorem store_of_mem {mem : ℕ → α} {landed : List (UInt32 × α)} {w : UInt32 × α}
    (hnodup : (landed.map Prod.fst).Nodup) (hw : w ∈ landed) :
    store mem landed w.1.toNat = w.2 := by
  induction landed using List.reverseRecOn with
  | nil => cases hw
  | append_singleton landed v ih =>
      rw [List.map_append, List.nodup_append] at hnodup
      rw [store, List.foldl_append, List.foldl_cons, List.foldl_nil, ← store]
      rcases List.mem_append.mp hw with hw | hw
      · have hne : w.1 ≠ v.1 :=
          hnodup.2.2 w.1 (List.mem_map_of_mem hw) v.1 (List.mem_singleton.mpr rfl)
        rw [Function.update_of_ne fun h => hne (UInt32.toNat_inj.mp h)]
        exact ih hnodup.1 hw
      · rw [List.mem_singleton.mp hw, Function.update_self]

/-! ### Full buffers -/

variable {matched order : List α}

/-- A slot beyond all capacities is written when there are more than `2 ^ 31` matches. -/
theorem length_le_of_bounded
    (hbounded : ∀ w ∈ (appendHits maxHits order).writes, w.1.toNat < maxHits.val) :
    order.length ≤ 2 ^ 31 := by
  by_contra hlong
  have hget : order[2 ^ 31]? = some order[2 ^ 31] := List.getElem?_eq_getElem (by omega)
  have hslot : (2 ^ 31 : ℕ).toUInt32.toNat = 2 ^ 31 := toNat_slot (by norm_num)
  have hpos := maxHits.pos
  have hlt := maxHits.lt
  have hmem : ((2 ^ 31 : ℕ).toUInt32, order[2 ^ 31]) ∈ (appendHits maxHits order).writes := by
    refine mem_writes_iff.mpr ⟨?_, 2 ^ 31, hget, rfl⟩
    rw [Int32.lt_iff_toInt_lt, HitCapacity.toInt_toInt32, Words.UInt32.toInt_toInt32, hslot]
    norm_num
    omega
  have := hbounded _ hmem
  dsimp only at this
  omega

/-- The writes, when no slot is negative as a signed number. -/
theorem writes_bounded (hlen : order.length ≤ 2 ^ 31) {w : UInt32 × α}
    (hw : w ∈ (appendHits maxHits order).writes) : w.1.toNat < maxHits.val := by
  obtain ⟨hlt, i, hi, hslot⟩ := mem_writes_iff.mp hw
  have hbound := (List.getElem?_eq_some_iff.mp hi).1
  rw [← hslot] at hlt ⊢
  rw [toNat_slot (by omega)]
  exact (slot_lt_iff (by omega)).mp hlt

/-- No slot is written twice. -/
theorem writes_distinct (hlen : order.length ≤ 2 ^ 31) :
    ((appendHits maxHits order).writes.map Prod.fst).Nodup := by
  rw [appendHits_eq]
  refine List.Nodup.sublist (List.Sublist.map _ List.filter_sublist) ?_
  have hslots : (order.zipIdx.map fun p => (p.2.toUInt32, p.1)).map Prod.fst =
      (List.range order.length).map Nat.toUInt32 := by
    have hfst : Prod.fst ∘ (fun p : α × ℕ => (p.2.toUInt32, p.1)) = Nat.toUInt32 ∘ Prod.snd := rfl
    rw [List.map_map, hfst, ← List.map_map, List.zipIdx_map_snd, List.range_eq_range']
  rw [hslots]
  refine (List.nodup_map_iff_inj_on List.nodup_range).mpr fun i hi j hj hij => ?_
  have hi := List.mem_range.mp hi
  have hj := List.mem_range.mp hj
  have := congrArg UInt32.toNat hij
  rwa [toNat_slot (by omega), toNat_slot (by omega)] at this

/-- The counter ends at the number of matches. -/
theorem appendHits_hitCount (hlen : order.length ≤ 2 ^ 31) :
    (appendHits maxHits order).hitCount.toNat = order.length := by
  rw [appendHits_eq]
  exact toNat_slot (by omega)

namespace BufferRun

variable (run : BufferRun maxHits matched)

/-- All matches are appended, in any order. -/
theorem length_order : run.order.length = matched.length := run.order_perm.length_eq

/-- The counter of a run ends at the number of matches. -/
theorem log_hitCount (hlen : matched.length ≤ 2 ^ 31) :
    run.log.hitCount.toNat = matched.length := by
  rw [← run.length_order] at hlen ⊢
  exact appendHits_hitCount hlen

/-- What the host returns when it copies as many entries as it can. -/
theorem returned_eq {copied : UInt32} (hlen : matched.length ≤ 2 ^ 31)
    (hcopied : copied.toNat = min matched.length maxHits.val) :
    run.returned copied = .ok (run.order.take (min matched.length maxHits.val)) := by
  have hcap := maxHits.lt
  have horder := run.length_order
  have hint : copied.toInt32.toInt = (min matched.length maxHits.val : ℕ) := by
    rw [Words.UInt32.toInt_toInt32, hcopied, if_pos (by omega)]
  have hneg : ¬ copied.toInt32 < 0 := by
    rw [Int32.lt_iff_toInt_lt, hint]
    exact not_lt.mpr (Int.natCast_nonneg _)
  have hnum : min copied.toInt32.toNatClampNeg maxHits.val = min matched.length maxHits.val := by
    rw [Int32.toNatClampNeg, hint, Int.toNat_natCast]
    omega
  have hnodup : (run.landed.map Prod.fst).Nodup :=
    (run.landed_perm.map Prod.fst).nodup_iff.mpr (writes_distinct (by omega))
  simp only [returned, decodeHits, if_neg hneg, hnum, hcopied]
  refine congrArg _ (List.ext_getElem? fun i => ?_)
  by_cases hi : i < min matched.length maxHits.val
  · have hget : run.order[i]? = some run.order[i] := List.getElem?_eq_getElem (by omega)
    have hmem : (i.toUInt32, run.order[i]) ∈ run.landed :=
      run.landed_perm.mem_iff.mpr
        (mem_writes_iff.mpr ⟨(slot_lt_iff (by omega)).mpr (by omega), i, hget, rfl⟩)
    have hstore : store run.mem run.landed i.toUInt32.toNat = run.order[i] :=
      store_of_mem hnodup hmem
    rw [toNat_slot (by omega)] at hstore
    rw [List.getElem?_map, List.getElem?_range hi, Option.map_some, if_pos hi, hstore,
      List.getElem?_take_of_lt hi, hget]
  · rw [List.getElem?_eq_none (by rw [List.length_map, List.length_range]; omega),
      List.getElem?_eq_none (by rw [List.length_take]; omega)]

/-- A run with at most `2 ^ 31` matches is faithful if the host copies as many as it can. -/
theorem faithful_of_copied {copied : UInt32} (hlen : matched.length ≤ 2 ^ 31)
    (hcopied : copied.toNat = min matched.length maxHits.val) : run.Faithful copied := by
  have horder := run.length_order
  refine ⟨fun w hw => writes_bounded (by omega) hw, writes_distinct (by omega), by omega, _,
    run.returned_eq hlen hcopied, ?_, ?_⟩
  · rw [List.length_take]
    omega
  · exact (List.take_sublist _ _).subperm.trans run.order_perm.subperm

/-- A faithful run has no more than `2 ^ 31` matches, whatever the host copies. -/
theorem Faithful.length_le {copied : UInt32} (h : run.Faithful copied) :
    matched.length ≤ 2 ^ 31 :=
  run.length_order ▸ length_le_of_bounded h.bounded

/-- **When the buffer of `pq_cuda_search` is faithful**: the counter is not negative. -/
theorem pq_faithful_iff :
    run.Faithful (pqCopyCount maxHits run.log.hitCount) ↔ matched.length < 2 ^ 31 := by
  have hcap := maxHits.lt
  have hgt : matched.length ≤ 2 ^ 31 → (run.log.hitCount.toInt32 > maxHits.toInt32 ↔
      matched.length < 2 ^ 31 ∧ maxHits.val < matched.length) := by
    intro hlen
    rw [gt_iff_lt, Int32.lt_iff_toInt_lt, HitCapacity.toInt_toInt32,
      Words.UInt32.toInt_toInt32, run.log_hitCount hlen]
    split <;> omega
  constructor
  · intro h
    have hlen := h.length_le
    by_contra hge
    have hle := h.copied_le
    rw [pqCopyCount, if_neg (by rw [hgt hlen]; omega), run.log_hitCount hlen] at hle
    omega
  · intro hlt
    refine run.faithful_of_copied (by omega) ?_
    rw [pqCopyCount]
    by_cases hfull : maxHits.val < matched.length
    · rw [if_pos ((hgt (by omega)).mpr ⟨hlt, hfull⟩), HitCapacity.toNat_toUInt32]
      omega
    · rw [if_neg (by rw [hgt (by omega)]; omega), run.log_hitCount (by omega)]
      omega

/-- **When the buffer of `ed_cuda_search` is faithful**: no slot is negative. -/
theorem ed_faithful_iff :
    run.Faithful (edCopyCount maxHits run.log.hitCount) ↔ matched.length ≤ 2 ^ 31 := by
  refine ⟨fun h => h.length_le, fun hlen => run.faithful_of_copied hlen ?_⟩
  have hgt : run.log.hitCount > maxHits.toInt32.toUInt32 ↔ maxHits.val < matched.length := by
    rw [gt_iff_lt, UInt32.lt_iff_toNat_lt, HitCapacity.toNat_toUInt32, run.log_hitCount hlen]
  rw [edCopyCount]
  by_cases hfull : maxHits.val < matched.length
  · rw [if_pos (hgt.mpr hfull), HitCapacity.toNat_toUInt32]
    omega
  · rw [if_neg (by rw [hgt]; exact hfull), run.log_hitCount hlen]
    omega

end BufferRun

/-! ### The buffer of a batch -/

/-- The entries of the matching candidates of an `f1` batch: the seeds with the salt that the
sweep stores. -/
def pqMatched (salt : Bytes32 → Option UInt8) (seeds : List Bytes32) : List DeviceHit :=
  seeds.filterMap fun entropy => (salt entropy).map (DeviceHit.mk entropy)

/-- **When the hit buffer is bounded and faithful.** For every capacity, every batch that is
launched, all of its candidates that match, every order of the `atomicAdd` and every order in
which the writes land, the buffer is bounded and faithful if and only if there are fewer than
`2 ^ 31` matches in an `f1` batch, and at most as many in an `ed25519` batch. -/
theorem hit_buffer_faithful_iff (maxHits : HitCapacity) (garbage base : Bytes32)
    (start numItems : UInt64) (block : BlockSize) (salt : Bytes32 → Option UInt8)
    (pkMatches : Bytes32 → Bool) :
    (∀ seeds, pqCudaScan garbage base start numItems block = .ok seeds →
      ∀ run : BufferRun maxHits (pqMatched salt seeds),
        run.Faithful (pqCopyCount maxHits run.log.hitCount) ↔
          (pqMatched salt seeds).length < 2 ^ 31) ∧
    (∀ seeds, edCudaScan garbage base start numItems block = .ok seeds →
      ∀ run : BufferRun maxHits (seeds.filter pkMatches),
        run.Faithful (edCopyCount maxHits run.log.hitCount) ↔
          (seeds.filter pkMatches).length ≤ 2 ^ 31) :=
  ⟨fun _ _ run => run.pq_faithful_iff, fun _ _ run => run.ed_faithful_iff⟩

/-- The run in which the threads append in the order of their candidates. -/
def BufferRun.inOrder (maxHits : HitCapacity) (matched : List α) (zero : α) :
    BufferRun maxHits matched where
  order := matched
  order_perm := .refl _
  landed := (appendHits maxHits matched).writes
  landed_perm := .refl _
  mem := fun _ => zero
  zero := zero

/-- If all candidates match, there are as many matches. -/
theorem length_pqMatched_some (seeds : List Bytes32) :
    (pqMatched (fun _ => some 0) seeds).length = seeds.length := by
  induction seeds with
  | nil => rfl
  | cons s seeds ih => exact congrArg (· + 1) ih

/-- A batch of three candidates that all match, and a buffer for two hits. -/
theorem hit_buffer_faithful_three : ∃ seeds,
    pqCudaScan (Vector.replicate 32 0) (Vector.replicate 32 0) 0 3
      ⟨256, by decide, by decide⟩ = .ok seeds ∧
    (BufferRun.inOrder ⟨2, by decide, by decide⟩ (pqMatched (fun _ => some 0) seeds)
      ⟨Vector.replicate 32 0, 0⟩).Faithful
        (pqCopyCount ⟨2, by decide, by decide⟩ (BufferRun.inOrder ⟨2, by decide, by decide⟩
          (pqMatched (fun _ => some 0) seeds) ⟨Vector.replicate 32 0, 0⟩).log.hitCount) := by
  have hscan := @launch_eq (Vector.replicate 32 0) 0 ⟨256, by decide, by decide⟩ 1 3
    (pqGrid 3 ⟨256, by decide, by decide⟩) _
    (@pqSearchKernel_eq (Vector.replicate 32 0) (Vector.replicate 32 0) 0 3
      ⟨256, by decide, by decide⟩) (by decide) (by decide)
  refine ⟨_, hscan, ((hit_buffer_faithful_iff ⟨2, by decide, by decide⟩ (Vector.replicate 32 0)
    (Vector.replicate 32 0) 0 3 ⟨256, by decide, by decide⟩ (fun _ => some 0)
    (fun _ => true)).1 _ hscan _).mpr ?_⟩
  rw [length_pqMatched_some, List.length_map, List.length_range]
  decide

/-- The salts of a batch in which the keys of one seed in eight match. -/
def saltOfEighth (entropy : Bytes32) : Option UInt8 :=
  if entropy[24]! % 8 = 0 then some 0 else none

/-- One number in eight is a multiple of it. -/
theorem countP_range_eighth (m : ℕ) :
    (List.range (8 * m)).countP (fun k => decide (k % 8 = 0)) = m := by
  induction m with
  | zero => rfl
  | succ m ih =>
      have hblock : ((List.range 8).map (8 * m + ·)).countP (fun k => decide (k % 8 = 0)) = 1 := by
        have hmod : ∀ k, (8 * m + k) % 8 = k % 8 := fun k => Nat.mul_add_mod 8 m k
        rw [List.countP_map]
        simp only [Function.comp_def, hmod]
        rfl
      rw [Nat.mul_succ, List.range_add, List.countP_append, ih, hblock]

/-- The first counter byte of the seeds of a batch that starts at zero runs through the residues
modulo 256. -/
theorem saltOfEighth_seedAt (base : Bytes32) (k : ℕ) :
    saltOfEighth (seedAt base (0 + k.toUInt64)) = if k % 8 = 0 then some 0 else none := by
  have hbyte : (seedAt base (0 + k.toUInt64))[24]! = k.toUInt8 := by
    rw [getElem!_pos _ 24 (by decide), seedAt, Vector.getElem_ofFn, if_neg (by decide)]
    apply UInt8.toNat_inj.mp
    simp
  have hmod : k.toUInt8 % 8 = 0 ↔ k % 8 = 0 := by
    rw [← UInt8.toNat_inj, UInt8.toNat_mod]
    simp
  rw [saltOfEighth, hbyte]
  exact if_congr hmod rfl rfl

/-- The matches of a batch of `8 * m` candidates are `m`. -/
theorem length_pqMatched_eighth (base : Bytes32) (m : ℕ) :
    (pqMatched saltOfEighth
      ((List.range (8 * m)).map fun k => seedAt base (0 + k.toUInt64))).length = m := by
  rw [pqMatched, List.filterMap_map, List.length_filterMap_eq_countP]
  refine .trans (List.countP_congr fun k _ => ?_) (countP_range_eighth m)
  rw [Function.comp_apply, saltOfEighth_seedAt]
  by_cases hk : k % 8 = 0
  · simp [hk]
  · simp [hk]

/-- In a batch of `2 ^ 34` candidates of which one in eight matches, the counter ends at `2 ^ 31`,
which `pq_cuda_search` reads as a negative number. -/
theorem hit_buffer_overflows :
    let base : Bytes32 := Vector.replicate 32 0
    let block : BlockSize := ⟨256, by decide, by decide⟩
    let maxHits : HitCapacity := ⟨4096, by decide, by decide⟩
    ∃ seeds, pqCudaScan base base 0 (2 ^ 34) block = .ok seeds ∧
      let run := BufferRun.inOrder maxHits (pqMatched saltOfEighth seeds) ⟨base, 0⟩
      ¬ run.Faithful (pqCopyCount maxHits run.log.hitCount) := by
  intro base block maxHits
  have hscan := @launch_eq base 0 block 1 (2 ^ 34) (pqGrid (2 ^ 34) block) _
    (@pqSearchKernel_eq base base 0 (2 ^ 34) block) (by decide) (by decide)
  have hlen : min (2 ^ 34) (1 * (block.val * (pqGrid (2 ^ 34) block).toNat)) = 8 * 2 ^ 31 := by
    decide
  rw [hlen] at hscan
  refine ⟨_, hscan, ?_⟩
  intro run
  rw [run.pq_faithful_iff, length_pqMatched_eighth]
  exact lt_irrefl _

end FalconVanity
