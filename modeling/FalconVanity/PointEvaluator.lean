import FalconVanity.SamplerEvaluator
import FalconVanity.Verify

/-!
# Counting the Samples of a Point

How many samples of a message are not rejected, on natural numbers: a block of the source gives
68 samples, four from each lane of the rate, and the count over some blocks decides inside a proof
whether the samples of the constant-time variant are enough.

## Main results

* `draws_block`: the samples of a block.
* `enoughSamples_of_natEnough`: an evaluation that shows that the samples are enough.
* `enoughSamples_empty`: they are for the empty message.
-/

namespace FalconVanity

open Draws

/-! ### The samples of a block -/

/-- Sample `i` of a block. -/
def blockSample (A : Lanes) (i : ℕ) : UInt32 :=
  (laneByte A (2 * i)).toUInt32 <<< 8 ||| (laneByte A (2 * i + 1)).toUInt32

section Block

variable (perm : Lanes → Lanes)

/-- A sample at an even position of a block. -/
theorem extractU16_eq {c : ShakeContext} {i : ℕ} (hi : (shakeRefill perm c).dptr = 2 * i)
    (hle : 2 * (i + 1) ≤ shakeRate) :
    extractU16 perm c = (blockSample (shakeRefill perm c).A i,
      ⟨(shakeRefill perm c).A, 2 * (i + 1), hle⟩) := by
  have hclen : min (shakeRate - (shakeRefill perm c).dptr) 2 = 2 := by omega
  rw [extractU16, shakeExtract, dif_neg (by norm_num)]
  simp only [hclen, Nat.sub_self]
  rw [shakeExtract, dif_pos rfl]
  simp only [hi, List.append_nil]
  rfl

/-- **The samples of a block**, from position `i` on, and those of the next blocks. -/
theorem draws_block (A : Lanes) {i m : ℕ} (him : i + m = 68) (hle : 2 * i ≤ shakeRate) (n : ℕ) :
    draws (extractU16 perm) (m + n) ⟨A, 2 * i, hle⟩ =
      (List.range' i m).map (blockSample A) ++
        draws (extractU16 perm) n ⟨A, shakeRate, le_rfl⟩ := by
  induction m generalizing i with
  | zero =>
      obtain rfl : i = 68 := him
      rw [Nat.zero_add]
      rfl
  | succ m ih =>
      have hrate : shakeRate = 136 := rfl
      have hrefill : shakeRefill perm ⟨A, 2 * i, hle⟩ = ⟨A, 2 * i, hle⟩ := by
        rw [shakeRefill, if_neg (by dsimp only; omega)]
      have hnext := extractU16_eq perm (c := ⟨A, 2 * i, hle⟩) (i := i) (by rw [hrefill])
        (by omega)
      rw [hrefill] at hnext
      rw [Nat.succ_add, draws, hnext, ih (by omega), List.range'_succ, List.map_cons,
        List.cons_append]

/-- After a block, the next one begins. -/
theorem draws_next_block (A : Lanes) (n : ℕ) :
    draws (extractU16 perm) (68 + n) ⟨A, shakeRate, le_rfl⟩ =
      (List.range 68).map (blockSample (perm A)) ++
        draws (extractU16 perm) n ⟨perm A, shakeRate, le_rfl⟩ := by
  have hrefill : shakeRefill perm ⟨A, shakeRate, le_rfl⟩ = ⟨perm A, 0, by decide⟩ := if_pos rfl
  have hrefill' : shakeRefill perm ⟨perm A, 2 * 0, by decide⟩ = ⟨perm A, 0, by decide⟩ :=
    if_neg (Nat.zero_ne_add_one 135)
  have hfirst := extractU16_eq perm (c := ⟨A, shakeRate, le_rfl⟩) (i := 0) (by rw [hrefill])
    (by decide)
  have hfirst' := extractU16_eq perm (c := ⟨perm A, 2 * 0, by decide⟩) (i := 0)
    (by rw [hrefill']) (by decide)
  rw [hrefill] at hfirst
  rw [hrefill'] at hfirst'
  have hblock := draws_block perm (perm A) (i := 0) (m := 68) rfl (by decide) n
  rw [← List.range_eq_range'] at hblock
  rw [← hblock]
  have hsucc : 68 + n = 67 + n + 1 := by omega
  rw [hsucc, draws, draws, hfirst, hfirst']

end Block

/-! ### Counting on naturals -/

/-- The sample `r` of a lane. -/
def natSample (x r : ℕ) : ℕ :=
  Nat.add (Nat.mul (Nat.mod (Nat.shiftRight x (16 * r)) 256) 256)
    (Nat.mod (Nat.shiftRight x (16 * r + 8)) 256)

/-- The number of samples of a lane that are not rejected. -/
def natLaneCount (x : ℕ) : ℕ := [0, 1, 2, 3].countP fun r => Nat.blt (natSample x r) 61445

/-- The number of samples of a block that are not rejected. -/
def NatLanes.sampleCount (s : NatLanes) : ℕ := (s.rate.map natLaneCount).sum

/-- Some blocks have as many samples that are not rejected as are needed. The comparison makes
an evaluation by need keep no chain of unevaluated differences. -/
def natEnough : ℕ → ℕ → NatLanes → Bool
  | 0, _, _ => false
  | k + 1, need, s =>
    let s := s.permute
    bif Nat.ble need s.sampleCount then true else natEnough k (Nat.sub need s.sampleCount) s

/-- A sample of a block, on naturals. -/
theorem toNat_blockSample (A : Lanes) (j : ℕ) {r : ℕ} (hr : r < 4) :
    (blockSample A (4 * j + r)).toNat = natSample A[j]!.toNat r := by
  have hbyte : ∀ b < 2, (laneByte A (2 * (4 * j + r) + b)).toNat =
      A[j]!.toNat / 2 ^ (16 * r + 8 * b) % 256 := by
    intro b hb
    have hdiv : (2 * (4 * j + r) + b) / 8 = j := by omega
    have hmod : 8 * ((2 * (4 * j + r) + b) % 8) = 16 * r + 8 * b := by omega
    rw [laneByte, hdiv, hmod, Words.UInt64.toNat_byte _ (by omega)]
  have hhigh := hbyte 0 (by norm_num)
  have hlow := hbyte 1 (by norm_num)
  rw [Nat.mul_zero, Nat.add_zero, Nat.add_zero] at hhigh
  rw [Nat.mul_one] at hlow
  have hmod : ∀ b, A[j]!.toNat / 2 ^ b % 256 < 256 := fun b => Nat.mod_lt _ (by norm_num)
  have hor := Words.UInt32.toNat_shiftLeft_or (laneByte A (2 * (4 * j + r))).toUInt32
    (b := (laneByte A (2 * (4 * j + r) + 1)).toUInt32) (k := 8) (by norm_num)
    (by rw [UInt8.toNat_toUInt32, hlow]; exact hmod _)
  rw [UInt8.toNat_toUInt32, UInt8.toNat_toUInt32, hhigh, hlow, Nat.mod_eq_of_lt
    (by have := hmod (16 * r); have := hmod (16 * r + 8); omega)] at hor
  refine hor.trans ?_
  rw [← Nat.shiftRight_eq_div_pow, ← Nat.shiftRight_eq_div_pow]
  rfl

/-- The samples of a block that are not rejected are counted lane by lane. -/
theorem countP_blockSample (A : Lanes) :
    ((List.range 68).map (blockSample A)).countP accepted = (NatLanes.of A).sampleCount := by
  have hsample : ∀ j < 17, ∀ r < 4,
      accepted (blockSample A (4 * j + r)) = Nat.blt (natSample A[j]!.toNat r) 61445 := by
    intro j hj r hr
    rw [← toNat_blockSample A j hr]
    exact Bool.eq_iff_iff.mpr (decide_eq_true_iff.trans (iff_of_eq Nat.blt_eq.symm))
  have hlanes : ∀ n ≤ 17, ((List.range (4 * n)).map (blockSample A)).countP accepted =
      ((List.range n).map fun j => natLaneCount A[j]!.toNat).sum := by
    intro n hn
    induction n with
    | zero => rfl
    | succ n ih =>
        have hfour : (List.range (4 * (n + 1))).map (blockSample A) =
            (List.range (4 * n)).map (blockSample A) ++
              [0, 1, 2, 3].map fun r => blockSample A (4 * n + r) := by
          rw [Nat.mul_succ, List.range_add, List.map_append, List.map_map]
          rfl
        have hlane : ([0, 1, 2, 3].map fun r => blockSample A (4 * n + r)).countP accepted =
            natLaneCount A[n]!.toNat := by
          rw [List.countP_map, natLaneCount]
          refine List.countP_congr fun r hr => ?_
          have hr' : r < 4 := by
            simp only [List.mem_cons, List.not_mem_nil, or_false] at hr
            omega
          rw [Function.comp_apply, hsample n (by omega) r hr']
        rw [hfour, List.countP_append, ih (by omega), hlane, List.range_succ, List.map_append,
          List.sum_append]
        simp
  have hrate : (NatLanes.of A).rate = (List.range 17).map fun j => A[j]!.toNat := rfl
  rw [NatLanes.sampleCount, hrate, List.map_map]
  exact hlanes 17 le_rfl

/-- **The count over some blocks** decides that the residues are enough. -/
theorem le_length_residues_blocks {k need : ℕ} {A : Lanes}
    (h : natEnough k need (.of A) = true) :
    need ≤ (residues (extractU16 keccakf) (68 * k) ⟨A, shakeRate, le_rfl⟩).length := by
  induction k generalizing need A with
  | zero => cases h
  | succ k ih =>
      have hcount := countP_blockSample (keccakf A)
      rw [natEnough, NatLanes.permute_of, cond_eq_ite] at h
      rw [residues, Nat.mul_succ, Nat.add_comm, draws_next_block, List.filter_append,
        List.map_append, List.length_append, List.length_map, ← List.countP_eq_length_filter,
        hcount]
      split at h
      · rename_i hle
        exact (Nat.le_of_ble_eq_true hle).trans (Nat.le_add_right _ _)
      · have hrest := ih h
        rw [residues, Nat.sub_eq] at hrest
        omega

/-- **The residues of a message** are enough when the count over some blocks says so. -/
theorem enoughSamples_of_natEnough {version : UInt8} {data : List UInt8} {k : ℕ} (hk : k ≤ 19)
    {A : Lanes} (hA : saltedContext processBlock version data = ⟨A, shakeRate, le_rfl⟩)
    (h : natEnough k 1024 (.of A) = true) : EnoughSamples processBlock version data := by
  have hperm : processBlock = keccakf := funext processBlock_eq_keccakf
  rw [EnoughSamples, hA, hperm]
  have hle : 68 * k ≤ 1311 := by omega
  exact (le_length_residues_blocks h).trans (residues_extend _ hle _).length_le

/-- The lanes of the context of the empty message. -/
def emptyLanes (version : UInt8) : Lanes :=
  xorByte (xorByte (xorBytes (Vector.replicate 25 0) 0 (writeSalt version)) 40 0x1F) 135 0x80

theorem saltedContext_empty (perm : Lanes → Lanes) (version : UInt8) :
    saltedContext perm version [] = ⟨emptyLanes version, shakeRate, le_rfl⟩ := by
  have hlen : (writeSalt version).length = 40 := length_writeSalt version
  have hshort : shakeInit.dptr + (writeSalt version).length < shakeRate := by
    rw [hlen]
    decide
  have hsalt := shakeInject_short perm hshort
  have hnil : shakeInject perm (shakeInject perm shakeInit (writeSalt version)) [] =
      shakeInject perm shakeInit (writeSalt version) := by rw [shakeInject, dif_pos rfl]
  rw [saltedContext, hnil, hsalt]
  rfl

set_option maxRecDepth 100000 in
/-- **The samples of the empty message are enough.** -/
theorem enoughSamples_empty : EnoughSamples processBlock 0 [] :=
  enoughSamples_of_natEnough (k := 17) (by norm_num) (saltedContext_empty _ _) (by decide +kernel)

end FalconVanity
