import FalconVanity.Foundation.Draws
import FalconVanity.Keccak
import FalconVanity.Mnemonic

/-!
# SHAKE256 as a Source of 64-Bit Draws

The reference context is a byte-wise sponge: bytes are injected at a pointer into the state,
the padding is flipped in, and bytes are extracted from the pointer on, permuting whenever
136 bytes have been used. Its draws are eight extracted bytes, least significant first. The
device absorbs exactly one 32-byte seed, in four words, and serves its draws from a pool of
17 words that it fills after each permutation.

Both sides take the permutation as a parameter; `Keccak` shows that the two permutations of
the sources are equal.

## Main results

* `Serves`: the relation between the two states.
* `serves_init`: absorbing one seed establishes it.
* `agrees_draw`: it is kept by a draw, and the draws agree.
-/

namespace FalconVanity

/-- The rate of SHAKE256, in bytes. -/
def shakeRate : ℕ := 136

/-! ### The reference context -/

/-- `inner_shake256_context`: the lanes, and the next byte of the block. -/
structure ShakeContext where
  A : Lanes
  dptr : ℕ
  dptr_le : dptr ≤ shakeRate

/-- Byte `v` of a state, by the byte order of its lanes. -/
def laneByte (A : Lanes) (v : ℕ) : UInt8 :=
  (A[v / 8]! >>> (8 * (v % 8)).toUInt64).toUInt8

/-- A byte added to byte `v` of a state. -/
def xorByte (A : Lanes) (v : ℕ) (b : UInt8) : Lanes :=
  A.set! (v / 8) (A[v / 8]! ^^^ b.toUInt64 <<< (8 * (v % 8)).toUInt64)

/-- The inner loop of `shakeInject`. -/
def xorBytes (A : Lanes) (v : ℕ) : List UInt8 → Lanes
  | [] => A
  | b :: bs => xorBytes (xorByte A v b) (v + 1) bs

variable (perm : Lanes → Lanes)

/-- `i_shake256_init`: the state of zeros. -/
def shakeInit : ShakeContext where
  A := Vector.replicate 25 0
  dptr := 0
  dptr_le := by decide

/-- `i_shake256_inject`: bytes are added to the state, block by block. -/
def shakeInject (sc : ShakeContext) (input : List UInt8) : ShakeContext :=
  if h : input = [] then sc
  else
    let clen := min (shakeRate - sc.dptr) input.length
    let A := xorBytes sc.A sc.dptr (input.take clen)
    if hfull : sc.dptr + clen = shakeRate then
      shakeInject ⟨perm A, 0, by decide⟩ (input.drop clen)
    else
      shakeInject ⟨A, sc.dptr + clen, by have := sc.dptr_le; omega⟩ (input.drop clen)
termination_by (input.length, sc.dptr)
decreasing_by
  all_goals
    have hpos := List.length_pos_of_ne_nil h
    have hle := sc.dptr_le
    have hrate : shakeRate = 136 := rfl
    simp only [clen] at hfull
    simp only [Prod.lex_def, List.length_drop]
    omega

/-- `i_shake256_flip`: the padding, and a pointer that makes the first extraction permute. -/
def shakeFlip (sc : ShakeContext) : ShakeContext where
  A := xorByte (xorByte sc.A sc.dptr 0x1F) 135 0x80
  dptr := shakeRate
  dptr_le := le_rfl

/-- The start of an iteration of `shakeExtract`: an exhausted block is permuted. -/
def shakeRefill (sc : ShakeContext) : ShakeContext :=
  if sc.dptr = shakeRate then ⟨perm sc.A, 0, by decide⟩ else sc

theorem shakeRefill_dptr_lt (sc : ShakeContext) : (shakeRefill perm sc).dptr < shakeRate := by
  unfold shakeRefill
  split
  · exact Nat.zero_lt_succ _
  · exact lt_of_le_of_ne sc.dptr_le ‹_›

/-- `i_shake256_extract`: bytes are read from the state, block by block. -/
def shakeExtract (sc : ShakeContext) (len : ℕ) : List UInt8 × ShakeContext :=
  if h : len = 0 then ([], sc)
  else
    let sc' := shakeRefill perm sc
    let clen := min (shakeRate - sc'.dptr) len
    let out := (List.range clen).map fun u => laneByte sc'.A (sc'.dptr + u)
    let rest := shakeExtract ⟨sc'.A, sc'.dptr + clen, by have := sc'.dptr_le; omega⟩ (len - clen)
    (out ++ rest.1, rest.2)
termination_by len
decreasing_by
  have hlt := shakeRefill_dptr_lt perm sc
  omega

/-- As many bytes are extracted as were asked for. -/
theorem length_shakeExtract (sc : ShakeContext) (len : ℕ) :
    (shakeExtract perm sc len).1.length = len := by
  induction sc, len using shakeExtract.induct perm with
  | case1 sc => rw [shakeExtract, dif_pos rfl, List.length_nil]
  | case2 sc len h sc' clen ih =>
      rw [shakeExtract, dif_neg h, List.length_append, ih, List.length_map, List.length_range]
      exact Nat.add_sub_cancel' (Nat.min_le_right _ _)

/-- `get_rng_u64`: eight bytes, least significant first. -/
def getRngU64 (rng : ShakeContext) : UInt64 × ShakeContext :=
  let (tmp, rng) := shakeExtract perm rng 8
  (tmp[0]!.toUInt64 ||| tmp[1]!.toUInt64 <<< 8 ||| tmp[2]!.toUInt64 <<< 16 |||
    tmp[3]!.toUInt64 <<< 24 ||| tmp[4]!.toUInt64 <<< 32 ||| tmp[5]!.toUInt64 <<< 40 |||
    tmp[6]!.toUInt64 <<< 48 ||| tmp[7]!.toUInt64 <<< 56, rng)

/-- `shake256_init_prng_from_seed`: the stream of a seed. -/
def shakeInitPrngFromSeed (seed : List UInt8) : ShakeContext :=
  shakeFlip (shakeInject perm shakeInit seed)

/-! ### The device context -/

/-- `Shake`: the stream on the device: the lanes, and the next byte of the block. -/
structure Shake where
  a : Lanes
  pool : Vector UInt64 17
  idx : ℕ

/-- The word `i` of a seed, least significant byte first. -/
def seedWord (seed : Bytes32) (i : ℕ) : UInt64 :=
  (List.range 8).foldl (fun v j => v ||| seed[i * 8 + j]!.toUInt64 <<< (8 * j).toUInt64) 0

/-- `shake_init_seed32`. The pool is filled before it is read. -/
def shakeInitSeed32 (seed : Bytes32) : Shake where
  a := ((((((Vector.replicate 25 0).set! 0 (seedWord seed 0)).set! 1 (seedWord seed 1)).set! 2
    (seedWord seed 2)).set! 3 (seedWord seed 3)).set! 4 0x1F).set! 16 ((0x80 : UInt64) <<< 56)
  pool := Vector.replicate 17 0
  idx := 17

/-- `shake_squeeze_u64`: the next eight bytes as a word. -/
def shakeSqueezeU64 (s : Shake) : UInt64 × Shake :=
  let s :=
    if s.idx = 17 then
      let a := perm s.a
      { a := a, pool := Vector.ofFn fun i => a[i.val], idx := 0 }
    else s
  (s.pool[s.idx]!, { s with idx := s.idx + 1 })

/-! ### The bytes of a state -/

/-- States with the same 200 bytes are equal. -/
theorem lanes_ext {A B : Lanes} (h : ∀ v < 200, laneByte A v = laneByte B v) : A = B := by
  refine Vector.ext fun k hk => Words.UInt64.ext_bytes fun j hj => ?_
  have hv := h (8 * k + j) (by omega)
  have hdiv : (8 * k + j) / 8 = k := by omega
  have hmod : (8 * k + j) % 8 = j := by omega
  rwa [laneByte, laneByte, hdiv, hmod, getElem!_pos A k hk, getElem!_pos B k hk] at hv

/-- A byte added to a state changes that byte only. -/
theorem laneByte_xorByte (A : Lanes) {v w : ℕ} (b : UInt8) (hv : v < 200) (hw : w < 200) :
    laneByte (xorByte A v b) w = laneByte A w ^^^ (if v = w then b else 0) := by
  have hvk : v / 8 < 25 := by omega
  have hwk : w / 8 < 25 := by omega
  by_cases hk : v / 8 = w / 8
  · have hget : (xorByte A v b)[w / 8]! =
        A[w / 8]! ^^^ b.toUInt64 <<< (8 * (v % 8)).toUInt64 := by
      rw [xorByte, hk, Words.getElem!_set! _ hwk, if_pos rfl]
    have hiff : v % 8 = w % 8 ↔ v = w := by omega
    rw [laneByte, hget, Words.byte_xor_shifted _ _ (Nat.mod_lt _ (by norm_num))
      (Nat.mod_lt _ (by norm_num)), laneByte]
    simp only [hiff]
  · have hne : v ≠ w := fun h => hk (by rw [h])
    have hget : (xorByte A v b)[w / 8]! = A[w / 8]! := by
      rw [xorByte, Words.getElem!_set! _ hwk, if_neg hk]
    rw [laneByte, hget, laneByte, if_neg hne, UInt8.xor_zero]

/-- A run of bytes added to a state changes these bytes only. -/
theorem laneByte_xorBytes (A : Lanes) {v w : ℕ} {bs : List UInt8} (hv : v + bs.length ≤ 200)
    (hw : w < 200) :
    laneByte (xorBytes A v bs) w =
      laneByte A w ^^^ (if v ≤ w then (bs[w - v]?).getD 0 else 0) := by
  induction bs generalizing A v with
  | nil => simp [xorBytes]
  | cons b bs ih =>
      rw [List.length_cons] at hv
      rw [xorBytes, ih _ (by omega), laneByte_xorByte _ _ (by omega) hw, UInt8.xor_assoc]
      congr 1
      rcases Nat.lt_trichotomy v w with h | rfl | h
      · have hsub : w - v = (w - (v + 1)) + 1 := by omega
        rw [if_neg h.ne, if_pos (Nat.succ_le_of_lt h), if_pos h.le, hsub,
          List.getElem?_cons_succ, UInt8.zero_xor]
      · simp
      · rw [if_neg h.ne', if_neg (by omega), if_neg (by omega), UInt8.zero_xor]

/-! ### Absorbing one seed -/

/-- Injecting less than the rest of a block permutes nothing. -/
theorem shakeInject_short {sc : ShakeContext} {input : List UInt8}
    (hlen : sc.dptr + input.length < shakeRate) :
    shakeInject perm sc input =
      ⟨xorBytes sc.A sc.dptr input, sc.dptr + input.length, hlen.le⟩ := by
  by_cases h : input = []
  · subst h
    rw [shakeInject, dif_pos rfl]
    rfl
  · have hclen : min (shakeRate - sc.dptr) input.length = input.length := by omega
    rw [shakeInject, dif_neg h]
    simp only [hclen, List.take_length, List.drop_length]
    rw [dif_neg (by omega), shakeInject, dif_pos rfl]

/-- Byte `j` of word `i` of a seed. -/
theorem byte_seedWord (seed : Bytes32) {i j : ℕ} (hj : j < 8) :
    (seedWord seed i >>> (8 * j).toUInt64).toUInt8 = seed[i * 8 + j]! := by
  have hword : seedWord seed i = seed[i * 8 + 0]!.toUInt64 ||| seed[i * 8 + 1]!.toUInt64 <<< 8 |||
      seed[i * 8 + 2]!.toUInt64 <<< 16 ||| seed[i * 8 + 3]!.toUInt64 <<< 24 |||
      seed[i * 8 + 4]!.toUInt64 <<< 32 ||| seed[i * 8 + 5]!.toUInt64 <<< 40 |||
      seed[i * 8 + 6]!.toUInt64 <<< 48 ||| seed[i * 8 + 7]!.toUInt64 <<< 56 := by
    simp [seedWord, List.range_succ]
  apply UInt8.toNat_inj.mp
  rw [Words.UInt64.toNat_byte _ (by omega), hword, Words.UInt64.toNat_ofBytes]
  have h₀ := (seed[i * 8 + 0]!).toNat_lt
  have h₁ := (seed[i * 8 + 1]!).toNat_lt
  have h₂ := (seed[i * 8 + 2]!).toNat_lt
  have h₃ := (seed[i * 8 + 3]!).toNat_lt
  have h₄ := (seed[i * 8 + 4]!).toNat_lt
  have h₅ := (seed[i * 8 + 5]!).toNat_lt
  have h₆ := (seed[i * 8 + 6]!).toNat_lt
  have h₇ := (seed[i * 8 + 7]!).toNat_lt
  interval_cases j <;> omega

/-- The lanes of the initial state of the device. -/
theorem getElem_shakeInitSeed32 (seed : Bytes32) {k : ℕ} (hk : k < 25) :
    (shakeInitSeed32 seed).a[k]! =
      if k < 4 then seedWord seed k else if k = 4 then 0x1F
      else if k = 16 then (0x80 : UInt64) <<< 56 else 0 := by
  interval_cases k <;> rfl

/-- The bytes of the initial state of the device: the seed and the padding. -/
theorem laneByte_shakeInitSeed32 (seed : Bytes32) {v : ℕ} (hv : v < 200) :
    laneByte (shakeInitSeed32 seed).a v =
      if v < 32 then seed.toList[v]?.getD 0 else if v = 32 then 0x1F
      else if v = 135 then 0x80 else 0 := by
  have hj : v % 8 < 8 := Nat.mod_lt _ (by norm_num)
  rw [laneByte, getElem_shakeInitSeed32 seed (by omega)]
  by_cases h32 : v < 32
  · have hv' : v / 8 * 8 + v % 8 = v := by omega
    rw [if_pos (by omega), byte_seedWord seed hj, hv', if_pos h32]
    simp [h32]
  · rw [if_neg (by omega), if_neg h32]
    by_cases h4 : v / 8 = 4
    · have hzero : ∀ j < 8, ((0x1F : UInt64) >>> (8 * j).toUInt64).toUInt8 =
          if j = 0 then 0x1F else 0 := by decide
      have hiff : v % 8 = 0 ↔ v = 32 := by omega
      have hne : v ≠ 135 := by omega
      rw [if_pos h4, hzero _ hj]
      simp only [hiff, hne, if_false]
    · by_cases h16 : v / 8 = 16
      · have hlast : ∀ j < 8, ((0x80 : UInt64) <<< 56 >>> (8 * j).toUInt64).toUInt8 =
            if j = 7 then 0x80 else 0 := by decide
        have hiff : v % 8 = 7 ↔ v = 135 := by omega
        have hne : v ≠ 32 := by omega
        rw [if_neg h4, if_pos h16, hlast _ hj]
        simp only [hiff, hne, if_false]
      · rw [if_neg h4, if_neg h16, if_neg (by omega), if_neg (by omega)]
        simp

/-- **Absorbing one seed.** Both contexts hold the same state, and both permute before the
next draw. -/
theorem shakeInitPrngFromSeed_eq (seed : Bytes32) :
    (shakeInitPrngFromSeed perm seed.toList).A = (shakeInitSeed32 seed).a ∧
      (shakeInitPrngFromSeed perm seed.toList).dptr = shakeRate := by
  refine ⟨lanes_ext fun v hv => ?_, rfl⟩
  have hzero : laneByte (Vector.replicate 25 0) v = 0 := by
    have hk : v / 8 < 25 := by omega
    simp [laneByte, hk]
  rw [laneByte_shakeInitSeed32 seed hv, shakeInitPrngFromSeed,
    shakeInject_short perm (by simp [shakeInit, shakeRate])]
  simp only [shakeFlip, shakeInit, Vector.length_toList, Nat.zero_add]
  rw [laneByte_xorByte _ _ (by norm_num) hv, laneByte_xorByte _ _ (by norm_num) hv,
    laneByte_xorBytes _ (by simp) hv, hzero]
  by_cases h32 : v < 32
  · have hne : 135 ≠ v := by omega
    simp [h32, h32.ne', hne]
  · by_cases h : v = 32
    · simp [h]
    · by_cases h' : v = 135
      · simp [h']
      · simp [h32, h, h', Ne.symm h, Ne.symm h']

/-! ### Drawing -/

/-- Extracting eight bytes at a word boundary reads one word of the state. -/
theorem shakeExtract_word {rng : ShakeContext} {k : ℕ}
    (hk : (shakeRefill perm rng).dptr = 8 * k) (hle : 8 * k + 8 ≤ shakeRate) :
    shakeExtract perm rng 8 =
      ((List.range 8).map fun u => laneByte (shakeRefill perm rng).A (8 * k + u),
        ⟨(shakeRefill perm rng).A, 8 * k + 8, hle⟩) := by
  have hclen : min (shakeRate - (shakeRefill perm rng).dptr) 8 = 8 := by omega
  rw [shakeExtract, dif_neg (by norm_num)]
  simp only [hclen, Nat.sub_self]
  rw [shakeExtract, dif_pos rfl]
  simp only [hk, List.append_nil]

/-- The eight bytes of a word, put together, are the word. -/
theorem getRngU64_eq {rng : ShakeContext} {k : ℕ} (hk : (shakeRefill perm rng).dptr = 8 * k)
    (hle : 8 * k + 8 ≤ shakeRate) :
    getRngU64 perm rng =
      ((shakeRefill perm rng).A[k]!, ⟨(shakeRefill perm rng).A, 8 * k + 8, hle⟩) := by
  set w := (shakeRefill perm rng).A[k]! with hw
  have hbyte : ∀ u < 8, laneByte (shakeRefill perm rng).A (8 * k + u) =
      (w >>> (8 * u).toUInt64).toUInt8 := by
    intro u hu
    have hdiv : (8 * k + u) / 8 = k := by omega
    have hmod : (8 * k + u) % 8 = u := by omega
    rw [laneByte, hdiv, hmod]
  have hlist : ((List.range 8).map fun u => laneByte (shakeRefill perm rng).A (8 * k + u)) =
      (List.range 8).map fun u => (w >>> (8 * u).toUInt64).toUInt8 :=
    List.map_congr_left fun u hu => hbyte u (List.mem_range.mp hu)
  rw [getRngU64, shakeExtract_word perm hk hle, hlist]
  refine Prod.ext ?_ rfl
  apply UInt64.toNat_inj.mp
  refine (Words.UInt64.toNat_ofBytes _ _ _ _ _ _ _ _).trans (show _ = w.toNat from ?_)
  have hget : ∀ u < 8, ((List.range 8).map fun u => (w >>> (8 * u).toUInt64).toUInt8)[u]!.toNat =
      w.toNat / 2 ^ (8 * u) % 256 := by
    intro u hu
    have hshift : 8 * u < 64 := by omega
    rw [← Words.UInt64.toNat_byte w hshift]
    simp [hu]
  have hw := w.toNat_lt
  rw [hget 0 (by norm_num), hget 1 (by norm_num), hget 2 (by norm_num), hget 3 (by norm_num),
    hget 4 (by norm_num), hget 5 (by norm_num), hget 6 (by norm_num), hget 7 (by norm_num)]
  simp only [Nat.reduceMul, Nat.reducePow]
  omega

/-- The device state `s` serves the draws of the context `rng`: the states are equal, the
pointers are at the same word, and the words that are left stand in the pool. -/
structure Serves (rng : ShakeContext) (s : Shake) : Prop where
  state : rng.A = s.a
  pointer : rng.dptr = 8 * s.idx
  pool : s.idx < 17 → ∀ i < 17, s.pool[i]! = s.a[i]!

/-- Absorbing a seed establishes the relation. -/
theorem serves_init (seed : Bytes32) :
    Serves (shakeInitPrngFromSeed perm seed.toList) (shakeInitSeed32 seed) where
  state := (shakeInitPrngFromSeed_eq perm seed).1
  pointer := (shakeInitPrngFromSeed_eq perm seed).2
  pool h := absurd h (lt_irrefl 17)

/-- **A draw keeps the relation**, and the two draws are equal. -/
theorem agrees_draw : Draws.Agrees (getRngU64 perm) (shakeSqueezeU64 perm) Serves := by
  intro rng s h
  have hle : s.idx ≤ 17 := by
    have hd := rng.dptr_le
    rw [h.pointer] at hd
    exact Nat.le_of_mul_le_mul_left hd (by norm_num)
  by_cases hidx : s.idx = 17
  · -- The block is exhausted: both sides permute and start over.
    have hd : rng.dptr = shakeRate := by rw [h.pointer, hidx]; rfl
    have hrefill : shakeRefill perm rng = ⟨perm rng.A, 0, Nat.zero_le _⟩ := by
      rw [shakeRefill, if_pos hd]
    rw [getRngU64_eq perm (k := 0) (by rw [hrefill]) (by decide), hrefill, shakeSqueezeU64,
      if_pos hidx]
    refine ⟨by simp [h.state], by simp [h.state], rfl, fun _ i hi => ?_⟩
    have hlane : i < 25 := by omega
    simp [hi, hlane]
  · have hlt : s.idx < 17 := by omega
    have hd : rng.dptr ≠ shakeRate := by
      rw [h.pointer]
      have hr : shakeRate = 8 * 17 := rfl
      omega
    have hrefill : shakeRefill perm rng = rng := by rw [shakeRefill, if_neg hd]
    have hroom : 8 * s.idx + 8 ≤ shakeRate := by
      have hr : shakeRate = 8 * 17 := rfl
      omega
    rw [getRngU64_eq perm (k := s.idx) (by rw [hrefill, h.pointer]) hroom, hrefill,
      shakeSqueezeU64, if_neg hidx]
    refine ⟨by rw [h.pool hlt _ hlt, h.state], ?_⟩
    exact ⟨h.state, by simp only; ring, fun _ => h.pool hlt⟩

end FalconVanity
