import FalconVanity.Sampler

/-!
# Running the Sampler

The sampler of the device, on natural numbers: an evaluator that is fast enough to run the
first attempt of key generation inside a proof. The permutation works on 25 naturals, by the
functions on naturals that a checker of proofs computes itself; a Gaussian value is an index of
the table, with a sign; and the loop keeps its values in a list.

Only one direction is needed: an outcome of the evaluator is an outcome of the sampler.

## Main results

* `gaussValue_eq`: a Gaussian value, as the index of a table entry with a sign.
* `NatLanes.permute_of`: the permutation on naturals.
* `runSample_sound`: an outcome of the evaluator is the outcome of the device sampler.
-/

namespace FalconVanity

open Draws

/-! ### The permutation -/

/-- The 25 lanes of a Keccak state, as naturals. The kernel evaluates naturals fast, so that a seed
can be followed through a whole sampler. -/
structure NatLanes where
  (a0 a1 a2 a3 a4 a5 a6 a7 a8 a9 a10 a11 a12 a13 a14 a15 a16 a17 a18 a19 a20 a21 a22 a23 a24 : ℕ)

namespace NatLanes

/-- The lanes of a state. -/
def of (A : Lanes) : NatLanes :=
  let a i := A[i]!.toNat
  ⟨a 0, a 1, a 2, a 3, a 4, a 5, a 6, a 7, a 8, a 9, a 10, a 11, a 12, a 13, a 14, a 15, a 16,
    a 17, a 18, a 19, a 20, a 21, a 22, a 23, a 24⟩

/-- `rotl64`, on naturals. -/
def rotl (x n : ℕ) : ℕ :=
  Nat.lor (Nat.mod (Nat.shiftLeft x n) 0x10000000000000000) (Nat.shiftRight x (Nat.sub 64 n))

/-- The complement of a word. -/
def compl (x : ℕ) : ℕ := Nat.sub 0xFFFFFFFFFFFFFFFF x

/-- The parity of a column. -/
def parity (a b c d e : ℕ) : ℕ := Nat.xor (Nat.xor (Nat.xor (Nat.xor a b) c) d) e

/-- A word for each column, added to its lanes. -/
def addColumns (d0 d1 d2 d3 d4 : ℕ) : NatLanes → NatLanes
  | ⟨a0, a1, a2, a3, a4, a5, a6, a7, a8, a9, a10, a11, a12, a13, a14, a15, a16, a17, a18, a19,
      a20, a21, a22, a23, a24⟩ =>
    ⟨Nat.xor a0 d0, Nat.xor a1 d1, Nat.xor a2 d2, Nat.xor a3 d3, Nat.xor a4 d4, Nat.xor a5 d0,
      Nat.xor a6 d1, Nat.xor a7 d2, Nat.xor a8 d3, Nat.xor a9 d4, Nat.xor a10 d0, Nat.xor a11 d1,
      Nat.xor a12 d2, Nat.xor a13 d3, Nat.xor a14 d4, Nat.xor a15 d0, Nat.xor a16 d1,
      Nat.xor a17 d2, Nat.xor a18 d3, Nat.xor a19 d4, Nat.xor a20 d0, Nat.xor a21 d1,
      Nat.xor a22 d2, Nat.xor a23 d3, Nat.xor a24 d4⟩

/-- The theta step, from the parities of the columns. -/
def thetaOf (c0 c1 c2 c3 c4 : ℕ) (s : NatLanes) : NatLanes :=
  addColumns (Nat.xor c4 (rotl c1 1)) (Nat.xor c0 (rotl c2 1)) (Nat.xor c1 (rotl c3 1))
    (Nat.xor c2 (rotl c4 1)) (Nat.xor c3 (rotl c0 1)) s

/-- The theta step. -/
def theta (s : NatLanes) : NatLanes :=
  thetaOf (parity s.a0 s.a5 s.a10 s.a15 s.a20) (parity s.a1 s.a6 s.a11 s.a16 s.a21)
    (parity s.a2 s.a7 s.a12 s.a17 s.a22) (parity s.a3 s.a8 s.a13 s.a18 s.a23)
    (parity s.a4 s.a9 s.a14 s.a19 s.a24) s

/-- The rho and pi steps. -/
def rhoPi : NatLanes → NatLanes
  | ⟨a0, a1, a2, a3, a4, a5, a6, a7, a8, a9, a10, a11, a12, a13, a14, a15, a16, a17, a18, a19,
      a20, a21, a22, a23, a24⟩ =>
    ⟨a0, rotl a6 44, rotl a12 43, rotl a18 21, rotl a24 14, rotl a3 28, rotl a9 20, rotl a10 3,
      rotl a16 45, rotl a22 61, rotl a1 1, rotl a7 6, rotl a13 25, rotl a19 8, rotl a20 18,
      rotl a4 27, rotl a5 36, rotl a11 10, rotl a17 15, rotl a23 56, rotl a2 62, rotl a8 55,
      rotl a14 39, rotl a15 41, rotl a21 2⟩

/-- The chi and iota steps. -/
def chiIota (rc : ℕ) : NatLanes → NatLanes
  | ⟨a0, a1, a2, a3, a4, a5, a6, a7, a8, a9, a10, a11, a12, a13, a14, a15, a16, a17, a18, a19,
      a20, a21, a22, a23, a24⟩ =>
    ⟨Nat.xor (Nat.xor a0 (Nat.land (compl a1) a2)) rc, Nat.xor a1 (Nat.land (compl a2) a3),
      Nat.xor a2 (Nat.land (compl a3) a4), Nat.xor a3 (Nat.land (compl a4) a0),
      Nat.xor a4 (Nat.land (compl a0) a1), Nat.xor a5 (Nat.land (compl a6) a7),
      Nat.xor a6 (Nat.land (compl a7) a8), Nat.xor a7 (Nat.land (compl a8) a9),
      Nat.xor a8 (Nat.land (compl a9) a5), Nat.xor a9 (Nat.land (compl a5) a6),
      Nat.xor a10 (Nat.land (compl a11) a12), Nat.xor a11 (Nat.land (compl a12) a13),
      Nat.xor a12 (Nat.land (compl a13) a14), Nat.xor a13 (Nat.land (compl a14) a10),
      Nat.xor a14 (Nat.land (compl a10) a11), Nat.xor a15 (Nat.land (compl a16) a17),
      Nat.xor a16 (Nat.land (compl a17) a18), Nat.xor a17 (Nat.land (compl a18) a19),
      Nat.xor a18 (Nat.land (compl a19) a15), Nat.xor a19 (Nat.land (compl a15) a16),
      Nat.xor a20 (Nat.land (compl a21) a22), Nat.xor a21 (Nat.land (compl a22) a23),
      Nat.xor a22 (Nat.land (compl a23) a24), Nat.xor a23 (Nat.land (compl a24) a20),
      Nat.xor a24 (Nat.land (compl a20) a21)⟩

/-- `keccakf`, on naturals. -/
def permute (s : NatLanes) : NatLanes :=
  keccakRC.toList.foldl (fun s rc => chiIota rc.toNat (rhoPi (theta s))) s

variable (D : Lanes) (rc : UInt64)

/-- A rotation of a word, on numbers. -/
theorem toNat_rotl64 (x n : UInt64) (hn : 0 < n.toNat) (hn' : n.toNat < 64) :
    (rotl64 x n).toNat = rotl x.toNat n.toNat := by
  have hsub : (64 - n).toNat = 64 - n.toNat := by
    rw [UInt64.toNat_sub_of_le]
    · rfl
    · rw [UInt64.le_iff_toNat_le]; exact hn'.le
  have hlt : (64 - n.toNat) % 64 = 64 - n.toNat := Nat.mod_eq_of_lt (by omega)
  rw [rotl64, UInt64.toNat_or, UInt64.toNat_shiftLeft, UInt64.toNat_shiftRight, hsub, hlt,
    Nat.mod_eq_of_lt hn']
  rfl

/-- The step θ, on numbers. -/
theorem theta_of : theta (of D) = of (keccakTheta D) := by
  obtain ⟨d₀, d₁, d₂, d₃, d₄, d₅, d₆, d₇, d₈, d₉, d₁₀, d₁₁, d₁₂, d₁₃, d₁₄, d₁₅, d₁₆,
    d₁₇, d₁₈, d₁₉, d₂₀, d₂₁, d₂₂, d₂₃, d₂₄, rfl⟩ := exists_lanes D
  simp [of, theta, thetaOf, addColumns, parity, keccakTheta, keccakParity, laneIndices,
    toNat_rotl64]

/-- The steps ρ and π, on numbers. -/
theorem rhoPi_of : rhoPi (of D) = of (keccakRhoPi D) := by
  obtain ⟨d₀, d₁, d₂, d₃, d₄, d₅, d₆, d₇, d₈, d₉, d₁₀, d₁₁, d₁₂, d₁₃, d₁₄, d₁₅, d₁₆,
    d₁₇, d₁₈, d₁₉, d₂₀, d₂₁, d₂₂, d₂₃, d₂₄, rfl⟩ := exists_lanes D
  simp [of, rhoPi, keccakRhoPi, piln, rotc, toNat_rotl64]

/-- The steps χ and ι, on numbers. -/
theorem chiIota_of : chiIota rc.toNat (of D) = of (keccakIota (keccakChi D) rc) := by
  obtain ⟨d₀, d₁, d₂, d₃, d₄, d₅, d₆, d₇, d₈, d₉, d₁₀, d₁₁, d₁₂, d₁₃, d₁₄, d₁₅, d₁₆,
    d₁₇, d₁₈, d₁₉, d₂₀, d₂₁, d₂₂, d₂₃, d₂₄, rfl⟩ := exists_lanes D
  simp [of, chiIota, keccakChi, keccakIota, laneIndices, compl]

/-- **The permutation on naturals.** -/
theorem permute_of : permute (of D) = of (keccakf D) := by
  rw [permute, keccakf]
  generalize keccakRC.toList = rcs
  induction rcs generalizing D with
  | nil => rfl
  | cons rc rcs ih =>
      rw [List.foldl_cons, List.foldl_cons, theta_of, rhoPi_of, chiIota_of, ih, keccakRound]

end NatLanes

/-! ### The source of draws -/

/-- The first 17 lanes, which are served as draws. -/
def NatLanes.rate : NatLanes → List ℕ
  | ⟨a0, a1, a2, a3, a4, a5, a6, a7, a8, a9, a10, a11, a12, a13, a14, a15, a16, _, _, _, _, _, _,
      _, _⟩ =>
    [a0, a1, a2, a3, a4, a5, a6, a7, a8, a9, a10, a11, a12, a13, a14, a15, a16]

/-- A state of the source, with the draws that are left. The draws of a block are computed once. -/
structure NatShake where
  lanes : NatLanes
  pool : List ℕ

/-- `shake_squeeze_u64`, on naturals. -/
def NatShake.squeeze : NatShake → ℕ × NatShake
  | ⟨lanes, r :: pool⟩ => (r, ⟨lanes, pool⟩)
  | ⟨lanes, []⟩ =>
    let lanes := lanes.permute
    (lanes.a0, ⟨lanes, lanes.rate.tail⟩)

/-- The state holds the lanes and the draws of the device context. -/
structure NatShake.Tracks (s : NatShake) (t : Shake) : Prop where
  lanes : s.lanes = .of t.a
  pool : s.pool = (t.pool.toList.drop t.idx).map UInt64.toNat
  idx_le : t.idx ≤ 17

/-- The words of the state that a block of output consists of. -/
theorem NatLanes.rate_of (D : Lanes) :
    (NatLanes.of D).rate = (Vector.ofFn fun i : Fin 17 => D[i.val]!).toList.map UInt64.toNat := by
  obtain ⟨d₀, d₁, d₂, d₃, d₄, d₅, d₆, d₇, d₈, d₉, d₁₀, d₁₁, d₁₂, d₁₃, d₁₄, d₁₅, d₁₆,
    d₁₇, d₁₈, d₁₉, d₂₀, d₂₁, d₂₂, d₂₃, d₂₄, rfl⟩ := exists_lanes D
  rfl

/-- **The draws agree**, and the states that are left. -/
theorem NatShake.Tracks.squeeze {s : NatShake} {t : Shake} (h : s.Tracks t) :
    s.squeeze.1 = (shakeSqueezeU64 keccakf t).1.toNat ∧
      s.squeeze.2.Tracks (shakeSqueezeU64 keccakf t).2 := by
  obtain ⟨hlanes, hpool, hle⟩ := h
  obtain ⟨lanes, pool⟩ := s
  obtain ⟨a, tpool, idx⟩ := t
  dsimp only at hlanes hpool hle
  subst hlanes hpool
  by_cases hidx : idx = 17
  · subst hidx
    have hdrop : tpool.toList.drop 17 = [] := List.drop_eq_nil_of_le (by simp)
    rw [hdrop, List.map_nil, NatShake.squeeze, shakeSqueezeU64]
    simp only [if_true, NatLanes.permute_of]
    refine ⟨?_, rfl, ?_, by norm_num⟩
    · simp [NatLanes.of]
    · have hget : ∀ i : Fin 17, (keccakf a)[i.val]! = (keccakf a)[i.val] := fun i =>
        getElem!_pos _ _ (by omega)
      rw [NatLanes.rate_of, ← List.map_tail, List.drop_one]
      simp only [hget]
  · have hlt : idx < tpool.toList.length := by simpa using lt_of_le_of_ne hle hidx
    have hlt' : idx < 17 := by simpa using hlt
    rw [List.drop_eq_getElem_cons hlt, List.map_cons, NatShake.squeeze, shakeSqueezeU64]
    simp only [hidx, if_false]
    exact ⟨by simp [hlt'], rfl, rfl, hlt'⟩

/-! ### Gaussian values -/

/-- The magnitude of a Gaussian value: zero if the first draw is below the first entry of the
table, and the index of the first entry that is not above the second draw otherwise. -/
def gaussMagnitude (r₁ r₂ : ℕ) : ℕ :=
  bif Nat.blt (Nat.mod r₁ 0x8000000000000000) gauss1024[0]!.toNat then 0
  else
    ((gaussIndices.find? fun k =>
      Nat.ble gauss1024[k.toNat]!.toNat (Nat.mod r₂ 0x8000000000000000)).getD 0).toNat

/-- A Gaussian value: the top bit of the first draw is the sign. -/
def gaussInt (r₁ r₂ : ℕ) : ℤ :=
  bif Nat.ble 0x8000000000000000 r₁ then -(gaussMagnitude r₁ r₂ : ℤ) else gaussMagnitude r₁ r₂

/-- The loop over the table stays within its 27 entries. -/
theorem gaussIndices_lt {k : UInt32} (hk : k ∈ gaussIndices) : k.toNat < 27 := by
  have hall : gaussIndices.all (fun k => decide (k.toNat < 27)) = true := by decide
  exact of_decide_eq_true (List.all_eq_true.mp hall k hk)

/-- All indices that the table walk may return. -/
theorem gaussMagnitude_le (r₁ r₂ : ℕ) : gaussMagnitude r₁ r₂ ≤ 26 := by
  rw [gaussMagnitude, cond_eq_ite]
  split
  · exact Nat.zero_le _
  · cases h : gaussIndices.find? fun k =>
      Nat.ble gauss1024[k.toNat]!.toNat (Nat.mod r₂ 0x8000000000000000) with
    | none => exact Nat.zero_le _
    | some k =>
        exact Nat.le_of_lt_succ (gaussIndices_lt (List.mem_of_find?_eq_some h))

/-- A value that is drawn is at most 26, up to its sign. -/
theorem gaussInt_bounds (r₁ r₂ : ℕ) : -26 ≤ gaussInt r₁ r₂ ∧ gaussInt r₁ r₂ ≤ 26 := by
  have h := gaussMagnitude_le r₁ r₂
  rw [gaussInt, cond_eq_ite]
  split <;> omega

/-- Whether a 63-bit word is below another, as the top bit of their difference. -/
theorem borrow_eq {r g : UInt64} (hr : r.toNat < 2 ^ 63) (hg : g.toNat < 2 ^ 63) :
    ((r - g) >>> 63).toUInt32 = if r.toNat < g.toNat then 1 else 0 := by
  have hshift : (63 : UInt64).toNat % 64 = 63 := rfl
  apply UInt32.toNat_inj.mp
  rw [UInt64.toNat_toUInt32, UInt64.toNat_shiftRight, UInt64.toNat_sub, hshift,
    Nat.shiftRight_eq_div_pow]
  split <;> simp only [UInt32.toNat_one, UInt32.toNat_zero] <;> omega

/-- The top bit of a word. -/
theorem topBit_eq (r : UInt64) :
    (r >>> 63).toUInt32 = if 2 ^ 63 ≤ r.toNat then 1 else 0 := by
  have hlt := r.toNat_lt
  have hshift : (63 : UInt64).toNat % 64 = 63 := rfl
  apply UInt32.toNat_inj.mp
  rw [UInt64.toNat_toUInt32, UInt64.toNat_shiftRight, hshift, Nat.shiftRight_eq_div_pow]
  split <;> simp only [UInt32.toNat_one, UInt32.toNat_zero] <;> omega

/-- A word without its top bit. -/
theorem toNat_clearTop (r : UInt64) :
    (r &&& ~~~((1 : UInt64) <<< 63)).toNat = r.toNat % 2 ^ 63 := by
  have hmask : (~~~((1 : UInt64) <<< 63)).toNat = 2 ^ 63 - 1 := rfl
  rw [UInt64.toNat_and, hmask, Nat.and_two_pow_sub_one_eq_mod]

/-- The entries of the table have 63 bits, so that the highest bit of a word is free for the sign.
-/
theorem gauss1024_lt : ∀ k < 27, gauss1024[k]!.toNat < 2 ^ 63 := by decide

section TableWalk

variable {r : UInt64} (hr : r.toNat < 2 ^ 63)
include hr

/-- Once the flag is set, the table walk keeps its value. -/
theorem gaussStep_one (v : UInt32) {k : UInt32} (hk : k.toNat < 27) :
    gaussStep r (v, 1) k = (v, 1) := by
  rw [gaussStep, borrow_eq hr (gauss1024_lt _ hk)]
  split <;> simp

/-- Before the flag is set, an entry that is not above the draw sets value and flag. -/
theorem gaussStep_zero {k : UInt32} (hk : k.toNat < 27) :
    gaussStep r (0, 0) k = if gauss1024[k.toNat]!.toNat ≤ r.toNat then (k, 1) else (0, 0) := by
  rw [gaussStep, borrow_eq hr (gauss1024_lt _ hk)]
  by_cases hle : gauss1024[k.toNat]!.toNat ≤ r.toNat
  · rw [if_neg hle.not_gt, if_pos hle]
    simp
  · rw [if_pos (Nat.lt_of_not_le hle), if_neg hle]
    simp

/-- Once the flag is set, the value does not change any more. -/
theorem foldl_gaussStep_one (v : UInt32) {ks : List UInt32} (hks : ∀ k ∈ ks, k.toNat < 27) :
    ks.foldl (gaussStep r) (v, 1) = (v, 1) := by
  induction ks with
  | nil => rfl
  | cons k ks ih =>
      rw [List.foldl_cons, gaussStep_one hr v (hks k List.mem_cons_self)]
      exact ih fun k hk => hks k (List.mem_cons_of_mem _ hk)

/-- **The table walk** finds the first entry that is not above the draw. -/
theorem foldl_gaussStep_zero {ks : List UInt32} (hks : ∀ k ∈ ks, k.toNat < 27) :
    (ks.foldl (gaussStep r) (0, 0)).1 =
      (ks.find? fun k => Nat.ble gauss1024[k.toNat]!.toNat r.toNat).getD 0 := by
  induction ks with
  | nil => rfl
  | cons k ks ih =>
      have htail : ∀ k ∈ ks, k.toNat < 27 := fun k hk => hks k (List.mem_cons_of_mem _ hk)
      rw [List.foldl_cons, gaussStep_zero hr (hks k List.mem_cons_self), List.find?_cons]
      by_cases hle : gauss1024[k.toNat]!.toNat ≤ r.toNat
      · rw [if_pos hle, foldl_gaussStep_one hr k htail, Nat.ble_eq_true_of_le hle]
        rfl
      · rw [if_neg hle, ih htail, Bool.eq_false_iff.mpr (mt Nat.le_of_ble_eq_true hle)]

end TableWalk

/-- The magnitude of a Gaussian value, as the table walk computes it. -/
theorem gaussMagnitude_eq (r₁ r₂ : UInt64) :
    (gaussIndices.foldl (gaussStep (r₂ &&& ~~~((1 : UInt64) <<< 63)))
      (0, (((r₁ &&& ~~~((1 : UInt64) <<< 63)) - gauss1024[0]!) >>> 63).toUInt32)).1.toNat =
      gaussMagnitude r₁.toNat r₂.toNat := by
  have hclear : ∀ r : UInt64, (r &&& ~~~((1 : UInt64) <<< 63)).toNat < 2 ^ 63 := by
    intro r
    rw [toNat_clearTop]
    exact Nat.mod_lt _ (by norm_num)
  rw [borrow_eq (hclear r₁) (gauss1024_lt 0 (by norm_num)), toNat_clearTop, gaussMagnitude]
  by_cases hlt : r₁.toNat % 2 ^ 63 < gauss1024[0]!.toNat
  · have hblt : Nat.blt (Nat.mod r₁.toNat 0x8000000000000000) gauss1024[0]!.toNat = true :=
      Nat.ble_eq_true_of_le hlt
    rw [if_pos hlt, foldl_gaussStep_one (hclear r₂) 0 (fun _ => gaussIndices_lt), hblt]
    rfl
  · have hblt : Nat.blt (Nat.mod r₁.toNat 0x8000000000000000) gauss1024[0]!.toNat = false :=
      Bool.eq_false_iff.mpr fun h => hlt (Nat.le_of_ble_eq_true h)
    rw [if_neg hlt, foldl_gaussStep_zero (hclear r₂) (fun _ => gaussIndices_lt), hblt,
      toNat_clearTop]
    rfl

/-- **A Gaussian value**, as the index of a table entry with a sign. -/
theorem gaussValue_eq (r₁ r₂ : UInt64) :
    gaussValue r₁ r₂ = Int32.ofInt (gaussInt r₁.toNat r₂.toNat) := by
  have hsign : ∀ m < 27, ((UInt32.ofNat m ^^^ (0 - 0)) + 0).toInt32 = Int32.ofInt m ∧
      ((UInt32.ofNat m ^^^ (0 - 1)) + 1).toInt32 = Int32.ofInt (-m) := by decide
  have hmagnitude := congrArg UInt32.ofNat (gaussMagnitude_eq r₁ r₂)
  rw [UInt32.ofNat_toNat] at hmagnitude
  have hlt := Nat.lt_succ_of_le (gaussMagnitude_le r₁.toNat r₂.toNat)
  rw [gaussValue, hmagnitude, topBit_eq, gaussInt]
  by_cases hneg : 2 ^ 63 ≤ r₁.toNat
  · have hble : Nat.ble 0x8000000000000000 r₁.toNat = true := Nat.ble_eq_true_of_le hneg
    rw [if_pos hneg, hble]
    exact (hsign _ hlt).2
  · have hble : Nat.ble 0x8000000000000000 r₁.toNat = false :=
      Bool.eq_false_iff.mpr fun h => hneg (Nat.le_of_ble_eq_true h)
    rw [if_neg hneg, hble]
    exact (hsign _ hlt).1

/-! ### The loops -/

/-- `dev_mkgauss`, on naturals. -/
def NatShake.mkgauss (s : NatShake) : ℤ × NatShake :=
  match s.squeeze with
  | (r₁, s) =>
    match s.squeeze with
    | (r₂, s) => (gaussInt r₁ r₂, s)

/-- A draw, on numbers. -/
theorem NatShake.Tracks.mkgauss {s : NatShake} {t : Shake} (h : s.Tracks t) :
    (devMkgauss (shakeSqueezeU64 keccakf) t).1 = Int32.ofInt s.mkgauss.1 ∧
      s.mkgauss.2.Tracks (devMkgauss (shakeSqueezeU64 keccakf) t).2 := by
  obtain ⟨hr₁, h₁⟩ := h.squeeze
  obtain ⟨hr₂, h₂⟩ := h₁.squeeze
  refine ⟨?_, h₂⟩
  calc
    (devMkgauss (shakeSqueezeU64 keccakf) t).1
      = gaussValue (shakeSqueezeU64 keccakf t).1
          (shakeSqueezeU64 keccakf (shakeSqueezeU64 keccakf t).2).1 := rfl
    _ = Int32.ofInt (gaussInt s.squeeze.1 s.squeeze.2.squeeze.1) := by
      rw [gaussValue_eq, hr₁, hr₂]
    _ = Int32.ofInt s.mkgauss.1 := rfl

/-- The parity of the sum so far, with another value. The match makes an evaluation by need
keep no chain of unevaluated parities. -/
def oddSum (odd : Bool) (v : ℤ) : Bool :=
  Bool.xor odd (Nat.beq (Nat.mod v.natAbs 2) 1)

/-- The loop for the last coefficient, which makes the sum odd. -/
def runLast (odd : Bool) (acc : List ℤ) : ℕ → NatShake → Option (List ℤ × NatShake)
  | 0, _ => none
  | fuel + 1, s =>
    match s.mkgauss with
    | (v, s) =>
      match oddSum odd v with
      | true => some (v :: acc, s)
      | false => runLast odd acc fuel s

/-- The loop of `dev_poly_small_mkgauss`, with `k + 1` coefficients to go. It keeps the
coefficients in reverse. No value is out of range. -/
def runLoop (fuel : ℕ) : ℕ → Bool → List ℤ → NatShake → Option (List ℤ × NatShake)
  | 0, odd, acc, s => runLast odd acc fuel s
  | k + 1, odd, acc, s =>
    match s.mkgauss with
    | (v, s) =>
      match oddSum odd v with
      | true => runLoop fuel k true (v :: acc) s
      | false => runLoop fuel k false (v :: acc) s

/-- The word that holds a parity. -/
def parityWord (odd : Bool) : UInt32 := bif odd then 1 else 0

/-- A Gaussian value as the loop of the device treats it: it is in range, and its parity is
added. -/
structure Treated (odd : Bool) (v : ℤ) : Prop where
  accept : devAccept false (parityWord odd) (Int32.ofInt v) = true
  accept_last : devAccept true (parityWord odd) (Int32.ofInt v) = oddSum odd v
  parity : addParity (parityWord odd) (Int32.ofInt v) = parityWord (oddSum odd v)
  toInt : (Int32.ofInt v).toInt8.toInt = v

/-- Every value within the bounds of the table walk. -/
theorem treated_of_bounds (odd : Bool) {v : ℤ} (hlo : -26 ≤ v) (hhi : v ≤ 26) : Treated odd v := by
  have hall : ∀ i : ℕ, i < 53 → ∀ odd,
      devAccept false (parityWord odd) (Int32.ofInt (i - 26)) = true ∧
      devAccept true (parityWord odd) (Int32.ofInt (i - 26)) = oddSum odd (i - 26) ∧
      addParity (parityWord odd) (Int32.ofInt (i - 26)) = parityWord (oddSum odd (i - 26)) ∧
      (Int32.ofInt (i - 26)).toInt8.toInt = (i - 26 : ℤ) := by decide
  obtain ⟨h₁, h₂, h₃, h₄⟩ := hall (v + 26).toNat (by omega) odd
  have hcast : (((v + 26).toNat : ℕ) : ℤ) - 26 = v := by omega
  rw [hcast] at h₁ h₂ h₃ h₄
  exact ⟨h₁, h₂, h₃, h₄⟩

/-- A value that is drawn on numbers is treated as one that is drawn on words. -/
theorem NatShake.treated (odd : Bool) (s : NatShake) : Treated odd s.mkgauss.1 := by
  obtain ⟨hlo, hhi⟩ : -26 ≤ s.mkgauss.1 ∧ s.mkgauss.1 ≤ 26 := gaussInt_bounds _ _
  exact treated_of_bounds odd hlo hhi

/-- A run for the last coefficient that ends, ends with a value that the device accepts. -/
theorem runLast_sound {odd : Bool} {acc vs : List ℤ} {fuel : ℕ} {s s' : NatShake} {t : Shake}
    (hst : s.Tracks t) (h : runLast odd acc fuel s = some (vs, s')) :
    ∃ sv t', drawUntil (devMkgauss (shakeSqueezeU64 keccakf)) (devAccept true (parityWord odd))
      fuel t = some (sv, t') ∧ s'.Tracks t' ∧ vs = sv.toInt8.toInt :: acc := by
  induction fuel generalizing s t with
  | zero => cases h
  | succ fuel ih =>
      obtain ⟨hval, hnext⟩ := hst.mkgauss
      have htreated := s.treated odd
      rw [drawUntil]
      dsimp only
      rw [hval, htreated.accept_last]
      rw [runLast] at h
      dsimp only at h
      cases hodd : oddSum odd s.mkgauss.1 with
      | true =>
          rw [hodd] at h
          cases h
          exact ⟨_, _, rfl, hnext, by rw [htreated.toInt]⟩
      | false =>
          rw [hodd] at h
          exact ih hnext h

/-- **An outcome of the loop** is an outcome of the loop of the device. -/
theorem runLoop_sound {fuel k : ℕ} (hk : k < 1024) {odd : Bool} {acc vs : List ℤ}
    {s s' : NatShake} {t : Shake} (hst : s.Tracks t)
    (h : runLoop (fuel + 1) k odd acc s = some (vs, s')) :
    ∃ f t', devMkgaussLoop (shakeSqueezeU64 keccakf) (fuel + 1) (k + 1) (parityWord odd) t =
      some (f, t') ∧ s'.Tracks t' ∧ vs = (f.map Int8.toInt).reverse ++ acc := by
  induction k generalizing odd acc s t with
  | zero =>
      obtain ⟨sv, t', hdraw, ht', rfl⟩ := runLast_sound hst h
      refine ⟨[sv.toInt8], t', ?_, ht', rfl⟩
      simp [devMkgaussLoop, hdraw]
  | succ k ih =>
      obtain ⟨hval, hnext⟩ := hst.mkgauss
      have htreated := s.treated odd
      have hlast : decide (1024 - (k + 1 + 1) = 1024 - 1) = false := decide_eq_false (by omega)
      have htail : runLoop (fuel + 1) k (oddSum odd s.mkgauss.1) (s.mkgauss.1 :: acc)
          s.mkgauss.2 = some (vs, s') := by
        rw [runLoop] at h
        cases hodd : oddSum odd s.mkgauss.1 with
        | true => simpa only [hodd] using h
        | false => simpa only [hodd] using h
      obtain ⟨f, t', hf, ht', rfl⟩ := ih (by omega) hnext htail
      refine ⟨(Int32.ofInt s.mkgauss.1).toInt8 :: f, t', ?_, ht', ?_⟩
      · have hdraw : drawUntil (devMkgauss (shakeSqueezeU64 keccakf))
            (devAccept false (parityWord odd)) (fuel + 1) t =
              some (Int32.ofInt s.mkgauss.1, (devMkgauss (shakeSqueezeU64 keccakf) t).2) := by
          rw [drawUntil]
          dsimp only
          rw [hval, htreated.accept, if_pos rfl]
        rw [devMkgaussLoop]
        simp only [hlast, hdraw, Option.bind_some, Bool.false_eq_true, if_false,
          htreated.parity, hf, Option.map_some]
      · rw [List.map_cons, htreated.toInt, List.reverse_cons, List.append_assoc,
          List.singleton_append]

/-! ### One attempt -/

/-- The state before the first draw. -/
def NatShake.start (seed : Bytes32) : NatShake where
  lanes := .of (shakeInitSeed32 seed).a
  pool := []

/-- The stream of a seed, on numbers. -/
theorem NatShake.start_tracks (seed : Bytes32) :
    (NatShake.start seed).Tracks (shakeInitSeed32 seed) where
  lanes := rfl
  pool := rfl
  idx_le := le_rfl

/-- The coefficients of `f` and `g` of one attempt, each in reverse. -/
def runSample (fuel : ℕ) (s : NatShake) : Option (List ℤ × List ℤ) :=
  match runLoop fuel 1023 false [] s with
  | none => none
  | some (f, s) =>
    match runLoop fuel 1023 false [] s with
    | none => none
    | some (g, _) => some (f, g)

/-- The list of the coefficients of a polynomial, in reverse. -/
def SmallPoly.reversed (f : SmallPoly) : List ℤ := (f.toList.map Int8.toInt).reverse

/-- The loop returns as many coefficients as it draws. -/
theorem devMkgaussLoop_length {σ : Type} {next : σ → UInt64 × σ} {fuel k : ℕ} {mod2 : UInt32}
    {s : σ} {f : List Int8} {t : σ} (h : devMkgaussLoop next fuel k mod2 s = some (f, t)) :
    f.length = k := by
  induction k generalizing mod2 s f with
  | zero =>
      cases h
      rfl
  | succ k ih =>
      obtain ⟨⟨sv, s'⟩, -, h⟩ := Option.bind_eq_some_iff.mp h
      obtain ⟨⟨f', t'⟩, hf', hcons⟩ := Option.map_eq_some_iff.mp h
      cases hcons
      rw [List.length_cons, ih hf']

/-- A list with a value for each coefficient is the list of the polynomial. -/
theorem toList_toSmallPoly {f : List Int8} (hf : f.length = 1024) : (toSmallPoly f).toList = f :=
  Words.toList_ofFn_getD hf 0

/-- The coefficients in the order in which they are drawn. -/
theorem reversed_toSmallPoly {f : List Int8} (hf : f.length = 1024) :
    SmallPoly.reversed (toSmallPoly f) = (f.map Int8.toInt).reverse := by
  rw [SmallPoly.reversed, toList_toSmallPoly hf]

/-- **An outcome of the evaluator** is the outcome of the device sampler. -/
theorem runSample_sound {fuel : ℕ} {seed : Bytes32} {fs gs : List ℤ}
    (h : runSample (fuel + 1) (.start seed) = some (fs, gs)) :
    ∃ f g, devSampleFg (fuel + 1) seed = some (f, g) ∧ fs = SmallPoly.reversed f ∧
      gs = SmallPoly.reversed g := by
  rw [runSample] at h
  cases hf : runLoop (fuel + 1) 1023 false [] (.start seed) with
  | none => simp [hf] at h
  | some out =>
      obtain ⟨fs', s⟩ := out
      cases hg : runLoop (fuel + 1) 1023 false [] s with
      | none => simp [hf, hg] at h
      | some out =>
          obtain ⟨gs', s'⟩ := out
          simp only [hf, hg, Option.some.injEq, Prod.mk.injEq] at h
          obtain ⟨rfl, rfl⟩ := h
          obtain ⟨f, t, hf', hst, rfl⟩ := runLoop_sound (by norm_num)
            (NatShake.start_tracks seed) hf
          obtain ⟨g, t', hg', -, rfl⟩ := runLoop_sound (by norm_num) hst hg
          have hzero : parityWord false = 0 := rfl
          rw [hzero] at hf' hg'
          refine ⟨toSmallPoly f, toSmallPoly g, ?_, ?_, ?_⟩
          · simp [devSampleFg, devSampleFgFrom, devPolySmallMkgauss, hf', hg']
          · rw [reversed_toSmallPoly (devMkgaussLoop_length hf'), List.append_nil]
          · rw [reversed_toSmallPoly (devMkgaussLoop_length hg'), List.append_nil]

end FalconVanity
