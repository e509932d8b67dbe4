import FalconVanity.SamplerEvaluator

/-!
# The Meaning of the Gaussian Table Walk

The table walk compares two draws with the entries of a table, without branches: a borrow bit
for each comparison, an index that is collected by OR, and a flag that lets one entry through.
It returns zero, or the index of the first entry that is not above the second draw, with the
top bit of the first draw as its sign.

The values are therefore small, and of the two reasons to reject a sample only one is left: the
first 1023 coefficients of a polynomial are the first samples of the stream, and the last
coefficient is the next sample that makes the sum odd.

## Main results

* `devMkgauss_spec`: the value of the table walk.
* `devPolySmallMkgauss_spec`: the coefficients of a polynomial, as samples of the stream.
* `gaussian_walk`: both.
-/

namespace FalconVanity

open Draws

/-! ### The table walk -/

/-- The entries of the table. -/
def gaussEntry (k : ℕ) : ℕ := gauss1024[k]!.toNat

/-- **The index that the table walk finds** is the least one whose entry is not above the second
draw. The last entry is zero, so there is one. -/
theorem gaussMagnitude_spec {r₁ r₂ : ℕ} (h : gaussEntry 0 ≤ r₁ % 2 ^ 63) :
    1 ≤ gaussMagnitude r₁ r₂ ∧ gaussEntry (gaussMagnitude r₁ r₂) ≤ r₂ % 2 ^ 63 ∧
      ∀ j, 1 ≤ j → j < gaussMagnitude r₁ r₂ → r₂ % 2 ^ 63 < gaussEntry j := by
  have hblt : Nat.blt (Nat.mod r₁ 0x8000000000000000) gauss1024[0]!.toNat = false :=
    Bool.eq_false_iff.mpr fun hlt => Nat.not_lt.mpr h (Nat.le_of_ble_eq_true hlt)
  have hlen : gaussIndices.length = 26 := rfl
  have hget : ∀ (i : ℕ) (hi : i < gaussIndices.length), gaussIndices[i].toNat = i + 1 := by
    intro i hi
    rw [hlen] at hi
    simp only [gaussIndices, List.getElem_map, List.getElem_range', Nat.one_mul,
      UInt32.toNat_ofNat']
    omega
  -- The last entry is not above any draw.
  have hlast : ∃ k ∈ gaussIndices,
      Nat.ble gauss1024[k.toNat]!.toNat (Nat.mod r₂ 0x8000000000000000) = true :=
    ⟨26, by decide, Nat.ble_eq_true_of_le (Nat.zero_le _)⟩
  obtain ⟨k, hk⟩ := Option.isSome_iff_exists.mp (List.find?_isSome.mpr hlast)
  have hmag : gaussMagnitude r₁ r₂ = k.toNat := by
    rw [gaussMagnitude, hblt, hk]
    rfl
  obtain ⟨hle, i, hi, rfl, hbefore⟩ := List.find?_eq_some_iff_getElem.mp hk
  rw [hmag]
  refine ⟨by rw [hget]; omega, Nat.le_of_ble_eq_true hle, fun j hj hji => ?_⟩
  rw [hget] at hji
  have hprev := hbefore (j - 1) (by omega)
  rw [hget, Nat.sub_add_cancel hj, Bool.not_eq_true'] at hprev
  exact Nat.lt_of_not_le fun hle => Bool.false_ne_true (hprev.symm.trans
    (Nat.ble_eq_true_of_le hle))

section Source

variable {σ : Type} (next : σ → UInt64 × σ)

/-- The value of a sample: an integer within the bounds of the table. -/
theorem exists_devMkgauss_eq (s : σ) :
    ∃ v : ℤ, -26 ≤ v ∧ v ≤ 26 ∧ (devMkgauss next s).1 = Int32.ofInt v := by
  obtain ⟨hlo, hhi⟩ := gaussInt_bounds (next s).1.toNat (next (next s).2).1.toNat
  exact ⟨_, hlo, hhi, gaussValue_eq _ _⟩

/-- **The value of the table walk**, from the next two draws. -/
theorem devMkgauss_spec (s : σ) :
    let a := (next s).1.toNat % 2 ^ 63
    let b := (next (next s).2).1.toNat % 2 ^ 63
    let v := (devMkgauss next s).1.toInt
    (a < gaussEntry 0 → v = 0) ∧
      (gaussEntry 0 ≤ a → ∃ k : ℕ, 1 ≤ k ∧ k ≤ 26 ∧ gaussEntry k ≤ b ∧
        (∀ j, 1 ≤ j → j < k → b < gaussEntry j) ∧
          v = if 2 ^ 63 ≤ (next s).1.toNat then -(k : ℤ) else k) ∧
      |v| ≤ 26 := by
  intro a b v
  have hv : v = gaussInt (next s).1.toNat (next (next s).2).1.toNat := by
    obtain ⟨hlo, hhi⟩ := gaussInt_bounds (next s).1.toNat (next (next s).2).1.toNat
    have hvalue : (devMkgauss next s).1 = Int32.ofInt _ := gaussValue_eq _ _
    exact (congrArg Int32.toInt hvalue).trans (Int32.toInt_ofInt_of_le (by omega) (by omega))
  have hsign : v = if 2 ^ 63 ≤ (next s).1.toNat then
      -(gaussMagnitude (next s).1.toNat (next (next s).2).1.toNat : ℤ)
      else gaussMagnitude (next s).1.toNat (next (next s).2).1.toNat := by
    rw [hv, gaussInt, cond_eq_ite]
    exact if_congr ⟨Nat.le_of_ble_eq_true, Nat.ble_eq_true_of_le⟩ rfl rfl
  refine ⟨fun hlt => ?_, fun hle => ?_, ?_⟩
  · have hblt : Nat.blt (Nat.mod (next s).1.toNat 0x8000000000000000) gauss1024[0]!.toNat = true :=
      Nat.ble_eq_true_of_le hlt
    have hzero : gaussMagnitude (next s).1.toNat (next (next s).2).1.toNat = 0 := by
      rw [gaussMagnitude, hblt]
      rfl
    rw [hsign, hzero]
    simp
  · obtain ⟨hpos, hentry, hbefore⟩ := gaussMagnitude_spec hle
    exact ⟨_, hpos, gaussMagnitude_le _ _, hentry, hbefore, hsign⟩
  · rw [abs_le, hv]
    exact gaussInt_bounds _ _

/-! ### The rejection loops -/

variable {next}

/-- The parity of a list of samples, added to a parity. -/
def parityOf (odd : Bool) (svs : List Int32) : Bool :=
  svs.foldl (fun odd sv => oddSum odd sv.toInt) odd

/-- A parity as a number. -/
def parityInt (odd : Bool) : ℤ := bif odd then 1 else 0

/-- The flag for a sum that is odd. -/
theorem oddSum_eq_true_iff {odd : Bool} {v : ℤ} :
    oddSum odd v = true ↔ Odd (parityInt odd + v) := by
  have hbeq : Nat.beq (Nat.mod v.natAbs 2) 1 = decide (v % 2 = 1) := by
    refine Bool.eq_iff_iff.mpr ?_
    rw [decide_eq_true_eq, Nat.beq_eq]
    have hmod : Nat.mod v.natAbs 2 = v.natAbs % 2 := rfl
    omega
  rw [oddSum, hbeq, Int.odd_iff]
  cases odd
  · simp [parityInt]
  · simp only [parityInt, Bool.true_xor, cond_true, Bool.not_eq_true', decide_eq_false_iff_not]
    omega

/-- The parity after some coefficients is that of their sum. -/
theorem parityOf_eq_true_iff {odd : Bool} {svs : List Int32} :
    parityOf odd svs = true ↔ Odd (parityInt odd + (svs.map Int32.toInt).sum) := by
  induction svs generalizing odd with
  | nil => cases odd <;> simp [parityOf, parityInt]
  | cons sv svs ih =>
      have hstep : parityOf odd (sv :: svs) = parityOf (oddSum odd sv.toInt) svs := rfl
      have hodd : (parityInt (oddSum odd sv.toInt)) % 2 = (parityInt odd + sv.toInt) % 2 := by
        have hiff : oddSum odd sv.toInt = true ↔ Odd (parityInt odd + sv.toInt) :=
          oddSum_eq_true_iff
        rw [Int.odd_iff] at hiff
        cases hsum : oddSum odd sv.toInt with
        | true =>
            have hone : (parityInt true) % 2 = 1 := rfl
            rw [hone, hiff.mp hsum]
        | false =>
            have hzero : (parityInt false) % 2 = 0 := rfl
            have hne := mt hiff.mpr (Bool.eq_false_iff.mp hsum)
            rw [hzero]
            omega
      rw [hstep, ih, List.map_cons, List.sum_cons, Int.odd_iff, Int.odd_iff]
      omega

variable (next)

/-- What the loop makes of a sample. -/
theorem treated_devMkgauss (odd : Bool) (s : σ) :
    let sv := (devMkgauss next s).1
    devAccept false (parityWord odd) sv = true ∧
      devAccept true (parityWord odd) sv = oddSum odd sv.toInt ∧
      addParity (parityWord odd) sv = parityWord (oddSum odd sv.toInt) ∧
      sv.toInt8.toInt = sv.toInt := by
  obtain ⟨v, hlo, hhi, hv⟩ := exists_devMkgauss_eq next s
  have htreated := treated_of_bounds odd hlo hhi
  have htoInt : (Int32.ofInt v).toInt = v := Int32.toInt_ofInt_of_le (by omega) (by omega)
  intro sv
  have hsv : sv = Int32.ofInt v := hv
  rw [hsv, htoInt]
  exact ⟨htreated.accept, htreated.accept_last, htreated.parity, htreated.toInt⟩

/-- The samples behind the last coefficients of a polynomial: `kept` for each of them but the
last, and for that one `last`, the first sample that makes the sum odd. -/
structure Sampled (odd : Bool) (s : σ) (f : List Int8) (kept rejected : List Int32)
    (last : Int32) : Prop where
  draws : draws (devMkgauss next) (kept.length + (rejected.length + 1)) s =
    kept ++ (rejected ++ [last])
  coefficients : f.map Int8.toInt = (kept ++ [last]).map Int32.toInt
  rejected : ∀ r ∈ rejected, oddSum (parityOf odd kept) r.toInt = false
  last : oddSum (parityOf odd kept) last.toInt = true

variable {next}

/-- The last coefficient. -/
theorem Sampled.nil {fuel : ℕ} {odd : Bool} {s s' : σ} {sv : Int32}
    (h : drawUntil (devMkgauss next) (devAccept true (parityWord odd)) fuel s = some (sv, s')) :
    ∃ rejected, Sampled next odd s [sv.toInt8] [] rejected sv := by
  obtain ⟨rejected, hrejected, hlast, hdraws⟩ := drawUntil_eq_some h
  have htreated : ∀ a ∈ rejected ++ [sv],
      devAccept true (parityWord odd) a = oddSum odd a.toInt ∧ a.toInt8.toInt = a.toInt := by
    intro a ha
    rw [← hdraws] at ha
    obtain ⟨t, rfl⟩ := exists_of_mem_draws ha
    obtain ⟨-, haccept, -, hcast⟩ := treated_devMkgauss next odd t
    exact ⟨haccept, hcast⟩
  obtain ⟨haccept, hcast⟩ := htreated sv (by simp)
  refine ⟨rejected, ?_, ?_, fun r hr => ?_, ?_⟩
  · rw [List.length_nil, Nat.zero_add]
    exact hdraws
  · rw [List.map_singleton, List.nil_append, List.map_singleton, hcast]
  · exact (htreated r (List.mem_append_left _ hr)).1.symm.trans (hrejected r hr)
  · exact haccept.symm.trans hlast

/-- One more coefficient in front. -/
theorem Sampled.cons {odd : Bool} {s : σ} {f : List Int8} {kept rejected : List Int32}
    {last : Int32}
    (h : Sampled next (oddSum odd (devMkgauss next s).1.toInt) (devMkgauss next s).2 f
      kept rejected last) :
    Sampled next odd s ((devMkgauss next s).1.toInt8 :: f)
      ((devMkgauss next s).1 :: kept) rejected last := by
  obtain ⟨-, -, -, hcast⟩ := treated_devMkgauss next odd s
  refine ⟨?_, ?_, h.rejected, h.last⟩
  · rw [List.length_cons, Nat.add_right_comm, Draws.draws, h.draws, List.cons_append]
  · rw [List.map_cons, h.coefficients, hcast, List.cons_append, List.map_cons]

/-- **The loop over the coefficients**, as samples of the stream: no sample but the last ones
is rejected. -/
theorem devMkgaussLoop_spec {fuel k : ℕ} (hk : k < 1024) {odd : Bool} {s s' : σ}
    {f : List Int8}
    (h : devMkgaussLoop next fuel (k + 1) (parityWord odd) s = some (f, s')) :
    ∃ kept rejected last, kept.length = k ∧
      Sampled next odd s f kept rejected last := by
  induction k generalizing odd s f with
  | zero =>
      obtain ⟨⟨sv, t⟩, hdraw, htail⟩ := Option.bind_eq_some_iff.mp h
      obtain ⟨⟨f', t'⟩, hf', hcons⟩ := Option.map_eq_some_iff.mp htail
      cases hf'
      cases hcons
      obtain ⟨rejected, hsampled⟩ := Sampled.nil hdraw
      exact ⟨[], rejected, sv, rfl, hsampled⟩
  | succ k ih =>
      have hlast : decide (1024 - (k + 1 + 1) = 1024 - 1) = false := decide_eq_false (by omega)
      obtain ⟨haccept, -, hparity, -⟩ := treated_devMkgauss next odd s
      rw [devMkgaussLoop] at h
      dsimp only at h
      rw [hlast] at h
      cases fuel with
      | zero => cases h
      | succ fuel =>
          rw [drawUntil] at h
          dsimp only at h
          rw [if_pos haccept, Option.bind_some] at h
          dsimp only at h
          rw [if_neg Bool.false_ne_true, hparity] at h
          obtain ⟨⟨f', t'⟩, hf', hcons⟩ := Option.map_eq_some_iff.mp h
          cases hcons
          obtain ⟨kept, rejected, last, hlen, hsampled⟩ := ih (by omega) hf'
          exact ⟨_, rejected, last, by rw [List.length_cons, hlen], hsampled.cons⟩

/-- The sum of the samples that are kept is odd, and any rejected sample would make it even. -/
theorem Sampled.parity {s : σ} {f : List Int8} {kept rejected : List Int32} {last : Int32}
    (h : Sampled next false s f kept rejected last) :
    (∀ r ∈ rejected, Even ((kept.map Int32.toInt).sum + r.toInt)) ∧
      Odd (f.map Int8.toInt).sum := by
  have hiff : ∀ r : Int32, oddSum (parityOf false kept) r.toInt = true ↔
      Odd ((kept.map Int32.toInt).sum + r.toInt) := by
    intro r
    have hsnoc : oddSum (parityOf false kept) r.toInt = parityOf false (kept ++ [r]) := by
      rw [parityOf, parityOf, List.foldl_append]
      rfl
    have hzero : parityInt false = 0 := rfl
    rw [hsnoc, parityOf_eq_true_iff, hzero, zero_add, List.map_append, List.sum_append,
      List.map_singleton, List.sum_singleton]
  refine ⟨fun r hr => ?_, ?_⟩
  · rw [← Int.not_odd_iff_even, ← hiff, h.rejected r hr]
    exact Bool.false_ne_true
  · rw [h.coefficients, List.map_append, List.sum_append, List.map_singleton,
      List.sum_singleton]
    exact (hiff last).mp h.last

/-- **The coefficients of a polynomial**, as samples of the stream. -/
theorem devPolySmallMkgauss_spec {fuel : ℕ} {s s' : σ} {f : SmallPoly}
    (h : devPolySmallMkgauss next fuel s = some (f, s')) :
    ∃ kept rejected last, kept.length = 1023 ∧
      Sampled next false s f.toList kept rejected last := by
  obtain ⟨⟨f', t'⟩, hf', heq⟩ := Option.map_eq_some_iff.mp h
  obtain ⟨rfl, rfl⟩ := Prod.mk.inj heq
  rw [toList_toSmallPoly (devMkgaussLoop_length hf')]
  have hzero : parityWord false = 0 := rfl
  rw [← hzero] at hf'
  exact devMkgaussLoop_spec (by norm_num) hf'

end Source

/-- **The table walk has its intended meaning.** From two draws it returns zero, or the least
index of an entry not above the second one, with the top bit of the first one as its sign. Over
any stream on which the sampler of a polynomial ends, no sample is out of range, the
coefficients are the samples unchanged, the first 1023 of them are the first samples of the
stream, and the last one is the next sample that makes the sum odd. -/
theorem gaussian_walk :
    (∀ (σ : Type) (next : σ → UInt64 × σ) (s : σ),
      let a := (next s).1.toNat % 2 ^ 63
      let b := (next (next s).2).1.toNat % 2 ^ 63
      let v := (devMkgauss next s).1.toInt
      (a < gaussEntry 0 → v = 0) ∧
        (gaussEntry 0 ≤ a → ∃ k : ℕ, 1 ≤ k ∧ k ≤ 26 ∧ gaussEntry k ≤ b ∧
          (∀ j, 1 ≤ j → j < k → b < gaussEntry j) ∧
            v = if 2 ^ 63 ≤ (next s).1.toNat then -(k : ℤ) else k) ∧
        |v| ≤ 26) ∧
    ∀ (σ : Type) (next : σ → UInt64 × σ) (fuel : ℕ) (s s' : σ) (f : SmallPoly),
      devPolySmallMkgauss next fuel s = some (f, s') →
        (∀ t, ¬ ((devMkgauss next t).1 < -127 ∨ (devMkgauss next t).1 > 127)) ∧
        ∃ kept rejected last, kept.length = 1023 ∧
          draws (devMkgauss next) (1023 + (rejected.length + 1)) s =
            kept ++ (rejected ++ [last]) ∧
          f.toList.map Int8.toInt = (kept ++ [last]).map Int32.toInt ∧
          (∀ r ∈ rejected, Even ((kept.map Int32.toInt).sum + r.toInt)) ∧
          Odd (f.toList.map Int8.toInt).sum := by
  constructor
  · intro σ next s
    exact devMkgauss_spec next s
  intro σ next fuel s s' f h
  constructor
  · intro t
    obtain ⟨haccept, -⟩ := treated_devMkgauss next false t
    exact (devAccept_iff.mp haccept).1
  · obtain ⟨kept, rejected, last, hlen, hsampled⟩ := devPolySmallMkgauss_spec h
    have hdraws := hsampled.draws
    rw [hlen] at hdraws
    exact ⟨kept, rejected, last, hlen, hdraws, hsampled.coefficients, hsampled.parity⟩

/-- A stream whose first sample is one, and whose other samples are zero. -/
def oneThenZeros (n : ℕ) : UInt64 × ℕ := (if n < 2 then 0x7FFFFFFFFFFFFFFF else 0, n + 1)

/-- The example stream goes on with zeros. -/
theorem devMkgauss_oneThenZeros_of_le {n : ℕ} (hn : 2 ≤ n) :
    devMkgauss oneThenZeros n = (0, n + 2) := by
  have hzero : gaussValue 0 0 = 0 := by decide
  simp [devMkgauss, oneThenZeros, Nat.not_lt.mpr hn, Nat.not_lt.mpr (Nat.le_succ_of_le hn), hzero]

/-- A walk over the zeros accepts every coefficient. -/
theorem devMkgaussLoop_oneThenZeros (k : ℕ) {n : ℕ} (hn : 2 ≤ n) :
    devMkgaussLoop oneThenZeros 1 k 1 n = some (List.replicate k 0, n + 2 * k) := by
  induction k generalizing n with
  | zero => rfl
  | succ k ih =>
      have haccept : ∀ last, devAccept last 1 0 = true := by decide
      have hparity : addParity 1 0 = 1 := by decide
      have hcast : (0 : Int32).toInt8 = 0 := by decide
      rw [devMkgaussLoop]
      simp only [drawUntil, devMkgauss_oneThenZeros_of_le hn, haccept, if_true, Option.bind_some,
        hparity, ite_self, ih (Nat.le_add_right_of_le hn), Option.map_some, hcast,
        List.replicate_succ]
      congr 2
      omega

/-- A walk from the beginning of the stream accepts the one, and then zeros. -/
theorem devMkgaussLoop_oneThenZeros_zero {k : ℕ} (hk : 0 < k) (hk' : k < 1024) :
    devMkgaussLoop oneThenZeros 1 (k + 1) 0 0 = some (1 :: List.replicate k 0, 2 + 2 * k) := by
  have hfirst : devMkgauss oneThenZeros 0 = (1, 2) := by decide
  have haccept : devAccept false 0 1 = true := by decide
  have hparity : addParity 0 1 = 1 := by decide
  have hlast : decide (1024 - (k + 1) = 1024 - 1) = false := decide_eq_false (by omega)
  have hcast : (1 : Int32).toInt8 = 1 := by decide
  rw [devMkgaussLoop]
  simp only [hlast, drawUntil, hfirst, haccept, if_true, Option.bind_some, Bool.false_eq_true,
    if_false, hparity, devMkgaussLoop_oneThenZeros k le_rfl, Option.map_some, hcast]

/-- The walk over the example stream ends, with an odd sum. -/
theorem gaussian_walk_oneThenZeros :
    ∃ f s', devPolySmallMkgauss oneThenZeros 1 0 = some (f, s') ∧
      Odd (f.toList.map Int8.toInt).sum := by
  have hloop := devMkgaussLoop_oneThenZeros_zero (k := 1023) (by norm_num) (by norm_num)
  have hpoly := congrArg (Option.map fun (f, s) => (toSmallPoly f, s)) hloop
  obtain ⟨-, kept, rejected, last, -, -, -, -, hodd⟩ := gaussian_walk.2 ℕ oneThenZeros 1 0 _ _ hpoly
  exact ⟨_, _, hpoly, hodd⟩

end FalconVanity
