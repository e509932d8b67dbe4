import FalconVanity.Foundation.NearPlane
import FalconVanity.KeygenEvaluator
import FalconVanity.PrivateKey

/-!
# Keys of Key Generation

A key that key generation completes is loaded, when it signs, as the polynomials that solved the
NTRU equation. One such key is written down here: polynomials in `X ^ 32` with coefficients of at
most 15, of which `f` and `g` have a constant Gram element, so that the lattice of the key is easy
to round to. The key passes every check of key generation.

## Main results

* `generated_keys_load`: what is generated is loaded.
* `sparseKey_equation`, `sparseKey_gram`: the equations of the sparse key.
* `exists_sparse_keypair`: the sparse key is completed.
-/

namespace FalconVanity

open Negacyclic NearPlane

/-! ### A sparse key -/

/-- A polynomial in `X ^ 32`, from its coefficients. -/
def sparsePoly (c : List Int8) : SmallPoly :=
  toSmallPoly (c.flatMap fun x => x :: List.replicate 31 0)

/-- The coefficients of `f` of the sparse key. -/
def sparseF : List Int8 :=
  [-14, 15, 14, -15, -15, -15, 14, 0, 0, 14, -15, 15, 14, 15, 14, 15,
    -14, 15, 14, 0, 0, 14, 0, -15, -14, 0, 14, 15, -14, 15, -15, 0]

/-- The coefficients of `g` of the sparse key. -/
def sparseG : List Int8 :=
  [-15, 0, 0, -15, -14, 14, -15, 14, -15, 14, 15, 14, -15, 0, 0, -15,
    0, -14, 15, 0, -15, 14, 15, 14, -14, 0, -15, -14, 15, 14, 14, 14]

/-- The coefficients of `F` of the sparse key. -/
def sparseBigF : List Int8 :=
  [19, 38, 6, 27, 36, -3, -4, 25, 7, 31, 9, 9, -11, -1, 29, -47,
    14, -18, -36, 16, -32, 37, 39, 2, -32, -3, -35, 19, -9, -47, -20, -16]

/-- The coefficients of `G` of the sparse key. -/
def sparseBigG : List Int8 :=
  [2, 27, 36, 1, 21, -20, -8, -31, 44, 12, 2, -35, 8, 22, -19, 30,
    17, 29, -3, -28, -7, -29, 17, -23, 34, 1, 4, 18, 26, 20, 3, -2]

/-- The polynomials of the sparse key. -/
def sparseKey : PrivatePolys where
  f := sparsePoly sparseF
  g := sparsePoly sparseG
  F := sparsePoly sparseBigF
  G := sparsePoly sparseBigG

/-- A list with zeros after each entry. -/
theorem getD_flatMap_zeros (c : List Int8) (s l : ℕ) :
    (c.flatMap fun x => x :: List.replicate s 0).getD l 0 =
      if l % (s + 1) = 0 then c.getD (l / (s + 1)) 0 else 0 := by
  induction c generalizing l with
  | nil => simp
  | cons x c ih =>
      rw [List.flatMap_cons]
      by_cases hlt : l < s + 1
      · rw [List.getD_append _ _ _ _ (by simpa using hlt), Nat.mod_eq_of_lt hlt,
          Nat.div_eq_of_lt hlt]
        cases l with
        | zero => rfl
        | succ l => simp
      · have hlen : (x :: List.replicate s 0).length = s + 1 := by simp
        obtain ⟨l, rfl⟩ := Nat.exists_eq_add_of_le (Nat.le_of_not_lt hlt)
        rw [List.getD_append_right _ _ _ _ (hlen ▸ Nat.le_add_right _ l), hlen,
          Nat.add_sub_cancel_left, ih, Nat.add_mod_left, Nat.add_div_left l (Nat.succ_pos s)]
        rfl

/-- The integers of a list. -/
def listCoeff (c : List Int8) (j : ℕ) : ℤ := (c.getD j 0).toInt

theorem intCoeff_sparsePoly (c : List Int8) {l : ℕ} (hl : l < 1024) :
    intCoeff (sparsePoly c) l = spread 32 (listCoeff c) l := by
  rw [intCoeff, sparsePoly, toSmallPoly, getElem!_pos _ l hl, Vector.getElem_ofFn,
    getD_flatMap_zeros, spread]
  split <;> rfl

/-- A sparse polynomial, in the ring of degree 32. -/
theorem intElem_sparsePoly (c : List Int8) :
    intElem (sparsePoly c) = inflate ℤ 5 5 (coeffElem 5 (listCoeff c)) := by
  rw [inflate_coeffElem, intElem]
  exact coeffElem_congr fun l hl => intCoeff_sparsePoly c hl

theorem intElem_intAdj_sparsePoly (c : List Int8) :
    coeffElem 10 (intAdj 10 (intCoeff (sparsePoly c))) =
      inflate ℤ 5 5 (coeffElem 5 (intAdj 5 (listCoeff c))) := by
  rw [inflate_coeffElem]
  refine coeffElem_congr fun l hl => ?_
  rw [← intAdj_spread 5 _ hl]
  exact intAdj_congr (fun l hl => intCoeff_sparsePoly c hl) hl

/-- **The equation of the sparse key.** -/
theorem sparseKey_equation : intElem sparseKey.f * intElem sparseKey.G -
    intElem sparseKey.g * intElem sparseKey.F = ((pqQ : ℕ) : Rz) := by
  have hcoeffs : ∀ p < 32, convolution 32 (listCoeff sparseF) (listCoeff sparseBigG) p -
      convolution 32 (listCoeff sparseG) (listCoeff sparseBigF) p =
        if p = 0 then ((pqQ : ℕ) : ℤ) else 0 := by decide +kernel
  have hlow : coeffElem 5 (listCoeff sparseF) * coeffElem 5 (listCoeff sparseBigG) -
      coeffElem 5 (listCoeff sparseG) * coeffElem 5 (listCoeff sparseBigF) =
        ((pqQ : ℕ) : IntRing 5) := by
    rw [coeffElem_mul, coeffElem_mul, coeffElem_sub, coeffElem_congr hcoeffs, coeffElem_const]
    exact map_natCast (AdjoinRoot.of (modulus ℤ 5)) pqQ
  have hhigh := congrArg (inflate ℤ 5 5) hlow
  rw [map_sub, map_mul, map_mul, map_natCast, ← intElem_sparsePoly, ← intElem_sparsePoly,
    ← intElem_sparsePoly, ← intElem_sparsePoly] at hhigh
  exact hhigh

/-- The number that the Gram element of the sparse key is. -/
def sparseGram : ℕ := 10525

/-- **The Gram element of the sparse key.** -/
theorem sparseKey_gram : intElem sparseKey.f * coeffElem 10 (intAdj 10 (intCoeff sparseKey.f)) +
    intElem sparseKey.g * coeffElem 10 (intAdj 10 (intCoeff sparseKey.g)) =
      ((sparseGram : ℕ) : Rz) := by
  have hcoeffs : ∀ p < 32, convolution 32 (listCoeff sparseF) (intAdj 5 (listCoeff sparseF)) p +
      convolution 32 (listCoeff sparseG) (intAdj 5 (listCoeff sparseG)) p =
        if p = 0 then ((sparseGram : ℕ) : ℤ) else 0 := by decide +kernel
  have hlow : coeffElem 5 (listCoeff sparseF) * coeffElem 5 (intAdj 5 (listCoeff sparseF)) +
      coeffElem 5 (listCoeff sparseG) * coeffElem 5 (intAdj 5 (listCoeff sparseG)) =
        ((sparseGram : ℕ) : IntRing 5) := by
    rw [coeffElem_mul, coeffElem_mul, coeffElem_add, coeffElem_congr hcoeffs, coeffElem_const]
    exact map_natCast (AdjoinRoot.of (modulus ℤ 5)) sparseGram
  have hhigh := congrArg (inflate ℤ 5 5) hlow
  rw [map_add, map_mul, map_mul, map_natCast, ← intElem_sparsePoly, ← intElem_sparsePoly,
    ← intElem_intAdj_sparsePoly, ← intElem_intAdj_sparsePoly] at hhigh
  exact hhigh

/-! ### The sparse key, completed -/

/-- Small integers in one word each, as the solver holds them. -/
def plainWords (c : SmallPoly) : Poly32 := c.map fun x => x.toInt32.toUInt32 &&& 0x7FFFFFFF

theorem toInt_plainWords (p : SmallPoly) {u : ℕ} (hu : u < 1024) :
    (zintOneToPlain (plainWords p)[u]!).toInt = p[u]!.toInt := by
  have hall : ∀ b : UInt8,
      (zintOneToPlain (b.toInt8.toInt32.toUInt32 &&& 0x7FFFFFFF)).toInt = b.toInt8.toInt :=
    Words.forall_byte (by decide +kernel)
  rw [getElem!_pos _ u hu, getElem!_pos p u hu, plainWords, Vector.getElem_map]
  have hbyte := hall p[u].toUInt8
  rwa [Int8.toInt8_toUInt8] at hbyte

/-- The reference, with a solver that knows the solution for the sparse key. -/
def sparsePrimitives : FalconPrimitives :=
  .ofReduction (fun _ _ => some ⟨plainWords sparseKey.F, plainWords sparseKey.G, constWords 0⟩)
    (fun _ _ => (constPoly 0, constPoly 0)) (fun _ _ => true)
    fun _ _ _ => (Vector.replicate 1024 0, Vector.replicate 1024 0)

/-- A bound on the list bounds the coefficients. -/
theorem abs_sparsePoly_le {coeffs : List Int8} {lim : ℤ} (hlim : 0 ≤ lim)
    (hc : coeffs.all (fun x => decide (|x.toInt| ≤ lim)) = true) :
    ∀ u < 1024, |(sparsePoly coeffs)[u]!.toInt| ≤ lim := by
  intro u hu
  have hentry : (sparsePoly coeffs)[u]!.toInt = spread 32 (listCoeff coeffs) u :=
    intCoeff_sparsePoly coeffs hu
  rw [hentry, spread]
  split
  · rw [listCoeff, List.getD_eq_getElem?_getD]
    cases hget : coeffs[u / 32]? with
    | none => simpa using hlim
    | some x => exact of_decide_eq_true (List.all_eq_true.mp hc x (List.mem_of_getElem? hget))
  · simpa using hlim

/-- The solver returns the solution. -/
theorem solveNtru_sparse :
    solveNtru (fun _ _ => some ⟨plainWords sparseKey.F, plainWords sparseKey.G, constWords 0⟩)
      (constPoly 0) (constPoly 0) sparseKey.f sparseKey.g solveLimit =
        some (sparseKey.F, sparseKey.G) := by
  have hlim : solveLimit ≤ 127 := le_rfl
  refine (solveNtru_eq_some_iff hlim).mpr ⟨_, rfl, ?_, ?_, sparseKey_equation⟩
  · exact (polyBigToSmall_eq_some_iff hlim).mpr fun u hu => ⟨toInt_plainWords _ hu,
      abs_sparsePoly_le (by decide) (by decide) u hu⟩
  · exact (polyBigToSmall_eq_some_iff hlim).mpr fun u hu => ⟨toInt_plainWords _ hu,
      abs_sparsePoly_le (by decide) (by decide) u hu⟩

set_option maxRecDepth 100000 in
/-- The sparse key passes the checks on `f` and `g`. -/
theorem checksPass_sparse :
    checksPass (SmallPoly.reversed sparseKey.f) (SmallPoly.reversed sparseKey.g) = true := by
  have hlen : ∀ c : List Int8, c.length = 32 →
      (c.flatMap fun x => x :: List.replicate 31 0).length = 1024 := by
    intro c hc
    simp [List.length_flatMap, hc]
  have hf : SmallPoly.reversed sparseKey.f = _ := reversed_toSmallPoly (hlen sparseF rfl)
  have hg : SmallPoly.reversed sparseKey.g = _ := reversed_toSmallPoly (hlen sparseG rfl)
  rw [hf, hg]
  decide +kernel

/-- **The sparse key is completed**, by every check of key generation. -/
theorem completeFromFg_sparse :
    ∃ kp, completeFromFg sparsePrimitives (sparseKey.f, sparseKey.g) = some kp := by
  have hsolve : sparsePrimitives.solveNTRU sparseKey.f sparseKey.g solveLimit =
      some sparseKey.F := by
    rw [sparsePrimitives, FalconPrimitives.ofReduction]
    dsimp only
    rw [solveNtru_sparse, Option.map_some]
  have hnorm : sparsePrimitives.bnormLt sparseKey.f sparseKey.g = true := by
    rw [sparsePrimitives, FalconPrimitives.ofReduction]
  have hcompleted := completeFromFg_of_checksPass checksPass_sparse hnorm (by rw [hsolve]; rfl)
  exact Option.isSome_iff_exists.mp hcompleted

/-- **The key pair of the sparse key.** -/
theorem exists_sparse_keypair : ∃ kp : Keypair, kp.LoadsAs sparseKey := by
  obtain ⟨kp, hkp⟩ := completeFromFg_sparse
  obtain ⟨F, G, hsolve, hloads⟩ := loadsAs_of_completeFromFg hkp
  rw [solveNtru_sparse] at hsolve
  obtain ⟨rfl, rfl⟩ := Prod.mk.inj (Option.some.inj hsolve)
  exact ⟨kp, hloads⟩

/-! ### All keys -/

section Generated

variable {reduce : SmallPoly → SmallPoly → Option NtruWork}
  {arrays : SmallPoly → SmallPoly → SmallPoly × SmallPoly}

/-- **Generated keys are loaded as they were generated.** With the last step of the solver, and
whatever its other steps and the floating-point norm compute: a key that is completed from `f`
and `g` is loaded, when it signs, as `f`, `g` and the very solution of the NTRU equation over the
integers that the solver returned, `G` included, which is not stored; and the public key that is
computed from the private key is the one that was written with it. So does every key of the
reference. -/
theorem generated_keys_load (bnormLt : SmallPoly → SmallPoly → Bool)
    (leftover : SmallPoly → SmallPoly → ℕ → Poly16 × Poly16) :
    (∀ f g kp, completeFromFg (.ofReduction reduce arrays bnormLt leftover) (f, g) = some kp →
      ∃ F G, solveNtru reduce (arrays f g).1 (arrays f g).2 f g solveLimit = some (F, G) ∧
        kp.LoadsAs ⟨f, g, F, G⟩) ∧
    (∀ fuel attempts seed kp, keygenFromSeed (.ofReduction reduce arrays bnormLt leftover) fuel
      attempts seed = some (.ok kp) → ∃ K, kp.LoadsAs K) := by
  refine ⟨fun f g kp hkp => loadsAs_of_completeFromFg hkp, fun fuel attempts seed kp h => ?_⟩
  obtain ⟨f, g, hkp⟩ := completeFromFg_of_keygenFromSeed h
  obtain ⟨F, G, -, hloads⟩ := loadsAs_of_completeFromFg hkp
  exact ⟨_, hloads⟩

end Generated

/-- The sparse key is a completed key. -/
theorem generated_keys_load_sparse : ∃ kp,
    completeFromFg sparsePrimitives (sparseKey.f, sparseKey.g) = some kp ∧
      kp.LoadsAs sparseKey := by
  obtain ⟨kp, hkp⟩ := completeFromFg_sparse
  obtain ⟨F, G, hsolve, hloads⟩ := (generated_keys_load _ _).1 _ _ _ hkp
  rw [solveNtru_sparse] at hsolve
  obtain ⟨rfl, rfl⟩ := Prod.mk.inj (Option.some.inj hsolve)
  exact ⟨kp, hkp, hloads⟩

end FalconVanity
