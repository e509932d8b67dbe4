import FalconVanity.CompletePrivate
import FalconVanity.Foundation.Saturating
import FalconVanity.TrimCodec

/-!
# The Equation of a Signature

A signature of a point `c` under the public key `h` is a small polynomial `s2`; the other half
of the vector, `s1 = c - s2 * h`, is recomputed by the verifier, which takes the smallest
representatives modulo `q`. The vector is accepted when its squared norm is within a bound, and
the norm is a saturated 32-bit sum. No choice of representatives makes the vector shorter: the
verifier accepts exactly when a short solution of the equation exists.

## Main results

* `isShort_iff`, `isShortHalf_iff`: the norm test.
* `verifyRaw_eq_true_iff`: what is accepted.
* `s1Coeffs_eq_some_iff`: the half of the vector that the verifier recomputes.
-/

namespace FalconVanity

open Negacyclic Logged Finset

/-! ### The functions of the reference -/

/-- `l2bound`: the bounds of the squared norm, by the degree. -/
def l2bound : List UInt32 :=
  [0, 101498, 208714, 428865, 892039, 1852696, 3842630, 7959734, 16468416, 34034726, 70265242]

/-- The square of a coefficient, as it is added to a norm. -/
def squareWord (x : Int16) : UInt32 :=
  let z := x.toInt32
  (z * z).toUInt32

/-- The body of the loop of `is_short`. -/
def shortStep (s1 s2 : PolyS16) (st : UInt32 × UInt32) (u : ℕ) : UInt32 × UInt32 :=
  let (s, ng) := st
  let s := s + squareWord s1[u]!
  let ng := ng ||| s
  let s := s + squareWord s2[u]!
  let ng := ng ||| s
  (s, ng)

/-- `is_short`, for `logn = 10` -/
def isShort (s1 s2 : PolyS16) : Bool :=
  let (s, ng) := (List.range 1024).foldl (shortStep s1 s2) (0, 0)
  let s := s ||| ((0 : UInt32) - (ng >>> 31))
  s ≤ l2bound.getD 10 0

/-- The body of the loop of `is_short_half`. -/
def shortHalfStep (s2 : PolyS16) (st : UInt32 × UInt32) (u : ℕ) : UInt32 × UInt32 :=
  let (sqn, ng) := st
  let sqn := sqn + squareWord s2[u]!
  let ng := ng ||| sqn
  (sqn, ng)

/-- `is_short_half`, for `logn = 10` -/
def isShortHalf (sqn : UInt32) (s2 : PolyS16) : Bool :=
  let ng := (0 : UInt32) - (sqn >>> 31)
  let (sqn, ng) := (List.range 1024).foldl (shortHalfStep s2) (sqn, ng)
  let sqn := sqn ||| ((0 : UInt32) - (ng >>> 31))
  sqn ≤ l2bound.getD 10 0

/-- `mq_poly_sub`: the difference of two polynomials, in place of the first one. -/
def mqPolySub (f g : Poly16) (logn : ℕ) : Mq Poly16 :=
  (List.range (2 ^ logn)).foldlM
    (fun f u => do Op.store f u (← Op.sub (load f u) (load g u))) f

/-- `to_ntt_monty`: the transform of a public key, in the Montgomery form. -/
def toNttMonty (h : Poly16) : Mq Poly16 := do
  let h ← mqNTT h 10
  mqPolyTomonty h 10

/-- A coefficient of a signature, in the range from 0 to `q - 1`. -/
def reduceSigned (x : Int16) : UInt32 :=
  let w := x.toInt32.toUInt32
  w + (pqQ32 &&& ((0 : UInt32) - (w >>> 31)))

/-- The first loop of `verify_raw` and of its siblings. -/
def reducePoly (s2 : PolyS16) (tt : Poly16) : Mq Poly16 :=
  (List.range 1024).foldlM (fun tt u => do Op.store tt u (← pure (reduceSigned s2[u]!))) tt

/-- A residue, in the range from `-q / 2` to `q / 2`. -/
def centerResidue (w : UInt32) : Int16 :=
  (w - (pqQ32 &&& ((0 : UInt32) - (((pqQ32 >>> 1) - w) >>> 31)))).toInt32.toInt16

/-- The last loop of `verify_raw`, which replaces each entry. -/
def centerPoly (tt : Poly16) : PolyS16 := tt.map fun w => centerResidue w.toUInt32

/-- The part that `verify_raw` and `falcon_det1024_s1_coeffs` share: `s2 * h`, where `h` is
transformed and in Montgomery form. -/
def mulPublic (s2 : PolyS16) (h tt : Poly16) : Mq Poly16 := do
  let tt ← reducePoly s2 tt
  let tt ← mqNTT tt 10
  let tt ← mqPolyMontymulNtt tt h 10
  mqINTT tt 10

/-- `verify_raw`, with the scratch array `tt`. -/
def verifyRaw (c0 : Poly16) (s2 : PolyS16) (h tt : Poly16) : Mq Bool := do
  let tt ← mulPublic s2 h tt
  let tt ← mqPolySub tt c0 10
  return isShort (centerPoly tt) s2

/-- The loop of `falcon_det1024_s1_coeffs` that subtracts from `c`. -/
def subFrom (c tt : Poly16) : Mq Poly16 :=
  (List.range 1024).foldlM
    (fun tt u => do Op.store tt u (← Op.sub (load c u) (load tt u))) tt

/-- `falcon_det1024_s1_coeffs`, with the scratch array `tt`: `none` for `FALCON_ERR_BADSIG`. -/
def s1Coeffs (h c : Poly16) (s2 : PolyS16) (tt : Poly16) : Mq (Option PolyS16) := do
  let hNtt ← toNttMonty h
  let tt ← mulPublic s2 hNtt tt
  let tt ← subFrom c tt
  let s1 := centerPoly tt
  return if isShort s1 s2 then some s1 else none

/-! ### The norm -/

/-- The squared norm of half of a vector. -/
def normSq (s : PolyS16) : ℕ := ∑ u ∈ range 1024, s[u]!.toInt.natAbs ^ 2

/-- A square that is a signed word is stored as it is. -/
theorem toNat_mul_self {z : Int32} (hz : z.toInt.natAbs ≤ 46340) :
    (z * z).toUInt32.toNat = z.toInt.natAbs ^ 2 ∧ z.toInt.natAbs ^ 2 < 2 ^ 31 := by
  have hle : z.toInt.natAbs ^ 2 < 2 ^ 31 := by
    calc z.toInt.natAbs ^ 2 ≤ 46340 ^ 2 := Nat.pow_le_pow_left hz 2
      _ < 2 ^ 31 := by norm_num
  have hint : (z * z).toInt = ((z.toInt.natAbs ^ 2 : ℕ) : ℤ) := by
    have hsq : z.toInt * z.toInt = ((z.toInt.natAbs ^ 2 : ℕ) : ℤ) := by
      rw [sq, Int.natAbs_mul_self]
    rw [Int32.toInt_mul, hsq]
    exact Int.bmod_eq_of_le (by omega) (by omega)
  have hcond := Words.UInt32.toInt_toInt32 (z * z).toUInt32
  rw [Int32.toInt32_toUInt32, hint] at hcond
  have hlt := (z * z).toUInt32.toNat_lt
  refine ⟨?_, hle⟩
  split at hcond <;> omega

/-- A square of a 16-bit coefficient does not overflow. -/
theorem toNat_squareWord (x : Int16) :
    (squareWord x).toNat = x.toInt.natAbs ^ 2 ∧ x.toInt.natAbs ^ 2 < 2 ^ 31 := by
  have hlo := x.le_toInt
  have hhi := x.toInt_lt
  have hsquare := toNat_mul_self (z := x.toInt32) (by rw [Int16.toInt_toInt32]; omega)
  rwa [Int16.toInt_toInt32] at hsquare

/-- The square of a 16-bit coefficient has 31 bits. -/
theorem squareWord_le (x : Int16) : (squareWord x).toNat ≤ 2 ^ 31 := by
  obtain ⟨hval, hle⟩ := toNat_squareWord x
  omega

/-- The bound of the degree 1024. -/
theorem toNat_l2bound : (l2bound.getD 10 0).toNat = 70265242 := rfl

/-- **The norm test** accepts exactly the vectors within the bound, whatever overflows. -/
theorem isShort_iff {s1 s2 : PolyS16} :
    isShort s1 s2 = true ↔ normSq s1 + normSq s2 ≤ 70265242 := by
  have hloop : ∀ n, Saturating.Tracks
      (∑ u ∈ range n, (s1[u]!.toInt.natAbs ^ 2 + s2[u]!.toInt.natAbs ^ 2))
      ((List.range n).foldl (shortStep s1 s2) (0, 0)) := by
    intro n
    induction n with
    | zero => exact Saturating.tracks_zero
    | succ n ih =>
        rw [List.range_succ, List.foldl_append, sum_range_succ, ← Nat.add_assoc,
          ← (toNat_squareWord s1[n]!).1, ← (toNat_squareWord s2[n]!).1]
        exact (ih.add (squareWord_le _)).add (squareWord_le _)
  have hle := (hloop 1024).result_le_iff (l2bound.getD 10 0) (by
    rw [toNat_l2bound]
    norm_num)
  rw [sum_add_distrib, toNat_l2bound] at hle
  rw [isShort, normSq, normSq, ← hle]
  generalize (List.range 1024).foldl (shortStep s1 s2) (0, 0) = st
  exact decide_eq_true_iff

/-- The test of the signer, which continues a norm that is already saturated. -/
theorem isShortHalf_iff {sqn : UInt32} {s2 : PolyS16} :
    isShortHalf sqn s2 = true ↔ sqn.toNat + normSq s2 ≤ 70265242 := by
  have hloop : ∀ n, Saturating.Tracks (sqn.toNat + ∑ u ∈ range n, s2[u]!.toInt.natAbs ^ 2)
      ((List.range n).foldl (shortHalfStep s2) (sqn, (0 : UInt32) - (sqn >>> 31))) := by
    intro n
    induction n with
    | zero => exact Saturating.tracks_of_word sqn
    | succ n ih =>
        rw [List.range_succ, List.foldl_append, sum_range_succ, ← Nat.add_assoc,
          ← (toNat_squareWord s2[n]!).1]
        exact ih.add (squareWord_le _)
  have hle := (hloop 1024).result_le_iff (l2bound.getD 10 0) (by
    rw [toNat_l2bound]
    norm_num)
  rw [toNat_l2bound] at hle
  rw [isShortHalf, normSq, ← hle]
  dsimp only
  generalize (List.range 1024).foldl (shortHalfStep s2) (sqn, (0 : UInt32) - (sqn >>> 31)) = st
  exact decide_eq_true_iff

/-! ### Representatives -/

variable {x : UInt32} {v : ZMod pqQ}

/-- **A coefficient of a signature, reduced.** -/
theorem reduced_reduceSigned {z : Int16} (hz : |z.toInt| < 12289) :
    Reduced (reduceSigned z) (z.toInt : ZMod pqQ) := by
  obtain ⟨hlo, hhi⟩ := abs_lt.mp hz
  have hw := Words.UInt32.toInt_toInt32 z.toInt32.toUInt32
  rw [Int32.toInt32_toUInt32, Int16.toInt_toInt32] at hw
  have hlt := z.toInt32.toUInt32.toNat_lt
  have hshift : (z.toInt32.toUInt32 >>> 31).toNat = z.toInt32.toUInt32.toNat / 2 ^ 31 :=
    Words.UInt32.toNat_shiftRight_of_lt _ 31 (k := 31) rfl (by norm_num)
  have hq : pqQ32.toNat = 12289 := rfl
  have hcast : ((12289 : ℤ) : ZMod pqQ) = 0 := ZMod.natCast_self pqQ
  rw [reduceSigned]
  by_cases hneg : z.toInt < 0
  · have hword : z.toInt32.toUInt32.toNat = 2 ^ 32 - z.toInt.natAbs := by
      split at hw <;> omega
    have htop : z.toInt32.toUInt32 >>> 31 = 1 :=
      UInt32.toNat_inj.mp (by rw [hshift]; change _ = 1; omega)
    have hmask : (0 : UInt32) - 1 = -1 := rfl
    have hval : (z.toInt32.toUInt32 + pqQ32).toNat = 12289 - z.toInt.natAbs := by
      rw [UInt32.toNat_add, hq]
      omega
    rw [htop, hmask, UInt32.and_neg_one]
    refine ⟨by omega, ?_⟩
    have hint : ((z.toInt32.toUInt32 + pqQ32).toNat : ℤ) = z.toInt + 12289 := by omega
    rw [← Int.cast_natCast, hint, Int.cast_add, hcast, add_zero]
  · have hword : z.toInt32.toUInt32.toNat = z.toInt.natAbs := by
      split at hw <;> omega
    have htop : z.toInt32.toUInt32 >>> 31 = 0 :=
      UInt32.toNat_inj.mp (by rw [hshift]; change _ = 0; omega)
    have hmask : (0 : UInt32) - 0 = 0 := rfl
    rw [htop, hmask, UInt32.and_zero, UInt32.add_zero]
    refine ⟨by omega, ?_⟩
    have hint : (z.toInt32.toUInt32.toNat : ℤ) = z.toInt := by omega
    rw [← Int.cast_natCast, hint]

/-- **The centred representative** is the smallest one. -/
theorem toInt_centerResidue (hx : Reduced x v) : (centerResidue x).toInt = v.valMinAbs := by
  have hlt := hx.lt
  have hhalf : (pqQ32 >>> 1).toNat = 6144 := rfl
  have hq : pqQ32.toNat = 12289 := rfl
  have hval : v.val = x.toNat := by
    rw [← hx.cast]
    exact ZMod.val_natCast_of_lt hlt
  have hsub : ((pqQ32 >>> 1) - x).toNat = (2 ^ 32 - x.toNat + 6144) % 2 ^ 32 := by
    rw [UInt32.toNat_sub, hhalf]
  have hshift : (((pqQ32 >>> 1) - x) >>> 31).toNat = ((pqQ32 >>> 1) - x).toNat / 2 ^ 31 :=
    Words.UInt32.toNat_shiftRight_of_lt _ 31 (k := 31) rfl (by norm_num)
  have hcond : x.toNat ≤ pqQ / 2 ↔ x.toNat ≤ 6144 := Iff.rfl
  have hqint : ((pqQ : ℕ) : ℤ) = 12289 := rfl
  rw [ZMod.valMinAbs_def_pos, hval, if_congr hcond rfl rfl, hqint, centerResidue,
    Int32.toInt_toInt16, Words.UInt32.toInt_toInt32]
  by_cases hle : x.toNat ≤ 6144
  · have htop : ((pqQ32 >>> 1) - x) >>> 31 = 0 :=
      UInt32.toNat_inj.mp (by rw [hshift, hsub]; change _ = 0; omega)
    have hmask : pqQ32 &&& ((0 : UInt32) - 0) = 0 := rfl
    have hzero : x - 0 = x := UInt32.sub_zero x
    rw [htop, hmask, hzero, if_pos hle, if_pos (by omega)]
    exact Int.bmod_eq_of_le (by omega) (by omega)
  · have htop : ((pqQ32 >>> 1) - x) >>> 31 = 1 :=
      UInt32.toNat_inj.mp (by rw [hshift, hsub]; change _ = 1; omega)
    have hmask : pqQ32 &&& ((0 : UInt32) - 1) = pqQ32 := rfl
    have hdiff : (x - pqQ32).toNat = 2 ^ 32 - (12289 - x.toNat) := by
      rw [UInt32.toNat_sub, hq]
      omega
    rw [htop, hmask, hdiff, if_neg hle, if_neg (by omega)]
    have hint : ((2 ^ 32 - (12289 - x.toNat) : ℕ) : ℤ) - 2 ^ 32 = (x.toNat : ℤ) - 12289 := by
      omega
    rw [hint]
    exact Int.bmod_eq_of_le (by omega) (by omega)

/-! ### The recomputed half -/

variable {a b : Poly16} {g h c : ℕ → ZMod pqQ} {s2 : PolyS16}

/-- The coefficients of half of a signature, modulo `q`. -/
def signedCoeff (s : PolyS16) (l : ℕ) : ZMod pqQ := (s[l]!.toInt : ZMod pqQ)

/-- What the decoders of signatures guarantee: the coefficients are reduced by one addition. -/
def InRange (s : PolyS16) : Prop := ∀ u < 1024, |s[u]!.toInt| < 12289

/-- Signed coefficients are reduced safely. -/
theorem reducePoly_ensures (hs : InRange s2) (tt : Poly16) :
    Ensures MqEvent.Safe (reducePoly s2 tt) (Rep · (signedCoeff s2)) :=
  @forEach_ensures (fun _ u => pure (reduceSigned s2[u]!)) (fun _ _ => True) (signedCoeff s2)
    (fun u hu _ _ => Ensures.pure (reduced_reduceSigned (hs u hu))) tt fun _ _ => trivial

/-- Two polynomials are subtracted safely, one coefficient at a time. -/
theorem mqPolySub_ensures (ha : Rep a g) (hb : Rep b h) :
    Ensures MqEvent.Safe (mqPolySub a b 10) (Rep · fun p => g p - h p) :=
  forEach_ensures (P := fun u x => Reduced x (g u))
    (fun u hu _ ha => Op.sub_ensures ha (hb u hu)) ha

/-- The other way around, the first polynomial is subtracted from the second. -/
theorem subFrom_ensures (ha : Rep a g) (hb : Rep b h) :
    Ensures MqEvent.Safe (subFrom b a) (Rep · fun p => h p - g p) :=
  forEach_ensures (P := fun u x => Reduced x (g u))
    (fun u hu _ ha => Op.sub_ensures (hb u hu) ha) ha

/-- A public key is transformed safely, and brought to the Montgomery form. -/
theorem toNttMonty_ensures (ha : Rep a h) :
    Ensures MqEvent.Safe (toNttMonty a) (Rep · fun p => forward twiddles h 10 p * (pqR : ℕ)) :=
  (mqNTT_ensures ha).bind fun _ ha => mqPolyTomonty_ensures ha

/-- The product of a signature and a public key, by the transforms. -/
theorem mulPublic_ensures (hs : InRange s2)
    (hb : Rep b fun p => forward twiddles h 10 p * (pqR : ℕ)) (tt : Poly16) :
    Ensures MqEvent.Safe (mulPublic s2 b tt) (Rep · (convolution 1024 (signedCoeff s2) h)) := by
  refine (reducePoly_ensures hs tt).bind fun tt ht => (mqNTT_ensures ht).bind fun tt ht => ?_
  refine (mqPolyMontymulNtt_ensures ht hb).bind fun tt ht => ?_
  have hprod : Rep tt fun p =>
      forward twiddles (signedCoeff s2) 10 p * forward twiddles h 10 p := by
    refine ht.congr fun p _ => ?_
    have hR := pqR_ne_zero
    field_simp
  refine (mqINTT_ensures hprod).mono fun tt ht => ht.congr fun p hp => ?_
  exact scaled_inverse_mul (T := twiddles) (L := 10) two_ne_zero_modq _ _ hp

/-- An entry of the recomputed half. -/
theorem toInt_centerPoly (ha : Rep a g) {u : ℕ} (hu : u < 1024) :
    (centerPoly a)[u]!.toInt = (g u).valMinAbs := by
  have hget : (centerPoly a)[u]! = centerResidue (load a u) := by
    rw [getElem!_pos _ u hu, centerPoly, Vector.getElem_map, load, getElem!_pos a u hu]
  rw [hget, toInt_centerResidue (ha u hu)]

/-- The norm of the centered coefficients. -/
theorem normSq_centerPoly (ha : Rep a g) :
    normSq (centerPoly a) = ∑ u ∈ range 1024, (g u).valMinAbs.natAbs ^ 2 :=
  sum_congr rfl fun u hu => by rw [toInt_centerPoly ha (mem_range.mp hu)]

/-- **The verification** is safe, and accepts exactly if the norm of both halves is within the
bound. -/
theorem verifyRaw_ensures (hc : Rep a c) (hs : InRange s2)
    (hb : Rep b fun p => forward twiddles h 10 p * (pqR : ℕ)) (tt : Poly16) :
    Ensures MqEvent.Safe (verifyRaw a s2 b tt) fun ok => ok = true ↔
      ∑ u ∈ range 1024, (convolution 1024 (signedCoeff s2) h u - c u).valMinAbs.natAbs ^ 2 +
        normSq s2 ≤ 70265242 := by
  refine (mulPublic_ensures hs hb tt).bind fun tt ht => ?_
  refine (mqPolySub_ensures ht hc).bind fun tt ht => Ensures.pure ?_
  rw [isShort_iff, normSq_centerPoly ht]

/-- **The recovery of the first half** is safe, and fails exactly if the norm is beyond the bound.
-/
theorem s1Coeffs_ensures (hh : Rep b h) (hc : Rep a c) (hs : InRange s2) (tt : Poly16) :
    Ensures MqEvent.Safe (s1Coeffs b a s2 tt) fun out => ∀ s1, out = some s1 ↔
      (∀ u < 1024, s1[u]!.toInt = (c u - convolution 1024 (signedCoeff s2) h u).valMinAbs) ∧
        normSq s1 + normSq s2 ≤ 70265242 := by
  refine (toNttMonty_ensures hh).bind fun b hb => (mulPublic_ensures hs hb tt).bind fun tt ht => ?_
  refine (subFrom_ensures ht hc).bind fun tt ht => Ensures.pure fun s1 => ?_
  have hentries : (∀ u < 1024, s1[u]!.toInt =
      (c u - convolution 1024 (signedCoeff s2) h u).valMinAbs) ↔ centerPoly tt = s1 := by
    constructor
    · intro h
      refine Vector.ext fun u hu => ?_
      have hu' := (toInt_centerPoly ht hu).trans (h u hu).symm
      rw [getElem!_pos _ u hu, getElem!_pos s1 u hu] at hu'
      exact Int16.toInt_inj.mp hu'
    · rintro rfl u hu
      exact toInt_centerPoly ht hu
  rw [hentries]
  by_cases hshort : isShort (centerPoly tt) s2 = true
  · rw [if_pos hshort, Option.some_inj]
    refine (and_iff_left_of_imp ?_).symm
    rintro rfl
    exact isShort_iff.mp hshort
  · rw [if_neg hshort]
    refine iff_of_false (fun h => Option.some_ne_none _ h.symm) ?_
    rintro ⟨rfl, hle⟩
    exact hshort (isShort_iff.mpr hle)

/-! ### Short solutions -/

/-- Half of a signature as an element of the ring. -/
noncomputable def signedElem (s : PolyS16) : Rq := coeffElem 10 (signedCoeff s)

/-- What a signature proves: the equation of the point `c` and the public key `h` has a short
solution of which `s2` is a half. -/
def Solves (c h : Rq) (s2 : PolyS16) : Prop :=
  ∃ s1 : ℕ → ℤ, (coeffElem 10 fun l => (s1 l : ZMod pqQ)) + signedElem s2 * h = c ∧
    ∑ u ∈ range 1024, (s1 u).natAbs ^ 2 + normSq s2 ≤ 70265242

/-- **The smallest representatives decide** whether there is a short solution. -/
theorem solves_iff : Solves (coeffElem 10 c) (coeffElem 10 h) s2 ↔
    ∑ u ∈ range 1024, (c u - convolution 1024 (signedCoeff s2) h u).valMinAbs.natAbs ^ 2 +
      normSq s2 ≤ 70265242 := by
  have hprod : signedElem s2 * coeffElem 10 h =
      coeffElem 10 (convolution 1024 (signedCoeff s2) h) := coeffElem_mul _ _
  constructor
  · rintro ⟨s1, heq, hle⟩
    rw [hprod, ← eq_sub_iff_add_eq, coeffElem_sub] at heq
    refine le_trans (Nat.add_le_add_right (sum_le_sum fun u hu => ?_) _) hle
    have hu := coeffElem_inj heq (mem_range.mp hu)
    refine Nat.pow_le_pow_left (ZMod.natAbs_min_of_le_div_two pqQ _ _ ?_ ?_) 2
    · rw [ZMod.coe_valMinAbs]
      exact hu.symm
    · exact ZMod.natAbs_valMinAbs_le _
  · intro hle
    refine ⟨fun u => (c u - convolution 1024 (signedCoeff s2) h u).valMinAbs, ?_, hle⟩
    rw [hprod, ← eq_sub_iff_add_eq, coeffElem_sub]
    simp only [ZMod.coe_valMinAbs]

/-! ### The verifier -/

/-- All entries of the array are residues. -/
def ReducedPoly (a : Poly16) : Prop := ∀ u < 1024, a[u]!.toNat < 12289

/-- A polynomial with coefficients below `q` stands for their residues. -/
theorem ReducedPoly.rep {a : Poly16} (ha : ReducedPoly a) :
    Rep a fun p => (a[p]!.toNat : ZMod pqQ) := fun p hp =>
  ⟨by rw [load, UInt16.toNat_toUInt32]; exact ha p hp, by rw [load, UInt16.toNat_toUInt32]⟩

/-- **The verification of a vector**: it accepts exactly when the equation has a short solution. -/
theorem verifyRaw_eq_true_iff {c0 hk : Poly16} (hc : ReducedPoly c0) (hh : ReducedPoly hk)
    (hs : InRange s2) (tt : Poly16) :
    (verifyRaw c0 s2 (toNttMonty hk).val tt).val = true ↔
      Solves (wordElem c0) (wordElem hk) s2 := by
  have hrun := (verifyRaw_ensures hc.rep hs (toNttMonty_ensures hh.rep).result tt).result
  rw [hrun, wordElem, wordElem, solves_iff]
  have hsum : ∀ g g' : ℕ → ZMod pqQ, ∑ u ∈ range 1024, (g u - g' u).valMinAbs.natAbs ^ 2 =
      ∑ u ∈ range 1024, (g' u - g u).valMinAbs.natAbs ^ 2 := fun g g' =>
    sum_congr rfl fun u _ => by rw [← ZMod.natAbs_valMinAbs_neg, neg_sub]
  rw [hsum]

/-- **The recomputed half**: the smallest solution of the equation, if it is short. -/
theorem s1Coeffs_eq_some_iff {c0 hk : Poly16} (hc : ReducedPoly c0) (hh : ReducedPoly hk)
    (hs : InRange s2) {tt : Poly16} {s1 : PolyS16} :
    (s1Coeffs hk c0 s2 tt).val = some s1 ↔ (∀ u < 1024, |s1[u]!.toInt| ≤ 6144) ∧
      signedElem s1 + signedElem s2 * wordElem hk = wordElem c0 ∧
        normSq s1 + normSq s2 ≤ 70265242 := by
  have hrun := (s1Coeffs_ensures hh.rep hc.rep hs tt).result s1
  have hprod : signedElem s2 * wordElem hk =
      coeffElem 10 (convolution 1024 (signedCoeff s2) fun l => (hk[l]!.toNat : ZMod pqQ)) :=
    coeffElem_mul _ _
  rw [hrun, ← and_assoc, hprod, ← eq_sub_iff_add_eq, wordElem, coeffElem_sub]
  refine and_congr_left' ⟨fun h => ⟨fun u hu => ?_, coeffElem_congr fun u hu => ?_⟩, ?_⟩
  · rw [h u hu, Int.abs_eq_natAbs]
    exact Int.ofNat_le.mpr (ZMod.natAbs_valMinAbs_le _)
  · rw [signedCoeff, h u hu, ZMod.coe_valMinAbs]
  · rintro ⟨hle, heq⟩ u hu
    refine ((ZMod.valMinAbs_spec _ _).mpr ⟨(coeffElem_inj heq hu).symm, ?_⟩).symm
    have hq : ((pqQ : ℕ) : ℤ) = 12289 := rfl
    have hrange := abs_le.mp (hle u hu)
    rw [hq, Set.mem_Ioc]
    omega

/-- The recomputed half exists exactly when there is a short solution. -/
theorem exists_s1Coeffs_iff {c0 hk : Poly16} (hc : ReducedPoly c0) (hh : ReducedPoly hk)
    (hs : InRange s2) (tt : Poly16) :
    (∃ s1, (s1Coeffs hk c0 s2 tt).val = some s1) ↔ Solves (wordElem c0) (wordElem hk) s2 := by
  have hrun := (s1Coeffs_ensures hh.rep hc.rep hs tt).result
  rw [wordElem, wordElem, solves_iff]
  constructor
  · rintro ⟨s1, hs1⟩
    obtain ⟨hentries, hle⟩ := (hrun s1).mp hs1
    refine le_trans (Nat.add_le_add_right (sum_le_sum fun u hu => ?_) _) hle
    rw [hentries u (mem_range.mp hu)]
  · intro hle
    let z : ℕ → ℤ := fun u => ((c0[u]!.toNat : ZMod pqQ) - convolution 1024 (signedCoeff s2)
      (fun l => (hk[l]!.toNat : ZMod pqQ)) u).valMinAbs
    have hz : ∀ u < 1024, (Vector.ofFn fun v : Fin 1024 => Int16.ofInt (z v))[u]!.toInt = z u := by
      intro u hu
      have hle : (z u).natAbs ≤ 6144 := ZMod.natAbs_valMinAbs_le _
      rw [getElem!_pos _ u hu, Vector.getElem_ofFn]
      dsimp only
      exact Int16.toInt_ofInt_of_le (by omega) (by omega)
    refine ⟨_, (hrun _).mpr ⟨hz, ?_⟩⟩
    refine le_trans (Nat.add_le_add_right (sum_le_sum fun u hu => ?_) _) hle
    rw [hz u (mem_range.mp hu)]

end FalconVanity
