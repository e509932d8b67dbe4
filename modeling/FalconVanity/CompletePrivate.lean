import FalconVanity.SolveNtru
import FalconVanity.PublicKey

/-!
# Completing a Private Key

An encoded private key holds `f`, `g` and `F` only. Whoever signs recomputes `G` as the quotient
of `g * F` by `f` modulo `q`, and centres its coefficients: since `G` is small, it is determined
by its class. The computation fails when `f` is not invertible, and when a coefficient leaves
the range that a stored byte may hold.

## Main results

* `mqPolyTomonty_ensures`, `mqPolyMontymulNtt_ensures`: products in the transform, on arrays.
* `toInt_centerSmall`: the centred representative.
* `completePrivate_eq_some_iff`: what is returned, and when.
-/

namespace FalconVanity

open Negacyclic Logged

/-! ### The functions of the reference -/

/-- `mq_poly_tomonty`: every coefficient is brought to the Montgomery form. -/
def mqPolyTomonty (f : Poly16) (logn : ℕ) : Mq Poly16 :=
  (List.range (2 ^ logn)).foldlM
    (fun f u => do Op.store f u (← Op.montymul (load f u) pqR2)) f

/-- `mq_poly_montymul_ntt`: the product of two transforms, value by value. -/
def mqPolyMontymulNtt (f g : Poly16) (logn : ℕ) : Mq Poly16 :=
  (List.range (2 ^ logn)).foldlM
    (fun f u => do Op.store f u (← Op.montymul (load f u) (load g u))) f

/-- The value `gi` of the last loop of `complete_private`. -/
def centerSmall (w : UInt32) : Int32 :=
  (w - (pqQ32 &&& ~~~((0 : UInt32) - ((w - (pqQ32 >>> 1)) >>> 31)))).toInt32

/-- The last loop of `complete_private`. -/
def storeCentered (t1 : Poly16) (G : SmallPoly) : Option SmallPoly :=
  (List.range 1024).foldlM (fun G u =>
    let gi := centerSmall (load t1 u)
    if gi.toInt < -127 ∨ gi.toInt > 127 then none else some (G.set! u gi.toInt8)) G

/-- `complete_private`, into the array `G`: `none` for the return value 0. The arrays `t1` and
`t2` are scratch space of the caller. -/
def completePrivate (G f g F : SmallPoly) (t1 t2 : Poly16) : Mq (Option SmallPoly) := do
  let (t1, t2) ← convPair g F t1 t2
  let t1 ← mqNTT t1 10
  let t2 ← mqNTT t2 10
  let t1 ← mqPolyTomonty t1 10
  let t1 ← mqPolyMontymulNtt t1 t2 10
  let t2 ← convPoly f t2
  let t2 ← mqNTT t2 10
  match ← divideLoop t2 (List.range 1024) t1 with
  | none => return none
  | some t1 =>
    let t1 ← mqINTT t1 10
    return storeCentered t1 G

/-! ### Products in the transform -/

variable {x y : UInt32} {v w : ZMod pqQ} {a b : Poly16} {g h : ℕ → ZMod pqQ}

/-- A factor in Montgomery form makes a Montgomery product a product. -/
theorem Op.montymul_scaled (hx : Reduced x v) (hy : Reduced y (w * (pqR : ℕ))) :
    Ensures MqEvent.Safe (Op.montymul x y) (Reduced · (v * w)) := by
  refine (Op.montymul_ensures hx hy).mono fun r hr => ?_
  have hR := pqR_ne_zero
  have hscale : v * (w * (pqR : ℕ)) / (pqR : ℕ) = v * w := by
    field_simp
  exact hscale ▸ hr

theorem mqPolyTomonty_ensures (ha : Rep a g) :
    Ensures MqEvent.Safe (mqPolyTomonty a 10) (Rep · fun p => g p * (pqR : ℕ)) := by
  have hR2 : Reduced pqR2 ((pqR : ℕ) * (pqR : ℕ)) := ⟨by decide, by decide +kernel⟩
  exact forEach_ensures (P := fun u x => Reduced x (g u))
    (fun u _ a ha => Op.montymul_scaled ha hR2) ha

theorem mqPolyMontymulNtt_ensures (ha : Rep a g) (hb : Rep b h) :
    Ensures MqEvent.Safe (mqPolyMontymulNtt a b 10) (Rep · fun p => g p * h p / (pqR : ℕ)) :=
  forEach_ensures (P := fun u x => Reduced x (g u))
    (fun u hu _ ha => Op.montymul_ensures ha (hb u hu)) ha

/-! ### The centred representative -/

/-- **The centred representative** of a residue. -/
theorem toInt_centerSmall {w : UInt32} (hw : w.toNat < 12289) :
    (centerSmall w).toInt = if w.toNat < 6144 then (w.toNat : ℤ) else (w.toNat : ℤ) - 12289 := by
  have hhalf : (pqQ32 >>> 1).toNat = 6144 := rfl
  have hq : pqQ32.toNat = 12289 := rfl
  have hsub : (w - (pqQ32 >>> 1)).toNat = (2 ^ 32 - 6144 + w.toNat) % 2 ^ 32 := by
    rw [UInt32.toNat_sub, hhalf]
  have hshift : ((w - (pqQ32 >>> 1)) >>> 31).toNat = (w - (pqQ32 >>> 1)).toNat / 2 ^ 31 :=
    Words.UInt32.toNat_shiftRight_of_lt _ 31 (k := 31) rfl (by norm_num)
  rw [centerSmall, Words.UInt32.toInt_toInt32]
  by_cases hlt : w.toNat < 6144
  · have htop : (w - (pqQ32 >>> 1)) >>> 31 = 1 :=
      UInt32.toNat_inj.mp (by rw [hshift, hsub]; change _ = 1; omega)
    have hmask : pqQ32 &&& ~~~((0 : UInt32) - 1) = 0 := rfl
    have hzero : w - 0 = w := UInt32.sub_zero w
    rw [htop, hmask, hzero, if_pos hlt, if_pos (by omega)]
  · have htop : (w - (pqQ32 >>> 1)) >>> 31 = 0 :=
      UInt32.toNat_inj.mp (by rw [hshift, hsub]; change _ = 0; omega)
    have hmask : pqQ32 &&& ~~~((0 : UInt32) - 0) = pqQ32 := rfl
    have hval : (w - pqQ32).toNat = 2 ^ 32 - (12289 - w.toNat) := by
      rw [UInt32.toNat_sub, hq]
      omega
    rw [htop, hmask, if_neg hlt, hval, if_neg (by omega)]
    omega

/-- A small integer is the centred representative of its class. -/
theorem toInt_centerSmall_eq_iff (hx : Reduced x v) {z : ℤ} (hz : |z| ≤ 127) :
    (centerSmall x).toInt = z ↔ (z : ZMod pqQ) = v := by
  have hlt := hx.lt
  have hle := abs_le.mp hz
  have hcast : ((centerSmall x).toInt : ZMod pqQ) = v := by
    rw [toInt_centerSmall hlt, ← hx.cast]
    split
    · exact Int.cast_natCast _
    · have hq : ((12289 : ℤ) : ZMod pqQ) = 0 := ZMod.natCast_self pqQ
      rw [Int.cast_sub, hq, sub_zero, Int.cast_natCast]
  constructor
  · intro h
    rw [← h, hcast]
  · intro h
    have hval := toInt_centerSmall hlt
    refine intCast_injOn (p := pqQ) (hcast.trans h.symm) (abs_lt.mpr ?_)
    rw [hval]
    have hq : ((pqQ : ℕ) : ℤ) = 12289 := rfl
    rw [hq]
    split <;> constructor <;> omega

/-- **The last loop** keeps small representatives. -/
theorem storeCentered_eq_some_iff (ha : Rep a g) {G G' : SmallPoly} :
    storeCentered a G = some G' ↔
      (∀ u < 1024, |G'[u]!.toInt| ≤ 127) ∧ ∀ p < 1024, smallCoeff G' p = g p := by
  have hloop : storeCentered a G = some G' ↔
      ∀ u < 1024, (centerSmall (load a u)).toInt = G'[u]!.toInt ∧ |G'[u]!.toInt| ≤ 127 :=
    foldlM_toInt8_eq_some_iff le_rfl
  rw [hloop]
  constructor
  · intro h
    exact ⟨fun u hu => (h u hu).2, fun p hp =>
      (toInt_centerSmall_eq_iff (ha p hp) (h p hp).2).mp (h p hp).1⟩
  · rintro ⟨hle, heq⟩ u hu
    exact ⟨(toInt_centerSmall_eq_iff (ha u hu) (hle u hu)).mpr (heq u hu), hle u hu⟩

/-! ### The quotient -/

/-- The coefficients of `G`, modulo `q`: the scaled inverse transform of the quotient. -/
def completeCoeff (f g F : SmallPoly) (p : ℕ) : ZMod pqQ :=
  inverse twiddles (fun p => forward twiddles (smallCoeff g) 10 p *
    forward twiddles (smallCoeff F) 10 p * forward twiddles (smallCoeff f) 10 p ^ 12287) 10 p *
      ((2 ^ 10 : ℕ) : ZMod pqQ)⁻¹

theorem completeCoeff_eq (f g F : SmallPoly) : completeCoeff f g F = fun p =>
    inverse twiddles (fun p => forward twiddles (smallCoeff g) 10 p *
      forward twiddles (smallCoeff F) 10 p * forward twiddles (smallCoeff f) 10 p ^ 12287) 10 p *
        (2 ^ 10)⁻¹ := by
  funext p
  rw [completeCoeff, Nat.cast_pow, Nat.cast_ofNat]

/-- For an invertible `f`, the quotient solves the equation modulo `q`. -/
theorem completeCoeff_eq_iff {f g F : SmallPoly} (hf : IsUnit (smallElem f)) (c : ℕ → ZMod pqQ) :
    (∀ p < 1024, c p = completeCoeff f g F p) ↔
      smallElem f * coeffElem 10 c = smallElem g * smallElem F := by
  have hne := (isUnit_coeffElem_iff (T := twiddles) two_ne_zero_modq).mp hf
  have hquot : smallElem f * coeffElem 10 (completeCoeff f g F) = smallElem g * smallElem F := by
    rw [smallElem, smallElem, smallElem, coeffElem_mul_eq_mul_iff (T := twiddles)
      two_ne_zero_modq.isUnit]
    intro p hp
    have hpow : forward twiddles (smallCoeff f) 10 p ^ 12288 = 1 :=
      ZMod.pow_card_sub_one_eq_one (hne p hp)
    have hvalue := forward_scaled_inverse (T := twiddles) two_ne_zero_modq
      (fun p => forward twiddles (smallCoeff g) 10 p * forward twiddles (smallCoeff F) 10 p *
        forward twiddles (smallCoeff f) 10 p ^ 12287) hp
    calc forward twiddles (smallCoeff f) 10 p * forward twiddles (completeCoeff f g F) 10 p
        = forward twiddles (smallCoeff f) 10 p *
            (forward twiddles (smallCoeff g) 10 p * forward twiddles (smallCoeff F) 10 p *
              forward twiddles (smallCoeff f) 10 p ^ 12287) := by rw [completeCoeff_eq, hvalue]
      _ = forward twiddles (smallCoeff g) 10 p * forward twiddles (smallCoeff F) 10 p *
            forward twiddles (smallCoeff f) 10 p ^ 12288 := by ring
      _ = _ := by rw [hpow, mul_one]
  rw [← hquot]
  constructor
  · intro h
    exact congrArg _ (coeffElem_congr h)
  · intro h p hp
    exact coeffElem_inj (hf.mul_left_cancel h) hp

/-- **What the computation returns**, before the last loop. -/
theorem completePrivate_ensures (G f g F : SmallPoly) (t1 t2 : Poly16) :
    Ensures MqEvent.Safe (completePrivate G f g F t1 t2) fun out =>
      ∀ G', out = some G' ↔ (∀ p < 1024, forward twiddles (smallCoeff f) 10 p ≠ 0) ∧
        (∀ u < 1024, |G'[u]!.toInt| ≤ 127) ∧
          ∀ p < 1024, smallCoeff G' p = completeCoeff f g F p := by
  refine (convPair_ensures g F t1 t2).bind fun t ht => ?_
  obtain ⟨t1, t2⟩ := t
  obtain ⟨h1, h2⟩ := ht
  dsimp only at h1 h2 ⊢
  refine (mqNTT_ensures h1).bind fun t1 h1 => (mqNTT_ensures h2).bind fun t2 h2 => ?_
  refine (mqPolyTomonty_ensures h1).bind fun t1 h1 => ?_
  refine (mqPolyMontymulNtt_ensures h1 h2).bind fun t1 hprod => ?_
  have h1 : Rep t1 fun p =>
      forward twiddles (smallCoeff g) 10 p * forward twiddles (smallCoeff F) 10 p := by
    refine hprod.congr fun p _ => ?_
    have hR := pqR_ne_zero
    field_simp
  refine (convPoly_ensures f t2).bind fun t2 h2 => (mqNTT_ensures h2).bind fun t2 h2 => ?_
  have hstart : Rep t1 fun p => if p < 0
      then forward twiddles (smallCoeff g) 10 p * forward twiddles (smallCoeff F) 10 p *
        forward twiddles (smallCoeff f) 10 p ^ 12287
      else forward twiddles (smallCoeff g) 10 p * forward twiddles (smallCoeff F) 10 p := by
    simpa using h1
  rw [List.range_eq_range']
  refine Ensures.bind (divideLoop_ensures (n := 1024) (k := 0) h2 (by norm_num) hstart)
    fun out hout => ?_
  obtain ⟨hsome, hrep⟩ := hout
  have hsome' : out.isSome ↔ ∀ p < 1024, forward twiddles (smallCoeff f) 10 p ≠ 0 :=
    hsome.trans ⟨fun hne p hp => hne p (Nat.zero_le p) hp, fun hne p _ hp => hne p hp⟩
  cases out with
  | none =>
      refine Ensures.pure fun G' => iff_of_false (by simp) fun h => ?_
      exact Bool.false_ne_true (hsome'.mpr h.1)
  | some r =>
      have hne := hsome'.mp rfl
      refine (mqINTT_ensures (hrep r rfl)).bind fun t1 h1 => Ensures.pure fun G' => ?_
      rw [storeCentered_eq_some_iff h1, completeCoeff_eq]
      exact (and_iff_right (hsome'.mp rfl)).symm

/-- What the completion returns. -/
theorem completePrivate_eq_some_iff {G₀ f g F : SmallPoly} {t1 t2 : Poly16} {G : SmallPoly} :
    (completePrivate G₀ f g F t1 t2).val = some G ↔
      IsUnit (smallElem f) ∧ (∀ u < 1024, |G[u]!.toInt| ≤ 127) ∧
        smallElem f * smallElem G = smallElem g * smallElem F := by
  have hunit : IsUnit (smallElem f) ↔ ∀ p < 1024, forward twiddles (smallCoeff f) 10 p ≠ 0 :=
    isUnit_coeffElem_iff (T := twiddles) two_ne_zero_modq
  rw [(completePrivate_ensures G₀ f g F t1 t2).result G, ← hunit]
  refine and_congr_right fun hf => and_congr_right fun _ => ?_
  exact completeCoeff_eq_iff hf (smallCoeff G)

end FalconVanity
