import FalconVanity.Residues
import FalconVanity.Sampler

/-!
# The Public Key Polynomial

The public key of `f` and `g` is the quotient `g / f` in the ring of polynomials modulo `q`
and `X ^ 1024 + 1`. The device computes it by two transforms, a pointwise division by a
power, and an inverse transform, on arrays of residues.

## Main results

* `mqNTT_ensures`, `mqINTT_ensures`: the transforms, on arrays.
* `mqDiv12289_ensures`: the division.
* `devComputePublic_ring_quotient`: the computation returns the ring quotient, with every
  intermediate result in range.
-/

namespace FalconVanity

open Negacyclic Logged

/-! ### The device functions -/

/-- `mq_div_12289`: `x / y` through the power `y ^ (q - 2)`. -/
def mqDiv12289 (x y : UInt32) : Mq UInt32 := do
  let y0 ← Op.montymul y pqR2
  let y1 ← Op.montysqr y0
  let y2 ← Op.montymul y1 y0
  let y3 ← Op.montymul y2 y1
  let y4 ← Op.montysqr y3
  let y5 ← Op.montysqr y4
  let y6 ← Op.montysqr y5
  let y7 ← Op.montysqr y6
  let y8 ← Op.montysqr y7
  let y9 ← Op.montymul y8 y2
  let y10 ← Op.montymul y9 y8
  let y11 ← Op.montysqr y10
  let y12 ← Op.montysqr y11
  let y13 ← Op.montymul y12 y9
  let y14 ← Op.montysqr y13
  let y15 ← Op.montysqr y14
  let y16 ← Op.montymul y15 y10
  let y17 ← Op.montysqr y16
  let y18 ← Op.montymul y17 y0
  Op.montymul y18 x

/-- The body of the inner loop of `mq_NTT`. -/
def nttButterfly (s : UInt32) (ht : ℕ) (a : Poly16) (j : ℕ) : Mq Poly16 := do
  let u := load a j
  let v ← Op.montymul (load a (j + ht)) s
  let a ← Op.store a j (← Op.add u v)
  Op.store a (j + ht) (← Op.sub u v)

/-- The two inner loops of `mq_NTT`: block `i` starts at `j1 = i * t`. -/
def nttLayer (m t : ℕ) (a : Poly16) : Mq Poly16 :=
  (List.range m).foldlM (fun a i =>
    (List.range' (i * t) (t / 2)).foldlM (nttButterfly (pqGmb (m + i)) (t / 2)) a) a

/-- `mq_NTT`: in round `k` there are `m = 2 ^ k` blocks of length `t = 2 ^ (logn - k)`. -/
def mqNTT (a : Poly16) (logn : ℕ) : Mq Poly16 :=
  (List.range logn).foldlM (fun a k => nttLayer (2 ^ k) (2 ^ (logn - k)) a) a

/-- The body of the inner loop of `mq_iNTT`. -/
def inttButterfly (s : UInt32) (t : ℕ) (a : Poly16) (j : ℕ) : Mq Poly16 := do
  let u := load a j
  let v := load a (j + t)
  let a ← Op.store a j (← Op.add u v)
  let w ← Op.sub u v
  Op.store a (j + t) (← Op.montymul w s)

/-- The two inner loops of `mq_iNTT`: block `i` starts at `j1 = i * dt`. -/
def inttLayer (hm t : ℕ) (a : Poly16) : Mq Poly16 :=
  (List.range hm).foldlM (fun a i =>
    (List.range' (i * (2 * t)) t).foldlM (inttButterfly (pqIgmb (hm + i)) t) a) a

/-- `mq_iNTT`: in round `k`, `t = 2 ^ k` and `hm = 2 ^ (logn - k) / 2`. -/
def mqINTT (a : Poly16) (logn : ℕ) : Mq Poly16 := do
  let a ← (List.range logn).foldlM (fun a k => inttLayer (2 ^ (logn - k) / 2) (2 ^ k) a) a
  let ni ← (List.range logn).foldlM (fun ni _ => Op.rshift1 ni) (UInt32.ofNat pqR)
  (List.range (2 ^ logn)).foldlM
    (fun a mm => do Op.store a mm (← Op.montymul (load a mm) ni)) a

/-- The loop that converts small coefficients to residues, over the scratch array. -/
def convPoly (f : SmallPoly) (tt : Poly16) : Mq Poly16 :=
  (List.range 1024).foldlM (fun tt u => do Op.store tt u (← Op.convSmall f[u]!)) tt

/-- `dev_ntt_f_check`: the transform of `f`, and whether no entry of it is zero. -/
def devNttFCheck (f : SmallPoly) (tt : Poly16) : Mq (Bool × Poly16) := do
  let tt ← convPoly f tt
  let tt ← mqNTT tt 10
  return ((List.range 1024).all fun u => tt[u]! != 0, tt)

/-- `dev_pub_from_ntt_f`: the quotient of `g` by the transform of `f`, back in coefficients. -/
def devPubFromNttF (g : SmallPoly) (tt h : Poly16) : Mq Poly16 := do
  let h ← convPoly g h
  let h ← mqNTT h 10
  let h ← (List.range 1024).foldlM
    (fun h u => do Op.store h u (← mqDiv12289 (load h u) (load tt u))) h
  mqINTT h 10

/-- `dev_compute_public`: `none` for the return value 0. The arrays `h` and `tt` are scratch
space of the caller. -/
def devComputePublic (f g : SmallPoly) (h tt : Poly16) : Mq (Option Poly16) := do
  let (ok, tt) ← devNttFCheck f tt
  if ok then return some (← devPubFromNttF g tt h)
  else return none

/-! ### Arrays of residues -/

variable {x y : UInt32} {v w : ZMod pqQ}

/-- The first `k` entries of the array `a` are the residues of the values `g`. -/
def RepUpTo (k : ℕ) (a : Poly16) (g : ℕ → ZMod pqQ) : Prop :=
  ∀ p < k, Reduced (load a p) (g p)

/-- The array `a` holds the residues of the values `g`. -/
abbrev Rep (a : Poly16) (g : ℕ → ZMod pqQ) : Prop := RepUpTo 1024 a g

/-- Only the first 1024 residues matter. -/
theorem Rep.congr {a : Poly16} {g g' : ℕ → ZMod pqQ} (h : Rep a g)
    (hg : ∀ p < 1024, g p = g' p) : Rep a g' := fun p hp => hg p hp ▸ h p hp

/-- A word that is stored below `q` is read back, and the others are as they were. -/
theorem load_set {a : Poly16} {j p : ℕ} {r : UInt32} (hr : r.toNat < 12289) (hp : p < 1024) :
    load (a.set! j r.toUInt16) p = if p = j then r else load a p := by
  rw [load, Words.getElem!_set! _ hp]
  by_cases hj : j = p
  · rw [if_pos hj, if_pos hj.symm]
    apply UInt32.toNat_inj.mp
    rw [UInt16.toNat_toUInt32, UInt32.toNat_toUInt16]
    omega
  · rw [if_neg hj, if_neg (Ne.symm hj)]
    rfl

/-- A store replaces one entry. -/
theorem Op.store_ensures {a : Poly16} {r : UInt32} (hr : r.toNat < 12289) (j : ℕ) :
    Ensures MqEvent.Safe (Op.store a j r) fun a' =>
      ∀ p < 1024, load a' p = if p = j then r else load a p := by
  have hstored : (MqEvent.store r).Stored := by
    rw [MqEvent.Stored, UInt32.toNat_toUInt16]
    omega
  refine (Ensures.emit ⟨by simp [MqEvent.result], by simp [MqEvent.words], trivial,
    hstored⟩).bind fun _ _ => Ensures.pure fun p hp => load_set hr hp

/-- A store of the next entry. -/
theorem RepUpTo.store {a a' : Poly16} {g : ℕ → ZMod pqQ} {k : ℕ} {r : UInt32}
    (h : RepUpTo k a g) (hk : k < 1024)
    (hstore : ∀ p < 1024, load a' p = if p = k then r else load a p) (hr : Reduced r (g k)) :
    RepUpTo (k + 1) a' g := by
  intro p hp
  rw [hstore p (by omega)]
  by_cases hpk : p = k
  · rw [if_pos hpk, hpk]
    exact hr
  · rw [if_neg hpk]
    exact h p (by omega)

/-- **A loop over the entries** that replaces each entry by a result computed from it. -/
theorem forEach_ensures {body : Poly16 → ℕ → Mq UInt32} {P : ℕ → UInt32 → Prop}
    {g : ℕ → ZMod pqQ}
    (hbody : ∀ u < 1024, ∀ a, P u (load a u) →
      Ensures MqEvent.Safe (body a u) (Reduced · (g u)))
    {a : Poly16} (ha : ∀ u < 1024, P u (load a u)) :
    Ensures MqEvent.Safe
      ((List.range 1024).foldlM (fun a u => do Op.store a u (← body a u)) a) (Rep · g) := by
  have hrun := Ensures.foldlM (S := MqEvent.Safe)
    (f := fun a u => do Op.store a u (← body a u)) (l := List.range 1024) (b := a)
    (fun k a => RepUpTo k a g ∧ ∀ p, k ≤ p → p < 1024 → P p (load a p))
    ⟨fun p hp => absurd hp (Nat.not_lt_zero p), fun p _ hp => ha p hp⟩ ?_
  · rw [List.length_range] at hrun
    exact hrun.mono fun a h => h.1
  · rintro k hk a ⟨hdone, hleft⟩
    rw [List.length_range] at hk
    rw [List.getElem_range]
    refine (hbody k hk a (hleft k le_rfl hk)).bind fun r hr => ?_
    refine (Op.store_ensures hr.lt k).mono fun a' ha' => ⟨hdone.store hk ha' hr, ?_⟩
    intro p hkp hp
    rw [ha' p hp, if_neg (by omega)]
    exact hleft p (by omega) hp

/-- Two stores of a butterfly. -/
theorem Rep.set_pair {a a₁ a₂ : Poly16} {g b : ℕ → ZMod pqQ} {j j' : ℕ} {r r' : UInt32}
    (ha : Rep a g) (h₁ : ∀ p < 1024, load a₁ p = if p = j then r else load a p)
    (h₂ : ∀ p < 1024, load a₂ p = if p = j' then r' else load a₁ p)
    (hr : Reduced r (b j)) (hr' : Reduced r' (b j')) :
    Rep a₂ fun p => if p = j ∨ p = j' then b p else g p := by
  intro p hp
  beta_reduce
  rw [h₂ p hp]
  by_cases hj' : p = j'
  · rw [if_pos hj', if_pos (.inr hj'), hj']
    exact hr'
  · rw [if_neg hj', h₁ p hp]
    by_cases hj : p = j
    · rw [if_pos hj, if_pos (.inl hj), hj]
      exact hr
    · rw [if_neg hj, if_neg (by tauto)]
      exact ha p hp

/-- **A layer done in place.** When the body replaces each pair by its values in `b`, the two
loops of a layer replace the array by `b`. -/
theorem inPlace_ensures {body : ℕ → Poly16 → ℕ → Mq Poly16} {h m : ℕ} (hh : 0 < h)
    (hm : m * (2 * h) = 1024) {g b : ℕ → ZMod pqQ}
    (hbody : ∀ i < m, ∀ r < h, ∀ a p, Rep a p →
      p (i * (2 * h) + r) = g (i * (2 * h) + r) →
      p (i * (2 * h) + r + h) = g (i * (2 * h) + r + h) →
      Ensures MqEvent.Safe (body i a (i * (2 * h) + r)) (Rep · fun x =>
        if x = i * (2 * h) + r ∨ x = i * (2 * h) + r + h then b x else p x))
    {a : Poly16} (ha : Rep a g) :
    Ensures MqEvent.Safe ((List.range m).foldlM (fun a i =>
      (List.range' (i * (2 * h)) h).foldlM (body i) a) a) (Rep · b) := by
  have hrun := Ensures.foldlM (S := MqEvent.Safe)
    (f := fun a i => (List.range' (i * (2 * h)) h).foldlM (body i) a) (l := List.range m)
    (b := a) (fun i a => Rep a (progress h i 0 g b)) (by rwa [progress_zero]) ?_
  · refine hrun.mono fun a hdone => hdone.congr fun p hp => ?_
    rw [List.length_range]
    exact progress_done (by rwa [hm])
  · intro i hi a ha
    rw [List.length_range] at hi
    rw [List.getElem_range, ← progress_block hh]
    have hblock := Ensures.foldlM (S := MqEvent.Safe) (f := body i)
      (l := List.range' (i * (2 * h)) h) (b := a) (fun r a => Rep a (progress h i r g b)) ha ?_
    · rwa [List.length_range'] at hblock
    · intro r hr a ha
      rw [List.length_range'] at hr
      rw [List.getElem_range', Nat.one_mul]
      refine (hbody i hi r hr a _ ha (progress_next hr (.inl rfl))
        (progress_next hr (.inr rfl))).mono fun a' ha' => ?_
      exact ha'.congr fun p _ => (progress_succ hr p).symm

/-! ### The transforms -/

/-- **A butterfly** of the transform is safe, and leaves the sum and the difference in its two
places. -/
theorem nttButterfly_ensures {a : Poly16} {g b : ℕ → ZMod pqQ} {s : UInt32} {ζ : ZMod pqQ}
    {j ht : ℕ} (ha : Rep a g) (hs : Reduced s (ζ * (pqR : ℕ))) (hj : j + ht < 1024)
    (hleft : b j = g j + ζ * g (j + ht)) (hright : b (j + ht) = g j - ζ * g (j + ht)) :
    Ensures MqEvent.Safe (nttButterfly s ht a j) (Rep · fun x =>
      if x = j ∨ x = j + ht then b x else g x) := by
  have hu := ha j (by omega)
  have hscale : g (j + ht) * (ζ * (pqR : ℕ)) / (pqR : ℕ) = ζ * g (j + ht) := by
    have hR := pqR_ne_zero
    field_simp
  refine (Op.montymul_ensures (ha (j + ht) hj) hs).bind fun v hv => ?_
  rw [hscale] at hv
  refine (Op.add_ensures hu hv).bind fun r hr => ?_
  refine (Op.store_ensures hr.lt j).bind fun a₁ h₁ => ?_
  refine (Op.sub_ensures hu hv).bind fun r' hr' => ?_
  refine (Op.store_ensures hr'.lt (j + ht)).mono fun a₂ h₂ => ?_
  exact ha.set_pair h₁ h₂ (hleft ▸ hr) (hright ▸ hr')

/-- **A butterfly** of the inverse transform is safe, and leaves the sum and the difference times
the root. -/
theorem inttButterfly_ensures {a : Poly16} {g b : ℕ → ZMod pqQ} {s : UInt32} {ζ' : ZMod pqQ}
    {j t : ℕ} (ha : Rep a g) (hs : Reduced s (ζ' * (pqR : ℕ))) (hj : j + t < 1024)
    (hleft : b j = g j + g (j + t)) (hright : b (j + t) = (g j - g (j + t)) * ζ') :
    Ensures MqEvent.Safe (inttButterfly s t a j) (Rep · fun x =>
      if x = j ∨ x = j + t then b x else g x) := by
  have hu := ha j (by omega)
  have hv := ha (j + t) hj
  have hscale : (g j - g (j + t)) * (ζ' * (pqR : ℕ)) / (pqR : ℕ) = b (j + t) := by
    have hR := pqR_ne_zero
    rw [hright]
    field_simp
  refine (Op.add_ensures hu hv).bind fun r hr => ?_
  refine (Op.store_ensures hr.lt j).bind fun a₁ h₁ => ?_
  refine (Op.sub_ensures hu hv).bind fun w hw => ?_
  refine (Op.montymul_ensures hw hs).bind fun r' hr' => ?_
  rw [hscale] at hr'
  refine (Op.store_ensures hr'.lt (j + t)).mono fun a₂ h₂ => ?_
  exact ha.set_pair h₁ h₂ (hleft ▸ hr) hr'

/-- The table holds the roots in the Montgomery form. -/
theorem reduced_pqGmb (v : ℕ) : Reduced (pqGmb v) (twiddles.ζ v * (pqR : ℕ)) where
  lt := toNat_pqGmb v ▸ pqGmbTable_getD_lt v
  cast := cast_pqGmb v

/-- The table of the inverse transform holds the inverse roots in the Montgomery form. -/
theorem reduced_pqIgmb (v : ℕ) : Reduced (pqIgmb v) (twiddles.ζ' v * (pqR : ℕ)) where
  lt := toNat_pqIgmb v ▸ pqIgmbTable_getD_lt v
  cast := cast_pqIgmb v

/-- A position in the right half of a block. -/
theorem pair_lt {m h i r : ℕ} (hm : m * (2 * h) = 1024) (hi : i < m) (hr : r < h) :
    i * (2 * h) + r + h < 1024 := by
  have hblock : (i + 1) * (2 * h) ≤ m * (2 * h) := Nat.mul_le_mul_right _ hi
  rw [Nat.succ_mul] at hblock
  omega

/-- One layer of the transform, as the loop over all its butterflies. -/
theorem nttLayer_ensures {a : Poly16} {g : ℕ → ZMod pqQ} {m h : ℕ} (hh : 0 < h)
    (hm : m * (2 * h) = 1024) (ha : Rep a g) :
    Ensures MqEvent.Safe (nttLayer m (2 * h) a) (Rep · (layer twiddles.ζ m h g)) := by
  rw [nttLayer, Nat.mul_div_cancel_left h two_pos]
  refine inPlace_ensures hh hm (fun i hi r hr a p ha hl hr' => ?_) ha
  refine nttButterfly_ensures ha (reduced_pqGmb (m + i)) (pair_lt hm hi hr) ?_ ?_
  · rw [layer_left _ _ _ hr, hl, hr']
  · rw [layer_right _ _ _ hr, hl, hr']

/-- One layer of the inverse transform, as the loop over all its butterflies. -/
theorem inttLayer_ensures {a : Poly16} {g : ℕ → ZMod pqQ} {m h : ℕ} (hh : 0 < h)
    (hm : m * (2 * h) = 1024) (ha : Rep a g) :
    Ensures MqEvent.Safe (inttLayer m h a) (Rep · (invLayer twiddles.ζ' m h g)) := by
  refine inPlace_ensures hh hm (fun i hi r hr a p ha hl hr' => ?_) ha
  refine inttButterfly_ensures ha (reduced_pqIgmb (m + i)) (pair_lt hm hi hr) ?_ ?_
  · rw [invLayer_left _ _ _ hr, hl, hr']
  · rw [invLayer_right _ _ _ hr, hl, hr']

/-- **The transform** of an array of residues. -/
theorem mqNTT_ensures {a : Poly16} {g : ℕ → ZMod pqQ} (ha : Rep a g) :
    Ensures MqEvent.Safe (mqNTT a 10) (Rep · (forward twiddles g 10)) := by
  have hrun := Ensures.foldlM (S := MqEvent.Safe)
    (f := fun a k => nttLayer (2 ^ k) (2 ^ (10 - k)) a) (l := List.range 10) (b := a)
    (fun k a => Rep a (forward twiddles g k)) ha ?_
  · rwa [List.length_range] at hrun
  · intro k hk a ha
    rw [List.length_range] at hk
    obtain ⟨hprod, hdouble, -⟩ := pow_split hk
    rw [List.getElem_range, hdouble]
    exact nttLayer_ensures (Nat.two_pow_pos _) hprod ha

/-- The scale of the inverse transform: the radix, halved ten times. -/
theorem scale_ensures :
    Ensures MqEvent.Safe
      ((List.range 10).foldlM (fun ni _ => Op.rshift1 ni) (UInt32.ofNat pqR))
      (Reduced · ((pqR : ℕ) / 2 ^ 10)) := by
  have hrun := Ensures.foldlM (S := MqEvent.Safe) (f := fun ni _ => Op.rshift1 ni)
    (l := List.range 10) (b := UInt32.ofNat pqR)
    (fun k ni => Reduced ni ((pqR : ℕ) / 2 ^ k)) ?_ ?_
  · rwa [List.length_range] at hrun
  · rw [pow_zero, div_one]
    exact ⟨by decide, rfl⟩
  · intro k _ ni hni
    rw [pow_succ, ← div_div]
    exact Op.rshift1_ensures hni

/-- **The inverse transform** of an array of residues. -/
theorem mqINTT_ensures {a : Poly16} {g : ℕ → ZMod pqQ} (ha : Rep a g) :
    Ensures MqEvent.Safe (mqINTT a 10)
      (Rep · fun p => inverse twiddles g 10 p * (2 ^ 10)⁻¹) := by
  have hlayers : Ensures MqEvent.Safe
      ((List.range 10).foldlM (fun a k => inttLayer (2 ^ (10 - k) / 2) (2 ^ k) a) a)
      (Rep · (inverse twiddles g 10)) := by
    have hrun := Ensures.foldlM (S := MqEvent.Safe)
      (f := fun a k => inttLayer (2 ^ (10 - k) / 2) (2 ^ k) a) (l := List.range 10) (b := a)
      (fun k a => Rep a (inverse twiddles g k)) ha ?_
    · rwa [List.length_range] at hrun
    · intro k hk a ha
      rw [List.length_range] at hk
      have hhalf : 2 ^ (10 - k) / 2 = 2 ^ (10 - k - 1) := by
        rw [(pow_split hk).2.1, Nat.mul_div_cancel_left _ two_pos]
      have hexp : 10 - k - 1 + (k + 1) = 10 := by omega
      have hprod : 2 ^ (10 - k - 1) * (2 * 2 ^ k) = 1024 := by
        rw [← pow_succ', ← pow_add, hexp]
        norm_num
      rw [List.getElem_range, hhalf]
      exact inttLayer_ensures (Nat.two_pow_pos k) hprod ha
  refine hlayers.bind fun a ha => scale_ensures.bind fun ni hni => ?_
  refine forEach_ensures (P := fun u x => Reduced x (inverse twiddles g 10 u))
    (fun u hu a ha => (Op.montymul_ensures ha hni).mono fun r hr => ?_) ha
  have hR := pqR_ne_zero
  have hvalue : inverse twiddles g 10 u * ((pqR : ℕ) / 2 ^ 10) / (pqR : ℕ) =
      inverse twiddles g 10 u * (2 ^ 10)⁻¹ := by
    field_simp
  exact hvalue ▸ hr

/-! ### The division -/

/-- Powers in Montgomery form are multiplied by adding exponents. -/
theorem Op.montymul_pow {i j : ℕ} (hx : Reduced x ((pqR : ℕ) * w ^ i))
    (hy : Reduced y ((pqR : ℕ) * w ^ j)) :
    Ensures MqEvent.Safe (Op.montymul x y) (Reduced · ((pqR : ℕ) * w ^ (i + j))) := by
  refine (Op.montymul_ensures hx hy).mono fun r hr => ?_
  have hR := pqR_ne_zero
  have hpow : (pqR : ℕ) * w ^ i * ((pqR : ℕ) * w ^ j) / (pqR : ℕ) = (pqR : ℕ) * w ^ (i + j) := by
    field_simp
    ring
  exact hpow ▸ hr

/-- **The division** multiplies by the power `q - 2`: the exponents along the chain are
`1, 2, 3, 5, 10, 20, 40, 80, 160, 163, 323, 646, 1292, 1455, 2910, 5820, 6143, 12286, 12287`. -/
theorem mqDiv12289_ensures (hx : Reduced x v) (hy : Reduced y w) :
    Ensures MqEvent.Safe (mqDiv12289 x y) (Reduced · (v * w ^ 12287)) := by
  have hR := pqR_ne_zero
  have hR2 : Reduced pqR2 ((pqR : ℕ) * (pqR : ℕ)) := ⟨by decide, by decide +kernel⟩
  have hfirst : w * ((pqR : ℕ) * (pqR : ℕ)) / (pqR : ℕ) = (pqR : ℕ) * w ^ 1 := by
    field_simp
  refine (Op.montymul_ensures hy hR2).bind fun y0 h0 => ?_
  rw [hfirst] at h0
  refine (Op.montymul_pow h0 h0).bind fun y1 h1 => ?_
  refine (Op.montymul_pow h1 h0).bind fun y2 h2 => ?_
  refine (Op.montymul_pow h2 h1).bind fun y3 h3 => ?_
  refine (Op.montymul_pow h3 h3).bind fun y4 h4 => ?_
  refine (Op.montymul_pow h4 h4).bind fun y5 h5 => ?_
  refine (Op.montymul_pow h5 h5).bind fun y6 h6 => ?_
  refine (Op.montymul_pow h6 h6).bind fun y7 h7 => ?_
  refine (Op.montymul_pow h7 h7).bind fun y8 h8 => ?_
  refine (Op.montymul_pow h8 h2).bind fun y9 h9 => ?_
  refine (Op.montymul_pow h9 h8).bind fun y10 h10 => ?_
  refine (Op.montymul_pow h10 h10).bind fun y11 h11 => ?_
  refine (Op.montymul_pow h11 h11).bind fun y12 h12 => ?_
  refine (Op.montymul_pow h12 h9).bind fun y13 h13 => ?_
  refine (Op.montymul_pow h13 h13).bind fun y14 h14 => ?_
  refine (Op.montymul_pow h14 h14).bind fun y15 h15 => ?_
  refine (Op.montymul_pow h15 h10).bind fun y16 h16 => ?_
  refine (Op.montymul_pow h16 h16).bind fun y17 h17 => ?_
  refine (Op.montymul_pow h17 h0).bind fun y18 h18 => ?_
  refine (Op.montymul_ensures h18 hx).mono fun r hr => ?_
  have hlast : (pqR : ℕ) * w ^ 12287 * v / (pqR : ℕ) = v * w ^ 12287 := by
    field_simp
  exact hlast ▸ hr

/-! ### The ring quotient -/

/-- The ring of polynomials modulo `q` and `X ^ 1024 + 1`. -/
abbrev Rq := AdjoinRoot (modulus (ZMod pqQ) 10)

/-- The coefficients of a small polynomial, modulo `q`. -/
def smallCoeff (f : SmallPoly) (l : ℕ) : ZMod pqQ := (f[l]!.toInt : ZMod pqQ)

/-- A small polynomial as an element of the ring. -/
noncomputable def smallElem (f : SmallPoly) : Rq := coeffElem 10 (smallCoeff f)

/-- An array of words as an element of the ring. -/
noncomputable def wordElem (h : Poly16) : Rq := coeffElem 10 fun l => (h[l]!.toNat : ZMod pqQ)

/-- The conversion of small coefficients is safe, and leaves their residues. -/
theorem convPoly_ensures (f : SmallPoly) (tt : Poly16) :
    Ensures MqEvent.Safe (convPoly f tt) (Rep · (smallCoeff f)) :=
  forEach_ensures (P := fun _ _ => True) (fun u _ _ _ => Op.convSmall_ensures f[u]!)
    fun _ _ => trivial

/-- A word that stands for a residue is zero exactly when the residue is. -/
theorem Reduced.ne_zero_iff (h : Reduced x v) : x ≠ 0 ↔ v ≠ 0 := by
  have hlt := h.lt
  rw [Ne, Ne, not_iff_not, ← h.cast, ZMod.natCast_eq_zero_iff]
  constructor
  · rintro rfl
    exact dvd_zero _
  · intro hdvd
    exact UInt32.toNat_inj.mp (Nat.eq_zero_of_dvd_of_lt hdvd hlt)

/-- A word is compared with zero before it is widened or after it. -/
theorem load_ne_zero_iff {a : Poly16} {p : ℕ} : load a p ≠ 0 ↔ (a[p]! != 0) = true := by
  have hload : load a p = 0 ↔ a[p]! = 0 := by
    rw [load, ← UInt32.toNat_inj, ← UInt16.toNat_inj, UInt16.toNat_toUInt32]
    rfl
  rw [bne_iff_ne, Ne, Ne, hload]

/-- **The check** passes exactly when no evaluation of `f` is zero. -/
theorem devNttFCheck_ensures (f : SmallPoly) (tt : Poly16) :
    Ensures MqEvent.Safe (devNttFCheck f tt) fun r =>
      (r.1 = true ↔ ∀ p < 1024, forward twiddles (smallCoeff f) 10 p ≠ 0) ∧
        Rep r.2 (forward twiddles (smallCoeff f) 10) := by
  refine (convPoly_ensures f tt).bind fun a ha => ?_
  refine (mqNTT_ensures ha).bind fun a ha => Ensures.pure ⟨?_, ha⟩
  rw [List.all_eq_true]
  simp only [List.mem_range]
  exact forall₂_congr fun p hp => load_ne_zero_iff.symm.trans (ha p hp).ne_zero_iff

/-- The coefficients that the computation returns: the scaled inverse transform of the
transform of `g`, divided by that of `f`. -/
def quotientCoeff (f g : SmallPoly) (p : ℕ) : ZMod pqQ :=
  inverse twiddles (fun p => forward twiddles (smallCoeff g) 10 p *
    forward twiddles (smallCoeff f) 10 p ^ 12287) 10 p * (2 ^ 10)⁻¹

/-- The quotient, from the transform of `f`. -/
theorem devPubFromNttF_ensures (f g : SmallPoly) {tt : Poly16} (h : Poly16)
    (htt : Rep tt (forward twiddles (smallCoeff f) 10)) :
    Ensures MqEvent.Safe (devPubFromNttF g tt h) (Rep · (quotientCoeff f g)) := by
  refine (convPoly_ensures g h).bind fun a ha => ?_
  refine (mqNTT_ensures ha).bind fun a ha => ?_
  refine Ensures.bind (forEach_ensures
    (P := fun u x => Reduced x (forward twiddles (smallCoeff g) 10 u))
    (fun u hu a ha => mqDiv12289_ensures ha (htt u hu)) ha) fun a ha => ?_
  exact mqINTT_ensures ha

/-- The modulus of the ring. -/
theorem modulus_eq : modulus (ZMod pqQ) 10 = (Polynomial.X ^ 1024 + 1 : Polynomial (ZMod pqQ)) := by
  norm_num [modulus]

/-- Two is invertible modulo `q`. -/
theorem two_ne_zero_modq : (2 : ZMod pqQ) ≠ 0 := by decide

/-- An array that holds the scaled inverse transform of `g / f` is the quotient. -/
theorem wordElem_mul_smallElem {f g : SmallPoly} {r : Poly16}
    (hf : ∀ p < 1024, forward twiddles (smallCoeff f) 10 p ≠ 0)
    (hr : Rep r (quotientCoeff f g)) : wordElem r * smallElem f = smallElem g := by
  set F := forward twiddles (smallCoeff f) 10 with hF
  set G := forward twiddles (smallCoeff g) 10 with hG
  have hcoeff : wordElem r = coeffElem 10
      fun p => (2 ^ 10)⁻¹ * inverse twiddles (fun p => G p * F p ^ 12287) 10 p := by
    refine coeffElem_congr fun p hp => ?_
    rw [← UInt16.toNat_toUInt32, mul_comm]
    exact (hr p hp).cast
  rw [hcoeff, smallElem, smallElem,
    coeffElem_mul_eq_iff (T := twiddles) two_ne_zero_modq.isUnit]
  intro p hp
  have hpow : F p ^ 12288 = 1 := ZMod.pow_card_sub_one_eq_one (hf p hp)
  have h2 : (2 ^ 10 : ZMod pqQ) ≠ 0 := pow_ne_zero 10 two_ne_zero_modq
  rw [forward_smul, forward_inverse hp, ← hF, ← hG]
  calc (2 ^ 10)⁻¹ * (2 ^ 10 * (G p * F p ^ 12287)) * F p = G p * F p ^ 12288 := by
        rw [← mul_assoc, inv_mul_cancel₀ h2, one_mul, mul_assoc, ← pow_succ]
    _ = G p := by rw [hpow, mul_one]

/-- The outcome of a computation of the public key polynomial: it fails exactly when an
evaluation of `f` is zero, and otherwise returns the quotient. -/
structure IsPublicOf (f g : SmallPoly) (out : Option Poly16) : Prop where
  isSome_iff : out.isSome ↔ ∀ p < 1024, forward twiddles (smallCoeff f) 10 p ≠ 0
  rep : ∀ r, out = some r → Rep r (quotientCoeff f g)

/-- **The public key of the device** is safe to compute, and is the quotient `g / f` whenever there
is one. -/
theorem devComputePublic_ensures (f g : SmallPoly) (h tt : Poly16) :
    Ensures MqEvent.Safe (devComputePublic f g h tt) (IsPublicOf f g) := by
  refine (devNttFCheck_ensures f tt).bind fun ⟨ok, a⟩ ⟨hok, ha⟩ => ?_
  cases ok with
  | true =>
      refine (devPubFromNttF_ensures f g h ha).bind fun r hr => Ensures.pure ?_
      refine ⟨iff_of_true rfl (hok.mp rfl), ?_⟩
      rintro r' ⟨⟩
      exact hr
  | false =>
      refine Ensures.pure ⟨iff_of_false Bool.false_ne_true fun hne => ?_, by simp⟩
      exact Bool.false_ne_true (hok.mpr hne)

/-- **The public key polynomial.** A key is returned exactly for the invertible `f`; its
coefficients are residues and it is the quotient of `g` by `f`. Whatever the scratch arrays
hold, every intermediate result is below `q`, no sum or product of which more than the low
half is used wraps, and no store truncates. -/
theorem devComputePublic_ring_quotient (f g : SmallPoly) (h tt : Poly16) :
    ((devComputePublic f g h tt).val.isSome ↔ IsUnit (smallElem f)) ∧
    (∀ r, (devComputePublic f g h tt).val = some r →
      (∀ i < 1024, r[i]!.toNat < 12289) ∧ wordElem r * smallElem f = smallElem g) ∧
    ∀ e ∈ (devComputePublic f g h tt).log, e.Safe := by
  have hrun := devComputePublic_ensures f g h tt
  refine ⟨?_, fun r hr => ⟨fun i hi => ?_, ?_⟩, hrun.events⟩
  · rw [smallElem, isUnit_coeffElem_iff (T := twiddles) two_ne_zero_modq]
    exact hrun.result.isSome_iff
  · rw [← UInt16.toNat_toUInt32]
    exact (hrun.result.rep r hr i hi).lt
  · have hsome : (devComputePublic f g h tt).val.isSome := by rw [hr]; rfl
    exact wordElem_mul_smallElem (hrun.result.isSome_iff.mp hsome) (hrun.result.rep r hr)

/-- The first product of a transform. -/
theorem montymul_mem_mqNTT (a : Poly16) :
    MqEvent.montymul (load a 512) (pqGmb 1) ∈ (mqNTT a 10).log := by
  have hlayers : List.range 10 = 0 :: List.range' 1 9 := rfl
  have hblock : List.range (2 ^ 0) = [0] := rfl
  have hpairs : List.range' (0 * 2 ^ (10 - 0)) (2 ^ (10 - 0) / 2) = 0 :: List.range' 1 511 := by
    have hhalf : 2 ^ (10 - 0) / 2 = 511 + 1 := rfl
    rw [hhalf, List.range'_succ, Nat.zero_mul]
  rw [mqNTT, hlayers]
  refine mem_log_foldlM_cons ?_
  rw [nttLayer, hblock]
  refine mem_log_foldlM_cons ?_
  rw [hpairs]
  refine mem_log_foldlM_cons (mem_log_bind_left _ (mem_log_bind_left _ ?_))
  exact List.mem_singleton_self _

/-- The polynomial `-X ^ 512`. -/
def negMonomial : SmallPoly := (Vector.replicate 1024 0).set 512 (-1)

/-- The product by the negated inverse, of which the low half is used, does wrap: the first
butterfly for `-X ^ 512` multiplies `12288` by `7888`, and the product by `12287`. -/
theorem devComputePublic_wraps :
    ¬ ∀ e ∈ (devComputePublic negMonomial negMonomial (Vector.replicate 1024 0)
        (Vector.replicate 1024 0)).log,
      ∀ z ∈ e.words ++ e.maskedWords, z < 2 ^ 32 := by
  intro hall
  have hconv := (convPoly_ensures negMonomial (Vector.replicate 1024 0)).result 512 (by norm_num)
  have hmem := montymul_mem_mqNTT (convPoly negMonomial (Vector.replicate 1024 0)).val
  have hlast : (load (convPoly negMonomial (Vector.replicate 1024 0)).val 512).toNat = 12288 := by
    have hcoeff : smallCoeff negMonomial 512 = -1 := by
      simp [smallCoeff, negMonomial]
    have hlt := hconv.lt
    have hcast := hconv.cast
    rw [hcoeff, eq_neg_iff_add_eq_zero, ← Nat.cast_one, ← Nat.cast_add,
      ZMod.natCast_eq_zero_iff] at hcast
    obtain ⟨c, hc⟩ : 12289 ∣ _ := hcast
    omega
  have hz := hall _ (mem_log_bind_left _ (mem_log_bind_right (mem_log_bind_left _ hmem)))
    ((load (convPoly negMonomial (Vector.replicate 1024 0)).val 512).toNat *
      (pqGmb 1).toNat * 12287) (by simp [MqEvent.maskedWords])
  have htable : pqGmbTable.getD 1 0 = 7888 := rfl
  rw [hlast, toNat_pqGmb, htable] at hz
  norm_num at hz

/-! ### The reference -/

/-- The first loop of `compute_public`. -/
def convPair (f g : SmallPoly) (tt h : Poly16) : Mq (Poly16 × Poly16) :=
  (List.range 1024).foldlM (fun (tt, h) u => do
    let tt ← Op.store tt u (← Op.convSmall f[u]!)
    let h ← Op.store h u (← Op.convSmall g[u]!)
    return (tt, h)) (tt, h)

/-- The division loop of `compute_public`, which stops at the first zero. -/
def divideLoop (tt : Poly16) : List ℕ → Poly16 → Mq (Option Poly16)
  | [], h => return some h
  | u :: us, h => do
    if tt[u]! = 0 then return none
    else
      let h ← Op.store h u (← mqDiv12289 (load h u) (load tt u))
      divideLoop tt us h

/-- `compute_public`: `none` for the return value 0. -/
def computePublic (f g : SmallPoly) (h tt : Poly16) : Mq (Option Poly16) := do
  let (tt, h) ← convPair f g tt h
  let h ← mqNTT h 10
  let tt ← mqNTT tt 10
  match ← divideLoop tt (List.range 1024) h with
  | none => return none
  | some h => return some (← mqINTT h 10)

/-- Both polynomials are converted in one loop. -/
theorem convPair_ensures (f g : SmallPoly) (tt h : Poly16) :
    Ensures MqEvent.Safe (convPair f g tt h) fun out =>
      Rep out.1 (smallCoeff f) ∧ Rep out.2 (smallCoeff g) := by
  have hrun := Ensures.foldlM (S := MqEvent.Safe) (l := List.range 1024) (b := (tt, h))
    (f := fun (tt, h) u => do
      let tt ← Op.store tt u (← Op.convSmall f[u]!)
      let h ← Op.store h u (← Op.convSmall g[u]!)
      return (tt, h))
    (fun k out => RepUpTo k out.1 (smallCoeff f) ∧ RepUpTo k out.2 (smallCoeff g))
    ⟨fun p hp => absurd hp (Nat.not_lt_zero p), fun p hp => absurd hp (Nat.not_lt_zero p)⟩ ?_
  · rwa [List.length_range] at hrun
  · rintro k hk ⟨tt, h⟩ ⟨htt, hh⟩
    rw [List.length_range] at hk
    rw [List.getElem_range]
    refine (Op.convSmall_ensures f[k]!).bind fun r hr => ?_
    refine (Op.store_ensures hr.lt k).bind fun tt' htt' => ?_
    refine (Op.convSmall_ensures g[k]!).bind fun r' hr' => ?_
    refine (Op.store_ensures hr'.lt k).bind fun h' hh' => Ensures.pure ?_
    exact ⟨htt.store hk htt' hr, hh.store hk hh' hr'⟩

/-- The loop that divides stops at the first value of `f` that is zero. Until there, it has
multiplied by the inverses. -/
theorem divideLoop_ensures {tt : Poly16} {F G : ℕ → ZMod pqQ} (htt : Rep tt F) {n k : ℕ}
    (hkn : k + n = 1024) {h : Poly16}
    (hh : Rep h fun p => if p < k then G p * F p ^ 12287 else G p) :
    Ensures MqEvent.Safe (divideLoop tt (List.range' k n) h) fun out =>
      (out.isSome ↔ ∀ p, k ≤ p → p < 1024 → F p ≠ 0) ∧
        ∀ r, out = some r → Rep r fun p => G p * F p ^ 12287 := by
  induction n generalizing k h with
  | zero =>
      refine Ensures.pure ⟨iff_of_true rfl fun p hkp hp => absurd hp (by omega), ?_⟩
      rintro r ⟨⟩
      exact hh.congr fun p hp => if_pos (by omega)
  | succ n ih =>
      have hk : k < 1024 := by omega
      have hzero : F k ≠ 0 ↔ tt[k]! ≠ 0 := by
        rw [← (htt k hk).ne_zero_iff, load_ne_zero_iff, bne_iff_ne]
      rw [List.range'_succ, divideLoop]
      by_cases hF : F k = 0
      · have htt0 : tt[k]! = 0 := not_not.mp (mt hzero.mpr (not_not.mpr hF))
        rw [if_pos htt0]
        refine Ensures.pure ⟨iff_of_false Bool.false_ne_true fun hne => ?_, by simp⟩
        exact hne k le_rfl hk hF
      · rw [if_neg (hzero.mp hF)]
        have hk' := hh k hk
        beta_reduce at hk'
        rw [if_neg (lt_irrefl k)] at hk'
        refine (mqDiv12289_ensures hk' (htt k hk)).bind fun r hr => ?_
        refine (Op.store_ensures hr.lt k).bind fun h' hh' => ?_
        have hnext : Rep h' fun p => if p < k + 1 then G p * F p ^ 12287 else G p := by
          intro p hp
          beta_reduce
          rw [hh' p hp]
          by_cases hpk : p = k
          · rw [if_pos hpk, if_pos (by omega), hpk]
            exact hr
          · have hlt : p < k + 1 ↔ p < k := by omega
            rw [if_neg hpk, if_congr hlt rfl rfl]
            exact hh p hp
        refine (ih (by omega) hnext).mono fun out ⟨hsome, hrep⟩ => ⟨hsome.trans ?_, hrep⟩
        constructor
        · intro hne p hkp hp
          rcases Nat.eq_or_lt_of_le hkp with rfl | hlt
          · exact hF
          · exact hne p hlt hp
        · exact fun hne p hkp hp => hne p (by omega) hp

/-- **The public key of the reference** is safe to compute, and is the quotient `g / f` whenever
there is one. -/
theorem computePublic_ensures (f g : SmallPoly) (h tt : Poly16) :
    Ensures MqEvent.Safe (computePublic f g h tt) (IsPublicOf f g) := by
  refine (convPair_ensures f g tt h).bind fun ⟨tt, h⟩ ⟨htt, hh⟩ => ?_
  dsimp only at htt hh ⊢
  refine (mqNTT_ensures hh).bind fun h hh => ?_
  refine (mqNTT_ensures htt).bind fun tt htt => ?_
  have hstart : Rep h fun p => if p < 0 then forward twiddles (smallCoeff g) 10 p *
      forward twiddles (smallCoeff f) 10 p ^ 12287 else forward twiddles (smallCoeff g) 10 p := by
    simpa using hh
  rw [List.range_eq_range']
  refine Ensures.bind (divideLoop_ensures (n := 1024) (k := 0) htt (by norm_num) hstart)
    fun out ⟨hsome, hrep⟩ => ?_
  have hsome' : out.isSome ↔ ∀ p < 1024, forward twiddles (smallCoeff f) 10 p ≠ 0 :=
    hsome.trans ⟨fun hne p hp => hne p (Nat.zero_le p) hp, fun hne p _ hp => hne p hp⟩
  cases out with
  | none => exact Ensures.pure ⟨hsome', by simp⟩
  | some r =>
      refine (mqINTT_ensures (hrep r rfl)).bind fun r' hr' => Ensures.pure ⟨?_, ?_⟩
      · exact iff_of_true rfl (hsome'.mp rfl)
      · rintro r'' ⟨⟩
        exact hr'

/-- An array of residues is determined by the values. -/
theorem Rep.unique {a b : Poly16} {g : ℕ → ZMod pqQ} (ha : Rep a g) (hb : Rep b g) : a = b := by
  refine Vector.ext fun p hp => ?_
  have hcast := (ha p hp).cast.trans (hb p hp).cast.symm
  have heq : (load a p).toNat = (load b p).toNat := by
    rw [ZMod.natCast_eq_natCast_iff', Nat.mod_eq_of_lt (ha p hp).lt,
      Nat.mod_eq_of_lt (hb p hp).lt] at hcast
    exact hcast
  rw [load, load, UInt16.toNat_toUInt32, UInt16.toNat_toUInt32, UInt16.toNat_inj] at heq
  simpa [hp] using heq

/-- The key of a pair of polynomials is determined by them, with its absence. -/
theorem IsPublicOf.unique {f g : SmallPoly} {out out' : Option Poly16}
    (h : IsPublicOf f g out) (h' : IsPublicOf f g out') : out = out' := by
  have hsome := h.isSome_iff.trans h'.isSome_iff.symm
  cases out with
  | none =>
      cases out' with
      | none => rfl
      | some r' => exact absurd (hsome.mpr rfl) Bool.false_ne_true
  | some r =>
      cases out' with
      | none => exact absurd (hsome.mp rfl) Bool.false_ne_true
      | some r' => rw [(h.rep r rfl).unique (h'.rep r' rfl)]

/-- **The device computes the public key of the reference**, whatever the scratch arrays
hold. -/
theorem devComputePublic_eq_computePublic (f g : SmallPoly) (h tt h' tt' : Poly16) :
    (devComputePublic f g h tt).val = (computePublic f g h' tt').val :=
  (devComputePublic_ensures f g h tt).result.unique (computePublic_ensures f g h' tt').result

end FalconVanity
