import FalconVanity.FieldElement
import FalconVanity.Foundation.Carry

/-!
# Products of Field Elements

The vendored multiplication adds the hundred products of limbs in 64 bits, ten for each limb of
the result: a product of two odd limbs is doubled, because their exponents were rounded up twice,
and one that leaves the ten limbs comes back nineteenfold. Squares use each product of two
different limbs once. Twelve carries then make the limbs small again, so that the result may be
added to another one and multiplied again. The inverse is a power, by a fixed chain of products.

Nothing overflows within the bounds of the source: every product, every sum on the way and every
carry is the exact one. The bounds after each carry are computed.

## Main results

* `feCarry_represents`: the carries.
* `feMul_represents`, `feSq_represents`, `feSq2_represents`: the products.
* `feInvert_represents`: the inverse.
* `mulFits`, `sqFits`, `sq2Fits`, `ChainOf.fits`: nothing overflows.
-/

namespace FalconVanity

open Field25519 Finset

/-! ### The functions of the reference -/

/-- The product of two limbs, in 64 bits. -/
def wide (x y : Int32) : Int64 := x.toInt64 * y.toInt64

/-- The first factor in `fe_mul`: `f1_2` and its siblings, for two odd limbs. -/
def mulLeft (f : Fe) (i j : ℕ) : Int32 := if i % 2 = 1 ∧ j % 2 = 1 then 2 * f[i]! else f[i]!

/-- The second factor in `fe_mul`: `g1_19` and its siblings, for products that come back. -/
def mulRight (g : Fe) (i j : ℕ) : Int32 := if 10 ≤ i + j then 19 * g[j]! else g[j]!

/-- The sum `h0` in `fe_mul`, or one of its siblings: the products of the limbs `i` and `j` with
`i + j = k` modulo 10. -/
def mulLimb (f g : Fe) (k : ℕ) : Int64 :=
  (List.range 10).foldl (fun h i =>
    let j := (10 + k - i) % 10
    h + wide (mulLeft f i j) (mulRight g i j)) 0

/-- The first factor in `fe_sq`, for `i ≤ j`. -/
def sqLeft (f : Fe) (i j : ℕ) : Int32 :=
  if i = j then if i + j < 10 ∧ i % 2 = 1 then 2 * f[i]! else f[i]!
  else if 10 ≤ i + j ∧ i % 2 = 0 ∧ j % 2 = 1 then f[i]!
  else 2 * f[i]!

/-- The second factor in `fe_sq`, for `i ≤ j`. -/
def sqRight (f : Fe) (i j : ℕ) : Int32 :=
  if 10 ≤ i + j then if j % 2 = 1 then 38 * f[j]! else 19 * f[j]!
  else if i ≠ j ∧ i % 2 = 1 ∧ j % 2 = 1 then 2 * f[j]!
  else f[j]!

/-- The sum `h0` in `fe_sq`, or one of its siblings. -/
def sqLimb (f : Fe) (k : ℕ) : Int64 :=
  (List.range 10).foldl (fun h i =>
    let j := (10 + k - i) % 10
    if i ≤ j then h + wide (sqLeft f i j) (sqRight f i j) else h) 0

/-- The bits of a limb. -/
def limbBits (i : ℕ) : Int64 := if i % 2 = 0 then 26 else 25

/-- The value `carry0`, or one of its siblings. -/
def carryOut (h : Vector Int64 10) (i : ℕ) : Int64 :=
  (h[i]! + if i % 2 = 0 then (1 : Int64) <<< 25 else (1 : Int64) <<< 24) >>> limbBits i

/-- One carry, from `h0` or from one of its siblings. -/
def carryStep (h : Vector Int64 10) (i : ℕ) : Vector Int64 10 :=
  let carry := carryOut h i
  let h := if i = 9 then h.set! 0 (h[0]! + carry * 19) else h.set! (i + 1) (h[i + 1]! + carry)
  h.set! i (h[i]! - carry <<< limbBits i)

/-- The order of the carries. -/
def carryOrder : List ℕ := [0, 4, 1, 5, 2, 6, 3, 7, 4, 8, 9, 0]

/-- The end of `fe_mul`, `fe_sq` and `fe_sq2`. -/
def feCarry (h : Vector Int64 10) : Fe := (carryOrder.foldl carryStep h).map Int64.toInt32

/-- `fe_mul`: the product: sums of products of limbs, and carries. -/
def feMul (f g : Fe) : Fe := feCarry (Vector.ofFn fun k => mulLimb f g k)

/-- `fe_sq`: the square, with each pair of different limbs multiplied once. -/
def feSq (f : Fe) : Fe := feCarry (Vector.ofFn fun k => sqLimb f k)

/-- `fe_sq2`: twice the square, doubled before the carries. -/
def feSq2 (f : Fe) : Fe := feCarry (Vector.ofFn fun k => sqLimb f k + sqLimb f k)

/-- A call of `fe_sq` and the loop after it: `n` squares in all. -/
def feSqTimes : ℕ → Fe → Fe
  | 0, f => f
  | n + 1, f => feSqTimes n (feSq f)

/-- `fe_invert`: the power with exponent `q - 2`, by a chain of squares and products. -/
def feInvert (z : Fe) : Fe :=
  let t0 := feSqTimes 1 z
  let t1 := feSqTimes 2 t0
  let t1 := feMul z t1
  let t0 := feMul t0 t1
  let t2 := feSqTimes 1 t0
  let t1 := feMul t1 t2
  let t2 := feSqTimes 5 t1
  let t1 := feMul t2 t1
  let t2 := feSqTimes 10 t1
  let t2 := feMul t2 t1
  let t3 := feSqTimes 20 t2
  let t2 := feMul t3 t2
  let t2 := feSqTimes 10 t2
  let t1 := feMul t2 t1
  let t2 := feSqTimes 50 t1
  let t2 := feMul t2 t1
  let t3 := feSqTimes 100 t2
  let t2 := feMul t3 t2
  let t2 := feSqTimes 50 t2
  let t1 := feMul t2 t1
  let t1 := feSqTimes 5 t1
  feMul t1 t0

/-! ### Carries -/

/-- The radix of the limbs, with carries to the nearest number. -/
def limbRadix : Carry.Radix where
  limbs := 10
  bits i := 26 - i % 2
  offset i := 2 ^ (25 - i % 2)
  fold := 19

/-- The limbs as integers. -/
def limbs64 (h : Vector Int64 10) (k : ℕ) : ℤ := h[k]!.toInt

/-- **The weights of the limbs**: what leaves the last one comes back nineteenfold. -/
theorem limbRadix_weighs {i : ℕ} (hi : i < 10) :
    limbRadix.Weighs (fun i => (2 : ZMod q) ^ limbShift i) i := by
  have hq : (2 : ZMod q) ^ 255 = 19 := by reduce_mod_char
  obtain h9 | h9 : i = 9 ∨ i < 9 := by omega
  · subst h9
    change ((19 : ℕ) : ZMod q) * 2 ^ 0 = ((2 ^ 25 : ℕ) : ZMod q) * 2 ^ 230
    rw [Nat.cast_pow, Nat.cast_ofNat, Nat.cast_ofNat, ← pow_add, hq, pow_zero, mul_one]
  · have hfactor : limbRadix.factor i = 1 := if_neg (by change ¬ i + 1 = 10; omega)
    have hnext : limbRadix.next i = i + 1 := if_neg (by change ¬ i + 1 = 10; omega)
    have hshift : limbShift (i + 1) = limbRadix.bits i + limbShift i := by
      change (51 * (i + 1) + 1) / 2 = 26 - i % 2 + (51 * i + 1) / 2
      obtain ⟨k, rfl | rfl⟩ := i.even_or_odd' <;> omega
    rw [Carry.Radix.Weighs, hfactor, hnext, hshift, pow_add, Nat.cast_one, one_mul, Nat.cast_pow,
      Nat.cast_ofNat]

/-- The bounds before the first carry, of the sum of twenty products. -/
def productBound : ℕ := 2 * (10 * (19 * 330 ^ 2 * 2 ^ 50 / 10000 + 1))

section Carries

variable {h : Vector Int64 10} {b : ℕ → ℕ} {i : ℕ}

/-- What is added to a limb before its carry is less than the radix of the limb. -/
theorem limbRadix_offset_lt (i : ℕ) : limbRadix.offset i < 2 ^ limbRadix.bits i := by
  change 2 ^ (25 - i % 2) < 2 ^ (26 - i % 2)
  exact Nat.pow_lt_pow_right (by norm_num) (by omega)

/-- The shift by the bits of a limb, as the machine takes its amount. -/
theorem smod_limbBits (i : ℕ) :
    ((limbBits i).toBitVec.smod 64).toNat = limbRadix.bits i := by
  change _ = 26 - i % 2
  rw [limbBits]
  rcases Nat.mod_two_eq_zero_or_one i with h2 | h2
  · rw [if_pos h2, h2]
    decide
  · rw [if_neg (by omega), h2]
    decide

/-- The word that is added before a carry is rounded. -/
def roundWord (i : ℕ) : Int64 := if i % 2 = 0 then (1 : Int64) <<< 25 else (1 : Int64) <<< 24

/-- The word that is added before a carry, as an integer. -/
theorem toInt_roundWord (i : ℕ) : (roundWord i).toInt = limbRadix.offset i := by
  change _ = ((2 ^ (25 - i % 2) : ℕ) : ℤ)
  rw [roundWord]
  rcases Nat.mod_two_eq_zero_or_one i with h2 | h2
  · rw [if_pos h2, h2]
    decide
  · rw [if_neg (by omega), h2]
    decide

/-- The results of a carry from the limb `i`, as long as they are the exact ones. Each field is one
operation on 64-bit words, and says that it does not wrap. -/
structure CarryFits (h : Vector Int64 10) (i : ℕ) : Prop where
  round : (h[i]! + roundWord i).toInt = h[i]!.toInt + (roundWord i).toInt
  quotient : (carryOut h i).toInt = limbRadix.carry (limbs64 h) i
  scale : (carryOut h i * 19).toInt = (carryOut h i).toInt * 19
  add : (h[limbRadix.next i]! + if i = 9 then carryOut h i * 19 else carryOut h i).toInt =
    h[limbRadix.next i]!.toInt + limbRadix.factor i * (carryOut h i).toInt
  back : (carryOut h i <<< limbBits i).toInt = (carryOut h i).toInt * 2 ^ limbRadix.bits i
  sub : (h[i]! - carryOut h i <<< limbBits i).toInt =
    h[i]!.toInt - (carryOut h i).toInt * 2 ^ limbRadix.bits i

/-- The carry out of the last limb wraps around with the factor 19, the others with one. -/
theorem limbRadix_factor (i : ℕ) : limbRadix.factor i = if i = 9 then 19 else 1 :=
  if_congr (by change i + 1 = 10 ↔ i = 9; omega) rfl rfl

/-- **A carry does not overflow**, with enough room. -/
theorem carryFits (hb : limbRadix.Bounded b (limbs64 h)) (hroom : limbRadix.RoomAt (2 ^ 63) b i)
    (hi : i < 10) : CarryFits h i := by
  have hz : -(b i : ℤ) ≤ h[i]!.toInt ∧ h[i]!.toInt ≤ b i := abs_le.mp (hb i hi)
  have hroom' := (hroom i hi).1
  have hoff := limbRadix_offset_lt i
  have hnext := Carry.Radix.next_lt (R := limbRadix) (by decide) hi
  have hround : (h[i]! + roundWord i).toInt = h[i]!.toInt + (roundWord i).toInt := by
    rw [Int64.toInt_add, toInt_roundWord]
    exact Int.bmod_eq_of_le (by omega) (by omega)
  have hcarry : (carryOut h i).toInt = limbRadix.carry (limbs64 h) i := by
    rw [carryOut, Words.Int64.toInt_shiftRight _ (smod_limbBits i)]
    change (h[i]! + roundWord i).toInt / _ = _
    rw [hround, toInt_roundWord]
    rfl
  -- What is left in the limb is between the two ends of the offset.
  have hself := Carry.Radix.step_self (R := limbRadix) (limbs64 h) i
  rw [Carry.Radix.step, if_pos rfl, ← hcarry] at hself
  change _ ≤ h[i]!.toInt - _ ∧ h[i]!.toInt - _ < _ at hself
  have hpow : (2 : ℤ) ^ limbRadix.bits i = ((2 ^ limbRadix.bits i : ℕ) : ℤ) := by push_cast; rfl
  rw [hpow] at hself
  have hback : (carryOut h i <<< limbBits i).toInt =
      (carryOut h i).toInt * 2 ^ limbRadix.bits i := by
    rw [Words.Int64.toInt_shiftLeft _ (smod_limbBits i), hpow]
    exact Int.bmod_eq_of_le (by omega) (by omega)
  have hsub : (h[i]! - carryOut h i <<< limbBits i).toInt =
      h[i]!.toInt - (carryOut h i).toInt * 2 ^ limbRadix.bits i := by
    rw [Int64.toInt_sub, hback, hpow]
    exact Int.bmod_eq_of_le (by omega) (by omega)
  -- The carry is shorter than the limb by more than the factor.
  have hsmall : |(carryOut h i).toInt| ≤ 2 ^ 40 := by
    have hle := Carry.Radix.abs_carry_le (limbRadix_offset_lt i) (hb i hi)
    have hbits : 25 ≤ limbRadix.bits i := by change 25 ≤ 26 - i % 2; omega
    have hdiv : (b i + 2 ^ limbRadix.bits i - 1) / 2 ^ limbRadix.bits i ≤ 2 ^ 63 / 2 ^ 25 :=
      Nat.div_le_div (by omega) (Nat.pow_le_pow_right two_pos hbits) (by norm_num)
    rw [hcarry]
    exact hle.trans (by exact_mod_cast hdiv.trans (by norm_num))
  obtain ⟨hlo, hhi⟩ := abs_le.mp hsmall
  have hscale : (carryOut h i * 19).toInt = (carryOut h i).toInt * 19 := by
    have h19 : (19 : Int64).toInt = 19 := by decide
    rw [Int64.toInt_mul, h19]
    exact Int.bmod_eq_of_le (by omega) (by omega)
  refine ⟨hround, hcarry, hscale, ?_, hback, hsub⟩
  have hword : (if i = 9 then carryOut h i * 19 else carryOut h i).toInt =
      limbRadix.factor i * (carryOut h i).toInt := by
    rw [limbRadix_factor]
    split
    · rw [hscale, mul_comm]
      rfl
    · rw [Nat.cast_one, one_mul]
  have hle := abs_le.mp (Carry.Radix.bounded_step (limbRadix_offset_lt i) hi hb _ hnext.1)
  have hlt := (hroom _ hnext.1).2
  rw [Carry.Radix.step, if_neg hnext.2, if_pos rfl, ← hcarry] at hle
  change _ ≤ h[limbRadix.next i]!.toInt + _ ∧ h[limbRadix.next i]!.toInt + _ ≤ _ at hle
  rw [Int64.toInt_add, hword]
  exact Int.bmod_eq_of_le (by omega) (by omega)

/-- The entries after a carry. -/
theorem getElem!_carryStep (h : Vector Int64 10) (hi : i < 10) {k : ℕ} (hk : k < 10) :
    (carryStep h i)[k]! =
      if k = i then h[i]! - carryOut h i <<< limbBits i
      else if k = limbRadix.next i then h[k]! + if i = 9 then carryOut h i * 19 else carryOut h i
      else h[k]! := by
  rw [carryStep]
  by_cases h9 : i = 9
  · have hnext : limbRadix.next i = 0 := by rw [h9]; rfl
    rw [if_pos h9, if_pos h9, hnext, Words.getElem!_set! _ hk, Words.getElem!_set! _ hi,
      Words.getElem!_set! _ hk, if_neg (show ¬ 0 = i by omega)]
    by_cases hki : k = i
    · rw [if_pos hki.symm, if_pos hki]
    · rw [if_neg (Ne.symm hki), if_neg hki]
      by_cases hk0 : k = 0
      · rw [if_pos hk0.symm, if_pos hk0, hk0]
      · rw [if_neg (Ne.symm hk0), if_neg hk0]
  · have hnext : limbRadix.next i = i + 1 := if_neg (by change ¬ i + 1 = 10; omega)
    rw [if_neg h9, if_neg h9, hnext, Words.getElem!_set! _ hk, Words.getElem!_set! _ hi,
      Words.getElem!_set! _ hk, if_neg (show ¬ i + 1 = i by omega)]
    by_cases hki : k = i
    · rw [if_pos hki.symm, if_pos hki]
    · rw [if_neg (Ne.symm hki), if_neg hki]
      by_cases hk1 : k = i + 1
      · rw [if_pos hk1.symm, if_pos hk1, hk1]
      · rw [if_neg (Ne.symm hk1), if_neg hk1]

/-- **A carry of words** is a carry of integers, with enough room. -/
theorem limbs64_carryStep (hb : limbRadix.Bounded b (limbs64 h))
    (hroom : limbRadix.RoomAt (2 ^ 63) b i) (hi : i < 10) {k : ℕ} (hk : k < 10) :
    limbs64 (carryStep h i) k = limbRadix.step (limbs64 h) i k := by
  have hfits := carryFits hb hroom hi
  rw [limbs64, getElem!_carryStep h hi hk, Carry.Radix.step, ← hfits.quotient]
  by_cases hki : k = i
  · rw [if_pos hki, if_pos hki, hfits.sub]
    rfl
  · rw [if_neg hki, if_neg hki]
    by_cases hkn : k = limbRadix.next i
    · rw [if_pos hkn, if_pos hkn, hkn, hfits.add]
      rfl
    · rw [if_neg hkn, if_neg hkn]
      rfl

/-- The bounds of the carries, from sums of products on. -/
theorem room_carryOrder : limbRadix.Room (2 ^ 63) carryOrder fun _ => productBound := by
  decide +kernel

/-- After all carries of the greatest sums of products, the limbs exceed their bounds by one
percent at most. -/
theorem boundRun_carryOrder :
    ∀ k < 10, 100 * limbRadix.boundRun carryOrder (fun _ => productBound) k ≤
      101 * 2 ^ (25 - k % 2) := by
  decide +kernel

/-- The carries of some sums of products, as long as all their results are the exact ones. After
the last one, each limb fits in 32 bits. -/
structure CarriesFit (h : Vector Int64 10) : Prop where
  carry : ∀ pre i post, carryOrder = pre ++ i :: post → CarryFits (pre.foldl carryStep h) i
  narrow : ∀ k < 10, (feCarry h)[k]!.toInt = (carryOrder.foldl carryStep h)[k]!.toInt

/-- The carries are those of the ten limbs. -/
theorem carryOrder_lt : ∀ i ∈ carryOrder, i < 10 := by decide

/-- The limbs after some carries. -/
theorem limbs64_foldl_carryStep (hb : limbRadix.Bounded (fun _ => productBound) (limbs64 h))
    {pre post : List ℕ} (hpre : carryOrder = pre ++ post) :
    (∀ k < 10, limbs64 (pre.foldl carryStep h) k = limbRadix.run pre (limbs64 h) k) ∧
      limbRadix.Bounded (limbRadix.boundRun pre fun _ => productBound)
        (limbs64 (pre.foldl carryStep h)) := by
  have horder : ∀ i ∈ pre, i < 10 := fun i hi =>
    carryOrder_lt i (hpre ▸ List.mem_append_left post hi)
  have hroom : limbRadix.Room (2 ^ 63) pre fun _ => productBound := by
    have hall := room_carryOrder
    rw [hpre] at hall
    cases post with
    | nil => rwa [List.append_nil] at hall
    | cons i post => exact hall.split.1
  have hrun := Carry.Radix.run_of_step limbs64 carryStep (fun i _ => limbRadix_offset_lt i)
    (fun hi hb hroom _ hk => limbs64_carryStep hb hroom hi hk) horder hb hroom
  have hbound := Carry.Radix.bounded_run (fun i _ => limbRadix_offset_lt i) horder hb
  refine ⟨hrun, fun k hk => ?_⟩
  rw [hrun k hk]
  exact hbound k hk

/-- **The carries do not overflow**, and the limbs that they leave fit in 32 bits. -/
theorem carriesFit (hb : limbRadix.Bounded (fun _ => productBound) (limbs64 h)) :
    CarriesFit h := by
  constructor
  · intro pre i post hsplit
    have hroom := room_carryOrder
    rw [hsplit] at hroom
    exact carryFits (limbs64_foldl_carryStep hb hsplit).2 hroom.split.2
      (carryOrder_lt i (hsplit ▸ List.mem_append_right pre List.mem_cons_self))
  · intro k hk
    have hle := (limbs64_foldl_carryStep hb (List.append_nil carryOrder).symm).2 k hk
    have hsmall := boundRun_carryOrder k hk
    have hpow : 2 ^ (25 - k % 2) ≤ 2 ^ 25 := Nat.pow_le_pow_right two_pos (by omega)
    obtain ⟨hlo, hhi⟩ := abs_le.mp hle
    rw [limbs64] at hlo hhi
    rw [feCarry, getElem!_pos _ k hk, Vector.getElem_map, ← getElem!_pos _ k hk,
      Int64.toInt_toInt32]
    exact Int.bmod_eq_of_le (by omega) (by omega)

/-- **The carries** keep the element, and leave the bounds of a product. -/
theorem feCarry_represents (hb : limbRadix.Bounded (fun _ => productBound) (limbs64 h)) {x : ZMod q}
    (hx : limbRadix.value (fun i => 2 ^ limbShift i) (limbs64 h) = x) :
    Represents 101 (feCarry h) x := by
  obtain ⟨hrun, hbound⟩ := limbs64_foldl_carryStep hb (List.append_nil carryOrder).symm
  have hvalue := Carry.Radix.value_run (by decide : 2 ≤ limbRadix.limbs)
    (fun i hi => ⟨carryOrder_lt i hi, limbRadix_weighs (carryOrder_lt i hi)⟩) (limbs64 h)
  have hrep := represents_of_limbs (n := 101) (f := feCarry h) (by norm_num)
    (fun i => limbRadix.run carryOrder (limbs64 h) i) (fun i => ?_) fun i => ?_
  · rw [← hx, ← hvalue, Carry.Radix.value]
    change Represents 101 _ (∑ k ∈ range 10, _)
    rw [sum_range]
    push_cast at hrep
    exact hrep
  · rw [← hrun i i.isLt, limbs64, getElem!_pos _ i.val i.isLt, ← Int64.toInt_toInt32]
    exact congrArg Int32.toInt (Vector.getElem_map _ _)
  · have hle := hbound i i.isLt
    rw [hrun i i.isLt] at hle
    have hsmall := boundRun_carryOrder i i.isLt
    calc 100 * |limbRadix.run carryOrder (limbs64 h) i|
        ≤ 100 * (limbRadix.boundRun carryOrder (fun _ => productBound) i : ℤ) := by
          linarith
      _ ≤ (101 : ℕ) * 2 ^ (25 - i.val % 2) := by exact_mod_cast hsmall

end Carries

/-! ### Sums of products -/

section Products

variable {f g : Fe} {x y : ZMod q}

/-- How often a product of limbs counts. -/
def productCoeff (i j : ℕ) : ℤ :=
  (if i % 2 = 1 ∧ j % 2 = 1 then 2 else 1) * if 10 ≤ i + j then 19 else 1

/-- A product of limbs, as it counts. -/
def productTerm (f g : Fe) (i j : ℕ) : ℤ := productCoeff i j * (f[i]!.toInt * g[j]!.toInt)

/-- A limb of a product. -/
def limbProduct (f g : Fe) (k : ℕ) : ℤ :=
  ∑ i ∈ range 10, productTerm f g i ((10 + k - i) % 10)

/-- A product of two 32-bit limbs always fits in 64 bits. -/
theorem toInt_wide (x y : Int32) : (wide x y).toInt = x.toInt * y.toInt := by
  have hx := x.le_toInt
  have hx' := x.toInt_lt
  have hy := y.le_toInt
  have hy' := y.toInt_lt
  have hprod : |x.toInt * y.toInt| ≤ 2 ^ 31 * 2 ^ 31 := by
    rw [abs_mul]
    exact mul_le_mul (abs_le.mpr ⟨by omega, by omega⟩) (abs_le.mpr ⟨by omega, by omega⟩)
      (abs_nonneg _) (by norm_num)
  rw [abs_le] at hprod
  rw [wide, Int64.toInt_mul, Int32.toInt_toInt64, Int32.toInt_toInt64]
  exact Int.bmod_eq_of_le (by omega) (by omega)

/-- The bound of a limb, by its number. -/
theorem Represents.limb_le (hf : Represents 330 f x) {i : ℕ} (hi : i < 10) :
    100 * |f[i]!.toInt| ≤ 330 * 2 ^ (25 - i % 2) := by
  rw [getElem!_pos f i hi]
  exact hf.bounded ⟨i, hi⟩

/-- A limb times a small number. -/
theorem toInt_scaled (c : Int32) {z : Int32} {n : ℤ} (hc : c.toInt = n)
    (hle : |n * z.toInt| < 2 ^ 31) : (c * z).toInt = n * z.toInt := by
  obtain ⟨hlo, hhi⟩ := abs_lt.mp hle
  rw [Int32.toInt_mul, hc]
  exact Int.bmod_eq_of_le (by omega) (by omega)

/-- **The size of a product**: where it counts twice, both limbs are shorter. -/
theorem mul_abs_productTerm_le (hf : Represents 330 f x) (hg : Represents 330 g y) {i j : ℕ}
    (hi : i < 10) (hj : j < 10) : 10000 * |productTerm f g i j| ≤ 19 * 330 ^ 2 * 2 ^ 50 := by
  have hfi := hf.limb_le hi
  have hgj := hg.limb_le hj
  have hprod : (100 * |f[i]!.toInt|) * (100 * |g[j]!.toInt|) ≤
      (330 * 2 ^ (25 - i % 2)) * (330 * 2 ^ (25 - j % 2)) :=
    mul_le_mul hfi hgj (by positivity) (by positivity)
  have hcoeff : 0 ≤ productCoeff i j ∧
      productCoeff i j * (2 ^ (25 - i % 2) * 2 ^ (25 - j % 2)) ≤ 19 * 2 ^ 50 := by
    rcases Nat.mod_two_eq_zero_or_one i with h | h <;>
      rcases Nat.mod_two_eq_zero_or_one j with h' | h' <;>
      · rw [productCoeff, h, h']
        by_cases h10 : 10 ≤ i + j
        · rw [if_pos h10]
          norm_num
        · rw [if_neg h10]
          norm_num
  rw [productTerm, abs_mul, abs_mul, abs_of_nonneg hcoeff.1]
  calc 10000 * (productCoeff i j * (|f[i]!.toInt| * |g[j]!.toInt|))
      = productCoeff i j * ((100 * |f[i]!.toInt|) * (100 * |g[j]!.toInt|)) := by ring
    _ ≤ productCoeff i j * ((330 * 2 ^ (25 - i % 2)) * (330 * 2 ^ (25 - j % 2))) :=
        mul_le_mul_of_nonneg_left hprod hcoeff.1
    _ = 330 ^ 2 * (productCoeff i j * (2 ^ (25 - i % 2) * 2 ^ (25 - j % 2))) := by ring
    _ ≤ 330 ^ 2 * (19 * 2 ^ 50) := mul_le_mul_of_nonneg_left hcoeff.2 (by norm_num)
    _ = 19 * 330 ^ 2 * 2 ^ 50 := by ring

/-- The same size, as a number. -/
theorem abs_productTerm_le (hf : Represents 330 f x) (hg : Represents 330 g y) {i j : ℕ}
    (hi : i < 10) (hj : j < 10) :
    |productTerm f g i j| ≤ (19 * 330 ^ 2 * 2 ^ 50 / 10000 + 1 : ℕ) := by
  have hle := mul_abs_productTerm_le hf hg hi hj
  norm_num at hle ⊢
  omega

/-- The size of a limb of a product. -/
theorem abs_limbProduct_le (hf : Represents 330 f x) (hg : Represents 330 g y) (k : ℕ) :
    2 * |limbProduct f g k| ≤ productBound := by
  have hterm : ∀ i ∈ range 10, |productTerm f g i ((10 + k - i) % 10)| ≤
      (19 * 330 ^ 2 * 2 ^ 50 / 10000 + 1 : ℕ) := fun i hi =>
    abs_productTerm_le hf hg (mem_range.mp hi) (Nat.mod_lt (10 + k - i) (by norm_num))
  have hsum := (abs_sum_le_sum_abs (fun i => productTerm f g i ((10 + k - i) % 10))
    (range 10)).trans (sum_le_sum hterm)
  rw [sum_const, card_range, nsmul_eq_mul] at hsum
  rw [limbProduct, productBound]
  push_cast at hsum ⊢
  linarith

/-- A sum of words is exact, as long as the sizes of its terms leave room. -/
theorem toInt_foldl_add (t : ℕ → Int64) {p : ℕ → Prop} [DecidablePred p] {n : ℕ}
    (hroom : ∑ i ∈ range n, |if p i then (t i).toInt else 0| < 2 ^ 63) :
    ((List.range n).foldl (fun h i => if p i then h + t i else h) 0).toInt =
      ∑ i ∈ range n, if p i then (t i).toInt else 0 := by
  induction n with
  | zero => rfl
  | succ n ih =>
      have hsum := abs_sum_le_sum_abs (fun i => if p i then (t i).toInt else 0) (range (n + 1))
      have hrest : ∑ i ∈ range n, |if p i then (t i).toInt else 0| ≤
          ∑ i ∈ range (n + 1), |if p i then (t i).toInt else 0| := by
        rw [sum_range_succ]
        exact le_add_of_nonneg_right (abs_nonneg _)
      obtain ⟨hlo, hhi⟩ := abs_lt.mp (hsum.trans_lt hroom)
      rw [sum_range_succ] at hlo hhi ⊢
      rw [List.range_succ, List.foldl_append, List.foldl_cons, List.foldl_nil]
      by_cases hn : p n
      · rw [if_pos hn] at hlo hhi ⊢
        rw [if_pos hn, Int64.toInt_add, ih (hrest.trans_lt hroom)]
        exact Int.bmod_eq_of_le (by omega) (by omega)
      · rw [if_neg hn, if_neg hn, add_zero, ih (hrest.trans_lt hroom)]

/-- The sum of the first `n` products, over the indices that count. -/
def productSum (p : ℕ → Prop) [DecidablePred p] (l r : ℕ → Int32) (n : ℕ) : Int64 :=
  (List.range n).foldl (fun h i => if p i then h + wide (l i) (r i) else h) 0

/-- A limb is a sum of ten products at most, and all results on the way are the exact ones. -/
structure SumFits (p : ℕ → Prop) [DecidablePred p] (l r : ℕ → Int32) (h : Int64) : Prop where
  limb : h = productSum p l r 10
  product : ∀ i < 10, (wide (l i) (r i)).toInt = (l i).toInt * (r i).toInt
  sum : ∀ n ≤ 10, (productSum p l r n).toInt =
    ∑ i ∈ range n, if p i then (wide (l i) (r i)).toInt else 0

/-- **Sums of products do not overflow**, for products of the size that limbs have. -/
theorem sumFits {p : ℕ → Prop} [DecidablePred p] {l r : ℕ → Int32} {h : Int64}
    (hlimb : h = productSum p l r 10)
    (hle : ∀ i < 10, p i →
      |(wide (l i) (r i)).toInt| ≤ 2 * (19 * 330 ^ 2 * 2 ^ 50 / 10000 + 1 : ℕ)) :
    SumFits p l r h := by
  refine ⟨hlimb, fun i _ => toInt_wide (l i) (r i), fun n hn => toInt_foldl_add _ ?_⟩
  have hterm : ∀ i ∈ range n, |if p i then (wide (l i) (r i)).toInt else 0| ≤
      2 * (19 * 330 ^ 2 * 2 ^ 50 / 10000 + 1 : ℕ) := by
    intro i hi
    by_cases hp : p i
    · rw [if_pos hp]
      exact hle i ((mem_range.mp hi).trans_le hn) hp
    · rw [if_neg hp, abs_zero]
      positivity
  have hsum := sum_le_sum hterm
  rw [sum_const, card_range, nsmul_eq_mul] at hsum
  have hn' : (n : ℤ) ≤ 10 := by exact_mod_cast hn
  refine hsum.trans_lt ((mul_le_mul_of_nonneg_right hn' (by positivity)).trans_lt ?_)
  norm_num

/-- The bound of a limb, which depends on its parity, is at most `2 ^ 25`. -/
theorem two_pow_limb_le (i : ℕ) : (2 : ℤ) ^ (25 - i % 2) ≤ 2 ^ 25 := by gcongr <;> omega

/-- The results of `fe_mul` up to the conversion to limbs, as long as they are the exact ones. -/
structure MulFits (f g : Fe) : Prop where
  left : ∀ i < 10, ∀ j < 10,
    (mulLeft f i j).toInt = (if i % 2 = 1 ∧ j % 2 = 1 then 2 else 1) * f[i]!.toInt
  right : ∀ i < 10, ∀ j < 10,
    (mulRight g i j).toInt = (if 10 ≤ i + j then 19 else 1) * g[j]!.toInt
  sums : ∀ k < 10, SumFits (fun _ => True) (fun i => mulLeft f i ((10 + k - i) % 10))
    (fun i => mulRight g i ((10 + k - i) % 10)) (mulLimb f g k)
  carries : CarriesFit (Vector.ofFn fun k : Fin 10 => mulLimb f g k)

/-- The factors of a product of limbs. -/
theorem toInt_mulLeft (hf : Represents 330 f x) {i : ℕ} (hi : i < 10) (j : ℕ) :
    (mulLeft f i j).toInt = (if i % 2 = 1 ∧ j % 2 = 1 then 2 else 1) * f[i]!.toInt := by
  have hfi := hf.limb_le hi
  have hpow := two_pow_limb_le i
  rw [mulLeft]
  split
  · refine toInt_scaled 2 rfl ?_
    rw [abs_mul, abs_of_pos two_pos]
    omega
  · rw [one_mul]

/-- The right factor, as an integer: the limb, with 19 where the product wraps around. -/
theorem toInt_mulRight (hg : Represents 330 g y) (i : ℕ) {j : ℕ} (hj : j < 10) :
    (mulRight g i j).toInt = (if 10 ≤ i + j then 19 else 1) * g[j]!.toInt := by
  have hgj := hg.limb_le hj
  have hpow := two_pow_limb_le j
  rw [mulRight]
  split
  · refine toInt_scaled 19 rfl ?_
    rw [abs_mul, abs_of_pos (by norm_num : (0 : ℤ) < 19)]
    omega
  · rw [one_mul]

/-- A product of the two factors is the term of the limb product, with no overflow. -/
theorem toInt_mulFactors (hf : Represents 330 f x) (hg : Represents 330 g y) {i j : ℕ}
    (hi : i < 10) (hj : j < 10) :
    (wide (mulLeft f i j) (mulRight g i j)).toInt = productTerm f g i j := by
  rw [toInt_wide, toInt_mulLeft hf hi, toInt_mulRight hg i hj, productTerm, productCoeff]
  ring

/-- The sums of `fe_mul` do not overflow. -/
theorem sumFits_mul (hf : Represents 330 f x) (hg : Represents 330 g y) (k : ℕ) :
    SumFits (fun _ => True) (fun i => mulLeft f i ((10 + k - i) % 10))
      (fun i => mulRight g i ((10 + k - i) % 10)) (mulLimb f g k) := by
  refine sumFits (by simp only [productSum, if_true]; rfl) fun i hi _ => ?_
  have hj : (10 + k - i) % 10 < 10 := Nat.mod_lt _ (by norm_num)
  have hle := abs_productTerm_le hf hg hi hj
  rw [toInt_mulFactors hf hg hi hj]
  linarith

/-- The sums of `fe_mul`. -/
theorem toInt_mulLimb (hf : Represents 330 f x) (hg : Represents 330 g y) (k : ℕ) :
    (mulLimb f g k).toInt = limbProduct f g k := by
  have hfits := sumFits_mul hf hg k
  have hsum := hfits.sum 10 le_rfl
  simp only [if_true] at hsum
  rw [hfits.limb, hsum, limbProduct]
  exact sum_congr rfl fun i hi =>
    toInt_mulFactors hf hg (mem_range.mp hi) (Nat.mod_lt _ (by norm_num))

/-- The results of `fe_sq` and `fe_sq2` up to the sums of products, as long as they are the exact
ones. -/
structure SquaresFit (f : Fe) : Prop where
  left : ∀ i < 10, ∀ j < 10, (sqLeft f i j).toInt =
    (if i = j then (if i + j < 10 ∧ i % 2 = 1 then 2 else 1)
      else if 10 ≤ i + j ∧ i % 2 = 0 ∧ j % 2 = 1 then 1 else 2) * f[i]!.toInt
  right : ∀ i < 10, ∀ j < 10, (sqRight f i j).toInt =
    (if 10 ≤ i + j then (if j % 2 = 1 then 38 else 19)
      else if i ≠ j ∧ i % 2 = 1 ∧ j % 2 = 1 then 2 else 1) * f[j]!.toInt
  sums : ∀ k < 10, SumFits (fun i => i ≤ (10 + k - i) % 10)
    (fun i => sqLeft f i ((10 + k - i) % 10)) (fun i => sqRight f i ((10 + k - i) % 10))
    (sqLimb f k)

/-- The results of `fe_sq` up to the conversion to limbs. They are those of the squares of limbs,
and of the carries after them. -/
structure SqFits (f : Fe) : Prop extends SquaresFit f where
  carries : CarriesFit (Vector.ofFn fun k : Fin 10 => sqLimb f k)

/-- The results of `fe_sq2` up to the conversion to limbs. The sums are doubled before the carries,
which have room for this. -/
structure Sq2Fits (f : Fe) : Prop extends SquaresFit f where
  double : ∀ k < 10, (sqLimb f k + sqLimb f k).toInt = 2 * (sqLimb f k).toInt
  carries : CarriesFit (Vector.ofFn fun k : Fin 10 => sqLimb f k + sqLimb f k)

/-- A limb that is doubled. -/
theorem toInt_two_mul_limb (hf : Represents 330 f x) {i : ℕ} (hi : i < 10) :
    (2 * f[i]!).toInt = 2 * f[i]!.toInt := by
  have hfi := hf.limb_le hi
  have hpow := two_pow_limb_le i
  refine toInt_scaled 2 rfl ?_
  rw [abs_mul, abs_of_pos two_pos]
  omega

/-- The factors of a product of limbs in `fe_sq`. -/
theorem toInt_sqLeft (hf : Represents 330 f x) {i : ℕ} (hi : i < 10) (j : ℕ) :
    (sqLeft f i j).toInt = (if i = j then (if i + j < 10 ∧ i % 2 = 1 then 2 else 1)
      else if 10 ≤ i + j ∧ i % 2 = 0 ∧ j % 2 = 1 then 1 else 2) * f[i]!.toInt := by
  have htwo := toInt_two_mul_limb hf hi
  rw [sqLeft]
  split_ifs
  · exact htwo
  · rw [one_mul]
  · rw [one_mul]
  · exact htwo

/-- The right factor of a square, as an integer. Doubling and the factor 19 are put into one
multiplication. -/
theorem toInt_sqRight (hf : Represents 330 f x) (i : ℕ) {j : ℕ} (hj : j < 10) :
    (sqRight f i j).toInt = (if 10 ≤ i + j then (if j % 2 = 1 then 38 else 19)
      else if i ≠ j ∧ i % 2 = 1 ∧ j % 2 = 1 then 2 else 1) * f[j]!.toInt := by
  have hfj := hf.limb_le hj
  have hpow := two_pow_limb_le j
  have h19 : (19 * f[j]!).toInt = 19 * f[j]!.toInt := by
    refine toInt_scaled 19 rfl ?_
    rw [abs_mul, abs_of_pos (by norm_num : (0 : ℤ) < 19)]
    omega
  -- A limb that is multiplied by 38 is a short one.
  have h38 : j % 2 = 1 → (38 * f[j]!).toInt = 38 * f[j]!.toInt := by
    intro hodd
    rw [hodd] at hfj
    refine toInt_scaled 38 rfl ?_
    rw [abs_mul, abs_of_pos (by norm_num : (0 : ℤ) < 38)]
    omega
  rw [sqRight]
  split_ifs with h10 hodd hboth
  · exact h38 hodd
  · exact h19
  · exact toInt_two_mul_limb hf hj
  · rw [one_mul]

/-- A product of a square is the term of the limb product, which stands twice unless both limbs are
the same. -/
theorem toInt_sqFactors (hf : Represents 330 f x) {i j : ℕ} (hi : i < 10) (hj : j < 10) :
    (wide (sqLeft f i j) (sqRight f i j)).toInt =
      (if i = j then 1 else 2) * productTerm f f i j := by
  have hcoeff : (if i = j then (if i + j < 10 ∧ i % 2 = 1 then 2 else 1)
      else if 10 ≤ i + j ∧ i % 2 = 0 ∧ j % 2 = 1 then 1 else 2 : ℤ) *
        (if 10 ≤ i + j then (if j % 2 = 1 then 38 else 19)
          else if i ≠ j ∧ i % 2 = 1 ∧ j % 2 = 1 then 2 else 1) =
        (if i = j then 1 else 2) * productCoeff i j := by
    have hall : ∀ i < 10, ∀ j < 10,
        (if i = j then (if i + j < 10 ∧ i % 2 = 1 then 2 else 1)
          else if 10 ≤ i + j ∧ i % 2 = 0 ∧ j % 2 = 1 then 1 else 2 : ℤ) *
        (if 10 ≤ i + j then (if j % 2 = 1 then 38 else 19)
          else if i ≠ j ∧ i % 2 = 1 ∧ j % 2 = 1 then 2 else 1) =
        (if i = j then 1 else 2) * productCoeff i j := by
      decide +kernel
    exact hall i hi j hj
  rw [toInt_wide, toInt_sqLeft hf hi, toInt_sqRight hf i hj, productTerm]
  linear_combination f[i]!.toInt * f[j]!.toInt * hcoeff

/-- The sums of `fe_sq` do not overflow. -/
theorem squaresFit (hf : Represents 330 f x) : SquaresFit f := by
  refine ⟨fun i hi j _ => toInt_sqLeft hf hi j, fun i _ j hj => toInt_sqRight hf i hj,
    fun k _ => sumFits rfl fun i hi _ => ?_⟩
  have hj : (10 + k - i) % 10 < 10 := Nat.mod_lt _ (by norm_num)
  have hle := abs_productTerm_le hf hf hi hj
  rw [toInt_sqFactors hf hi hj, abs_mul]
  refine mul_le_mul ?_ hle (abs_nonneg _) two_pos.le
  split <;> norm_num

/-- Of a sum that is symmetric under an exchange of indices, half may be added twice. -/
theorem sum_upper_half {n : ℕ} {σ : ℕ → ℕ} (hσ : ∀ i < n, σ i < n ∧ σ (σ i) = i) {T : ℕ → ℤ}
    (hT : ∀ i < n, T (σ i) = T i) :
    ∑ i ∈ range n, (if i ≤ σ i then (if i = σ i then 1 else 2) * T i else 0) =
      ∑ i ∈ range n, T i := by
  have hswap : ∑ i ∈ range n, (if i < σ i then T i else 0) =
      ∑ i ∈ range n, if σ i < i then T i else 0 := by
    refine sum_nbij' σ σ ?_ ?_ ?_ ?_ ?_
    · exact fun i hi => mem_range.mpr (hσ i (mem_range.mp hi)).1
    · exact fun i hi => mem_range.mpr (hσ i (mem_range.mp hi)).1
    · exact fun i hi => (hσ i (mem_range.mp hi)).2
    · exact fun i hi => (hσ i (mem_range.mp hi)).2
    · intro i hi
      rw [(hσ i (mem_range.mp hi)).2, hT i (mem_range.mp hi)]
  have hsplit : ∀ i, (if i ≤ σ i then (if i = σ i then 1 else 2) * T i else 0) =
      T i + (if i < σ i then T i else 0) - if σ i < i then T i else 0 := by
    intro i
    rcases Nat.lt_trichotomy i (σ i) with h | h | h
    · rw [if_pos h.le, if_neg h.ne, if_pos h, if_neg h.le.not_gt]
      ring
    · rw [if_pos h.le, if_pos h, if_neg (Nat.not_lt.mpr h.ge), if_neg (Nat.not_lt.mpr h.le)]
      ring
    · rw [if_neg h.not_ge, if_neg h.le.not_gt, if_pos h]
      ring
  rw [sum_congr rfl fun i _ => hsplit i, sum_sub_distrib, sum_add_distrib, hswap,
    add_sub_cancel_right]

/-- The sums of `fe_sq` are those of `fe_mul`. -/
theorem toInt_sqLimb (hf : Represents 330 f x) {k : ℕ} (hk : k < 10) :
    (sqLimb f k).toInt = limbProduct f f k := by
  have hfits := (squaresFit hf).sums k hk
  have hsymm : ∀ i j, productTerm f f i j = productTerm f f j i := by
    intro i j
    have hcoeff : productCoeff i j = productCoeff j i :=
      congrArg₂ (· * ·) (if_congr and_comm rfl rfl) (if_congr (by rw [Nat.add_comm]) rfl rfl)
    rw [productTerm, productTerm, hcoeff, mul_comm f[i]!.toInt]
  have hσ : ∀ i < 10, (10 + k - i) % 10 < 10 ∧ (10 + k - (10 + k - i) % 10) % 10 = i := by
    intro i hi
    omega
  rw [hfits.limb, hfits.sum 10 le_rfl, limbProduct]
  refine Eq.trans (sum_congr rfl fun i hi => ?_)
    (sum_upper_half (σ := fun i => (10 + k - i) % 10) hσ
      (T := fun i => productTerm f f i ((10 + k - i) % 10)) fun i hi => ?_)
  · rw [toInt_sqFactors hf (mem_range.mp hi) (hσ i (mem_range.mp hi)).1]
  · rw [(hσ i hi).2]
    exact hsymm _ _

/-- The weight of a product of limbs. -/
theorem weight_mul {i j : ℕ} (hi : i < 10) (hj : j < 10) :
    (2 : ZMod q) ^ limbShift i * 2 ^ limbShift j =
      (productCoeff i j : ZMod q) * 2 ^ limbShift ((i + j) % 10) := by
  have hall : ∀ i < 10, ∀ j < 10, (q : ℤ) ∣ productCoeff i j * 2 ^ limbShift ((i + j) % 10) -
      2 ^ limbShift i * 2 ^ limbShift j := by
    decide +kernel
  have hcast := (ZMod.intCast_eq_intCast_iff_dvd_sub _ _ q).mpr (hall i hi j hj)
  push_cast at hcast
  exact hcast

/-- The element of some limbs, with indices that are numbers. -/
theorem feValue_eq_sum (f : Fe) :
    feValue f = ∑ i ∈ range 10, (f[i]!.toInt : ZMod q) * 2 ^ limbShift i := by
  rw [feValue, sum_range, Int.cast_sum]
  refine sum_congr rfl fun i _ => ?_
  rw [getElem!_pos f i.val i.isLt]
  push_cast
  rfl

/-- **The limbs of a product** are those of the product. -/
theorem sum_limbProduct (f g : Fe) :
    ∑ k ∈ range 10, (limbProduct f g k : ZMod q) * 2 ^ limbShift k = feValue f * feValue g := by
  have hterm : ∀ i ∈ range 10, ∑ k ∈ range 10,
      (productTerm f g i ((10 + k - i) % 10) : ZMod q) * 2 ^ limbShift k =
        (f[i]!.toInt : ZMod q) * 2 ^ limbShift i * feValue g := by
    intro i hi
    have hi' := mem_range.mp hi
    rw [feValue_eq_sum g, mul_sum]
    refine sum_nbij' (fun k => (10 + k - i) % 10) (fun j => (i + j) % 10) ?_ ?_ ?_ ?_ ?_
    · exact fun k _ => mem_range.mpr (Nat.mod_lt _ (by norm_num))
    · exact fun j _ => mem_range.mpr (Nat.mod_lt _ (by norm_num))
    · intro k hk
      have hk' := mem_range.mp hk
      omega
    · intro j hj
      have hj' := mem_range.mp hj
      omega
    · intro k hk
      have hk' := mem_range.mp hk
      have hj : (10 + k - i) % 10 < 10 := Nat.mod_lt _ (by norm_num)
      have hback : (i + (10 + k - i) % 10) % 10 = k := by omega
      have hweight := weight_mul hi' hj
      rw [hback] at hweight
      rw [productTerm]
      push_cast
      linear_combination -(f[i]!.toInt : ZMod q) * (g[(10 + k - i) % 10]!.toInt : ZMod q) * hweight
  rw [feValue_eq_sum f, sum_mul, ← sum_congr rfl hterm, sum_comm]
  refine sum_congr rfl fun k _ => ?_
  rw [limbProduct, Int.cast_sum, sum_mul]

section Sums

variable {h : Vector Int64 10} {c : ℕ}

/-- The size of sums of products, which are counted once or twice. -/
theorem bounded_products (hf : Represents 330 f x) (hg : Represents 330 g y) (hc : c = 1 ∨ c = 2)
    (hh : ∀ k < 10, h[k]!.toInt = c * limbProduct f g k) :
    limbRadix.Bounded (fun _ => productBound) (limbs64 h) := by
  intro k hk
  have hle := abs_limbProduct_le hf hg k
  have hnonneg := abs_nonneg (limbProduct f g k)
  rw [limbs64, hh k hk, abs_mul, Nat.abs_cast]
  rcases hc with rfl | rfl
  · push_cast
    linarith
  · exact hle

/-- Sums of products, carried. -/
theorem feCarry_product (hf : Represents 330 f x) (hg : Represents 330 g y) (hc : c = 1 ∨ c = 2)
    (hh : ∀ k < 10, h[k]!.toInt = c * limbProduct f g k) :
    Represents 101 (feCarry h) (c • (x * y)) := by
  refine feCarry_represents (bounded_products hf hg hc hh) ?_
  rw [← hf.value, ← hg.value, ← sum_limbProduct, nsmul_eq_mul, mul_sum]
  refine sum_congr rfl fun k hk => ?_
  rw [limbs64, hh k (mem_range.mp hk)]
  push_cast
  ring

end Sums

/-- The limbs before the carries of a product, as integers. -/
theorem toInt_mulLimbs (hf : Represents 330 f x) (hg : Represents 330 g y) {k : ℕ} (hk : k < 10) :
    (Vector.ofFn fun k : Fin 10 => mulLimb f g k)[k]!.toInt = (1 : ℕ) * limbProduct f g k := by
  rw [getElem!_pos _ k hk, Vector.getElem_ofFn, toInt_mulLimb hf hg, Nat.cast_one, one_mul]

/-- **The product.** -/
theorem feMul_represents (hf : Represents 330 f x) (hg : Represents 330 g y) :
    Represents 101 (feMul f g) (x * y) := by
  have hprod := feCarry_product hf hg (.inl rfl) fun k hk => toInt_mulLimbs hf hg hk
  rwa [one_smul] at hprod

/-- **Nothing overflows** in `fe_mul`. -/
theorem mulFits (hf : Represents 330 f x) (hg : Represents 330 g y) : MulFits f g where
  left _ hi j _ := toInt_mulLeft hf hi j
  right _ _ _ hj := toInt_mulRight hg _ hj
  sums k _ := sumFits_mul hf hg k
  carries := carriesFit (bounded_products hf hg (.inl rfl) fun _ hk => toInt_mulLimbs hf hg hk)

/-- The limbs before the carries of a square are those of the product with itself. -/
theorem toInt_sqLimbs (hf : Represents 330 f x) {k : ℕ} (hk : k < 10) :
    (Vector.ofFn fun k : Fin 10 => sqLimb f k)[k]!.toInt = (1 : ℕ) * limbProduct f f k := by
  rw [getElem!_pos _ k hk, Vector.getElem_ofFn, toInt_sqLimb hf hk, Nat.cast_one, one_mul]

/-- **The square.** -/
theorem feSq_represents (hf : Represents 330 f x) : Represents 101 (feSq f) (x ^ 2) := by
  have hprod := feCarry_product hf hf (.inl rfl) fun k hk => toInt_sqLimbs hf hk
  rwa [one_smul, ← sq] at hprod

/-- **Nothing overflows** in `fe_sq`. -/
theorem sqFits (hf : Represents 330 f x) : SqFits f where
  toSquaresFit := squaresFit hf
  carries := carriesFit (bounded_products hf hf (.inl rfl) fun _ hk => toInt_sqLimbs hf hk)

/-- The sums of `fe_sq2`. -/
theorem toInt_sqLimb_add_self (hf : Represents 330 f x) {k : ℕ} (hk : k < 10) :
    (sqLimb f k + sqLimb f k).toInt = 2 * (sqLimb f k).toInt := by
  have hle := abs_limbProduct_le hf hf k
  have hbound : (productBound : ℤ) < 2 ^ 63 := by decide +kernel
  obtain ⟨hlo, hhi⟩ := abs_le.mp (show |limbProduct f f k| ≤ 2 ^ 62 - 1 by linarith)
  rw [Int64.toInt_add, toInt_sqLimb hf hk, two_mul]
  exact Int.bmod_eq_of_le (by omega) (by omega)

/-- The limbs before the carries of a doubled square. -/
theorem toInt_sq2Limbs (hf : Represents 330 f x) {k : ℕ} (hk : k < 10) :
    (Vector.ofFn fun k : Fin 10 => sqLimb f k + sqLimb f k)[k]!.toInt =
      (2 : ℕ) * limbProduct f f k := by
  rw [getElem!_pos _ k hk, Vector.getElem_ofFn, toInt_sqLimb_add_self hf hk, toInt_sqLimb hf hk]
  rfl

/-- **Twice the square.** -/
theorem feSq2_represents (hf : Represents 330 f x) : Represents 101 (feSq2 f) (2 • x ^ 2) := by
  rw [sq]
  exact feCarry_product hf hf (.inr rfl) fun k hk => toInt_sq2Limbs hf hk

/-- **Nothing overflows** in `fe_sq2`. -/
theorem sq2Fits (hf : Represents 330 f x) : Sq2Fits f where
  toSquaresFit := squaresFit hf
  double _ hk := toInt_sqLimb_add_self hf hk
  carries := carriesFit (bounded_products hf hf (.inr rfl) fun _ hk => toInt_sq2Limbs hf hk)

/-! ### The inverse -/

/-- Squares, one after the other. -/
theorem feSqTimes_represents (n : ℕ) (hf : Represents 330 f x) :
    Represents 101 (feSqTimes (n + 1) f) (x ^ 2 ^ (n + 1)) := by
  induction n generalizing f x with
  | zero => exact feSq_represents hf
  | succ n ih =>
      have hsq := ih ((feSq_represents hf).mono (by norm_num))
      rwa [← pow_mul, ← pow_succ'] at hsq

/-- A power that was computed, as a factor. -/
def IsPower (x : ZMod q) (f : Fe) (e : ℕ) : Prop := Represents 330 f (x ^ e)

/-- A product of powers adds the exponents. -/
theorem IsPower.mul {a b : ℕ} (hf : IsPower x f a) (hg : IsPower x g b) :
    IsPower x (feMul f g) (a + b) := by
  rw [IsPower, pow_add]
  exact (feMul_represents hf hg).mono (by norm_num)

/-- Squaring `n + 1` times multiplies the exponent by a power of two. -/
theorem IsPower.sqTimes {a : ℕ} (hf : IsPower x f a) (n : ℕ) :
    IsPower x (feSqTimes (n + 1) f) (a * 2 ^ (n + 1)) := by
  rw [IsPower, pow_mul]
  exact (feSqTimes_represents n hf).mono (by norm_num)

/-- The inverse is a power, by the little theorem of Fermat. Zero goes to zero. -/
theorem pow_eq_inv (x : ZMod q) {e : ℕ} (hpos : e ≠ 0) (he : e + 1 = q - 1) : x ^ e = x⁻¹ := by
  by_cases hx : x = 0
  · rw [hx, inv_zero, zero_pow hpos]
  · refine eq_inv_of_mul_eq_one_left ?_
    rw [← pow_succ, he]
    exact ZMod.pow_card_sub_one_eq_one hx

/-- **The inverse** is the power `q - 2`. -/
theorem feInvert_represents (hf : Represents 330 f x) : Represents 101 (feInvert f) x⁻¹ := by
  have h1 : IsPower x f 1 := by rwa [IsPower, pow_one]
  have h2 := h1.sqTimes 0
  have h9 := h1.mul (h2.sqTimes 1)
  have h11 := h2.mul h9
  -- The exponents `2 ^ n - 1`, for 5, 10, 20, 40, 50, 100, 200 and 250.
  have hn5 := h9.mul (h11.sqTimes 0)
  have hn10 := (hn5.sqTimes 4).mul hn5
  have hn20 := (hn10.sqTimes 9).mul hn10
  have hn40 := (hn20.sqTimes 19).mul hn20
  have hn50 := (hn40.sqTimes 9).mul hn10
  have hn100 := (hn50.sqTimes 49).mul hn50
  have hn200 := (hn100.sqTimes 99).mul hn100
  have hn250 := (hn200.sqTimes 49).mul hn50
  have hlast := feMul_represents (hn250.sqTimes 4) h11
  rw [← pow_add] at hlast
  rw [pow_eq_inv x (by norm_num) (by norm_num)] at hlast
  exact hlast

/-! ### Chains of products -/

/-- Limbs that are computed from `z` by products and squares. All intermediate results of the
inversion are. -/
inductive ChainOf (z : Fe) : Fe → Prop
  | start : ChainOf z z
  | mul {f g : Fe} : ChainOf z f → ChainOf z g → ChainOf z (feMul f g)
  | sq {f : Fe} : ChainOf z f → ChainOf z (feSq f)

/-- A chain stays within the bounds of the source. -/
theorem ChainOf.represents {z : Fe} (hz : Represents 330 z x) (hf : ChainOf z f) :
    ∃ y, Represents 330 f y := by
  induction hf with
  | start => exact ⟨x, hz⟩
  | mul _ _ ihf ihg =>
      obtain ⟨y, hf⟩ := ihf
      obtain ⟨y', hg⟩ := ihg
      exact ⟨y * y', (feMul_represents hf hg).mono (by norm_num)⟩
  | sq _ ih =>
      obtain ⟨y, hf⟩ := ih
      exact ⟨y ^ 2, (feSq_represents hf).mono (by norm_num)⟩

/-- **Nothing overflows** in a chain: every product and every square of it fits. -/
theorem ChainOf.fits {z : Fe} (hz : Represents 330 z x) (hf : ChainOf z f) (hg : ChainOf z g) :
    MulFits f g ∧ SqFits f := by
  obtain ⟨y, hf⟩ := hf.represents hz
  obtain ⟨y', hg⟩ := hg.represents hz
  exact ⟨mulFits hf hg, sqFits hf⟩

/-- Squaring again and again stays within the chain of multiplications. -/
theorem ChainOf.sqTimes {z : Fe} (hf : ChainOf z f) (n : ℕ) : ChainOf z (feSqTimes n f) := by
  induction n generalizing f with
  | zero => exact hf
  | succ n ih => exact ih hf.sq

/-- The inverse is computed by a chain. -/
theorem chainOf_feInvert (z : Fe) : ChainOf z (feInvert z) := by
  have h2 := ChainOf.start.sqTimes (z := z) 1
  have h9 := ChainOf.start.mul (h2.sqTimes 2)
  have h11 := h2.mul h9
  have hn5 := h9.mul (h11.sqTimes 1)
  have hn10 := (hn5.sqTimes 5).mul hn5
  have hn20 := (hn10.sqTimes 10).mul hn10
  have hn40 := (hn20.sqTimes 20).mul hn20
  have hn50 := (hn40.sqTimes 10).mul hn10
  have hn100 := (hn50.sqTimes 50).mul hn50
  have hn200 := (hn100.sqTimes 100).mul hn100
  have hn250 := (hn200.sqTimes 50).mul hn50
  exact (hn250.sqTimes 5).mul h11

end Products

end FalconVanity
