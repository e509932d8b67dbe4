import FalconVanity.Foundation.Dif
import FalconVanity.Foundation.Montgomery
import FalconVanity.Foundation.Words
import Mathlib.Algebra.Field.ZMod

/-!
# Arithmetic Modulo Small Primes

The solver of the NTRU equation computes modulo primes of 31 bits, on 32-bit words. A word
stands for its class, and products are in Montgomery form with the radix `2 ^ 31`: the
intermediate results have 64 bits. Unlike the operations modulo `q`, these take the prime as an
argument, and with it its negated inverse, which is computed by Newton's iteration.

## Main results

* `modpNinv31_spec`: the negated inverse, for every odd number of 31 bits.
* `Residue.add`, `Residue.sub`, `Residue.montymul`: the operations on classes.
* `residue_modpR2`, `Residue.div`: the square of the radix, and division.
-/

namespace FalconVanity

/-! ### The operations -/

/-- `modp_set`: a small signed number as a residue. -/
def modpSet (x : Int32) (p : UInt32) : UInt32 :=
  let w := x.toUInt32
  w + (p &&& ((0 : UInt32) - (w >>> 31)))

/-- `modp_ninv31`: the Montgomery constant of a prime, by Newton steps. -/
def modpNinv31 (p : UInt32) : UInt32 :=
  let y := 2 - p
  let y := y * (2 - p * y)
  let y := y * (2 - p * y)
  let y := y * (2 - p * y)
  let y := y * (2 - p * y)
  0x7FFFFFFF &&& ((0 : UInt32) - y)

/-- `modp_R`: the Montgomery radix as a residue. -/
def modpR (p : UInt32) : UInt32 := (1 : UInt32) <<< 31 - p

/-- `modp_add`: the sum of residues. -/
def modpAdd (a b p : UInt32) : UInt32 :=
  let d := a + b - p
  d + (p &&& ((0 : UInt32) - (d >>> 31)))

/-- `modp_sub`: the difference of residues. -/
def modpSub (a b p : UInt32) : UInt32 :=
  let d := a - b
  d + (p &&& ((0 : UInt32) - (d >>> 31)))

/-- `modp_montymul`: the Montgomery product of residues. -/
def modpMontymul (a b p p0i : UInt32) : UInt32 :=
  let z := a.toUInt64 * b.toUInt64
  let w := ((z * p0i.toUInt64) &&& 0x7FFFFFFF) * p.toUInt64
  let d := ((z + w) >>> 31).toUInt32 - p
  d + (p &&& ((0 : UInt32) - (d >>> 31)))

/-- `modp_R2`: the square of the Montgomery radix as a residue, by doublings and Montgomery
products. -/
def modpR2 (p p0i : UInt32) : UInt32 :=
  let z := modpR p
  let z := modpAdd z z p
  let z := modpMontymul z z p p0i
  let z := modpMontymul z z p p0i
  let z := modpMontymul z z p p0i
  let z := modpMontymul z z p p0i
  let z := modpMontymul z z p p0i
  (z + (p &&& ((0 : UInt32) - (z &&& 1)))) >>> 1

/-- The body of the loop of `modp_div`, for bit `i` of the exponent `e`. -/
def modpDivStep (b p p0i e z : UInt32) (i : ℕ) : UInt32 :=
  let z := modpMontymul z z p p0i
  let z2 := modpMontymul z b p p0i
  z ^^^ ((z ^^^ z2) &&& ((0 : UInt32) - ((e >>> i.toUInt32) &&& 1)))

/-- `modp_div`: `i` counts down from 30. -/
def modpDiv (a b p p0i R : UInt32) : UInt32 :=
  let e := p - 2
  let z := (List.range 31).foldl (fun z k => modpDivStep b p p0i e z (30 - k)) R
  let z := modpMontymul z 1 p p0i
  modpMontymul a z p p0i

/-! ### The negated inverse -/

/-- A step of Newton's iteration squares the error. -/
theorem newton_step (p y : UInt32) : 1 - p * (y * (2 - p * y)) = (1 - p * y) * (1 - p * y) := by
  grind

/-- An odd number differs from one by an even one. -/
theorem exists_one_sub_eq {p : UInt32} (hp : p.toNat % 2 = 1) : ∃ c : UInt32, 1 - p = 2 * c := by
  refine ⟨-UInt32.ofNat (p.toNat / 2), ?_⟩
  have hsplit : p = 1 + 2 * UInt32.ofNat (p.toNat / 2) := by
    apply UInt32.toNat_inj.mp
    have hlt := p.toNat_lt
    rw [UInt32.toNat_add, UInt32.toNat_mul, UInt32.toNat_ofNat']
    change _ = (1 + 2 * (p.toNat / 2 % 2 ^ 32) % 2 ^ 32) % 2 ^ 32
    omega
  generalize UInt32.ofNat (p.toNat / 2) = d at hsplit
  rw [hsplit]
  grind

/-- The iteration ends with an inverse: the error of the start is even, and is raised to the
power 32. -/
theorem modpNinv31_eq {p : UInt32} (hp : p.toNat % 2 = 1) :
    ∃ y, p * y = 1 ∧ modpNinv31 p = 0x7FFFFFFF &&& ((0 : UInt32) - y) := by
  obtain ⟨c, hc⟩ := exists_one_sub_eq hp
  refine ⟨_, ?_, rfl⟩
  have h₀ : 1 - p * (2 - p) = 4 * (c * c) := by grind
  generalize 2 - p = y₀ at h₀
  have h₁ : 1 - p * (y₀ * (2 - p * y₀)) = 16 * (c * c * (c * c)) := by
    rw [newton_step, h₀]
    grind
  generalize y₀ * (2 - p * y₀) = y₁ at h₁
  generalize c * c * (c * c) = d at h₁
  have h₂ : 1 - p * (y₁ * (2 - p * y₁)) = 256 * (d * d) := by
    rw [newton_step, h₁]
    grind
  generalize y₁ * (2 - p * y₁) = y₂ at h₂
  have h₃ : 1 - p * (y₂ * (2 - p * y₂)) = 65536 * (d * d * (d * d)) := by
    rw [newton_step, h₂]
    grind
  generalize y₂ * (2 - p * y₂) = y₃ at h₃
  generalize d * d * (d * d) = e at h₃
  have hwrap : (65536 : UInt32) * 65536 = 0 := rfl
  have h₄ : 1 - p * (y₃ * (2 - p * y₃)) = 0 := by
    calc 1 - p * (y₃ * (2 - p * y₃)) = 65536 * 65536 * (e * e) := by
          rw [newton_step, h₃]
          grind
      _ = 0 := by rw [hwrap, UInt32.zero_mul]
  generalize y₃ * (2 - p * y₃) = y at h₄
  grind

/-- **The negated inverse** of an odd number. -/
theorem modpNinv31_spec {p : UInt32} (hp : p.toNat % 2 = 1) :
    2 ^ 31 ∣ p.toNat * (modpNinv31 p).toNat + 1 := by
  obtain ⟨y, hone, hy⟩ := modpNinv31_eq hp
  have hmul : p.toNat * y.toNat % 2 ^ 32 = 1 := by
    rw [← UInt32.toNat_mul, hone]
    rfl
  have hneg : (modpNinv31 p).toNat = (2 ^ 32 - y.toNat) % 2 ^ 31 := by
    have hmask := Words.UInt32.toNat_and_mask (0 - y) 0x7FFFFFFF (k := 31) rfl
    have hsub : (0 - y).toNat = (2 ^ 32 - y.toNat + 0) % 2 ^ 32 := UInt32.toNat_sub 0 y
    rw [hy, UInt32.and_comm, hmask, hsub, Nat.add_zero, Nat.mod_mod_of_dvd _ (by norm_num)]
  have hsum : 2 ^ 31 ∣ y.toNat + (modpNinv31 p).toNat := by
    have hlt := y.toNat_lt
    rw [hneg]
    omega
  have hprod : 2 ^ 31 ∣ p.toNat * y.toNat + p.toNat * (modpNinv31 p).toNat := by
    rw [← Nat.mul_add]
    exact hsum.mul_left _
  omega

/-! ### Classes -/

/-- What the operations need of a modulus, with its negated inverse. It has 31 bits, so that a sum
of two residues fits in a word. -/
structure Modulus31 (p p0i : UInt32) : Prop where
  lt : p.toNat < 2 ^ 31
  ge : 2 ^ 30 < p.toNat
  inv : 2 ^ 31 ∣ p.toNat * p0i.toNat + 1

/-- The word `x` is the residue of `v`. It is the least one, below the modulus. -/
structure Residue (p x : UInt32) (v : ZMod p.toNat) : Prop where
  lt : x.toNat < p.toNat
  cast : (x.toNat : ZMod p.toNat) = v

section Classes

variable {p p0i x y : UInt32} {v w : ZMod p.toNat}

/-- The residue of a class is unique. -/
theorem Residue.unique (hx : Residue p x v) (hy : Residue p y v) : x = y := by
  have hcast := hx.cast.trans hy.cast.symm
  rw [ZMod.natCast_eq_natCast_iff', Nat.mod_eq_of_lt hx.lt, Nat.mod_eq_of_lt hy.lt] at hcast
  exact UInt32.toNat_inj.mp hcast

/-- The classes of two residues. -/
theorem Residue.eq_iff (hx : Residue p x v) (hy : Residue p y w) : x = y ↔ v = w := by
  constructor
  · rintro rfl
    exact hx.cast.symm.trans hy.cast
  · rintro rfl
    exact hx.unique hy

/-- One conditional subtraction. -/
theorem Residue.reduceOnce (hp : p.toNat < 2 ^ 31) (hx : x.toNat < 2 * p.toNat)
    (hv : (x.toNat : ZMod p.toNat) = v) :
    Residue p ((x - p) + (p &&& ((0 : UInt32) - ((x - p) >>> 31)))) v := by
  have hval := Words.UInt32.toNat_reduceOnce hp hx
  by_cases hlt : x.toNat < p.toNat
  · rw [if_pos hlt] at hval
    exact ⟨by omega, by rw [hval, hv]⟩
  · rw [if_neg hlt] at hval
    refine ⟨by omega, ?_⟩
    rw [hval, Nat.cast_sub (by omega), ZMod.natCast_self, sub_zero, hv]

/-- **Addition.** -/
theorem Residue.add (hp : Modulus31 p p0i) (hx : Residue p x v) (hy : Residue p y w) :
    Residue p (modpAdd x y p) (v + w) := by
  have hxlt := hx.lt
  have hylt := hy.lt
  have hplt := hp.lt
  have hsum : (x + y).toNat = x.toNat + y.toNat := by
    rw [UInt32.toNat_add]
    omega
  exact Residue.reduceOnce hplt (by omega) (by rw [hsum, Nat.cast_add, hx.cast, hy.cast])

/-- **Subtraction.** -/
theorem Residue.sub (hp : Modulus31 p p0i) (hx : Residue p x v) (hy : Residue p y w) :
    Residue p (modpSub x y p) (v - w) := by
  have hxlt := hx.lt
  have hylt := hy.lt
  have hplt := hp.lt
  have hval := Words.UInt32.toNat_sub_addBack (x := x) (y := y) (q := p)
    (by omega) (by omega) (by omega) (by omega)
  change (modpSub x y p).toNat = _ at hval
  by_cases hlt : x.toNat < y.toNat
  · rw [if_pos hlt] at hval
    refine ⟨by omega, ?_⟩
    rw [hval, Nat.cast_sub (by omega), Nat.cast_add, hx.cast, hy.cast, ZMod.natCast_self,
      add_zero]
  · rw [if_neg hlt] at hval
    refine ⟨by omega, ?_⟩
    rw [hval, Nat.cast_sub (by omega), hx.cast, hy.cast]

/-- A small integer as a difference of natural numbers. -/
theorem toUInt32_toNat_eq (x : Int32) :
    x.toUInt32 = UInt32.ofNat x.toInt.toNat - UInt32.ofNat (-x.toInt).toNat := by
  have hlo := x.le_toInt
  have hhi := x.toInt_lt
  have hint := Words.UInt32.toInt_toInt32 x.toUInt32
  have hlt := x.toUInt32.toNat_lt
  rw [Int32.toInt32_toUInt32] at hint
  apply UInt32.toNat_inj.mp
  rw [UInt32.toNat_sub, UInt32.toNat_ofNat', UInt32.toNat_ofNat']
  split at hint <;> omega

/-- **A small signed integer.** -/
theorem residue_modpSet (hp : Modulus31 p p0i) {x : Int32} (hx : |x.toInt| < p.toNat) :
    Residue p (modpSet x p) (x.toInt : ZMod p.toNat) := by
  obtain ⟨hlo, hhi⟩ := abs_lt.mp hx
  have hplt := hp.lt
  have hpos : (UInt32.ofNat x.toInt.toNat).toNat = x.toInt.toNat := by
    rw [UInt32.toNat_ofNat', Nat.mod_eq_of_lt (by omega)]
  have hneg : (UInt32.ofNat (-x.toInt).toNat).toNat = (-x.toInt).toNat := by
    rw [UInt32.toNat_ofNat', Nat.mod_eq_of_lt (by omega)]
  have hsub := Residue.sub (v := (x.toInt.toNat : ZMod p.toNat))
    (w := ((-x.toInt).toNat : ZMod p.toNat)) hp
    ⟨by rw [hpos]; omega, by rw [hpos]⟩ ⟨by rw [hneg]; omega, by rw [hneg]⟩
  rw [modpSub, ← toUInt32_toNat_eq] at hsub
  have hint : x.toInt = (x.toInt.toNat : ℤ) - ((-x.toInt).toNat : ℤ) := by omega
  have hcast := congrArg (Int.cast : ℤ → ZMod p.toNat) hint
  rw [Int.cast_sub, Int.cast_natCast, Int.cast_natCast] at hcast
  rw [hcast]
  exact hsub

/-! ### Products -/

/-- The radix of the products. -/
abbrev radix31 : ℕ := 2 ^ 31

/-- The radix as a residue. -/
theorem residue_modpR (hp : Modulus31 p p0i) :
    Residue p (modpR p) ((radix31 : ℕ) : ZMod p.toNat) := by
  have hlt := hp.lt
  have hge := hp.ge
  have hval : (modpR p).toNat = 2 ^ 31 - p.toNat := by
    have hone : ((1 : UInt32) <<< 31).toNat = 2 ^ 31 := rfl
    have hle : p ≤ (1 : UInt32) <<< 31 := UInt32.le_iff_toNat_le.mpr (by omega)
    rw [modpR, UInt32.toNat_sub_of_le _ _ hle, hone]
  refine ⟨by omega, ?_⟩
  rw [hval, Nat.cast_sub hlt.le, ZMod.natCast_self, sub_zero]

variable [Fact p.toNat.Prime]

theorem radix31_ne_zero (hp : Modulus31 p p0i) : ((radix31 : ℕ) : ZMod p.toNat) ≠ 0 := by
  have hR := residue_modpR hp
  have hlt := hp.lt
  have hge := hp.ge
  rw [Ne, ZMod.natCast_eq_zero_iff]
  intro hdvd
  have hpow := (Nat.prime_dvd_prime_iff_eq Fact.out Nat.prime_two).mp
    (Nat.Prime.dvd_of_dvd_pow Fact.out hdvd)
  omega

/-- **Montgomery multiplication** divides the product by the radix. -/
theorem Residue.montymul (hp : Modulus31 p p0i) (hx : Residue p x v) (hy : Residue p y w) :
    Residue p (modpMontymul x y p p0i) (v * w / (radix31 : ℕ)) := by
  have hplt := hp.lt
  have hprod : x.toNat * y.toNat < p.toNat * 2 ^ 31 := Nat.mul_lt_mul'' hx.lt (hy.lt.trans hplt)
  have hbound : p.toNat * 2 ^ 31 ≤ 2 ^ 31 * 2 ^ 31 := Nat.mul_le_mul_right _ hplt.le
  have hz : (x.toUInt64 * y.toUInt64).toNat = x.toNat * y.toNat := by
    rw [UInt64.toNat_mul, UInt32.toNat_toUInt64, UInt32.toNat_toUInt64]
    omega
  have hlow : ((x.toUInt64 * y.toUInt64 * p0i.toUInt64) &&& 0x7FFFFFFF).toNat =
      x.toNat * y.toNat * p0i.toNat % 2 ^ 31 := by
    have hmask : (0x7FFFFFFF : UInt64).toNat = 2 ^ 31 - 1 := rfl
    rw [UInt64.toNat_and, hmask, Nat.and_two_pow_sub_one_eq_mod, UInt64.toNat_mul, hz,
      UInt32.toNat_toUInt64, Nat.mod_mod_of_dvd _ (by norm_num)]
  have hfill := Montgomery.fill_le (R := 2 ^ 31) (q := p.toNat) (p := p0i.toNat) (by norm_num)
    (x.toNat * y.toNat)
  have hfillBound : (2 ^ 31 - 1) * p.toNat ≤ 2 ^ 31 * 2 ^ 31 := Nat.mul_le_mul (by omega) hplt.le
  have hw : (((x.toUInt64 * y.toUInt64 * p0i.toUInt64) &&& 0x7FFFFFFF) * p.toUInt64).toNat =
      Montgomery.fill (2 ^ 31) p.toNat p0i.toNat (x.toNat * y.toNat) := by
    rw [UInt64.toNat_mul, hlow, UInt32.toNat_toUInt64]
    change Montgomery.fill _ _ _ _ % 2 ^ 64 = _
    omega
  have hreduce := Montgomery.reduce_lt (p := p0i.toNat) (by norm_num) hprod
  have hadd : (x.toUInt64 * y.toUInt64 + ((x.toUInt64 * y.toUInt64 * p0i.toUInt64) &&&
      0x7FFFFFFF) * p.toUInt64).toNat =
      x.toNat * y.toNat + Montgomery.fill (2 ^ 31) p.toNat p0i.toNat (x.toNat * y.toNat) := by
    rw [UInt64.toNat_add, hz, hw, Nat.mod_eq_of_lt (by omega)]
  have hsum : (((x.toUInt64 * y.toUInt64 + ((x.toUInt64 * y.toUInt64 * p0i.toUInt64) &&&
      0x7FFFFFFF) * p.toUInt64) >>> 31).toUInt32).toNat =
      Montgomery.reduce (2 ^ 31) p.toNat p0i.toNat (x.toNat * y.toNat) := by
    rw [UInt64.toNat_toUInt32, UInt64.toNat_shiftRight, hadd]
    change _ >>> 31 % 2 ^ 32 = _
    rw [Nat.shiftRight_eq_div_pow]
    exact Nat.mod_eq_of_lt (hreduce.trans (by omega))
  refine Residue.reduceOnce hplt (by rw [hsum]; exact hreduce) ?_
  rw [hsum, eq_div_iff (radix31_ne_zero hp), Montgomery.cast_reduce hp.inv, Nat.cast_mul, hx.cast,
    hy.cast]

/-- A product with a factor in Montgomery form. -/
theorem Residue.montymul_right (hp : Modulus31 p p0i) (hx : Residue p x v)
    (hy : Residue p y (w * (radix31 : ℕ))) : Residue p (modpMontymul x y p p0i) (v * w) := by
  have hprod := hx.montymul hp hy
  rwa [← mul_assoc, mul_div_cancel_right₀ _ (radix31_ne_zero hp)] at hprod

/-- A product of two factors in Montgomery form is in Montgomery form. -/
theorem Residue.montymul_monty (hp : Modulus31 p p0i) (hx : Residue p x (v * (radix31 : ℕ)))
    (hy : Residue p y (w * (radix31 : ℕ))) :
    Residue p (modpMontymul x y p p0i) (v * w * (radix31 : ℕ)) := by
  rw [mul_right_comm]
  exact hx.montymul_right hp hy

theorem two_ne_zero_of_modulus (hp : Modulus31 p p0i) : ((2 : ℕ) : ZMod p.toNat) ≠ 0 := by
  intro h
  refine radix31_ne_zero hp ?_
  rw [Nat.cast_pow, h, zero_pow (by norm_num)]

/-- Halving: an odd residue is made even by adding `p`. -/
theorem Residue.half (hp : Modulus31 p p0i) (hx : Residue p x v) :
    Residue p ((x + (p &&& ((0 : UInt32) - (x &&& 1)))) >>> 1) (v / (2 : ℕ)) := by
  have hxlt := hx.lt
  have hplt := hp.lt
  have hodd : p.toNat % 2 = 1 := by
    obtain ⟨c, hc⟩ := hp.inv
    rcases Nat.mod_two_eq_zero_or_one p.toNat with h | h
    · have heven : p.toNat * p0i.toNat % 2 = 0 := by rw [Nat.mul_mod, h, Nat.zero_mul, Nat.zero_mod]
      omega
    · exact h
  have hbit : (x &&& 1).toNat = x.toNat % 2 := by
    rw [UInt32.toNat_and]
    exact Nat.and_one_is_mod _
  have hval : 2 * ((x + (p &&& ((0 : UInt32) - (x &&& 1)))) >>> 1).toNat =
      x.toNat + x.toNat % 2 * p.toNat := by
    rw [Words.UInt32.toNat_shiftRight_of_lt _ 1 (k := 1) rfl (by norm_num)]
    rcases Nat.mod_two_eq_zero_or_one x.toNat with h | h
    · have hmask : x &&& 1 = 0 := UInt32.toNat_inj.mp (by rw [hbit, h]; rfl)
      have hnone : (0 : UInt32) - 0 = 0 := rfl
      rw [hmask, hnone, UInt32.and_zero, UInt32.add_zero, h]
      omega
    · have hmask : x &&& 1 = 1 := UInt32.toNat_inj.mp (by rw [hbit, h]; rfl)
      have hall : (0 : UInt32) - 1 = -1 := rfl
      rw [hmask, hall, UInt32.and_neg_one, UInt32.toNat_add, h]
      omega
  have hmul : x.toNat % 2 * p.toNat ≤ 1 * p.toNat := Nat.mul_le_mul_right _ (by omega)
  refine ⟨by omega, ?_⟩
  have hcast := congrArg (Nat.cast : ℕ → ZMod p.toNat) hval
  rw [Nat.cast_mul, Nat.cast_add, Nat.cast_mul _ p.toNat, ZMod.natCast_self, mul_zero, add_zero,
    hx.cast] at hcast
  rw [eq_div_iff (two_ne_zero_of_modulus hp), mul_comm, hcast]

/-- **The square of the radix**: one, doubled and squared five times, is the radix in twice
Montgomery form, twice. -/
theorem residue_modpR2 (hp : Modulus31 p p0i) :
    Residue p (modpR2 p p0i) ((radix31 : ℕ) * (radix31 : ℕ)) := by
  let two : ZMod p.toNat := (2 : ℕ)
  have h₀ := (residue_modpR hp).add hp (residue_modpR hp)
  have hdouble : ((radix31 : ℕ) : ZMod p.toNat) + (radix31 : ℕ) = two ^ 1 * (radix31 : ℕ) := by
    rw [pow_one, ← two_mul, ← Nat.cast_two]
  have h₁ := hdouble ▸ h₀
  have hsq : ∀ {z : UInt32} {k : ℕ}, Residue p z (two ^ k * (radix31 : ℕ)) →
      Residue p (modpMontymul z z p p0i) (two ^ (2 * k) * (radix31 : ℕ)) := by
    intro z k hz
    rw [two_mul, pow_add]
    exact hz.montymul_monty hp hz
  have h₅ := (hsq (hsq (hsq (hsq (hsq h₁))))).half hp
  have hpow : two ^ 32 = (radix31 : ℕ) * two := by
    rw [Nat.cast_pow]
    exact pow_succ two 31
  have hval : two ^ (2 * (2 * (2 * (2 * (2 * 1))))) * ((radix31 : ℕ) : ZMod p.toNat) / (2 : ℕ) =
      (radix31 : ℕ) * (radix31 : ℕ) := by
    rw [hpow, mul_right_comm, mul_div_cancel_right₀ _ (two_ne_zero_of_modulus hp)]
  rw [hval] at h₅
  exact h₅

/-! ### Division -/

/-- The power that inverts. -/
theorem pow_sub_two_eq_inv (hp : Modulus31 p p0i) (v : ZMod p.toNat) : v ^ (p.toNat - 2) = v⁻¹ := by
  have hge := hp.ge
  rcases eq_or_ne v 0 with rfl | hv
  · rw [zero_pow (by omega), inv_zero]
  · refine eq_inv_of_mul_eq_one_left ?_
    have hsucc : p.toNat - 2 + 1 = p.toNat - 1 := by omega
    rw [← pow_succ, hsucc, ZMod.pow_card_sub_one_eq_one hv]

/-- The choice between two words by a bit. -/
theorem select_eq (z z2 bit : UInt32) (hbit : bit.toNat < 2) :
    z ^^^ ((z ^^^ z2) &&& ((0 : UInt32) - bit)) = if bit.toNat = 1 then z2 else z := by
  rcases Nat.lt_succ_iff_lt_or_eq.mp hbit with h | h
  · obtain rfl : bit = 0 := UInt32.toNat_inj.mp (Nat.lt_one_iff.mp h)
    have hnone : (0 : UInt32) - 0 = 0 := rfl
    rw [hnone, UInt32.and_zero, UInt32.xor_zero]
    rfl
  · obtain rfl : bit = 1 := UInt32.toNat_inj.mp h
    have hall : (0 : UInt32) - 1 = -1 := rfl
    rw [hall, UInt32.and_neg_one, ← UInt32.xor_assoc, UInt32.xor_self, UInt32.zero_xor]
    rfl

/-- One bit of the exponent. -/
theorem residue_modpDivStep (hp : Modulus31 p p0i) {b e z : UInt32} {E i : ℕ} (hb : Residue p b w)
    (hi : i < 31) (hE : E = e.toNat / 2 ^ (i + 1))
    (hz : Residue p z ((w / (radix31 : ℕ)) ^ E * (radix31 : ℕ))) :
    Residue p (modpDivStep b p p0i e z i)
      ((w / (radix31 : ℕ)) ^ (e.toNat / 2 ^ i) * (radix31 : ℕ)) := by
  have hshift : (i.toUInt32).toNat = i := by
    rw [Nat.toUInt32, UInt32.toNat_ofNat', Nat.mod_eq_of_lt (by omega)]
  have hbit : ((e >>> i.toUInt32) &&& 1).toNat = e.toNat / 2 ^ i % 2 := by
    rw [UInt32.toNat_and, Words.UInt32.toNat_shiftRight_of_lt e _ hshift (by omega)]
    exact Nat.and_one_is_mod _
  have hsq := hz.montymul_monty hp hz
  have hb' : Residue p b (w / (radix31 : ℕ) * (radix31 : ℕ)) := by
    rwa [div_mul_cancel₀ _ (radix31_ne_zero hp)]
  have hmul := hsq.montymul_monty hp hb'
  have hhalf : e.toNat / 2 ^ i / 2 = E := by rw [hE, pow_succ, Nat.div_div_eq_div_mul]
  rw [modpDivStep, select_eq _ _ _ (by rw [hbit]; omega), hbit]
  rcases Nat.mod_two_eq_zero_or_one (e.toNat / 2 ^ i) with h | h
  · have hexp : e.toNat / 2 ^ i = E + E := by omega
    rw [h, if_neg (by norm_num), hexp, pow_add]
    exact hsq
  · have hexp : e.toNat / 2 ^ i = E + E + 1 := by omega
    rw [h, if_pos rfl, hexp, pow_succ, pow_add]
    exact hmul

/-- **Division**, of which the divisor may be zero. -/
theorem Residue.div (hp : Modulus31 p p0i) {a b : UInt32} (ha : Residue p a v)
    (hb : Residue p b w) : Residue p (modpDiv a b p p0i (modpR p)) (v / w) := by
  have hge := hp.ge
  have hlt := hp.lt
  have hR := radix31_ne_zero hp
  have he : (p - 2).toNat = p.toNat - 2 := by
    have hle : (2 : UInt32) ≤ p := UInt32.le_iff_toNat_le.mpr (by change 2 ≤ _; omega)
    rw [UInt32.toNat_sub_of_le _ _ hle]
    rfl
  have hloop : Residue p
      ((List.range 31).foldl (fun z k => modpDivStep b p p0i (p - 2) z (30 - k)) (modpR p))
      ((w / (radix31 : ℕ)) ^ ((p - 2).toNat / 2 ^ (31 - 31)) * (radix31 : ℕ)) := by
    refine Dif.foldl_range_inv (fun k z => Residue p z
      ((w / (radix31 : ℕ)) ^ ((p - 2).toNat / 2 ^ (31 - k)) * (radix31 : ℕ))) ?_ ?_
    · have hzero : (p - 2).toNat / 2 ^ (31 - 0) = 0 := Nat.div_eq_of_lt (by rw [he]; omega)
      rw [hzero, pow_zero, one_mul]
      exact residue_modpR hp
    · intro k hk z hz
      have hindex : 31 - (k + 1) = 30 - k := by omega
      have hnext : 30 - k + 1 = 31 - k := by omega
      rw [hindex]
      exact residue_modpDivStep hp hb (by omega) (by rw [hnext]) hz
  rw [Nat.sub_self, pow_zero, Nat.div_one, he, pow_sub_two_eq_inv hp, inv_div] at hloop
  have hone : Residue p 1 1 :=
    ⟨by change 1 < _; omega, by change ((1 : ℕ) : ZMod p.toNat) = 1; simp⟩
  have hlast := ha.montymul hp (hloop.montymul hp hone)
  have hval : v * ((radix31 : ℕ) / w * (radix31 : ℕ) * 1 / (radix31 : ℕ)) / (radix31 : ℕ) =
      v / w := by
    rw [mul_one, mul_div_cancel_right₀ _ hR, ← mul_div_assoc, div_right_comm,
      mul_div_cancel_right₀ _ hR]
  rw [hval] at hlast
  exact hlast

end Classes

end FalconVanity
