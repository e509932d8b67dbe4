import FalconVanity.Foundation.Field25519
import FalconVanity.Foundation.SignedDigits
import FalconVanity.Mnemonic
import Mathlib.Data.ZMod.ValMinAbs

/-!
# Field Elements

The vendored representation of the field with `2 ^ 255 - 19` elements: ten limbs in a radix of
25.5 bits, which are signed and not unique. Additions and subtractions are limb by limb, and
nothing is carried: that they do not overflow rests on the bounds of their arguments, in
hundredths of the nominal size of a limb, as the source states them.

Multiplication and what is built on it are parameters, bundled in `FieldCode`, with what the
source promises of them in `FieldCode.Implements`.

## Main results

* `Represents.add`, `Represents.sub`, `Represents.neg`: the functions on limbs.
* `exactField_implements`: functions that keep the promise.
-/

namespace FalconVanity

open Field25519 Finset

/-- `fe`: a field element in ten limbs, of 26 and 25 bits in turn. -/
abbrev Fe := Vector Int32 10

/-! ### Functions on limbs -/

/-- `fe_0`: the element zero. -/
def fe0 : Fe := #v[0, 0, 0, 0, 0, 0, 0, 0, 0, 0]

/-- `fe_1`: the element one. -/
def fe1 : Fe := #v[1, 0, 0, 0, 0, 0, 0, 0, 0, 0]

/-- `fe_add`: the sum, limb by limb, with no carries. -/
def feAdd (f g : Fe) : Fe := Vector.zipWith (· + ·) f g

/-- `fe_sub`: the difference, limb by limb, with no carries. -/
def feSub (f g : Fe) : Fe := Vector.zipWith (· - ·) f g

/-- `fe_neg`: the negative, limb by limb. -/
def feNeg (f : Fe) : Fe := f.map (- ·)

/-- `fe_copy`: a copy. -/
def feCopy (f : Fe) : Fe := f

/-- `fe_cmov`: the limbs of `f` after it. -/
def feCmov (f g : Fe) (b : UInt32) : Fe :=
  Vector.zipWith (fun fi gi => fi ^^^ ((fi ^^^ gi) &&& -b.toInt32)) f g

/-! ### Elements -/

/-- The exponent of the radix at a limb: the next multiple of 25.5. -/
def limbShift (i : ℕ) : ℕ := (51 * i + 1) / 2

/-- The element that some limbs stand for. -/
def feValue (f : Fe) : ZMod q := (∑ i : Fin 10, f[i].toInt * 2 ^ limbShift i : ℤ)

/-- Limbs for an element, whose size is at most `n` hundredths of the nominal one: 25 bits and
24 bits in turn. -/
structure Represents (n : ℕ) (f : Fe) (x : ZMod q) : Prop where
  bounded : ∀ i : Fin 10, 100 * |f[i].toInt| ≤ n * 2 ^ (25 - i.val % 2)
  value : feValue f = x

section Limbs

variable {m n : ℕ} {f g : Fe} {x y : ZMod q}

/-- Tighter bounds are bounds. -/
theorem Represents.mono (hf : Represents m f x) (hmn : m ≤ n) : Represents n f x where
  bounded i := (hf.bounded i).trans (by gcongr)
  value := hf.value

/-- The limbs of zero. -/
theorem represents_zero : Represents 101 fe0 0 where
  bounded := by decide
  value := by simp [feValue, fe0, Fin.sum_univ_succ]

/-- The limbs of one. -/
theorem represents_one : Represents 101 fe1 1 where
  bounded := by decide
  value := by simp [feValue, fe1, Fin.sum_univ_succ, limbShift]

/-- A limb within 64 times its nominal size fits. -/
theorem bmod_limb {z : ℤ} {i : Fin 10} (hn : n < 6400)
    (hz : 100 * |z| ≤ n * 2 ^ (25 - i.val % 2)) : z.bmod (2 ^ 32) = z := by
  have hpow : (2 : ℤ) ^ (25 - i.val % 2) ≤ 2 ^ 25 := by gcongr <;> omega
  have hn' : (n : ℤ) ≤ 6399 := by exact_mod_cast Nat.le_of_lt_succ hn
  have hle : 100 * |z| ≤ 6399 * 2 ^ 25 := hz.trans (by gcongr)
  have habs : |z| ≤ 64 * 2 ^ 25 - 1 := by omega
  obtain ⟨hlo, hhi⟩ := abs_le.mp habs
  apply Int.bmod_eq_of_le
  · omega
  · omega

/-- Limbs that are computed without overflow. -/
theorem represents_of_limbs (hn : n < 6400) (z : Fin 10 → ℤ)
    (hf : ∀ i : Fin 10, f[i].toInt = (z i).bmod (2 ^ 32))
    (hz : ∀ i : Fin 10, 100 * |z i| ≤ n * 2 ^ (25 - i.val % 2)) :
    Represents n f (∑ i : Fin 10, z i * 2 ^ limbShift i : ℤ) := by
  have hlimb : ∀ i : Fin 10, f[i].toInt = z i := fun i => (hf i).trans (bmod_limb hn (hz i))
  constructor
  · intro i
    rw [hlimb i]
    exact hz i
  · rw [feValue, sum_congr rfl fun i _ => by rw [hlimb i]]

/-- **The sum**, as long as the bounds are small. -/
theorem Represents.add (hf : Represents m f x) (hg : Represents n g y) (hmn : m + n < 6400) :
    Represents (m + n) (feAdd f g) (x + y) := by
  have hrep : Represents (m + n) (feAdd f g)
      (∑ i : Fin 10, (f[i].toInt + g[i].toInt) * 2 ^ limbShift i : ℤ) := by
    refine represents_of_limbs hmn _ (fun i => by simp [feAdd]) fun i => ?_
    have htri := abs_add_le f[i].toInt g[i].toInt
    have hfi := hf.bounded i
    have hgi := hg.bounded i
    push_cast
    linarith
  rw [← hf.value, ← hg.value, feValue, feValue, ← Int.cast_add, ← sum_add_distrib]
  simpa only [add_mul] using hrep

/-- **The difference**, as long as the bounds are small. -/
theorem Represents.sub (hf : Represents m f x) (hg : Represents n g y) (hmn : m + n < 6400) :
    Represents (m + n) (feSub f g) (x - y) := by
  have hrep : Represents (m + n) (feSub f g)
      (∑ i : Fin 10, (f[i].toInt - g[i].toInt) * 2 ^ limbShift i : ℤ) := by
    refine represents_of_limbs hmn _ (fun i => by simp [feSub]) fun i => ?_
    have htri := abs_sub f[i].toInt g[i].toInt
    have hfi := hf.bounded i
    have hgi := hg.bounded i
    push_cast
    linarith
  rw [← hf.value, ← hg.value, feValue, feValue, ← Int.cast_sub, ← sum_sub_distrib]
  simpa only [sub_mul] using hrep

/-- **The negative** has the same bounds. -/
theorem Represents.neg (hf : Represents n f x) (hn : n < 6400) :
    Represents n (feNeg f) (-x) := by
  have hrep : Represents n (feNeg f)
      (∑ i : Fin 10, -f[i].toInt * 2 ^ limbShift i : ℤ) := by
    refine represents_of_limbs hn _ (fun i => by simp [feNeg]) fun i => ?_
    rw [abs_neg]
    exact hf.bounded i
  rw [← hf.value, feValue, ← Int.cast_neg, ← sum_neg_distrib]
  simpa only [neg_mul] using hrep

/-- **A conditional move** of a flag. -/
theorem feCmov_flag (f g : Fe) (c : Prop) [Decidable c] :
    feCmov f g (if c then 1 else 0) = if c then g else f := by
  ext i hi
  rw [feCmov, Vector.getElem_zipWith]
  split
  · change f[i] ^^^ ((f[i] ^^^ g[i]) &&& -1) = g[i]
    rw [Int32.and_neg_one, ← Int32.xor_assoc, Int32.xor_self, Int32.zero_xor]
  · change f[i] ^^^ ((f[i] ^^^ g[i]) &&& 0) = f[i]
    rw [Int32.and_zero, Int32.xor_zero]

end Limbs

/-! ### Multiplication -/

/-- The functions of the vendored code that carry from limb to limb. The functions without carries
are below; these are a parameter of what rests on them. -/
structure FieldCode where
  /-- `fe_mul` -/
  feMul : Fe → Fe → Fe
  /-- `fe_sq` -/
  feSq : Fe → Fe
  /-- `fe_sq2` -/
  feSq2 : Fe → Fe
  /-- `fe_invert` -/
  feInvert : Fe → Fe
  /-- `fe_tobytes` -/
  feTobytes : Fe → Bytes32

/-- `fe_isnegative`: the parity of the representative below `q`. -/
def FieldCode.feIsnegative (F : FieldCode) (f : Fe) : UInt8 := (F.feTobytes f)[0]! &&& 1

/-- **The field**, as the functions compute it within the bounds that the source gives. The bytes
of an element do not depend on its limbs. -/
structure FieldCode.Implements (F : FieldCode) : Prop where
  mul : ∀ {f g x y}, Represents 330 f x → Represents 330 g y →
    Represents 101 (F.feMul f g) (x * y)
  sq : ∀ {f x}, Represents 330 f x → Represents 101 (F.feSq f) (x ^ 2)
  sq2 : ∀ {f x}, Represents 330 f x → Represents 101 (F.feSq2 f) (2 • x ^ 2)
  invert : ∀ {f x}, Represents 330 f x → Represents 101 (F.feInvert f) x⁻¹
  toBytes : ∀ {f g x}, Represents 220 f x → Represents 220 g x → F.feTobytes f = F.feTobytes g

/-- The parity of an element does not depend on its limbs. -/
theorem FieldCode.Implements.isnegative {F : FieldCode} (hF : F.Implements) {f g : Fe} {x : ZMod q}
    (hf : Represents 220 f x) (hg : Represents 220 g x) :
    F.feIsnegative f = F.feIsnegative g := by
  rw [FieldCode.feIsnegative, FieldCode.feIsnegative, hF.toBytes hf hg]

/-! ### Computed in the field -/

section Exact

/-- The base of a limb. -/
def limbBase (i : ℕ) : ℕ := 2 ^ (26 - i % 2)

/-- The limbs of a number: nine digits of least absolute value, and the rest. -/
def limb (v : ℤ) (i : ℕ) : ℤ :=
  let left := SignedDigits.rest limbBase v i
  if i < 9 then left.bmod (limbBase i) else left

/-- The limbs of an element. -/
def feOf (x : ZMod q) : Fe := Vector.ofFn fun i => Int32.ofInt (limb x.valMinAbs i)

/-- The product of the radices below a limb is its weight. -/
theorem prod_limbBase (i : ℕ) : ∏ j ∈ range i, (limbBase j : ℤ) = 2 ^ limbShift i := by
  induction i with
  | zero => simp [limbShift]
  | succ i ih =>
      have hshift : limbShift (i + 1) = limbShift i + (26 - i % 2) := by
        rcases i.even_or_odd' with ⟨k, rfl | rfl⟩
        · simp only [limbShift]
          omega
        · simp only [limbShift]
          omega
      rw [prod_range_succ, ih, hshift, pow_add, limbBase]
      push_cast
      rfl

/-- The value of the limbs of a number. -/
theorem sum_limb (v : ℤ) : ∑ i : Fin 10, limb v i * 2 ^ limbShift i = v := by
  have hsum := SignedDigits.sum_bmod_add_rest (b := limbBase) v 9
  rw [prod_limbBase, sum_range] at hsum
  have hdigit : ∀ i : Fin 9, limb v i.castSucc * 2 ^ limbShift i.castSucc =
      (SignedDigits.rest limbBase v i).bmod (limbBase i) * ∏ j ∈ range i, (limbBase j : ℤ) := by
    intro i
    rw [prod_limbBase, limb, Fin.val_castSucc, if_pos i.isLt]
  rw [Fin.sum_univ_castSucc, sum_congr rfl fun i _ => hdigit i]
  exact hsum

/-- A limb of a number of 254 bits is in the bounds. -/
theorem limb_bounded {v : ℤ} (hv : |v| ≤ 2 ^ 254) {i : ℕ} (hi : i < 10) :
    100 * |limb v i| ≤ 101 * 2 ^ (25 - i % 2) := by
  rw [limb]
  split
  · next h9 =>
      have hpos : 0 < limbBase i := by simp [limbBase]
      have hlo := Int.le_bmod (x := SignedDigits.rest limbBase v i) hpos
      have hhi := Int.bmod_lt (x := SignedDigits.rest limbBase v i) hpos
      have hbase : limbBase i = 2 * 2 ^ (25 - i % 2) := by
        rw [limbBase, ← pow_succ']
        congr 1
        omega
      rw [hbase] at hlo hhi ⊢
      have habs : |(SignedDigits.rest limbBase v i).bmod (2 * 2 ^ (25 - i % 2))| ≤
          2 ^ (25 - i % 2) := by
        push_cast at hlo hhi
        rw [abs_le]
        omega
      have hpow : (0 : ℤ) < 2 ^ (25 - i % 2) := by positivity
      linarith
  · next h9 =>
      obtain rfl : i = 9 := by omega
      have hbase : ∀ i, 2 ≤ limbBase i := by
        intro i
        exact Nat.le_self_pow (by omega) 2
      have hrest := SignedDigits.abs_rest_le v hbase 9
      have hshift : limbShift 9 = 230 := rfl
      rw [prod_limbBase, hshift] at hrest
      norm_num at hrest hv ⊢
      omega

/-- **The limbs of an element** stand for it. -/
theorem feOf_represents (x : ZMod q) : Represents 101 (feOf x) x := by
  have hval : |x.valMinAbs| ≤ 2 ^ 254 := by
    have hle := ZMod.natAbs_valMinAbs_le x
    rw [← Int.natCast_natAbs]
    exact_mod_cast hle.trans (by norm_num)
  have hrep := represents_of_limbs (n := 101) (f := feOf x) (by norm_num)
    (fun i => limb x.valMinAbs i) (fun i => by simp [feOf]) fun i => limb_bounded hval i.isLt
  rw [sum_limb, ZMod.coe_valMinAbs] at hrep
  exact hrep

/-- Functions that compute in the field. -/
def exactField : FieldCode where
  feMul f g := feOf (feValue f * feValue g)
  feSq f := feOf (feValue f ^ 2)
  feSq2 f := feOf (2 • feValue f ^ 2)
  feInvert f := feOf (feValue f)⁻¹
  feTobytes f := Vector.ofFn fun i => ((feValue f).val / 256 ^ i.val).toUInt8

/-- **The promise of the vendored code** can be kept. -/
theorem exactField_implements : exactField.Implements where
  mul hf hg := by
    rw [← hf.value, ← hg.value]
    exact feOf_represents _
  sq hf := by
    rw [← hf.value]
    exact feOf_represents _
  sq2 hf := by
    rw [← hf.value]
    exact feOf_represents _
  invert hf := by
    rw [← hf.value]
    exact feOf_represents _
  toBytes hf hg := by
    simp only [exactField]
    rw [hf.value, hg.value]

end Exact

end FalconVanity
