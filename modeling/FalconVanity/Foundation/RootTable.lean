import FalconVanity.Foundation.Dif

/-!
# Twiddle Factors from One Root

The twiddle factors of a negacyclic transform are the powers of one root of `X ^ 2 ^ L + 1`, in
bit-reversed order: the factor of node `v` is the power whose exponent has the `L` bits of `v`
backwards. A table that holds them is filled in the order of the powers.

## Main results

* `bitRev_double`, `bitRev_double_add_one`: bit reversal by the lowest bit.
* `bitRev_bitRev`: bit reversal is an involution.
* `Twiddles.ofRoot`: the powers of a root are twiddle factors.
-/

namespace Dif

variable {L v : ℕ}

theorem bitRev_zero (L : ℕ) : bitRev L 0 = 0 := by
  induction L with
  | zero => rfl
  | succ L ih => rw [bitRev_left (Nat.two_pow_pos L), ih]

/-- An even index. -/
theorem bitRev_double (hv : v < 2 ^ L) : bitRev (L + 1) (2 * v) = bitRev L v := by
  induction L generalizing v with
  | zero =>
      obtain rfl : v = 0 := by omega
      rfl
  | succ L ih =>
      have hpow : 2 ^ (L + 1) = 2 * 2 ^ L := pow_succ' 2 L
      rcases left_or_right hv with hlt | ⟨r, hr, rfl⟩
      · rw [bitRev_left (by omega), ih hlt, bitRev_left hlt]
      · have hdouble : 2 * (2 ^ L + r) = 2 ^ (L + 1) + 2 * r := by omega
        rw [hdouble, bitRev_right, ih hr, bitRev_right]

/-- An odd index. -/
theorem bitRev_double_add_one (hv : v < 2 ^ L) :
    bitRev (L + 1) (2 * v + 1) = 2 ^ L + bitRev L v := by
  induction L generalizing v with
  | zero =>
      obtain rfl : v = 0 := by omega
      rfl
  | succ L ih =>
      have hpow : 2 ^ (L + 1) = 2 * 2 ^ L := pow_succ' 2 L
      rcases left_or_right hv with hlt | ⟨r, hr, rfl⟩
      · rw [bitRev_left (by omega), ih hlt, bitRev_left hlt]
        omega
      · have hdouble : 2 * (2 ^ L + r) + 1 = 2 ^ (L + 1) + (2 * r + 1) := by omega
        rw [hdouble, bitRev_right, ih hr, bitRev_right]
        omega

/-- **Bit reversal is an involution.** -/
theorem bitRev_bitRev (hv : v < 2 ^ L) : bitRev L (bitRev L v) = v := by
  induction L generalizing v with
  | zero =>
      obtain rfl : v = 0 := by omega
      rfl
  | succ L ih =>
      rcases left_or_right hv with hlt | ⟨r, hr, rfl⟩
      · rw [bitRev_left hlt, bitRev_double (bitRev_lt hlt), ih hlt]
      · rw [bitRev_right, bitRev_double_add_one (bitRev_lt hr), ih hr]

end Dif

namespace Negacyclic

open Dif

/-- **Twiddle factors from one root** of `X ^ 2 ^ (L + 1) + 1`. -/
def Twiddles.ofRoot {K : Type*} [CommRing K] {L : ℕ} (γ γ' : K) (hγ : γ ^ 2 ^ (L + 1) = -1)
    (hinv : γ * γ' = 1) : Twiddles K (L + 1) where
  ζ v := γ ^ bitRev (L + 1) v
  ζ' v := γ' ^ bitRev (L + 1) v
  sq_one := by
    have hzero : bitRev L 0 = 0 := bitRev_zero L
    have hone : bitRev (L + 1) 1 = 2 ^ L + bitRev L 0 := bitRev_double_add_one (Nat.two_pow_pos L)
    rw [hone, hzero, Nat.add_zero, ← pow_mul, ← pow_succ, hγ]
  sq_even v _ hv := by
    have hlt : v < 2 ^ L := by
      rw [pow_succ] at hv
      omega
    rw [bitRev_double hlt, bitRev_left hlt, ← pow_mul, Nat.mul_comm]
  sq_odd v _ hv := by
    have hlt : v < 2 ^ L := by
      rw [pow_succ] at hv
      omega
    have hexp : (2 ^ L + bitRev L v) * 2 = 2 ^ (L + 1) + 2 * bitRev L v := by
      rw [pow_succ]
      omega
    rw [bitRev_double_add_one hlt, bitRev_left hlt, ← pow_mul, hexp, pow_add, hγ, neg_one_mul]
  mul_inv v _ _ := by rw [← mul_pow, hinv, one_pow]

end Negacyclic
