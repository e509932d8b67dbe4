import Mathlib.Algebra.BigOperators.Intervals
import Mathlib.Algebra.Order.BigOperators.Ring.Finset
import Mathlib.Algebra.Order.Ring.Abs
import Mathlib.Tactic.Linarith
import Mathlib.Tactic.Ring

/-!
# Signed Digits

Digits of a number in an even base, made signed from the lowest one on: a digit in the upper
half of the base is replaced by a negative one and a carry. The last digit is left as it is,
with the carry into it.

The odd positions of a number and the even ones can be summed up separately, in the square of
the base.

In a mixed radix, the digits are the remainders of least absolute value, and what is left over
after the last one is not reduced.

## Main results

* `carry_bounds`: a carry is 0 or 1.
* `recoded_bounds`, `recoded_last_bounds`: the range of the digits.
* `sum_recoded`: the signed digits have the same value.
* `sum_even_add_odd`: even and odd positions.
* `sum_bmod_add_rest`, `abs_rest_le`: the digits in a mixed radix.
-/

namespace SignedDigits

open Finset

/-! ### Recoding -/

section Recoding

variable (h : ℤ) (d : ℕ → ℤ)

/-- The carry into a position, for digits `d` in base `2 * h`. -/
def carry : ℕ → ℤ
  | 0 => 0
  | i + 1 => (d i + carry i + h) / (2 * h)

/-- The digits, of which those before position `n` are signed. -/
def recoded (n i : ℕ) : ℤ :=
  if i < n then d i + carry h d i - 2 * h * carry h d (i + 1) else d i + carry h d i

variable {h d}

/-- **A carry** is 0 or 1. -/
theorem carry_bounds (hh : 0 < h) (hd : ∀ i, 0 ≤ d i ∧ d i < 2 * h) (i : ℕ) :
    0 ≤ carry h d i ∧ carry h d i ≤ 1 := by
  induction i with
  | zero => exact ⟨le_rfl, zero_le_one⟩
  | succ i ih =>
      obtain ⟨hlo, hhi⟩ := hd i
      have hpos : 0 < 2 * h := by linarith
      constructor
      · exact Int.ediv_nonneg (by linarith) hpos.le
      · have hlt : (d i + carry h d i + h) / (2 * h) < 2 :=
          Int.ediv_lt_of_lt_mul hpos (by linarith)
        exact Int.lt_add_one_iff.mp hlt

/-- **A signed digit** is in the middle of its base. -/
theorem recoded_bounds (hh : 0 < h) {n i : ℕ} (hi : i < n) :
    -h ≤ recoded h d n i ∧ recoded h d n i < h := by
  have hpos : 0 < 2 * h := by linarith
  have hdiv := Int.mul_ediv_add_emod (d i + carry h d i + h) (2 * h)
  have hlo := Int.emod_nonneg (d i + carry h d i + h) hpos.ne'
  have hhi := Int.emod_lt_of_pos (d i + carry h d i + h) hpos
  rw [recoded, if_pos hi, carry]
  constructor
  · linarith
  · linarith

/-- **The last digit** has the carry into it. -/
theorem recoded_last_bounds (hh : 0 < h) (hd : ∀ i, 0 ≤ d i ∧ d i < 2 * h) (n : ℕ) :
    0 ≤ recoded h d n n ∧ recoded h d n n ≤ d n + 1 := by
  obtain ⟨hlo, hhi⟩ := carry_bounds hh hd n
  have hn := (hd n).1
  rw [recoded, if_neg (lt_irrefl n)]
  constructor
  · linarith
  · linarith

/-- The signed digits before a position, and the carry into it. -/
theorem sum_recoded_add_carry (n k : ℕ) (hk : k ≤ n) :
    ∑ i ∈ range k, recoded h d n i * (2 * h) ^ i + carry h d k * (2 * h) ^ k =
      ∑ i ∈ range k, d i * (2 * h) ^ i := by
  induction k with
  | zero => simp [carry]
  | succ k ih =>
      have hrec := ih (Nat.le_of_succ_le hk)
      rw [sum_range_succ, sum_range_succ, ← hrec, recoded, if_pos (Nat.lt_of_succ_le hk), pow_succ]
      ring

/-- **The signed digits** have the value of the digits. -/
theorem sum_recoded (h : ℤ) (d : ℕ → ℤ) (n : ℕ) :
    ∑ i ∈ range (n + 1), recoded h d n i * (2 * h) ^ i =
      ∑ i ∈ range (n + 1), d i * (2 * h) ^ i := by
  have hsum : ∑ i ∈ range n, recoded h d n i * (2 * h) ^ i + carry h d n * (2 * h) ^ n =
      ∑ i ∈ range n, d i * (2 * h) ^ i := sum_recoded_add_carry n n le_rfl
  rw [sum_range_succ, sum_range_succ, ← hsum, recoded, if_neg (lt_irrefl n)]
  ring

end Recoding

/-! ### Summing up -/

/-- **Even and odd positions**, summed up in the square of the base. -/
theorem sum_even_add_odd (r : ℤ) (e : ℕ → ℤ) (n : ℕ) :
    ∑ i ∈ range (2 * n), e i * r ^ i =
      r * ∑ k ∈ range n, e (2 * k + 1) * (r ^ 2) ^ k + ∑ k ∈ range n, e (2 * k) * (r ^ 2) ^ k := by
  induction n with
  | zero => simp
  | succ n ih =>
      rw [Nat.mul_succ, sum_range_succ, sum_range_succ, ih, sum_range_succ, sum_range_succ,
        ← pow_mul, pow_succ r (2 * n)]
      ring

/-! ### A mixed radix -/

section MixedRadix

variable (b : ℕ → ℕ) (v : ℤ)

/-- What is left over of a number before position `i`, for bases `b`. -/
def rest : ℕ → ℤ
  | 0 => v
  | i + 1 => (rest i - (rest i).bmod (b i)) / b i

variable {b}

theorem rest_succ_mul (i : ℕ) :
    rest b v (i + 1) * b i = rest b v i - (rest b v i).bmod (b i) := by
  have hdvd : (b i : ℤ) ∣ rest b v i - (rest b v i).bmod (b i) := Int.dvd_self_sub_bmod
  exact Int.ediv_mul_cancel hdvd

/-- **The digits** and what is left over have the value of the number. -/
theorem sum_bmod_add_rest (n : ℕ) :
    ∑ i ∈ range n, (rest b v i).bmod (b i) * ∏ j ∈ range i, (b j : ℤ) +
      rest b v n * ∏ j ∈ range n, (b j : ℤ) = v := by
  induction n with
  | zero => simp [rest]
  | succ n ih =>
      have hrest := rest_succ_mul (b := b) v n
      rw [sum_range_succ, prod_range_succ, mul_comm (∏ j ∈ range n, (b j : ℤ)), ← mul_assoc,
        hrest, sub_mul]
      linarith

/-- **What is left over** is not much more than the quotient. -/
theorem abs_rest_le (hb : ∀ i, 2 ≤ b i) (n : ℕ) :
    |rest b v n| * ∏ j ∈ range n, (b j : ℤ) ≤ |v| + ∏ j ∈ range n, (b j : ℤ) := by
  have hpos : ∀ n, 0 < ∏ j ∈ range n, (b j : ℤ) := fun n =>
    prod_pos fun j _ => by exact_mod_cast lt_of_lt_of_le zero_lt_two (hb j)
  -- Each step adds half of its base, and the bases at least double the product.
  have hstep : |rest b v n| * ∏ j ∈ range n, (b j : ℤ) + 1 ≤
      |v| + ∏ j ∈ range n, (b j : ℤ) := by
    induction n with
    | zero => simp [rest]
    | succ n ih =>
        have hb2 : (2 : ℤ) ≤ b n := by exact_mod_cast hb n
        have hlo : -((b n : ℤ) / 2) ≤ (rest b v n).bmod (b n) :=
          Int.le_bmod (by exact_mod_cast lt_of_lt_of_le zero_lt_two (hb n))
        have hhi : (rest b v n).bmod (b n) < ((b n : ℤ) + 1) / 2 :=
          Int.bmod_lt (by exact_mod_cast lt_of_lt_of_le zero_lt_two (hb n))
        have hmod : 2 * |(rest b v n).bmod (b n)| ≤ b n := by
          rcases abs_cases ((rest b v n).bmod (b n)) with ⟨h, -⟩ | ⟨h, -⟩
          · omega
          · omega
        have habs : |rest b v (n + 1)| * b n ≤ |rest b v n| + |(rest b v n).bmod (b n)| := by
          rw [← Nat.abs_cast (b n), ← abs_mul, rest_succ_mul v n]
          exact abs_sub _ _
        rw [prod_range_succ]
        have hp := hpos n
        nlinarith [mul_le_mul_of_nonneg_right habs hp.le, mul_le_mul_of_nonneg_right hmod hp.le]
  linarith

end MixedRadix

end SignedDigits
