import Mathlib.Algebra.BigOperators.Ring.Finset
import Mathlib.Algebra.Order.Ring.Abs
import Mathlib.Tactic.GCongr
import Mathlib.Tactic.Linarith
import Mathlib.Tactic.LinearCombination
import Mathlib.Tactic.Positivity
import Mathlib.Tactic.Ring

/-!
# Carries between Signed Limbs

A number in a mixed radix of powers of two, with limbs that are signed and may be too large. A
carry takes a multiple of the base out of a limb and adds the quotient to the next limb, or to
the first one after the last, multiplied by a factor: then the number is kept modulo the one that
the factor stands for. The quotient is rounded down after an offset was added. An offset of half
of the base leaves a limb of least absolute value, and no offset leaves a digit.

How large the limbs are after some carries is computed, so that the bounds of a fixed order of
carries are decided and not proved.

## Main results

* `Radix.value_run`: carries keep the value.
* `Radix.bounded_run`: bounds of the limbs after some carries.
* `Radix.run_of_step`: carries of words, from what one of them does.
* `Radix.digits_run`: carries that leave digits.
* `Radix.quotient_eq`: what carries without an offset take out of all limbs.
* `Radix.testBit_digits`: the bits of a number, from its digits.
-/

namespace Carry

open Finset

/-- A radix: the number of limbs, the bits of each, the offset before it is rounded, and the
factor of a carry from the last limb to the first one. -/
structure Radix where
  limbs : ℕ
  bits : ℕ → ℕ
  offset : ℕ → ℕ
  fold : ℕ

namespace Radix

variable (R : Radix)

/-- The quotient that leaves a limb. -/
def carry (z : ℕ → ℤ) (i : ℕ) : ℤ := (z i + R.offset i) / 2 ^ R.bits i

/-- The limb that takes a carry. -/
def next (i : ℕ) : ℕ := if i + 1 = R.limbs then 0 else i + 1

/-- What a carry is multiplied by. -/
def factor (i : ℕ) : ℕ := if i + 1 = R.limbs then R.fold else 1

/-- One carry. -/
def step (z : ℕ → ℤ) (i : ℕ) (k : ℕ) : ℤ :=
  if k = i then z i - R.carry z i * 2 ^ R.bits i
  else if k = R.next i then z k + R.factor i * R.carry z i
  else z k

/-- Some carries, one after the other. -/
def run (is : List ℕ) (z : ℕ → ℤ) : ℕ → ℤ := is.foldl R.step z

variable {R}

/-- A carry reads and writes the limbs only. -/
theorem step_congr {i : ℕ} (hi : i < R.limbs) {z z' : ℕ → ℤ} (hz : ∀ k < R.limbs, z k = z' k) :
    ∀ k < R.limbs, R.step z i k = R.step z' i k := by
  intro k hk
  rw [step, step, carry, carry, hz i hi, hz k hk]

/-- Carries read the limbs of the representation only. -/
theorem run_congr {is : List ℕ} (his : ∀ i ∈ is, i < R.limbs) {z z' : ℕ → ℤ}
    (hz : ∀ k < R.limbs, z k = z' k) : ∀ k < R.limbs, R.run is z k = R.run is z' k := by
  induction is generalizing z z' with
  | nil => exact hz
  | cons i is ih =>
      exact ih (fun j hj => his j (List.mem_cons_of_mem i hj))
        (step_congr (his i List.mem_cons_self) hz)

variable (R)

/-! ### The value -/

section Value

variable {A : Type*} [CommRing A] {W : ℕ → A}

/-- The value of some limbs with given weights. -/
def value (W : ℕ → A) (z : ℕ → ℤ) : A := ∑ k ∈ range R.limbs, (z k : A) * W k

/-- Weights that fit a carry. -/
def Weighs (W : ℕ → A) (i : ℕ) : Prop :=
  (R.factor i : A) * W (R.next i) = ((2 ^ R.bits i : ℕ) : A) * W i

variable {R}

/-- The limb that a carry goes to is another one. -/
theorem next_lt (hR : 2 ≤ R.limbs) {i : ℕ} (hi : i < R.limbs) :
    R.next i < R.limbs ∧ R.next i ≠ i := by
  rw [next]
  split <;> omega

/-- A carry as a difference. -/
theorem step_eq (hR : 2 ≤ R.limbs) {i : ℕ} (hi : i < R.limbs) (z : ℕ → ℤ) (k : ℕ) :
    R.step z i k = z k - (if k = i then R.carry z i * 2 ^ R.bits i else 0) +
      (if k = R.next i then R.factor i * R.carry z i else 0) := by
  have hne := (next_lt hR hi).2
  rw [step]
  by_cases hk : k = i
  · subst hk
    rw [if_pos rfl, if_pos rfl, if_neg hne.symm, add_zero]
  · rw [if_neg hk, if_neg hk, sub_zero]
    by_cases hk' : k = R.next i
    · rw [if_pos hk', if_pos hk']
    · rw [if_neg hk', if_neg hk', add_zero]

/-- **A carry keeps the value.** -/
theorem value_step (hR : 2 ≤ R.limbs) {i : ℕ} (hi : i < R.limbs) (hW : R.Weighs W i)
    (z : ℕ → ℤ) : R.value W (R.step z i) = R.value W z := by
  have hnext := (next_lt hR hi).1
  have hout : ∑ k ∈ range R.limbs,
      ((if k = i then R.carry z i * 2 ^ R.bits i else 0 : ℤ) : A) * W k =
        (R.carry z i : A) * 2 ^ R.bits i * W i := by
    rw [sum_eq_single_of_mem i (mem_range.mpr hi)]
    · rw [if_pos rfl]
      push_cast
      ring
    · intro k _ hk
      rw [if_neg hk, Int.cast_zero, zero_mul]
  have hin : ∑ k ∈ range R.limbs,
      ((if k = R.next i then R.factor i * R.carry z i else 0 : ℤ) : A) * W k =
        (R.factor i : A) * (R.carry z i : A) * W (R.next i) := by
    rw [sum_eq_single_of_mem (R.next i) (mem_range.mpr hnext)]
    · rw [if_pos rfl]
      push_cast
      ring
    · intro k _ hk
      rw [if_neg hk, Int.cast_zero, zero_mul]
  have hsum : R.value W (R.step z i) = R.value W z -
      (R.carry z i : A) * 2 ^ R.bits i * W i +
        (R.factor i : A) * (R.carry z i : A) * W (R.next i) := by
    rw [← hout, ← hin, value, value, ← sum_sub_distrib, ← sum_add_distrib]
    refine sum_congr rfl fun k _ => ?_
    rw [step_eq hR hi]
    push_cast
    ring
  rw [Weighs, Nat.cast_pow, Nat.cast_ofNat] at hW
  rw [hsum]
  linear_combination (R.carry z i : A) * hW

/-- **Carries keep the value.** -/
theorem value_run (hR : 2 ≤ R.limbs) {is : List ℕ} (his : ∀ i ∈ is, i < R.limbs ∧ R.Weighs W i)
    (z : ℕ → ℤ) : R.value W (R.run is z) = R.value W z := by
  induction is generalizing z with
  | nil => rfl
  | cons i is ih =>
      obtain ⟨hi, hW⟩ := his i List.mem_cons_self
      have hrun := ih (fun j hj => his j (List.mem_cons_of_mem i hj)) (R.step z i)
      exact hrun.trans (value_step hR hi hW z)

end Value

/-! ### Bounds -/

section Bounds

/-- The limbs have the given absolute values at most. -/
def Bounded (b : ℕ → ℕ) (z : ℕ → ℤ) : Prop := ∀ k < R.limbs, |z k| ≤ b k

/-- The bounds after a carry. -/
def boundStep (b : ℕ → ℕ) (i : ℕ) (k : ℕ) : ℕ :=
  if k = i then max (R.offset i) (2 ^ R.bits i - R.offset i)
  else if k = R.next i then
    b k + R.factor i * ((b i + 2 ^ R.bits i - 1) / 2 ^ R.bits i)
  else b k

/-- The bounds before and after a carry stay below a limit. -/
def RoomAt (limit : ℕ) (b : ℕ → ℕ) (i : ℕ) : Prop :=
  ∀ k < R.limbs, b k + 2 ^ R.bits i < limit ∧ R.boundStep b i k < limit

/-- There is room for one carry: a comparison of numbers. -/
instance (limit : ℕ) (b : ℕ → ℕ) (i : ℕ) : Decidable (R.RoomAt limit b i) :=
  inferInstanceAs (Decidable (∀ k < R.limbs, _))

/-- All bounds on the way stay below a limit. -/
def Room (limit : ℕ) : List ℕ → (ℕ → ℕ) → Prop
  | [], _ => True
  | i :: is, b => R.RoomAt limit b i ∧ Room limit is (R.boundStep b i)

/-- Room for several carries is checked along the bounds. -/
instance decidableRoom (limit : ℕ) : (is : List ℕ) → (b : ℕ → ℕ) → Decidable (R.Room limit is b)
  | [], _ => inferInstanceAs (Decidable True)
  | i :: is, b =>
    have := decidableRoom limit is (R.boundStep b i)
    inferInstanceAs (Decidable (_ ∧ _))

/-- The bounds after some carries. -/
def boundRun (is : List ℕ) (b : ℕ → ℕ) : ℕ → ℕ := is.foldl R.boundStep b

variable {R} {b : ℕ → ℕ} {z : ℕ → ℤ} {i : ℕ}

/-- The limb that a carry leaves. -/
theorem step_self (z : ℕ → ℤ) (i : ℕ) :
    -(R.offset i : ℤ) ≤ R.step z i i ∧ R.step z i i < 2 ^ R.bits i - R.offset i := by
  have hpos : (0 : ℤ) < 2 ^ R.bits i := by positivity
  have hdiv := Int.emod_add_mul_ediv (z i + R.offset i) (2 ^ R.bits i)
  have hlo := Int.emod_nonneg (z i + R.offset i) hpos.ne'
  have hhi := Int.emod_lt_of_pos (z i + R.offset i) hpos
  rw [step, if_pos rfl, carry, mul_comm _ ((2 : ℤ) ^ R.bits i)]
  constructor <;> linarith

/-- The size of a carry. -/
theorem abs_carry_le (hoff : R.offset i < 2 ^ R.bits i) (hz : |z i| ≤ b i) :
    |R.carry z i| ≤ ((b i + 2 ^ R.bits i - 1) / 2 ^ R.bits i : ℕ) := by
  have hpos : (0 : ℤ) < 2 ^ R.bits i := by positivity
  have hone : 1 ≤ 2 ^ R.bits i := Nat.one_le_two_pow
  have hoff' : (R.offset i : ℤ) ≤ 2 ^ R.bits i - 1 := by
    have h : ((R.offset i + 1 : ℕ) : ℤ) ≤ ((2 ^ R.bits i : ℕ) : ℤ) := Int.ofNat_le.mpr hoff
    push_cast at h
    linarith
  have hcast : (((b i + 2 ^ R.bits i - 1) / 2 ^ R.bits i : ℕ) : ℤ) =
      (b i + (2 ^ R.bits i - 1)) / 2 ^ R.bits i := by
    rw [Nat.add_sub_assoc hone]
    push_cast [Nat.cast_sub hone]
    rfl
  obtain ⟨hlo, hhi⟩ := abs_le.mp hz
  rw [hcast, carry, abs_le]
  constructor
  · -- The quotient of `-b`, rounded down, is the negative of that of `b`, rounded up.
    have hup := Int.lt_ediv_add_one_mul_self ((b i : ℤ) + (2 ^ R.bits i - 1)) hpos
    rw [Int.le_ediv_iff_mul_le hpos]
    linarith
  · exact Int.ediv_le_ediv hpos (by linarith)

/-- **The bounds after a carry.** -/
theorem bounded_step (hoff : R.offset i < 2 ^ R.bits i) (hi : i < R.limbs)
    (hz : R.Bounded b z) : R.Bounded (R.boundStep b i) (R.step z i) := by
  intro k hk
  by_cases hki : k = i
  · subst hki
    have hself := step_self (R := R) z k
    rw [boundStep, if_pos rfl, Nat.cast_max, Nat.cast_sub hoff.le, abs_le]
    push_cast
    have hmax := le_max_left (R.offset k : ℤ) (2 ^ R.bits k - R.offset k)
    have hmax' := le_max_right (R.offset k : ℤ) (2 ^ R.bits k - R.offset k)
    constructor <;> linarith
  · rw [boundStep, step, if_neg hki, if_neg hki]
    by_cases hkn : k = R.next i
    · rw [if_pos hkn, if_pos hkn]
      have hcarry := abs_carry_le hoff (hz i hi)
      have htri := abs_add_le (z k) (R.factor i * R.carry z i)
      have hfactor : |(R.factor i : ℤ) * R.carry z i| =
          R.factor i * |R.carry z i| := by rw [abs_mul, Nat.abs_cast]
      rw [hfactor] at htri
      refine htri.trans ?_
      rw [Nat.cast_add, Nat.cast_mul]
      gcongr
      exact hz k hk
    · rw [if_neg hkn, if_neg hkn]
      exact hz k hk

/-- **The bounds after some carries.** -/
theorem bounded_run (hoff : ∀ i < R.limbs, R.offset i < 2 ^ R.bits i) {is : List ℕ}
    (his : ∀ i ∈ is, i < R.limbs) (hz : R.Bounded b z) :
    R.Bounded (R.boundRun is b) (R.run is z) := by
  induction is generalizing b z with
  | nil => exact hz
  | cons i is ih =>
      have hi := his i List.mem_cons_self
      exact ih (fun j hj => his j (List.mem_cons_of_mem i hj)) (bounded_step (hoff i hi) hi hz)

/-- Room on the way is room at every carry. -/
theorem Room.split {limit : ℕ} {pre post : List ℕ} (h : R.Room limit (pre ++ i :: post) b) :
    R.Room limit pre b ∧ R.RoomAt limit (R.boundRun pre b) i := by
  induction pre generalizing b with
  | nil => exact ⟨trivial, h.1⟩
  | cons j pre ih =>
      obtain ⟨hpre, hat⟩ := ih h.2
      exact ⟨⟨h.1, hpre⟩, hat⟩

/-- **Carries of a machine** are those of integers, with enough room. -/
theorem run_of_step {S : Type*} (view : S → ℕ → ℤ) (f : S → ℕ → S)
    (hoff : ∀ i < R.limbs, R.offset i < 2 ^ R.bits i) {limit : ℕ}
    (hf : ∀ {s b i}, i < R.limbs → R.Bounded b (view s) → R.RoomAt limit b i →
      ∀ k < R.limbs, view (f s i) k = R.step (view s) i k)
    {is : List ℕ} (his : ∀ i ∈ is, i < R.limbs) {s : S} (hs : R.Bounded b (view s))
    (hroom : R.Room limit is b) : ∀ k < R.limbs, view (is.foldl f s) k = R.run is (view s) k := by
  induction is generalizing s b with
  | nil => exact fun _ _ => rfl
  | cons i is ih =>
      have hi := his i List.mem_cons_self
      have hstep := hf hi hs hroom.1
      have hrest : ∀ j ∈ is, j < R.limbs := fun j hj => his j (List.mem_cons_of_mem i hj)
      have hnext : R.Bounded (R.boundStep b i) (view (f s i)) := by
        intro k hk
        rw [hstep k hk]
        exact bounded_step (hoff i hi) hi hs k hk
      intro k hk
      rw [List.foldl_cons, ih hrest hnext hroom.2 k hk]
      exact run_congr hrest hstep k hk

/-- **Carries without an offset**, from the first limb on, leave digits. -/
theorem digits_run (hoff : ∀ i, R.offset i = 0) (hfold : R.fold = 0) {n : ℕ} (hn : n ≤ R.limbs)
    (z : ℕ → ℤ) :
    ∀ k < n, 0 ≤ R.run (List.range n) z k ∧ R.run (List.range n) z k < 2 ^ R.bits k := by
  induction n with
  | zero => exact fun k hk => absurd hk (Nat.not_lt_zero k)
  | succ n ih =>
      intro k hk
      have hlast : R.run (List.range (n + 1)) z = R.step (R.run (List.range n) z) n := by
        rw [run, List.range_succ, List.foldl_append]
        rfl
      rw [hlast]
      rcases Nat.eq_or_lt_of_le (Nat.le_of_lt_succ hk) with rfl | hlt
      · have hself := step_self (R := R) (R.run (List.range k) z) k
        rwa [hoff, Nat.cast_zero, neg_zero, sub_zero] at hself
      · -- The carry goes to a limb above, or it is lost.
        have hkeep : R.step (R.run (List.range n) z) n k = R.run (List.range n) z k := by
          rw [step, if_neg hlt.ne]
          by_cases hend : n + 1 = R.limbs
          · rw [factor, if_pos hend, hfold, Nat.cast_zero, zero_mul, add_zero, ite_self]
          · rw [next, if_neg hend, if_neg (by omega)]
        rw [hkeep]
        exact ih (by omega) k hlt

end Bounds

/-! ### Digits and the whole base -/

section Digits

variable {R}

/-- The exponent of the base of the limbs before a position. -/
def shift (R : Radix) (n : ℕ) : ℕ := ∑ i ∈ range n, R.bits i

/-- The quotient that leaves the limbs before a position, from one that enters the first one. -/
def quotient (R : Radix) (z : ℕ → ℤ) (t : ℤ) : ℕ → ℤ
  | 0 => t
  | n + 1 => (z n + quotient R z t n) / 2 ^ R.bits n

/-- The weight of the next limb is greater by the bits of this one. -/
theorem shift_succ (n : ℕ) : R.shift (n + 1) = R.shift n + R.bits n := sum_range_succ _ n

/-- The weights grow. -/
theorem shift_mono {m n : ℕ} (h : m ≤ n) : R.shift m ≤ R.shift n :=
  sum_le_sum_of_subset (range_subset_range.mpr h)

/-- **Quotients one after the other** are the quotient by the whole base. -/
theorem quotient_eq (z : ℕ → ℤ) (t : ℤ) (n : ℕ) :
    R.quotient z t n = (∑ i ∈ range n, z i * 2 ^ R.shift i + t) / 2 ^ R.shift n := by
  induction n with
  | zero => simp [quotient, shift]
  | succ n ih =>
      have hpos : (0 : ℤ) < 2 ^ R.shift n := by positivity
      rw [quotient, ih, sum_range_succ, shift_succ, pow_add, ← Int.ediv_ediv_of_nonneg hpos.le,
        add_right_comm, Int.add_mul_ediv_right _ _ hpos.ne', add_comm]

variable {d : ℕ → ℕ} {n : ℕ}

/-- Digits stand for a number below the base. -/
theorem digits_lt (hd : ∀ i < n, d i < 2 ^ R.bits i) :
    ∑ i ∈ range n, d i * 2 ^ R.shift i < 2 ^ R.shift n := by
  induction n with
  | zero => simp
  | succ n ih =>
      have hlow := ih fun i hi => hd i (hi.trans (Nat.lt_succ_self n))
      have hhigh := hd n (Nat.lt_succ_self n)
      rw [sum_range_succ, shift_succ, pow_add]
      calc ∑ i ∈ range n, d i * 2 ^ R.shift i + d n * 2 ^ R.shift n
          < (d n + 1) * 2 ^ R.shift n := by rw [add_mul, one_mul]; omega
        _ ≤ 2 ^ R.bits n * 2 ^ R.shift n := Nat.mul_le_mul_right _ hhigh
        _ = 2 ^ R.shift n * 2 ^ R.bits n := Nat.mul_comm _ _

/-- **The bits of a number** are those of its digits. -/
theorem testBit_digits (hd : ∀ i < n, d i < 2 ^ R.bits i) {i k : ℕ} (hi : i < n)
    (hk : k < R.bits i) :
    (∑ i ∈ range n, d i * 2 ^ R.shift i).testBit (R.shift i + k) = (d i).testBit k := by
  induction n with
  | zero => exact absurd hi (Nat.not_lt_zero i)
  | succ n ih =>
      have hlow := fun j (hj : j < n) => hd j (hj.trans (Nat.lt_succ_self n))
      rw [sum_range_succ, Nat.add_comm, Nat.mul_comm (d n),
        Nat.testBit_two_pow_mul_add _ (digits_lt hlow)]
      rcases Nat.eq_or_lt_of_le (Nat.le_of_lt_succ hi) with rfl | hlt
      · rw [if_neg (by omega), Nat.add_sub_cancel_left]
      · have hmono := shift_mono (R := R) (Nat.succ_le_of_lt hlt)
        rw [Nat.succ_eq_add_one, shift_succ] at hmono
        rw [if_pos (by omega)]
        exact ih hlow hlt

end Digits

end Radix

end Carry
