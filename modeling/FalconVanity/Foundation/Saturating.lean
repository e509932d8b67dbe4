import Mathlib.Algebra.BigOperators.Group.Finset.Basic
import FalconVanity.Foundation.Words

/-!
# Sums that Saturate

A sum of many words, each below half of the range, is taken modulo the range, while the top bits
of all partial sums are gathered in a second word. No partial sum passes over the upper half of
the range at once: when the whole sum leaves the lower half, a partial sum was in the upper one,
and its bit stays.

## Main results

* `Tracks.add`: one term.
* `Tracks.result_le_iff`: the saturated sum is below a bound exactly when the sum is.
-/

namespace Saturating

/-- The sum modulo the range, and the bits of all partial sums. -/
def add (st : UInt32 × UInt32) (x : UInt32) : UInt32 × UInt32 :=
  (st.1 + x, st.2 ||| (st.1 + x))

/-- The sum, or the largest word. -/
def result (st : UInt32 × UInt32) : UInt32 := st.1 ||| ((0 : UInt32) - (st.2 >>> 31))

/-- The state of a sum of value `total`. -/
def Tracks (total : ℕ) (st : UInt32 × UInt32) : Prop :=
  (total < 2 ^ 31 ∧ st.1.toNat = total ∧ st.2.toNat < 2 ^ 31) ∨
    (2 ^ 31 ≤ total ∧ 2 ^ 31 ≤ st.2.toNat)

theorem tracks_zero : Tracks 0 (0, 0) := .inl ⟨by norm_num, rfl, by norm_num⟩

variable {total : ℕ} {st : UInt32 × UInt32}

/-- **One term.** -/
theorem Tracks.add (h : Tracks total st) {x : UInt32} (hx : x.toNat ≤ 2 ^ 31) :
    Tracks (total + x.toNat) (add st x) := by
  have hsum : (st.1 + x).toNat = (st.1.toNat + x.toNat) % 2 ^ 32 := UInt32.toNat_add _ _
  have hor : (st.2 ||| (st.1 + x)).toNat = st.2.toNat ||| (st.1 + x).toNat := UInt32.toNat_or _ _
  rcases h with ⟨hlt, hval, hng⟩ | ⟨hge, hng⟩
  · by_cases hnext : total + x.toNat < 2 ^ 31
    · refine .inl ⟨hnext, by change (st.1 + x).toNat = _; omega, ?_⟩
      change (st.2 ||| (st.1 + x)).toNat < _
      rw [hor]
      exact Nat.or_lt_two_pow hng (by omega)
    · refine .inr ⟨by omega, ?_⟩
      change _ ≤ (st.2 ||| (st.1 + x)).toNat
      have hle : (st.1 + x).toNat ≤ st.2.toNat ||| (st.1 + x).toNat := Nat.right_le_or
      omega
  · refine .inr ⟨by omega, ?_⟩
    change _ ≤ (st.2 ||| (st.1 + x)).toNat
    rw [hor]
    exact hng.trans Nat.left_le_or

/-- A sum that goes on after it was saturated, from its result. -/
theorem tracks_of_word (s : UInt32) : Tracks s.toNat (s, (0 : UInt32) - (s >>> 31)) := by
  have hshift : (s >>> 31).toNat = s.toNat / 2 ^ 31 :=
    Words.UInt32.toNat_shiftRight_of_lt s 31 (k := 31) rfl (by norm_num)
  have hlt := s.toNat_lt
  by_cases h : s.toNat < 2 ^ 31
  · have htop : s >>> 31 = 0 := UInt32.toNat_inj.mp (by rw [hshift, Nat.div_eq_of_lt h]; rfl)
    rw [htop]
    exact .inl ⟨h, rfl, by norm_num⟩
  · have htop : s >>> 31 = 1 :=
      UInt32.toNat_inj.mp (by rw [hshift]; change _ = 1; omega)
    rw [htop]
    have hones : ((0 : UInt32) - 1).toNat = 2 ^ 32 - 1 := rfl
    exact .inr ⟨by omega, by rw [hones]; norm_num⟩

/-- **The saturated sum.** -/
theorem Tracks.result_eq (h : Tracks total st) :
    (total < 2 ^ 31 ∧ (result st).toNat = total) ∨
      (2 ^ 31 ≤ total ∧ (result st).toNat = 2 ^ 32 - 1) := by
  have hshift : (st.2 >>> 31).toNat = st.2.toNat / 2 ^ 31 :=
    Words.UInt32.toNat_shiftRight_of_lt st.2 31 (k := 31) rfl (by norm_num)
  have hlt := st.2.toNat_lt
  rcases h with ⟨hlt, hval, hng⟩ | ⟨hge, hng⟩
  · have htop : st.2 >>> 31 = 0 :=
      UInt32.toNat_inj.mp (by rw [hshift, Nat.div_eq_of_lt hng]; rfl)
    have hzero : (0 : UInt32) - 0 = 0 := rfl
    rw [result, htop, hzero, UInt32.or_zero]
    exact .inl ⟨hlt, hval⟩
  · have htop : st.2 >>> 31 = 1 :=
      UInt32.toNat_inj.mp (by rw [hshift]; change _ = 1; omega)
    have hones : (0 : UInt32) - 1 = -1 := rfl
    rw [result, htop, hones, UInt32.or_neg_one]
    exact .inr ⟨hge, rfl⟩

/-- **A bound** below half of the range is met by the saturated sum exactly when it is met by the
sum. -/
theorem Tracks.result_le_iff (h : Tracks total st) (bound : UInt32)
    (hb : bound.toNat < 2 ^ 31) : result st ≤ bound ↔ total ≤ bound.toNat := by
  rw [UInt32.le_iff_toNat_le]
  rcases h.result_eq with ⟨-, hval⟩ | ⟨hge, hval⟩
  · rw [hval]
  · omega

end Saturating
