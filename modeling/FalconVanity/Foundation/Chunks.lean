import Mathlib.Data.List.Basic
import Mathlib.Order.Lattice

/-!
# Ranges in Chunks

Indices below a bound, handed out in chunks of equal size, of which the last one may be cut
short. As many chunks as cover the bound hand out every index once, in order; fewer leave out
the rest.

## Main results

* `flatMap_range'_min`: what a number of chunks hands out.
* `flatMap_range_mul`: rows of equal length, one after the other.
-/

namespace Chunks

/-- **What `T` chunks of size `c` hand out** below `N`. -/
theorem flatMap_range'_min (c N T : ℕ) :
    (List.range T).flatMap (fun t => List.range' (c * t) (min c (N - c * t))) =
      List.range (min N (c * T)) := by
  induction T with
  | zero => simp
  | succ T ih =>
      rw [List.range_succ, List.flatMap_append, ih, List.flatMap_singleton, Nat.mul_succ]
      by_cases hle : c * T ≤ N
      · have hnext : min N (c * T + c) = c * T + min c (N - c * T) := by omega
        rw [min_eq_right hle, hnext, List.range_eq_range', List.range_eq_range',
          ← List.range'_append_1, Nat.zero_add]
      · have hempty : min c (N - c * T) = 0 := by omega
        have hnext : min N (c * T + c) = min N (c * T) := by omega
        rw [hempty, hnext, List.range'_zero, List.append_nil]

/-- Rows of equal length, one after the other. -/
theorem flatMap_range_mul {α : Type*} (f : ℕ → List α) (m n : ℕ) :
    (List.range m).flatMap (fun i => (List.range n).flatMap fun j => f (n * i + j)) =
      (List.range (n * m)).flatMap f := by
  induction m with
  | zero => simp
  | succ m ih =>
      rw [List.range_succ, List.flatMap_append, ih, List.flatMap_singleton, Nat.mul_succ,
        List.range_add, List.flatMap_append, List.flatMap_map]

end Chunks
