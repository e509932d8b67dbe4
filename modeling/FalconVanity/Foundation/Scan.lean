import Mathlib.Data.List.Basic
import Mathlib.Order.Bounds.Basic

/-!
# Bounded Scans

A loop that tries `0, 1, 2, …` below a bound and stops at the first success is a
`findSome?` over a range. Its result is the success at the least index that has one.

## Main results

* `findSome?_range_eq_some_iff`: the result of a scan, as a least index.
* `exists_least_and_iff`: when a filter after a scan loses nothing.
-/

namespace Scan

variable {α : Type*}

/-- A scan without result saw no success. -/
theorem findSome?_range_eq_none_iff {f : ℕ → Option α} {n : ℕ} :
    (List.range n).findSome? f = none ↔ ∀ i < n, f i = none := by
  simp [List.findSome?_eq_none_iff]

/-- At most one index is the least one with a success. -/
theorem least_unique {f : ℕ → Option α} {i j : ℕ} {a b : α} (hi : f i = some a)
    (hilt : ∀ k < i, f k = none) (hj : f j = some b) (hjlt : ∀ k < j, f k = none) : i = j := by
  rcases Nat.lt_trichotomy i j with hij | hij | hij
  · rw [hjlt i hij] at hi
    cases hi
  · exact hij
  · rw [hilt j hij] at hj
    cases hj

/-- **The result of a scan** is the value at the least index that has one. -/
theorem findSome?_range_eq_some_iff {f : ℕ → Option α} {n : ℕ} {a : α} :
    (List.range n).findSome? f = some a ↔
      ∃ i < n, f i = some a ∧ ∀ j < i, f j = none := by
  induction n generalizing a with
  | zero => simp
  | succ n ih =>
      rw [List.range_succ, List.findSome?_append, List.findSome?_singleton]
      cases hn : (List.range n).findSome? f with
      | some b =>
          obtain ⟨k, hk, hkf, hklt⟩ := ih.mp hn
          rw [Option.some_or, Option.some.injEq]
          constructor
          · rintro rfl
            exact ⟨k, by omega, hkf, hklt⟩
          · rintro ⟨i, -, hif, hilt⟩
            obtain rfl := least_unique hkf hklt hif hilt
            exact Option.some.inj (hkf.symm.trans hif)
      | none =>
          rw [Option.none_or]
          have hnone := findSome?_range_eq_none_iff.mp hn
          constructor
          · intro hf
            exact ⟨n, by omega, hf, hnone⟩
          · rintro ⟨i, hi, hif, -⟩
            rcases Nat.lt_succ_iff_lt_or_eq.mp hi with hlt | rfl
            · rw [hnone i hlt] at hif
              cases hif
            · exact hif

/-- **A filter after a scan.** The least `M` passes the filter `U` whenever some `M` does, if
and only if no `M` precedes the least one that passes. -/
theorem exists_least_and_iff {β : Type*} [LE β] [LT β] [Std.IsLinearOrder β]
    [Std.LawfulOrderLT β]
    (hleast : ∀ A : Set β, A.Nonempty → ∃ a, IsLeast A a) {M U : β → Prop} :
    ((∃ a, M a ∧ U a) → ∃ a, IsLeast {a | M a} a ∧ U a) ↔
      ∀ a, IsLeast {a | M a ∧ U a} a → ∀ b < a, ¬ M b := by
  constructor
  · intro h a ha b hb hMb
    obtain ⟨c, hc, hUc⟩ := h ⟨a, ha.1⟩
    exact Std.not_le.mpr hb (Std.IsPreorder.le_trans _ _ _ (ha.2 ⟨hc.1, hUc⟩) (hc.2 hMb))
  · rintro h ⟨a, ha⟩
    obtain ⟨c, hc⟩ := hleast {a | M a ∧ U a} ⟨a, ha⟩
    refine ⟨c, ⟨hc.1.1, fun b hb => ?_⟩, hc.1.2⟩
    by_contra hlt
    exact h c hc b (Std.not_le.mp hlt) hb

end Scan
