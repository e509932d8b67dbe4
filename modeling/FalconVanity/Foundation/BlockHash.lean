import Mathlib.Data.List.Basic
import Mathlib.Data.Nat.ModEq

/-!
# Hashing Block by Block

A hash that updates a chaining value with one block of a message after the other, and what a
program has to keep to compute it from parts of the message: the chaining value of the whole
blocks, and the symbols after them. Inside a block, a schedule in which each word depends on
the last `n` words fits in a buffer of `n` words.

## Main results

* `absorb_append_block`: one more block.
* `Absorbed.append`, `Absorbed.block`: a program reads symbols, and updates its chaining value.
* `Rolls.set`, `Rolls.getElem!_sub`: a rolling buffer is written and read.
-/

namespace BlockHash

variable {σ α : Type*}

/-- The chaining value after the whole blocks of a message. -/
def absorb (b : ℕ) (f : σ → List α → σ) (h : σ) (m : List α) : σ :=
  (List.range (m.length / b)).foldl (fun h i => f h ((m.drop (b * i)).take b)) h

variable {b : ℕ} {f : σ → List α → σ} {h₀ h : σ} {m rest : List α}

@[simp]
theorem absorb_nil (b : ℕ) (f : σ → List α → σ) (h : σ) : absorb b f h [] = h := by
  rw [absorb, List.length_nil, Nat.zero_div]
  rfl

/-- **One more block** after whole blocks. -/
theorem absorb_append_block {done blk : List α} (hb : 0 < b) (hdone : b ∣ done.length)
    (hblk : blk.length = b) : absorb b f h (done ++ blk) = f (absorb b f h done) blk := by
  obtain ⟨k, hk⟩ := hdone
  have hlen : (done ++ blk).length / b = k + 1 := by
    rw [List.length_append, hk, hblk, Nat.add_div_right _ hb, Nat.mul_div_cancel_left _ hb]
  rw [absorb, absorb, hlen, hk, Nat.mul_div_cancel_left _ hb, List.range_succ,
    List.foldl_append, List.foldl_cons, List.foldl_nil, ← hk, List.drop_left,
    List.take_of_length_le hblk.le]
  refine congrArg (f · blk) (List.foldl_ext _ _ _ fun h i hi => ?_)
  have hfits : b * i + b ≤ done.length := by
    rw [hk, ← Nat.mul_succ]
    exact Nat.mul_le_mul_left b (List.mem_range.mp hi)
  rw [List.drop_append_of_le_length (by omega),
    List.take_append_of_le_length (by rw [List.length_drop]; omega)]

/-! ### Messages in parts -/

/-- What a program has kept of a message: the chaining value after whole blocks, and the
symbols that follow them. -/
def Absorbed (b : ℕ) (f : σ → List α → σ) (h₀ : σ) (m : List α) (h : σ) (rest : List α) : Prop :=
  ∃ done, m = done ++ rest ∧ b ∣ done.length ∧ h = absorb b f h₀ done

theorem Absorbed.nil (b : ℕ) (f : σ → List α → σ) (h₀ : σ) : Absorbed b f h₀ [] h₀ [] :=
  ⟨[], rfl, Nat.dvd_zero b, (absorb_nil b f h₀).symm⟩

/-- More of the message is read. -/
theorem Absorbed.append (ha : Absorbed b f h₀ m h rest) (xs : List α) :
    Absorbed b f h₀ (m ++ xs) h (rest ++ xs) := by
  obtain ⟨done, rfl, hdone, rfl⟩ := ha
  exact ⟨done, List.append_assoc _ _ _, hdone, rfl⟩

/-- A block is complete. -/
theorem Absorbed.block {blk : List α} (ha : Absorbed b f h₀ m h (blk ++ rest)) (hb : 0 < b)
    (hblk : blk.length = b) : Absorbed b f h₀ m (f h blk) rest := by
  obtain ⟨done, rfl, hdone, rfl⟩ := ha
  refine ⟨done ++ blk, (List.append_assoc _ _ _).symm, ?_, (absorb_append_block hb hdone hblk).symm⟩
  rw [List.length_append, hblk]
  exact Nat.dvd_add hdone (Nat.dvd_refl b)

/-- A block at the beginning of the symbols that are left. -/
theorem Absorbed.take_block (ha : Absorbed b f h₀ m h rest) (hb : 0 < b)
    (hlen : b ≤ rest.length) : Absorbed b f h₀ m (f h (rest.take b)) (rest.drop b) := by
  rw [← List.take_append_drop b rest] at ha
  exact ha.block hb (by rw [List.length_take]; omega)

/-- The symbols that are kept are as many as the message has beyond whole blocks. -/
theorem Absorbed.length_mod (ha : Absorbed b f h₀ m h rest) (hlt : rest.length < b) :
    m.length % b = rest.length := by
  obtain ⟨done, rfl, ⟨k, hk⟩, rfl⟩ := ha
  rw [List.length_append, hk, Nat.mul_add_mod, Nat.mod_eq_of_lt hlt]

/-- A message of whole blocks is absorbed. -/
theorem Absorbed.eq_absorb (ha : Absorbed b f h₀ m h []) : h = absorb b f h₀ m := by
  obtain ⟨done, rfl, -, rfl⟩ := ha
  rw [List.append_nil]

/-! ### Rolling schedules -/

section Rolling

variable [Inhabited α] {n t : ℕ} {W : ℕ → α} {w : Vector α n}

/-- A buffer holds the last `n` terms of a sequence before a position, each at its position
modulo `n`. -/
def Rolls (W : ℕ → α) (t : ℕ) (w : Vector α n) : Prop :=
  ∀ i < t, t ≤ i + n → w[i % n]! = W i

/-- The next term replaces the oldest one. -/
theorem Rolls.set (hw : Rolls W t w) (hn : 0 < n) : Rolls W (t + 1) (w.set! (t % n) (W t)) := by
  intro i hi hin
  have hlt : ∀ j, j % n < n := fun j => Nat.mod_lt j hn
  rw [getElem!_pos (w.set! (t % n) (W t)) (i % n) (hlt i), Vector.set!_eq_setIfInBounds,
    Vector.getElem_setIfInBounds]
  by_cases heq : i = t
  · rw [heq, if_pos rfl]
  · have hne : ¬ t % n = i % n := by
      intro hmod
      have hdvd : n ∣ t - i := (Nat.modEq_iff_dvd' (by omega)).mp hmod.symm
      have hle := Nat.le_of_dvd (by omega) hdvd
      omega
    rw [if_neg hne, ← getElem!_pos w (i % n) (hlt i)]
    exact hw i (by omega) (by omega)

/-- A term that lies back by at most `n` positions. -/
theorem Rolls.getElem!_sub (hw : Rolls W t w) {d : ℕ} (hd : 0 < d) (hdn : d ≤ n) (hdt : d ≤ t) :
    w[(t - d) % n]! = W (t - d) :=
  hw (t - d) (by omega) (by omega)

/-- The oldest term. -/
theorem Rolls.getElem!_oldest (hw : Rolls W t w) (hn : 0 < n) (hnt : n ≤ t) :
    w[t % n]! = W (t - n) := by
  rw [← hw.getElem!_sub hn le_rfl hnt, Nat.mod_eq_sub_mod hnt]

end Rolling

end BlockHash
