import FalconVanity.Foundation.Negacyclic
import Mathlib.Data.Complex.BigOperators

/-!
# The Fourier Transform by Decimation in Frequency

A sequence of `2 ^ L` values is transformed in place by `L` layers of butterflies on halving
blocks. The sums of a layer go to the left halves, the differences, multiplied by the powers of a
root of unity, to the right ones. The values of the transform come out in bit-reversed order.

## Main results

* `foldl_inPlace`: the loops of a layer done in place.
* `layers_eq_sum`: what the layers compute.
* `sum_normSq_layers`: the layers keep the sum of the squared absolute values, up to `2 ^ L`.
* `bitRev_compl`, `sum_bitRev`: complements and sums in bit-reversed order.
-/

namespace Dif

open Negacyclic

/-! ### Bit reversal -/

/-- The reversal of `L` bits: the top bit of the position is the lowest bit of the index. -/
def bitRev : ℕ → ℕ → ℕ
  | 0, _ => 0
  | L + 1, p => if p < 2 ^ L then 2 * bitRev L p else 2 * bitRev L (p - 2 ^ L) + 1

variable {L p : ℕ}

/-- In the lower half, the reversed number is even. -/
theorem bitRev_left (hp : p < 2 ^ L) : bitRev (L + 1) p = 2 * bitRev L p := by
  rw [bitRev, if_pos hp]

/-- In the upper half, the reversed number is odd. -/
theorem bitRev_right (L p : ℕ) : bitRev (L + 1) (2 ^ L + p) = 2 * bitRev L p + 1 := by
  rw [bitRev, if_neg (by omega), Nat.add_sub_cancel_left]

/-- A position of `L + 1` bits, by its top bit. -/
theorem left_or_right (hp : p < 2 ^ (L + 1)) : p < 2 ^ L ∨ ∃ r < 2 ^ L, p = 2 ^ L + r := by
  rw [pow_succ] at hp
  rcases Nat.lt_or_ge p (2 ^ L) with hlt | hge
  · exact .inl hlt
  · exact .inr ⟨p - 2 ^ L, by omega, by omega⟩

/-- The reversed number has as many bits. -/
theorem bitRev_lt (hp : p < 2 ^ L) : bitRev L p < 2 ^ L := by
  induction L generalizing p with
  | zero => exact Nat.one_pos
  | succ L ih =>
      have hpow : 2 ^ (L + 1) = 2 * 2 ^ L := pow_succ' 2 L
      rcases left_or_right hp with hlt | ⟨r, hr, rfl⟩
      · have hrev := ih hlt
        rw [bitRev_left hlt]
        omega
      · have hrev := ih hr
        rw [bitRev_right]
        omega

/-- **Complements** are complements in bit-reversed order. -/
theorem bitRev_compl (hp : p < 2 ^ L) : bitRev L (2 ^ L - 1 - p) = 2 ^ L - 1 - bitRev L p := by
  induction L generalizing p with
  | zero => rfl
  | succ L ih =>
      have hpow : 2 ^ (L + 1) = 2 * 2 ^ L := pow_succ' 2 L
      rcases left_or_right hp with hlt | ⟨r, hr, rfl⟩
      · have hrev := bitRev_lt hlt
        have hcompl : 2 ^ (L + 1) - 1 - p = 2 ^ L + (2 ^ L - 1 - p) := by omega
        rw [hcompl, bitRev_right, ih hlt, bitRev_left hlt]
        omega
      · have hrev := bitRev_lt hr
        have hcompl : 2 ^ (L + 1) - 1 - (2 ^ L + r) = 2 ^ L - 1 - r := by omega
        rw [hcompl, bitRev_left (by omega), ih hr, bitRev_right]
        omega

/-- A sum by even and odd indices. -/
theorem sum_even_add_odd {M : Type*} [AddCommMonoid M] (f : ℕ → M) (n : ℕ) :
    ∑ k ∈ Finset.range n, f (2 * k) + ∑ k ∈ Finset.range n, f (2 * k + 1) =
      ∑ k ∈ Finset.range (2 * n), f k := by
  induction n with
  | zero => simp
  | succ n ih =>
      rw [Finset.sum_range_succ, Finset.sum_range_succ, Nat.mul_succ, Finset.sum_range_succ,
        Finset.sum_range_succ, ← ih, add_add_add_comm, add_assoc (_ + _)]

/-- **Sums** in bit-reversed order. -/
theorem sum_bitRev {M : Type*} [AddCommMonoid M] (f : ℕ → M) (L : ℕ) :
    ∑ p ∈ Finset.range (2 ^ L), f (bitRev L p) = ∑ k ∈ Finset.range (2 ^ L), f k := by
  induction L generalizing f with
  | zero => rfl
  | succ L ih =>
      have hleft : ∑ p ∈ Finset.range (2 ^ L), f (bitRev (L + 1) p) =
          ∑ p ∈ Finset.range (2 ^ L), f (2 * bitRev L p) :=
        Finset.sum_congr rfl fun p hp => by rw [bitRev_left (Finset.mem_range.mp hp)]
      have hpow : 2 ^ (L + 1) = 2 ^ L + 2 ^ L := by omega
      rw [hpow, Finset.sum_range_add, hleft, ih fun k => f (2 * k)]
      simp only [bitRev_right]
      rw [ih fun k => f (2 * k + 1), sum_even_add_odd, two_mul]

/-- A sum over the pairs of a position and its complement. -/
theorem sum_compl {M : Type*} [AddCommMonoid M] (f : ℕ → M) (n : ℕ) :
    ∑ b ∈ Finset.range n, (f b + f (2 * n - 1 - b)) = ∑ p ∈ Finset.range (2 * n), f p := by
  have hcompl : ∑ b ∈ Finset.range n, f (2 * n - 1 - b) = ∑ b ∈ Finset.range n, f (n + b) := by
    rw [← Finset.sum_range_reflect (fun b => f (n + b))]
    refine Finset.sum_congr rfl fun b hb => ?_
    have hlt := Finset.mem_range.mp hb
    congr 1
    omega
  rw [Finset.sum_add_distrib, hcompl, two_mul, Finset.sum_range_add]

/-! ### Layers done in place -/

/-- **The rule of loops** over a range, with an invariant indexed by the iterations done. -/
theorem foldl_range_inv {σ : Type*} {body : σ → ℕ → σ} (inv : ℕ → σ → Prop) {n : ℕ} {s : σ}
    (hinit : inv 0 s) (hstep : ∀ k < n, ∀ s, inv k s → inv (k + 1) (body s k)) :
    inv n ((List.range n).foldl body s) := by
  induction n with
  | zero => exact hinit
  | succ n ih =>
      rw [List.range_succ, List.foldl_append]
      exact hstep n (Nat.lt_succ_self n) _ (ih fun k hk => hstep k (Nat.lt_succ_of_lt hk))

/-- **A layer done in place.** When the body replaces each pair by its values in `b`, the two
loops of a layer replace the sequence by `b`. -/
theorem foldl_inPlace {σ K : Type*} {body : ℕ → σ → ℕ → σ} (rep : σ → (ℕ → K) → Prop) {h m : ℕ}
    (hh : 0 < h) {a b : ℕ → K}
    (hbody : ∀ i < m, ∀ r < h, ∀ s c, rep s c →
      c (i * (2 * h) + r) = a (i * (2 * h) + r) →
      c (i * (2 * h) + r + h) = a (i * (2 * h) + r + h) →
      rep (body i s r) fun p =>
        if p = i * (2 * h) + r ∨ p = i * (2 * h) + r + h then b p else c p)
    {s : σ} (hs : rep s a) :
    rep ((List.range m).foldl (fun s i => (List.range h).foldl (body i) s) s)
      (progress h m 0 a b) := by
  refine foldl_range_inv (fun i s => rep s (progress h i 0 a b)) (by rwa [progress_zero]) ?_
  intro i hi s hblock
  rw [← progress_block hh]
  refine foldl_range_inv (fun r s => rep s (progress h i r a b)) hblock fun r hr s hpair => ?_
  rw [funext (progress_succ hr)]
  exact hbody i hi r hr s _ hpair (progress_next hr (.inl rfl)) (progress_next hr (.inr rfl))

/-! ### Layers -/

section Ring

variable {K : Type*} [CommRing K]

/-- A layer on blocks of length `2 * h`, with the factor `w r` for the pair at offset `r`. -/
def layer (w : ℕ → K) (h : ℕ) (a : ℕ → K) (p : ℕ) : K :=
  if p % (2 * h) < h then a p + a (p + h) else (a (p - h) - a p) * w (p % (2 * h) - h)

/-- The layers on blocks of length `2 ^ L` and below. The factors of each layer are the powers of
the square of the root of the layer before. -/
def layers (ω : K) : ℕ → (ℕ → K) → ℕ → K
  | 0, a => a
  | L + 1, a => layers (ω ^ 2) L (layer (fun r => ω ^ r) (2 ^ L) a)

variable {h i r : ℕ} (w : ℕ → K) (a : ℕ → K)

/-- A layer at a left position: the sum. -/
theorem layer_left (hr : r < h) :
    layer w h a (i * (2 * h) + r) = a (i * (2 * h) + r) + a (i * (2 * h) + r + h) := by
  rw [layer, left_mod hr, if_pos hr]

/-- A layer at a right position: the difference, times the factor. -/
theorem layer_right (hr : r < h) :
    layer w h a (i * (2 * h) + r + h) =
      (a (i * (2 * h) + r) - a (i * (2 * h) + r + h)) * w r := by
  rw [layer, right_mod hr, if_neg (by omega), Nat.add_sub_cancel, Nat.add_sub_cancel]

/-- The left half of a block, after a layer. -/
theorem layer_left_block {L j : ℕ} (i : ℕ) (hj : j < 2 ^ L) :
    layer w (2 ^ L) a (2 * i * 2 ^ L + j) =
      a (i * 2 ^ (L + 1) + j) + a (i * 2 ^ (L + 1) + (2 ^ L + j)) := by
  have hpos : 2 * i * 2 ^ L + j = i * (2 * 2 ^ L) + j := by ring
  have hpos' : i * 2 ^ (L + 1) + (2 ^ L + j) = i * (2 * 2 ^ L) + j + 2 ^ L := by ring
  rw [hpos, layer_left w a hj, hpos', pow_succ']

/-- The right half of a block, after a layer. -/
theorem layer_right_block {L j : ℕ} (i : ℕ) (hj : j < 2 ^ L) :
    layer w (2 ^ L) a ((2 * i + 1) * 2 ^ L + j) =
      (a (i * 2 ^ (L + 1) + j) - a (i * 2 ^ (L + 1) + (2 ^ L + j))) * w j := by
  have hpos : (2 * i + 1) * 2 ^ L + j = i * (2 * 2 ^ L) + j + 2 ^ L := by ring
  have hpos' : i * 2 ^ (L + 1) + (2 ^ L + j) = i * (2 * 2 ^ L) + j + 2 ^ L := by ring
  rw [hpos, layer_right w a hj, hpos', pow_succ']

/-- A sum over a block, by its halves. -/
theorem sum_halves {M : Type*} [AddCommMonoid M] (f : ℕ → M) (L : ℕ) :
    ∑ j ∈ Finset.range (2 ^ (L + 1)), f j = ∑ j ∈ Finset.range (2 ^ L), (f j + f (2 ^ L + j)) := by
  have hpow : 2 ^ (L + 1) = 2 ^ L + 2 ^ L := by omega
  rw [hpow, Finset.sum_range_add, Finset.sum_add_distrib]

/-- Even powers from half the order on. -/
theorem pow_half_even {ω : K} {n : ℕ} (hω : ω ^ n = -1) (j r : ℕ) :
    ω ^ ((n + j) * (2 * r)) = ω ^ (j * (2 * r)) := by
  rw [add_mul, pow_add, pow_mul ω n, hω, pow_mul (-1 : K), neg_one_sq, one_pow, one_mul]

/-- Odd powers from half the order on. -/
theorem pow_half_odd {ω : K} {n : ℕ} (hω : ω ^ n = -1) (j r : ℕ) :
    ω ^ ((n + j) * (2 * r + 1)) = -ω ^ (j * (2 * r + 1)) := by
  rw [add_mul, pow_add, pow_mul ω n, hω, pow_succ (-1 : K), pow_mul (-1 : K), neg_one_sq, one_pow,
    one_mul, neg_one_mul]

/-- **What the layers compute**: in each block, the values of the Fourier transform in
bit-reversed order. -/
theorem layers_eq_sum {ω : K} {L : ℕ} (hω : ∀ l, L = l + 1 → ω ^ 2 ^ l = -1) (i : ℕ) {p : ℕ}
    (hp : p < 2 ^ L) :
    layers ω L a (i * 2 ^ L + p) =
      ∑ j ∈ Finset.range (2 ^ L), a (i * 2 ^ L + j) * ω ^ (j * bitRev L p) := by
  induction L generalizing ω a i p with
  | zero =>
      obtain rfl : p = 0 := by omega
      simp [layers]
  | succ L ih =>
      have hhalf : ω ^ 2 ^ L = -1 := hω L rfl
      have hsq : ∀ l, L = l + 1 → (ω ^ 2) ^ 2 ^ l = -1 := by
        rintro l rfl
        rw [← pow_mul, ← pow_succ']
        exact hhalf
      rw [layers, sum_halves]
      rcases left_or_right hp with hlt | ⟨r, hr, rfl⟩
      · have hpos : i * 2 ^ (L + 1) + p = 2 * i * 2 ^ L + p := by ring
        rw [hpos, ih _ hsq _ hlt, bitRev_left hlt]
        refine Finset.sum_congr rfl fun j hj => ?_
        have hexp : 2 * (j * bitRev L p) = j * (2 * bitRev L p) := by ring
        rw [layer_left_block _ _ _ (Finset.mem_range.mp hj), pow_half_even hhalf, ← pow_mul, hexp,
          add_mul]
      · have hpos : i * 2 ^ (L + 1) + (2 ^ L + r) = (2 * i + 1) * 2 ^ L + r := by ring
        rw [hpos, ih _ hsq _ hr, bitRev_right]
        refine Finset.sum_congr rfl fun j hj => ?_
        have hexp : ω ^ j * (ω ^ 2) ^ (j * bitRev L r) = ω ^ (j * (2 * bitRev L r + 1)) := by
          rw [← pow_mul, ← pow_add]
          congr 1
          ring
        rw [layer_right_block _ _ _ (Finset.mem_range.mp hj), pow_half_odd hhalf, mul_assoc, hexp]
        ring

end Ring

/-! ### The sum of squares -/

/-- **The layers keep the sum of squares**, up to `2 ^ L`. -/
theorem sum_normSq_layers {ω : ℂ} (hω : Complex.normSq ω = 1) (L : ℕ) (a : ℕ → ℂ) (i : ℕ) :
    ∑ p ∈ Finset.range (2 ^ L), Complex.normSq (layers ω L a (i * 2 ^ L + p)) =
      2 ^ L * ∑ j ∈ Finset.range (2 ^ L), Complex.normSq (a (i * 2 ^ L + j)) := by
  induction L generalizing ω a i with
  | zero => simp [layers]
  | succ L ih =>
      have hsq : Complex.normSq (ω ^ 2) = 1 := by rw [map_pow, hω, one_pow]
      have hleft : ∀ p, i * 2 ^ (L + 1) + p = 2 * i * 2 ^ L + p := fun p => by ring
      have hright : ∀ p, i * 2 ^ (L + 1) + (2 ^ L + p) = (2 * i + 1) * 2 ^ L + p := fun p => by ring
      have hpair : ∀ j ∈ Finset.range (2 ^ L),
          Complex.normSq (layer (fun r => ω ^ r) (2 ^ L) a (2 * i * 2 ^ L + j)) +
            Complex.normSq (layer (fun r => ω ^ r) (2 ^ L) a ((2 * i + 1) * 2 ^ L + j)) =
          2 * (Complex.normSq (a (i * 2 ^ (L + 1) + j)) +
            Complex.normSq (a (i * 2 ^ (L + 1) + (2 ^ L + j)))) := by
        intro j hj
        rw [layer_left_block _ _ _ (Finset.mem_range.mp hj),
          layer_right_block _ _ _ (Finset.mem_range.mp hj), Complex.normSq_mul, map_pow, hω,
          one_pow, mul_one, Complex.normSq_add, Complex.normSq_sub]
        ring
      calc
        ∑ p ∈ Finset.range (2 ^ (L + 1)), Complex.normSq (layers ω (L + 1) a (i * 2 ^ (L + 1) + p))
          = 2 ^ L * ∑ j ∈ Finset.range (2 ^ L),
              (Complex.normSq (layer (fun r => ω ^ r) (2 ^ L) a (2 * i * 2 ^ L + j)) +
                Complex.normSq (layer (fun r => ω ^ r) (2 ^ L) a ((2 * i + 1) * 2 ^ L + j))) := by
          rw [sum_halves, Finset.sum_add_distrib, Finset.sum_add_distrib, mul_add, ← ih hsq,
            ← ih hsq, layers]
          simp only [hright]
          simp only [hleft]
        _ = 2 ^ (L + 1) * ∑ j ∈ Finset.range (2 ^ (L + 1)),
              Complex.normSq (a (i * 2 ^ (L + 1) + j)) := by
          rw [Finset.sum_congr rfl hpair, ← Finset.mul_sum, sum_halves, pow_succ (2 : ℝ), mul_assoc]

end Dif
