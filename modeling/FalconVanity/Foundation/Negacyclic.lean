import Mathlib.Algebra.BigOperators.Ring.Finset
import Mathlib.RingTheory.AdjoinRoot
import Mathlib.Tactic.LinearCombination

/-!
# The Negacyclic Transform by Layers of Butterflies

A sequence of `2 ^ L` coefficients is transformed by `L` layers of butterflies. The layer
with `m` blocks pairs the position `j` of a block with the position half a block later, and
the twiddle factor of block `i` stands in a table at `m + i`. Read as a binary tree, the node
`v` has the children `2 * v` and `2 * v + 1`, whose roots are the two square roots of the
root of `v`, and the transform evaluates the polynomial at the roots of the leaves, which are
roots of `X ^ 2 ^ L + 1`.

## Main results

* `forward_eq_stage`: after `d` layers, the sequence holds partial evaluations.
* `inverse_forward`, `forward_inverse`: the inverse layers undo the layers, up to `2 ^ L`.
* `coeffElem_mul_eq_iff`: products in the quotient ring are products of evaluations.
* `isUnit_coeffElem_iff`: units of the quotient ring have nonzero evaluations.
-/

namespace Negacyclic

open Polynomial

/-! ### Pairs of positions -/

/-- Every position is on the left or on the right of a pair. -/
theorem exists_pair {h : ℕ} (hh : 0 < h) (p : ℕ) :
    ∃ i r, r < h ∧ (p = i * (2 * h) + r ∨ p = i * (2 * h) + r + h) := by
  have hpos : 0 < 2 * h := by omega
  have hp := Nat.div_add_mod p (2 * h)
  have hlt := Nat.mod_lt p hpos
  rw [Nat.mul_comm] at hp
  by_cases hr : p % (2 * h) < h
  · exact ⟨p / (2 * h), p % (2 * h), hr, .inl hp.symm⟩
  · exact ⟨p / (2 * h), p % (2 * h) - h, by omega, .inr (by omega)⟩

variable {h i r : ℕ}

/-- The block of a left position: a pair of blocks has `2 * h` positions. -/
theorem left_div (hr : r < h) : (i * (2 * h) + r) / (2 * h) = i := by
  rw [Nat.mul_comm, Nat.mul_add_div (by omega), Nat.div_eq_of_lt (by omega), Nat.add_zero]

/-- The place of a left position within its pair of blocks. -/
theorem left_mod (hr : r < h) : (i * (2 * h) + r) % (2 * h) = r := by
  rw [Nat.mul_comm, Nat.mul_add_mod, Nat.mod_eq_of_lt (by omega)]

/-- A right position lies in the same pair of blocks as its left partner. -/
theorem right_div (hr : r < h) : (i * (2 * h) + r + h) / (2 * h) = i := by
  rw [Nat.add_assoc, Nat.mul_comm, Nat.mul_add_div (by omega), Nat.div_eq_of_lt (by omega),
    Nat.add_zero]

/-- The place of a right position is `h` after that of its left partner. -/
theorem right_mod (hr : r < h) : (i * (2 * h) + r + h) % (2 * h) = r + h := by
  rw [Nat.add_assoc, Nat.mul_comm, Nat.mul_add_mod, Nat.mod_eq_of_lt (by omega)]

/-- The positions of a pair. -/
theorem mem_pair_iff (hr : r < h) {p : ℕ} :
    (p = i * (2 * h) + r ∨ p = i * (2 * h) + r + h) ↔
      p / (2 * h) = i ∧ p % (2 * h) % h = r := by
  constructor
  · rintro (rfl | rfl)
    · rw [left_div hr, left_mod hr, Nat.mod_eq_of_lt hr]
      exact ⟨rfl, rfl⟩
    · rw [right_div hr, right_mod hr, Nat.add_mod_right, Nat.mod_eq_of_lt hr]
      exact ⟨rfl, rfl⟩
  · have hh : 0 < h := by omega
    rcases exists_pair hh p with ⟨i', r', hr', rfl | rfl⟩
    · rw [left_div hr', left_mod hr', Nat.mod_eq_of_lt hr']
      rintro ⟨rfl, rfl⟩
      exact .inl rfl
    · rw [right_div hr', right_mod hr', Nat.add_mod_right, Nat.mod_eq_of_lt hr']
      rintro ⟨rfl, rfl⟩
      exact .inr rfl

/-! ### Layers done in place -/

section Progress

variable {K : Type*}

/-- The sequence after the pairs before `(i, r)` were replaced, in program order. -/
def progress (h i r : ℕ) (a b : ℕ → K) (p : ℕ) : K :=
  if p / (2 * h) < i ∨ p / (2 * h) = i ∧ p % (2 * h) % h < r then b p else a p

variable {a b : ℕ → K}

/-- Before the first butterfly, nothing of the layer is done. -/
theorem progress_zero : progress h 0 0 a b = a := by
  funext p
  simp [progress]

/-- The end of a block is the start of the next one. -/
theorem progress_block (hh : 0 < h) : progress h i h a b = progress h (i + 1) 0 a b := by
  funext p
  have hlt := Nat.mod_lt (p % (2 * h)) hh
  exact if_congr (by omega) rfl rfl

/-- After `m` blocks everything is replaced. -/
theorem progress_done {m p : ℕ} (hp : p < m * (2 * h)) : progress h m 0 a b p = b p := by
  have hdiv : p / (2 * h) < m := Nat.div_lt_of_lt_mul (by rwa [Nat.mul_comm])
  rw [progress, if_pos (.inl hdiv)]

/-- The pair that comes next was not touched. -/
theorem progress_next (hr : r < h) {p : ℕ}
    (hp : p = i * (2 * h) + r ∨ p = i * (2 * h) + r + h) : progress h i r a b p = a p := by
  obtain ⟨hdiv, hmod⟩ := (mem_pair_iff hr).mp hp
  rw [progress, if_neg (by omega)]

/-- Replacing the pair that comes next. -/
theorem progress_succ (hr : r < h) (p : ℕ) :
    progress h i (r + 1) a b p =
      if p = i * (2 * h) + r ∨ p = i * (2 * h) + r + h then b p else progress h i r a b p := by
  by_cases hp : p = i * (2 * h) + r ∨ p = i * (2 * h) + r + h
  · obtain ⟨hdiv, hmod⟩ := (mem_pair_iff hr).mp hp
    rw [if_pos hp, progress, if_pos (by omega)]
  · have hpair := mt (mem_pair_iff hr).mpr hp
    rw [if_neg hp]
    exact if_congr (by omega) rfl rfl

end Progress

/-! ### Layers -/

section Ring

variable {K : Type*} [CommRing K]

/-- A layer of butterflies: the twiddle factor of block `i` is `ζ (m + i)`. -/
def layer (ζ : ℕ → K) (m h : ℕ) (a : ℕ → K) (p : ℕ) : K :=
  if p % (2 * h) < h then a p + ζ (m + p / (2 * h)) * a (p + h)
  else a (p - h) - ζ (m + p / (2 * h)) * a p

/-- A layer of inverse butterflies. -/
def invLayer (ζ' : ℕ → K) (m h : ℕ) (a : ℕ → K) (p : ℕ) : K :=
  if p % (2 * h) < h then a p + a (p + h)
  else (a (p - h) - a p) * ζ' (m + p / (2 * h))

variable (ζ ζ' : ℕ → K) (m : ℕ) (a : ℕ → K)

/-- A layer at a left position: the sum of the butterfly. -/
theorem layer_left (hr : r < h) :
    layer ζ m h a (i * (2 * h) + r) =
      a (i * (2 * h) + r) + ζ (m + i) * a (i * (2 * h) + r + h) := by
  rw [layer, left_mod hr, left_div hr, if_pos hr]

/-- A layer at a right position: the difference of the butterfly, which has the same product as the
sum. -/
theorem layer_right (hr : r < h) :
    layer ζ m h a (i * (2 * h) + r + h) =
      a (i * (2 * h) + r) - ζ (m + i) * a (i * (2 * h) + r + h) := by
  rw [layer, right_mod hr, right_div hr, if_neg (by omega), Nat.add_sub_cancel]

/-- An inverse layer at a left position: the sum, with no root. -/
theorem invLayer_left (hr : r < h) :
    invLayer ζ' m h a (i * (2 * h) + r) = a (i * (2 * h) + r) + a (i * (2 * h) + r + h) := by
  rw [invLayer, left_mod hr, if_pos hr]

/-- An inverse layer at a right position: the difference, times the inverse root. -/
theorem invLayer_right (hr : r < h) :
    invLayer ζ' m h a (i * (2 * h) + r + h) =
      (a (i * (2 * h) + r) - a (i * (2 * h) + r + h)) * ζ' (m + i) := by
  rw [invLayer, right_mod hr, right_div hr, if_neg (by omega), Nat.add_sub_cancel]

/-- A position below the length lies in one of the `m` pairs of blocks. -/
theorem lt_of_pair {p : ℕ} (hp : p < m * (2 * h)) (hle : i * (2 * h) ≤ p) : i < m :=
  Nat.lt_of_mul_lt_mul_right (hle.trans_lt hp)

/-- Inverse butterflies undo butterflies, up to a factor of two. -/
theorem invLayer_layer (hh : 0 < h) (hinv : ∀ i < m, ζ (m + i) * ζ' (m + i) = 1) {p : ℕ}
    (hp : p < m * (2 * h)) : invLayer ζ' m h (layer ζ m h a) p = 2 * a p := by
  rcases exists_pair hh p with ⟨i, r, hr, rfl | rfl⟩
  · rw [invLayer_left ζ' m _ hr, layer_left ζ m a hr, layer_right ζ m a hr]
    ring
  · have hi := hinv i (lt_of_pair m hp (by omega))
    rw [invLayer_right ζ' m _ hr, layer_left ζ m a hr, layer_right ζ m a hr]
    linear_combination 2 * a (i * (2 * h) + r + h) * hi

/-- Butterflies undo inverse butterflies, up to a factor of two. -/
theorem layer_invLayer (hh : 0 < h) (hinv : ∀ i < m, ζ (m + i) * ζ' (m + i) = 1) {p : ℕ}
    (hp : p < m * (2 * h)) : layer ζ m h (invLayer ζ' m h a) p = 2 * a p := by
  rcases exists_pair hh p with ⟨i, r, hr, rfl | rfl⟩
  · have hi := hinv i (lt_of_pair m hp (by omega))
    rw [layer_left ζ m _ hr, invLayer_left ζ' m a hr, invLayer_right ζ' m a hr]
    linear_combination (a (i * (2 * h) + r) - a (i * (2 * h) + r + h)) * hi
  · have hi := hinv i (lt_of_pair m hp (by omega))
    rw [layer_right ζ m _ hr, invLayer_left ζ' m a hr, invLayer_right ζ' m a hr]
    linear_combination -(a (i * (2 * h) + r) - a (i * (2 * h) + r + h)) * hi

variable {a} {b : ℕ → K} {p : ℕ}

/-- A layer stays inside its blocks. -/
theorem layer_congr (hh : 0 < h) (hab : ∀ p < m * (2 * h), a p = b p) (hp : p < m * (2 * h)) :
    layer ζ m h a p = layer ζ m h b p := by
  obtain ⟨i, r, hr, hpos⟩ := exists_pair hh p
  have hi : i < m := lt_of_pair m hp (by omega)
  have hblock : (i + 1) * (2 * h) ≤ m * (2 * h) := Nat.mul_le_mul_right _ hi
  rw [Nat.succ_mul] at hblock
  have hleft := hab (i * (2 * h) + r) (by omega)
  have hright := hab (i * (2 * h) + r + h) (by omega)
  rcases hpos with rfl | rfl
  · rw [layer_left ζ m a hr, layer_left ζ m b hr, hleft, hright]
  · rw [layer_right ζ m a hr, layer_right ζ m b hr, hleft, hright]

/-- An inverse layer reads positions below the length only. -/
theorem invLayer_congr (hh : 0 < h) (hab : ∀ p < m * (2 * h), a p = b p)
    (hp : p < m * (2 * h)) : invLayer ζ' m h a p = invLayer ζ' m h b p := by
  obtain ⟨i, r, hr, hpos⟩ := exists_pair hh p
  have hi : i < m := lt_of_pair m hp (by omega)
  have hblock : (i + 1) * (2 * h) ≤ m * (2 * h) := Nat.mul_le_mul_right _ hi
  rw [Nat.succ_mul] at hblock
  have hleft := hab (i * (2 * h) + r) (by omega)
  have hright := hab (i * (2 * h) + r + h) (by omega)
  rcases hpos with rfl | rfl
  · rw [invLayer_left ζ' m a hr, invLayer_left ζ' m b hr, hleft, hright]
  · rw [invLayer_right ζ' m a hr, invLayer_right ζ' m b hr, hleft, hright]

/-- A constant factor passes through a layer. -/
theorem layer_smul (c : K) : layer ζ m h (fun p => c * a p) p = c * layer ζ m h a p := by
  unfold layer
  split <;> ring

/-- A constant factor passes through an inverse layer. -/
theorem invLayer_smul (c : K) :
    invLayer ζ' m h (fun p => c * a p) p = c * invLayer ζ' m h a p := by
  unfold invLayer
  split <;> ring

end Ring

/-! ### Twiddle factors -/

/-- Twiddle factors for `L` layers, and their inverses: the factor of a node is a square root
of the root of the node. -/
structure Twiddles (K : Type*) [CommRing K] (L : ℕ) where
  ζ : ℕ → K
  ζ' : ℕ → K
  sq_one : ζ 1 ^ 2 = -1
  sq_even : ∀ v, 0 < v → 2 * v < 2 ^ L → ζ (2 * v) ^ 2 = ζ v
  sq_odd : ∀ v, 0 < v → 2 * v < 2 ^ L → ζ (2 * v + 1) ^ 2 = -ζ v
  mul_inv : ∀ v, 0 < v → v < 2 ^ L → ζ v * ζ' v = 1

section Transform

variable {K : Type*} [CommRing K] {L : ℕ} (T : Twiddles K L)

/-- The root of a node. -/
def Twiddles.root (v : ℕ) : K :=
  if v = 1 then -1 else if v % 2 = 0 then T.ζ (v / 2) else -T.ζ (v / 2)

/-- The root at an even place is the twiddle factor itself. -/
theorem Twiddles.root_even (v : ℕ) : T.root (2 * v) = T.ζ v := by
  rw [Twiddles.root, if_neg (by omega), if_pos (by omega), Nat.mul_div_cancel_left v two_pos]

/-- The root at an odd place is the twiddle factor with the other sign. -/
theorem Twiddles.root_odd {v : ℕ} (hv : 0 < v) : T.root (2 * v + 1) = -T.ζ v := by
  have hparent : (2 * v + 1) / 2 = v := by omega
  rw [Twiddles.root, if_neg (by omega), if_neg (by omega), hparent]

/-- The square of a twiddle factor. -/
theorem Twiddles.sq_ζ {v : ℕ} (hv : 0 < v) (hlt : v < 2 ^ L) : T.ζ v ^ 2 = T.root v := by
  rcases eq_or_ne v 1 with rfl | hne
  · rw [T.sq_one, Twiddles.root, if_pos rfl]
  · obtain ⟨w, rfl | rfl⟩ : ∃ w, v = 2 * w ∨ v = 2 * w + 1 := ⟨v / 2, by omega⟩
    · rw [T.sq_even w (by omega) hlt, T.root_even]
    · rw [T.sq_odd w (by omega) (by omega), T.root_odd (by omega)]

/-- The roots of level `d` are roots of `X ^ 2 ^ d + 1`. -/
theorem Twiddles.root_pow {d v : ℕ} (hd : d ≤ L) (hlo : 2 ^ d ≤ v) (hhi : v < 2 ^ (d + 1)) :
    T.root v ^ 2 ^ d = -1 := by
  induction d generalizing v with
  | zero =>
      obtain rfl : v = 1 := by omega
      rw [Twiddles.root, if_pos rfl, pow_zero, pow_one]
  | succ d ih =>
      have hpow : 2 ^ (d + 1) ≤ 2 ^ L := Nat.pow_le_pow_right two_pos hd
      obtain ⟨w, hw⟩ : ∃ w, v = 2 * w ∨ v = 2 * w + 1 := ⟨v / 2, by omega⟩
      have hlow : 2 ^ d ≤ w := by omega
      have hpos : 0 < w := (Nat.two_pow_pos d).trans_le hlow
      have hsq : T.root v ^ 2 = T.root w := by
        rw [← T.sq_ζ hpos (by omega)]
        rcases hw with rfl | rfl
        · rw [T.root_even]
        · rw [T.root_odd hpos, neg_sq]
      rw [pow_succ', pow_mul, hsq, ih (by omega) hlow (by omega)]

/-- The sequence after `d` layers. -/
def forward (a : ℕ → K) : ℕ → ℕ → K
  | 0 => a
  | d + 1 => layer T.ζ (2 ^ d) (2 ^ (L - d - 1)) (forward a d)

/-- The sequence after `k` inverse layers. -/
def inverse (x : ℕ → K) : ℕ → ℕ → K
  | 0 => x
  | k + 1 => invLayer T.ζ' (2 ^ (L - k - 1)) (2 ^ k) (inverse x k)

/-- Partial evaluations: position `i * t + j` holds the part of the polynomial at the
positions `j` modulo `t`, at the root of node `i` of level `d`. -/
def stage (a : ℕ → K) (d p : ℕ) : K :=
  ∑ l ∈ Finset.range (2 ^ d),
    a (p % 2 ^ (L - d) + l * 2 ^ (L - d)) * T.root (2 ^ d + p / 2 ^ (L - d)) ^ l

variable {T} {a : ℕ → K}

/-- The values after `d` layers, at position `j` of block `i`: the residue of the polynomial at the
root of the block. -/
theorem stage_apply {d i j : ℕ} (hj : j < 2 ^ (L - d)) :
    stage T a d (i * 2 ^ (L - d) + j) =
      ∑ l ∈ Finset.range (2 ^ d), a (j + l * 2 ^ (L - d)) * T.root (2 ^ d + i) ^ l := by
  rw [stage, Nat.mul_comm i, Nat.mul_add_mod, Nat.mod_eq_of_lt hj,
    Nat.mul_add_div (Nat.two_pow_pos _), Nat.div_eq_of_lt hj, Nat.add_zero]

/-- An evaluation at `x` by the even and the odd terms, evaluated at `x ^ 2`. -/
theorem sum_even_odd (a : ℕ → K) (x : K) (r h m : ℕ) :
    ∑ l ∈ Finset.range (2 * m), a (r + l * h) * x ^ l =
      ∑ l ∈ Finset.range m, a (r + l * (2 * h)) * (x ^ 2) ^ l +
        x * ∑ l ∈ Finset.range m, a (r + h + l * (2 * h)) * (x ^ 2) ^ l := by
  induction m with
  | zero => simp
  | succ m ih =>
      have heven : r + 2 * m * h = r + m * (2 * h) := by ring
      have hodd : r + (2 * m + 1) * h = r + h + m * (2 * h) := by ring
      have hterms : 2 * (m + 1) = 2 * m + 1 + 1 := by ring
      rw [hterms, Finset.sum_range_succ, Finset.sum_range_succ, ih, Finset.sum_range_succ,
        Finset.sum_range_succ, heven, hodd]
      ring

/-- The lengths of the blocks before and after a layer, as powers of two. -/
theorem pow_split {d : ℕ} (hd : d < L) :
    2 ^ d * (2 * 2 ^ (L - d - 1)) = 2 ^ L ∧ 2 ^ (L - d) = 2 * 2 ^ (L - d - 1) ∧
      2 ^ (L - (d + 1)) = 2 ^ (L - d - 1) := by
  refine ⟨?_, ?_, by rw [Nat.sub_sub]⟩
  · rw [← pow_succ', ← pow_add]
    congr 1
    omega
  · rw [← pow_succ']
    congr 1
    omega

/-- **One layer** turns partial evaluations into those of the next level. -/
theorem layer_stage {d : ℕ} (hd : d < L) {p : ℕ} (hp : p < 2 ^ L) :
    layer T.ζ (2 ^ d) (2 ^ (L - d - 1)) (stage T a d) p = stage T a (d + 1) p := by
  obtain ⟨hprod, hdouble, hnext⟩ := pow_split hd
  have hpow := Nat.two_pow_pos (L - d - 1)
  set h := 2 ^ (L - d - 1) with hh
  obtain ⟨i, r, hr, hpos⟩ := exists_pair hpow p
  have hi : i < 2 ^ d := lt_of_pair (h := h) (2 ^ d) (hprod.symm ▸ hp) (by omega)
  have hnode : 2 ^ d + i < 2 ^ L := by
    have hle : 2 ^ (d + 1) ≤ 2 ^ L := Nat.pow_le_pow_right two_pos hd
    omega
  have hnodepos : 0 < 2 ^ d + i := Nat.add_pos_left (Nat.two_pow_pos d) i
  have hleft : stage T a d (i * (2 * h) + r) =
      ∑ l ∈ Finset.range (2 ^ d), a (r + l * (2 * h)) * T.root (2 ^ d + i) ^ l := by
    have happ := stage_apply (T := T) (a := a) (d := d) (i := i) (j := r) (by omega)
    rwa [hdouble] at happ
  have hright : stage T a d (i * (2 * h) + r + h) =
      ∑ l ∈ Finset.range (2 ^ d), a (r + h + l * (2 * h)) * T.root (2 ^ d + i) ^ l := by
    have happ := stage_apply (T := T) (a := a) (d := d) (i := i) (j := r + h) (by omega)
    rwa [hdouble, ← Nat.add_assoc] at happ
  have hchild : ∀ c, stage T a (d + 1) (c * h + r) =
      ∑ l ∈ Finset.range (2 * 2 ^ d), a (r + l * h) * T.root (2 ^ (d + 1) + c) ^ l := by
    intro c
    have happ := stage_apply (T := T) (a := a) (d := d + 1) (i := c) (j := r)
      (by rw [hnext]; exact hr)
    rw [hnext] at happ
    rw [happ, ← pow_succ']
  rcases hpos with rfl | rfl
  · have hblock : i * (2 * h) + r = 2 * i * h + r := by ring
    have hbelow : 2 ^ (d + 1) + 2 * i = 2 * (2 ^ d + i) := by ring
    rw [layer_left T.ζ _ _ hr, hleft, hright, hblock, hchild, sum_even_odd, hbelow,
      T.root_even, T.sq_ζ hnodepos hnode]
  · have hblock : i * (2 * h) + r + h = (2 * i + 1) * h + r := by ring
    have hbelow : 2 ^ (d + 1) + (2 * i + 1) = 2 * (2 ^ d + i) + 1 := by ring
    rw [layer_right T.ζ _ _ hr, hleft, hright, hblock, hchild, sum_even_odd, hbelow,
      T.root_odd hnodepos, neg_sq, T.sq_ζ hnodepos hnode]
    ring

/-- **All layers** up to level `d`. -/
theorem forward_eq_stage {d : ℕ} (hd : d ≤ L) {p : ℕ} (hp : p < 2 ^ L) :
    forward T a d p = stage T a d p := by
  induction d generalizing p with
  | zero => simp [forward, stage, Nat.mod_eq_of_lt hp]
  | succ d ih =>
      have hprod := (pow_split (Nat.lt_of_succ_le hd)).1
      rw [forward, ← layer_stage hd hp]
      exact layer_congr _ _ (Nat.two_pow_pos _)
        (fun p hp => ih (by omega) (by rwa [hprod] at hp)) (by rwa [hprod])

/-- The transform evaluates at the roots of the leaves. -/
theorem forward_eq_sum {p : ℕ} (hp : p < 2 ^ L) :
    forward T a L p = ∑ l ∈ Finset.range (2 ^ L), a l * T.root (2 ^ L + p) ^ l := by
  rw [forward_eq_stage le_rfl hp]
  simp [stage, Nat.mod_one]

/-- A constant factor passes through the transform. -/
theorem forward_smul (c : K) (d p : ℕ) :
    forward T (fun p => c * a p) d p = c * forward T a d p := by
  induction d generalizing p with
  | zero => rfl
  | succ d ih => rw [forward, funext ih, layer_smul, ← forward]

/-! ### The inverse transform -/

/-- The inverse layers undo the last layers, one by one. -/
theorem inverse_forward_le {k : ℕ} (hk : k ≤ L) {p : ℕ} (hp : p < 2 ^ L) :
    inverse T (forward T a L) k p = 2 ^ k * forward T a (L - k) p := by
  induction k generalizing p with
  | zero => rw [inverse, pow_zero, one_mul, Nat.sub_zero]
  | succ k ih =>
      have hd : L - k = L - (k + 1) + 1 := by omega
      have hexp : L - (L - (k + 1)) - 1 = k := by omega
      have hlevel : L - (k + 1) < L := by omega
      have hprod := (pow_split hlevel).1
      rw [hexp] at hprod
      have hnode : ∀ i < 2 ^ (L - (k + 1)),
          T.ζ (2 ^ (L - (k + 1)) + i) * T.ζ' (2 ^ (L - (k + 1)) + i) = 1 := by
        intro i hi
        have hle : 2 ^ (L - (k + 1) + 1) ≤ 2 ^ L := Nat.pow_le_pow_right two_pos (by omega)
        exact T.mul_inv _ (Nat.add_pos_left (Nat.two_pow_pos _) i) (by omega)
      calc inverse T (forward T a L) (k + 1) p
          = invLayer T.ζ' (2 ^ (L - (k + 1))) (2 ^ k)
              (fun p => 2 ^ k * forward T a (L - k) p) p := by
            rw [inverse, Nat.sub_sub]
            exact invLayer_congr _ _ (Nat.two_pow_pos k)
              (fun p hp => ih (by omega) (hprod ▸ hp)) (hprod.symm ▸ hp)
        _ = 2 ^ k * invLayer T.ζ' (2 ^ (L - (k + 1))) (2 ^ k)
              (layer T.ζ (2 ^ (L - (k + 1))) (2 ^ k) (forward T a (L - (k + 1)))) p := by
            rw [invLayer_smul, hd, forward, hexp]
        _ = 2 ^ (k + 1) * forward T a (L - (k + 1)) p := by
            rw [invLayer_layer _ _ _ _ (Nat.two_pow_pos k) hnode (hprod.symm ▸ hp)]
            ring

/-- **The inverse layers undo the layers**, up to `2 ^ L`. -/
theorem inverse_forward {p : ℕ} (hp : p < 2 ^ L) :
    inverse T (forward T a L) L p = 2 ^ L * a p := by
  rw [inverse_forward_le le_rfl hp, Nat.sub_self, forward]

/-- The layers undo the last inverse layers, one by one. -/
theorem forward_inverse_le {d : ℕ} (hd : d ≤ L) {p : ℕ} (hp : p < 2 ^ L) :
    forward T (inverse T a L) d p = 2 ^ d * inverse T a (L - d) p := by
  induction d generalizing p with
  | zero => rw [forward, pow_zero, one_mul, Nat.sub_zero]
  | succ d ih =>
      have hk : L - d = L - (d + 1) + 1 := by omega
      have hexp : L - (L - (d + 1)) - 1 = d := by omega
      have hprod := (pow_split (Nat.lt_of_succ_le hd)).1
      rw [Nat.sub_sub] at hprod
      have hnode : ∀ i < 2 ^ d, T.ζ (2 ^ d + i) * T.ζ' (2 ^ d + i) = 1 := by
        intro i hi
        have hle : 2 ^ (d + 1) ≤ 2 ^ L := Nat.pow_le_pow_right two_pos hd
        exact T.mul_inv _ (Nat.add_pos_left (Nat.two_pow_pos _) i) (by omega)
      calc forward T (inverse T a L) (d + 1) p
          = layer T.ζ (2 ^ d) (2 ^ (L - (d + 1)))
              (fun p => 2 ^ d * inverse T a (L - d) p) p := by
            rw [forward, Nat.sub_sub]
            exact layer_congr _ _ (Nat.two_pow_pos _)
              (fun p hp => ih (by omega) (hprod ▸ hp)) (hprod.symm ▸ hp)
        _ = 2 ^ d * layer T.ζ (2 ^ d) (2 ^ (L - (d + 1)))
              (invLayer T.ζ' (2 ^ d) (2 ^ (L - (d + 1))) (inverse T a (L - (d + 1)))) p := by
            rw [layer_smul, hk, inverse, hexp]
        _ = 2 ^ (d + 1) * inverse T a (L - (d + 1)) p := by
            rw [layer_invLayer _ _ _ _ (Nat.two_pow_pos _) hnode (hprod.symm ▸ hp)]
            ring

/-- **The layers undo the inverse layers**, up to `2 ^ L`. -/
theorem forward_inverse {p : ℕ} (hp : p < 2 ^ L) :
    forward T (inverse T a L) L p = 2 ^ L * a p := by
  rw [forward_inverse_le le_rfl hp, Nat.sub_self, inverse]

/-! ### The quotient ring -/

variable (K L) in
/-- The modulus of the ring. -/
noncomputable def modulus : K[X] := X ^ 2 ^ L + 1

/-- The element of the ring with the given coefficients. -/
noncomputable def coeffElem (L : ℕ) (a : ℕ → K) : AdjoinRoot (modulus K L) :=
  AdjoinRoot.mk _ (∑ l ∈ Finset.range (2 ^ L), C (a l) * X ^ l)

/-- The element of the quotient depends on the first `2 ^ L` coefficients alone. -/
theorem coeffElem_congr {b : ℕ → K} (hab : ∀ p < 2 ^ L, a p = b p) :
    coeffElem L a = coeffElem L b := by
  rw [coeffElem, coeffElem]
  congr 1
  exact Finset.sum_congr rfl fun l hl => by rw [hab l (Finset.mem_range.mp hl)]

/-- The modulus is monic, so that there is division with remainder by it. -/
theorem modulus_monic : (modulus K L).Monic := by
  have h := monic_X_pow_add_C (1 : K) (Nat.two_pow_pos L).ne'
  rwa [C_1] at h

/-- The coefficients of an element of the ring. -/
noncomputable def coeffs (z : AdjoinRoot (modulus K L)) : ℕ → K :=
  (AdjoinRoot.modByMonicHom modulus_monic z).coeff

/-- Every element of the quotient is that of its coefficients. -/
theorem coeffElem_coeffs [Nontrivial K] (z : AdjoinRoot (modulus K L)) :
    coeffElem L (coeffs z) = z := by
  obtain ⟨P, rfl⟩ := AdjoinRoot.mk_surjective z
  have hdeg : (modulus K L).natDegree = 2 ^ L := by
    have h := natDegree_X_pow_add_C (n := 2 ^ L) (r := (1 : K))
    rwa [C_1] at h
  have hne : modulus K L ≠ 1 := by
    intro h
    rw [h, natDegree_one] at hdeg
    exact (Nat.two_pow_pos L).ne hdeg
  have hlt : (P %ₘ modulus K L).natDegree < 2 ^ L := by
    have h := natDegree_modByMonic_lt P modulus_monic hne
    rwa [hdeg] at h
  rw [coeffs, AdjoinRoot.modByMonicHom_mk, coeffElem, ← as_sum_range_C_mul_X_pow' _ hlt,
    AdjoinRoot.mk_eq_mk]
  have hmod := modByMonic_add_div P (modulus K L)
  exact ⟨-(P /ₘ modulus K L), by linear_combination hmod⟩

/-- Every element of the ring has coefficients. -/
theorem exists_coeffElem [Nontrivial K] (z : AdjoinRoot (modulus K L)) :
    ∃ a, coeffElem L a = z := ⟨coeffs z, coeffElem_coeffs z⟩

variable (T) in
/-- Evaluation at the root of a leaf. -/
noncomputable def evalAt (p : Fin (2 ^ L)) : AdjoinRoot (modulus K L) →+* K :=
  AdjoinRoot.lift (RingHom.id K) (T.root (2 ^ L + p)) (by
    have hroot := T.root_pow le_rfl (Nat.le_add_right (2 ^ L) p) (by have := p.isLt; omega)
    simp [modulus, hroot])

/-- Evaluation at a root of the modulus reads a value of the transform. -/
theorem evalAt_coeffElem (p : Fin (2 ^ L)) (a : ℕ → K) :
    evalAt T p (coeffElem L a) = forward T a L p := by
  rw [forward_eq_sum p.isLt, evalAt, coeffElem, AdjoinRoot.lift_mk, eval₂_finsetSum]
  simp

/-- Elements with the same evaluations are equal. -/
theorem eq_of_evalAt [Nontrivial K] (h2 : IsUnit (2 : K)) {z w : AdjoinRoot (modulus K L)}
    (h : ∀ p, evalAt T p z = evalAt T p w) : z = w := by
  obtain ⟨a, rfl⟩ := exists_coeffElem z
  obtain ⟨b, rfl⟩ := exists_coeffElem w
  have hinv : ∀ k ≤ L, ∀ p < 2 ^ L,
      inverse T (forward T a L) k p = inverse T (forward T b L) k p := by
    intro k
    induction k with
    | zero =>
        intro _ p hp
        have hp' := h ⟨p, hp⟩
        rwa [evalAt_coeffElem, evalAt_coeffElem] at hp'
    | succ k ih =>
        intro hk p hp
        have hlevel : L - (k + 1) < L := by omega
        have hexp : L - (L - (k + 1)) - 1 = k := by omega
        have hprod := (pow_split hlevel).1
        rw [hexp] at hprod
        rw [inverse, inverse, Nat.sub_sub]
        exact invLayer_congr _ _ (Nat.two_pow_pos k)
          (fun p hp => ih (by omega) p (hprod ▸ hp)) (hprod.symm ▸ hp)
  refine coeffElem_congr fun p hp => ?_
  have hp' := hinv L le_rfl p hp
  rw [inverse_forward hp, inverse_forward hp] at hp'
  exact (h2.pow L).mul_left_cancel hp'

/-- **Products** by evaluations. -/
theorem coeffElem_mul_eq_iff [Nontrivial K] (h2 : IsUnit (2 : K)) {a b c : ℕ → K} :
    coeffElem L a * coeffElem L b = coeffElem L c ↔
      ∀ p < 2 ^ L, forward T a L p * forward T b L p = forward T c L p := by
  constructor
  · intro h p hp
    have hp' := congrArg (evalAt T ⟨p, hp⟩) h
    simpa [evalAt_coeffElem] using hp'
  · intro h
    refine eq_of_evalAt (T := T) h2 fun p => ?_
    rw [map_mul, evalAt_coeffElem, evalAt_coeffElem, evalAt_coeffElem]
    exact h p p.isLt

end Transform

section Units

variable {K : Type*} [Field K] {L : ℕ} {T : Twiddles K L} {a : ℕ → K}

/-- **Units** by evaluations. -/
theorem isUnit_coeffElem_iff (h2 : (2 : K) ≠ 0) :
    IsUnit (coeffElem L a) ↔ ∀ p < 2 ^ L, forward T a L p ≠ 0 := by
  constructor
  · intro h p hp
    have hp' := h.map (evalAt T ⟨p, hp⟩)
    rw [evalAt_coeffElem] at hp'
    exact hp'.ne_zero
  · intro h
    have hpow : (2 : K) ^ L ≠ 0 := pow_ne_zero L h2
    -- The inverse has the inverse evaluations.
    let b := inverse T (fun p => ((2 : K) ^ L * forward T a L p)⁻¹) L
    have hb : ∀ p < 2 ^ L, forward T b L p = (forward T a L p)⁻¹ := by
      intro p hp
      rw [forward_inverse hp]
      have := h p hp
      field_simp
    refine IsUnit.of_mul_eq_one (coeffElem L b) (eq_of_evalAt (T := T) h2.isUnit fun p => ?_)
    rw [map_mul, map_one, evalAt_coeffElem, evalAt_coeffElem, hb p p.isLt,
      mul_inv_cancel₀ (h p p.isLt)]

end Units

end Negacyclic
