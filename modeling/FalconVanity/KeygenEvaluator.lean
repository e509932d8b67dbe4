import FalconVanity.Keygen
import FalconVanity.SamplerEvaluator

/-!
# Running an Attempt of Key Generation

The checks of an attempt on lists of integers: the range of the coefficients, the squared
norm, and the transform of `f`, whose layers are lists of blocks. With the evaluator of the
sampler they decide inside a proof whether the first attempt for a seed passes, up to the
floating-point norm and the NTRU solver, which are functions of the reference.

## Main results

* `toNat_normFg`: the norm of an attempt never saturates.
* `natLayers_spec`: the layers hold the transform, up to a power of the radix.
* `completeFromFg_of_runAttempt`: an attempt that passes the evaluator is completed.
-/

namespace FalconVanity

open Negacyclic

/-! ### The norm -/

/-- The sum of the squares of a list of coefficients. -/
def squareSum (vs : List ℤ) : ℕ := (vs.map fun v => v.natAbs * v.natAbs).sum

/-- The square of a coefficient, in 32 bits. -/
theorem toNat_square (c : Int8) :
    (c.toInt32 * c.toInt32).toUInt32.toNat = c.toInt.natAbs * c.toInt.natAbs := by
  have hall : ∀ n < 256,
      ((UInt8.ofNat n).toInt8.toInt32 * (UInt8.ofNat n).toInt8.toInt32).toUInt32.toNat =
        (UInt8.ofNat n).toInt8.toInt.natAbs * (UInt8.ofNat n).toInt8.toInt.natAbs := by
    decide +kernel
  have h := hall c.toUInt8.toNat c.toUInt8.toNat_lt
  rwa [UInt8.ofNat_toNat, Int8.toInt8_toUInt8] at h

/-- The square of a coefficient is at most `2 ^ 14`. -/
theorem square_le (c : Int8) : c.toInt.natAbs * c.toInt.natAbs ≤ 16384 := by
  have hlo := c.le_toInt
  have hhi := c.toInt_lt
  have hle : c.toInt.natAbs ≤ 128 := by omega
  exact Nat.mul_le_mul hle hle

/-- The body of the loop of `poly_small_sqnorm`. -/
def sqnormStep (s : UInt32 × UInt32) (c : Int8) : UInt32 × UInt32 :=
  let z := c.toInt32
  let sum := s.1 + (z * z).toUInt32
  (sum, s.2 ||| sum)

/-- The sum stays below the top bit. -/
theorem foldl_sqnormStep {cs : List Int8} {s ng : UInt32}
    (hs : s.toNat + cs.length * 16384 < 2147483648) (hng : ng.toNat < 2147483648) :
    (cs.foldl sqnormStep (s, ng)).1.toNat = s.toNat + squareSum (cs.map Int8.toInt) ∧
      (cs.foldl sqnormStep (s, ng)).2.toNat < 2147483648 := by
  induction cs generalizing s ng with
  | nil => exact ⟨rfl, hng⟩
  | cons c cs ih =>
      have hle := square_le c
      rw [List.length_cons] at hs
      have hadd : (s + (c.toInt32 * c.toInt32).toUInt32).toNat =
          s.toNat + c.toInt.natAbs * c.toInt.natAbs := by
        rw [UInt32.toNat_add, toNat_square, Nat.mod_eq_of_lt (by omega)]
      have hor : (ng ||| (s + (c.toInt32 * c.toInt32).toUInt32)).toNat < 2 ^ 31 := by
        rw [UInt32.toNat_or]
        exact Nat.or_lt_two_pow hng (by omega)
      rw [List.foldl_cons]
      obtain ⟨hsum, hflag⟩ := ih (s := s + (c.toInt32 * c.toInt32).toUInt32) (by omega) hor
      refine ⟨hsum.trans ?_, hflag⟩
      rw [hadd, List.map_cons, squareSum, squareSum, List.map_cons, List.sum_cons, add_assoc]

/-- The list of the coefficients, in reverse, has the same sum of squares. -/
theorem squareSum_reversed (f : SmallPoly) :
    squareSum (SmallPoly.reversed f) = squareSum (f.toList.map Int8.toInt) := by
  rw [squareSum, SmallPoly.reversed, List.map_reverse, List.sum_reverse, squareSum]

/-- The square of a signed byte is at most `2 ^ 14`. -/
theorem squareSum_le (cs : List Int8) : squareSum (cs.map Int8.toInt) ≤ cs.length * 16384 := by
  induction cs with
  | nil => exact Nat.zero_le _
  | cons c cs ih =>
      have hle := square_le c
      rw [List.map_cons, squareSum, List.map_cons, List.sum_cons, ← squareSum, List.length_cons]
      omega

/-- The flag of a word below the top bit. -/
theorem topFlag_eq_zero {x : UInt32} (hx : x.toNat < 2147483648) :
    (0 : UInt32) - x >>> 31 = 0 := by
  have hshift : (31 : UInt32).toNat % 32 = 31 := rfl
  have hzero : x >>> 31 = 0 := by
    apply UInt32.toNat_inj.mp
    rw [UInt32.toNat_shiftRight, hshift, Nat.shiftRight_eq_div_pow, UInt32.toNat_zero]
    omega
  rw [hzero]
  rfl

/-- The norm of a polynomial of signed bytes does not overflow. -/
theorem toNat_polySmallSqnorm (f : SmallPoly) :
    (polySmallSqnorm f).toNat = squareSum (SmallPoly.reversed f) := by
  have hlist : (List.range 1024).map (fun u => f[u]!) = f.toList := by
    refine List.ext_getElem (by simp) fun i h₁ h₂ => ?_
    have hi : i < 1024 := by simpa using h₁
    simp [hi]
  have hfold : polySmallSqnorm f =
      let s := ((List.range 1024).map fun u => f[u]!).foldl sqnormStep (0, 0)
      s.1 ||| ((0 : UInt32) - (s.2 >>> 31)) := by
    rw [polySmallSqnorm, List.foldl_map]
    generalize List.range 1024 = us
    rfl
  obtain ⟨hsum, hflag⟩ := @foldl_sqnormStep f.toList 0 0
    (by rw [Vector.length_toList]; norm_num) (by norm_num)
  rw [hfold, hlist]
  dsimp only
  rw [topFlag_eq_zero hflag, UInt32.or_zero, hsum, squareSum_reversed, UInt32.toNat_zero,
    zero_add]

/-- The norm of a polynomial is at most `2 ^ 24`. -/
theorem squareSum_reversed_le (f : SmallPoly) :
    squareSum (SmallPoly.reversed f) ≤ 16777216 := by
  have hle := squareSum_le f.toList
  rwa [Vector.length_toList, ← squareSum_reversed] at hle

/-- **The norm of an attempt never saturates.** -/
theorem toNat_normFg (f g : SmallPoly) :
    (normFg f g).toNat = squareSum (SmallPoly.reversed f) + squareSum (SmallPoly.reversed g) := by
  have hf := squareSum_reversed_le f
  have hg := squareSum_reversed_le g
  rw [← toNat_polySmallSqnorm] at hf hg
  have hor : (polySmallSqnorm f ||| polySmallSqnorm g).toNat < 2 ^ 31 := by
    rw [UInt32.toNat_or]
    exact Nat.or_lt_two_pow (by omega) (by omega)
  rw [normFg, topFlag_eq_zero hor, UInt32.or_zero, UInt32.toNat_add, Nat.mod_eq_of_lt (by omega),
    toNat_polySmallSqnorm, toNat_polySmallSqnorm]

/-- What is left of a bound on the norm. The comparison makes an evaluation by need keep no
chain of unevaluated differences. -/
def normWithin : ℕ → List ℤ → Option ℕ
  | b, [] => some b
  | b, v :: vs =>
    bif Nat.ble (Nat.mul v.natAbs v.natAbs) b then
      normWithin (Nat.sub b (Nat.mul v.natAbs v.natAbs)) vs
    else none

/-- What is left of the bound is the bound without the norm. -/
theorem normWithin_eq_some {b b' : ℕ} {vs : List ℤ} (h : normWithin b vs = some b') :
    squareSum vs + b' = b := by
  induction vs generalizing b with
  | nil =>
      obtain rfl := Option.some.inj h
      exact Nat.zero_add _
  | cons v vs ih =>
      rw [normWithin, cond_eq_ite] at h
      split at h
      · rename_i hble
        have hle : v.natAbs * v.natAbs ≤ b := Nat.le_of_ble_eq_true hble
        have hrest := ih h
        change squareSum vs + b' = b - v.natAbs * v.natAbs at hrest
        rw [squareSum, List.map_cons, List.sum_cons, ← squareSum]
        omega
      · cases h

/-! ### The transform -/

/-- One half of a block after its layer, for a twiddle factor or its negative. -/
def natHalf (g : ℕ) (lo hi : List ℕ) : List ℕ :=
  List.zipWith (fun a b => Nat.mod (Nat.add (Nat.mul pqR a) (Nat.mul g b)) pqQ) lo hi

/-- A layer: each block is split in two, by the twiddle factor of its node. -/
def natLayer (h : ℕ) : List ℕ → List (List ℕ) → List (List ℕ)
  | g :: gs, b :: bs =>
    natHalf g (b.take h) (b.drop h) :: natHalf (Nat.sub pqQ g) (b.take h) (b.drop h) ::
      natLayer h gs bs
  | _, _ => []

/-- The blocks after `d` layers. -/
def natLayers (l : List ℕ) : ℕ → List (List ℕ)
  | 0 => [l]
  | d + 1 => natLayer (2 ^ (9 - d)) ((pqGmbTable.drop (2 ^ d)).take (2 ^ d)) (natLayers l d)

/-- A block of length `h` holds the part of a sequence from position `i * h` on. The evaluator
splits blocks as a layer of the transform does. -/
structure IsBlock (F : ℕ → ZMod pqQ) (h i : ℕ) (b : List ℕ) : Prop where
  length : b.length = h
  cast_getElem : ∀ j (hj : j < b.length), (b[j] : ZMod pqQ) = F (i * h + j)

/-- A layer splits each block into two, one for each root. -/
theorem getElem?_natLayer {h i g : ℕ} {gs b : List ℕ} {bs : List (List ℕ)}
    (hg : gs[i]? = some g) (hb : bs[i]? = some b) :
    (natLayer h gs bs)[2 * i]? = some (natHalf g (b.take h) (b.drop h)) ∧
      (natLayer h gs bs)[2 * i + 1]? = some (natHalf (pqQ - g) (b.take h) (b.drop h)) := by
  induction i generalizing gs bs with
  | zero =>
      cases gs with
      | nil => cases hg
      | cons g' gs =>
          cases bs with
          | nil => cases hb
          | cons b' bs =>
              cases hg
              cases hb
              exact ⟨rfl, rfl⟩
  | succ i ih =>
      cases gs with
      | nil => cases hg
      | cons g' gs =>
          cases bs with
          | nil => cases hb
          | cons b' bs => exact ih hg hb

/-- One half of a block, as a part of the next layer. -/
theorem isBlock_natHalf {F G : ℕ → ZMod pqQ} {h i k g : ℕ} {b : List ℕ} {w : ZMod pqQ}
    (hb : IsBlock F (2 * h) i b) (hg : (g : ZMod pqQ) = w)
    (hG : ∀ j < h, G (k * h + j) = (pqR : ℕ) * F (i * (2 * h) + j) + w * F (i * (2 * h) + j + h)) :
    IsBlock G h k (natHalf g (b.take h) (b.drop h)) where
  length := by
    rw [natHalf, List.length_zipWith, List.length_take, List.length_drop, hb.length]
    omega
  cast_getElem := by
    intro j hj
    have hjh : j < h := by
      rw [natHalf, List.length_zipWith, List.length_take, List.length_drop, hb.length] at hj
      omega
    have hlen := hb.length
    have hlo := hb.cast_getElem j (by omega)
    have hhi := hb.cast_getElem (h + j) (by omega)
    have hpos : i * (2 * h) + (h + j) = i * (2 * h) + j + h := by omega
    rw [hpos] at hhi
    simp only [natHalf, List.getElem_zipWith, List.getElem_take, List.getElem_drop]
    change (((pqR * b[j] + g * b[h + j]) % pqQ : ℕ) : ZMod pqQ) = _
    rw [ZMod.natCast_mod, Nat.cast_add, Nat.cast_mul, Nat.cast_mul, hlo, hhi, hg, hG j hjh]

/-- The blocks of level `d` hold the transform after `d` layers, times a power of the radix. -/
structure HoldsLayer (a : ℕ → ZMod pqQ) (d : ℕ) (bs : List (List ℕ)) : Prop where
  length : bs.length = 2 ^ d
  block : ∀ i b, bs[i]? = some b →
    IsBlock (fun p => (pqR : ℕ) ^ d * forward twiddles a d p) (2 ^ (10 - d)) i b

/-- A layer doubles the number of the blocks. -/
theorem length_natLayer (h : ℕ) {gs : List ℕ} {bs : List (List ℕ)} (hlen : gs.length = bs.length) :
    (natLayer h gs bs).length = 2 * bs.length := by
  induction gs generalizing bs with
  | nil =>
      obtain rfl := List.eq_nil_of_length_eq_zero hlen.symm
      rfl
  | cons g gs ih =>
      cases bs with
      | nil => cases hlen
      | cons b bs =>
          rw [natLayer, List.length_cons, List.length_cons, ih (Nat.succ.inj hlen),
            List.length_cons]
          omega

/-- The twiddle factor of a node, as its level stores it. -/
theorem cast_getElem?_factors {d i g : ℕ}
    (hg : ((pqGmbTable.drop (2 ^ d)).take (2 ^ d))[i]? = some g) :
    (g : ZMod pqQ) = twiddles.ζ (2 ^ d + i) * (pqR : ℕ) ∧ g ≤ pqQ := by
  obtain ⟨hi, rfl⟩ := List.getElem?_eq_some_iff.mp hg
  have hnode : ((pqGmbTable.drop (2 ^ d)).take (2 ^ d))[i] = pqGmbTable.getD (2 ^ d + i) 0 := by
    rw [List.getElem_take, List.getElem_drop, List.getD_eq_getElem]
  rw [hnode]
  exact ⟨by rw [← toNat_pqGmb, cast_pqGmb], (pqGmbTable_getD_lt _).le⟩

/-- **One layer.** -/
theorem HoldsLayer.succ {a : ℕ → ZMod pqQ} {d : ℕ} {bs : List (List ℕ)} (hd : d < 10)
    (hbs : HoldsLayer a d bs) :
    HoldsLayer a (d + 1)
      (natLayer (2 ^ (9 - d)) ((pqGmbTable.drop (2 ^ d)).take (2 ^ d)) bs) := by
  have hpow : 2 ^ (d + 1) ≤ 2 ^ 10 := Nat.pow_le_pow_right two_pos hd
  have hsize : 2 ^ (10 - d) = 2 * 2 ^ (9 - d) := by
    rw [← pow_succ']
    congr 1
    omega
  have hnext : 10 - (d + 1) = 9 - d := by omega
  have hfactors : ((pqGmbTable.drop (2 ^ d)).take (2 ^ d)).length = bs.length := by
    rw [List.length_take, List.length_drop, length_pqGmbTable, hbs.length]
    omega
  have hlen := length_natLayer (2 ^ (9 - d)) hfactors
  have hforward : ∀ p, forward twiddles a (d + 1) p =
      layer twiddles.ζ (2 ^ d) (2 ^ (9 - d)) (forward twiddles a d) p := by
    intro p
    have hhalf : 10 - d - 1 = 9 - d := by omega
    rw [forward, hhalf]
  refine ⟨by rw [hlen, hbs.length, pow_succ'], fun k c hc => ?_⟩
  have hk := (List.getElem?_eq_some_iff.mp hc).1
  obtain ⟨i, hki⟩ : ∃ i, k = 2 * i ∨ k = 2 * i + 1 := ⟨k / 2, by omega⟩
  have hi : i < bs.length := by omega
  obtain ⟨b, hb⟩ : ∃ b, bs[i]? = some b := ⟨_, List.getElem?_eq_getElem hi⟩
  obtain ⟨g, hg⟩ : ∃ g, ((pqGmbTable.drop (2 ^ d)).take (2 ^ d))[i]? = some g :=
    ⟨_, List.getElem?_eq_getElem (hfactors ▸ hi)⟩
  obtain ⟨hcast, hle⟩ := cast_getElem?_factors hg
  obtain ⟨hleft, hright⟩ := getElem?_natLayer (h := 2 ^ (9 - d)) hg hb
  have hblock := hbs.block i b hb
  rw [hsize] at hblock
  rw [hnext]
  rcases hki with rfl | rfl
  · rw [hleft] at hc
    cases hc
    refine isBlock_natHalf hblock hcast fun j hj => ?_
    have hpos : 2 * i * 2 ^ (9 - d) + j = i * (2 * 2 ^ (9 - d)) + j := by ring
    rw [hforward, hpos, layer_left _ _ _ hj]
    ring
  · rw [hright] at hc
    cases hc
    have hsub : ((pqQ - g : ℕ) : ZMod pqQ) = -(twiddles.ζ (2 ^ d + i) * (pqR : ℕ)) := by
      rw [Nat.cast_sub hle, CharP.cast_eq_zero, zero_sub, hcast]
    refine isBlock_natHalf hblock hsub fun j hj => ?_
    have hpos : (2 * i + 1) * 2 ^ (9 - d) + j = i * (2 * 2 ^ (9 - d)) + j + 2 ^ (9 - d) := by
      ring
    rw [hforward, hpos, layer_right _ _ _ hj]
    ring

/-- **The layers hold the transform**, up to a power of the radix. -/
theorem natLayers_spec {a : ℕ → ZMod pqQ} {l : List ℕ} (hl : IsBlock a 1024 0 l) {d : ℕ}
    (hd : d ≤ 10) : HoldsLayer a d (natLayers l d) := by
  induction d with
  | zero =>
      refine ⟨rfl, fun i b hb => ?_⟩
      cases i with
      | zero =>
          cases hb
          refine ⟨hl.length, fun j hj => ?_⟩
          rw [pow_zero, one_mul, hl.cast_getElem j hj, forward, Nat.zero_mul, Nat.zero_mul]
      | succ i => cases hb
  | succ d ih => exact (ih (by omega)).succ hd

/-- Every block of the last level holds one value, and no value is zero. -/
def natInvertible (l : List ℕ) : Bool :=
  (natLayers l 10).all fun b => b.all fun c => Nat.blt 0 (Nat.mod c pqQ)

/-- If the check on naturals passes, no value of the transform is zero. -/
theorem forward_ne_zero_of_natInvertible {a : ℕ → ZMod pqQ} {l : List ℕ}
    (hl : IsBlock a 1024 0 l) (h : natInvertible l = true) {p : ℕ} (hp : p < 1024) :
    forward twiddles a 10 p ≠ 0 := by
  have hlast := natLayers_spec hl le_rfl
  obtain ⟨b, hb⟩ : ∃ b, (natLayers l 10)[p]? = some b :=
    ⟨_, List.getElem?_eq_getElem (by rw [hlast.length]; exact hp)⟩
  have hblock := hlast.block p b hb
  have hlen : 0 < b.length := by
    rw [hblock.length]
    norm_num
  have hvalue := hblock.cast_getElem 0 hlen
  have hne : Nat.blt 0 (Nat.mod b[0] pqQ) = true :=
    List.all_eq_true.mp (List.all_eq_true.mp h b (List.mem_of_getElem? hb)) _
      (List.getElem_mem hlen)
  have hpos : 0 < b[0] % pqQ := Nat.le_of_ble_eq_true hne
  have hpos : p * 2 ^ (10 - 10) + 0 = p := by norm_num
  intro hzero
  rw [hpos] at hvalue
  rw [hzero, mul_zero, ZMod.natCast_eq_zero_iff] at hvalue
  have hmod := Nat.mod_eq_zero_of_dvd hvalue
  omega

/-! ### One attempt -/

/-- A coefficient modulo `q`. -/
def natResidue (v : ℤ) : ℕ := Int.toNat (v % pqQ)

/-- The checks of an attempt, on the coefficients of `f` and `g` in reverse. -/
def checksPass (fs gs : List ℤ) : Bool :=
  fs.all (fun v => Nat.blt v.natAbs 16) && gs.all (fun v => Nat.blt v.natAbs 16) &&
    ((normWithin 16822 fs).bind fun b => normWithin b gs).isSome &&
      natInvertible (fs.reverse.map natResidue)

/-- Every coefficient is in the list. -/
theorem getElem!_mem_reversed (f : SmallPoly) {i : ℕ} (hi : i < 1024) :
    f[i]!.toInt ∈ SmallPoly.reversed f := by
  rw [SmallPoly.reversed, List.mem_reverse, getElem!_pos f i hi]
  exact List.mem_map_of_mem (Vector.mem_toList_iff.mpr (Vector.getElem_mem hi))

/-- The residues of `f` are a block of its coefficients. -/
theorem isBlock_residues (f : SmallPoly) :
    IsBlock (smallCoeff f) 1024 0 ((SmallPoly.reversed f).reverse.map natResidue) where
  length := by simp [SmallPoly.reversed]
  cast_getElem := by
    intro j hj
    have hj' : j < 1024 := by simpa [SmallPoly.reversed] using hj
    have hcast : ∀ v : ℤ, ((natResidue v : ℕ) : ZMod pqQ) = (v : ZMod pqQ) := by
      intro v
      have hpos : 0 ≤ v % (pqQ : ℤ) := Int.emod_nonneg v (by norm_num)
      rw [natResidue, ← Int.cast_natCast, Int.toNat_of_nonneg hpos, ZMod.intCast_mod]
    simp only [SmallPoly.reversed, List.reverse_reverse, List.getElem_map, Vector.getElem_toList,
      hcast, smallCoeff, Nat.zero_mul, Nat.zero_add, getElem!_pos f j hj']

/-- **Checks that pass** leave only the floating-point norm and the solver to an attempt. -/
theorem completeFromFg_of_checksPass {P : FalconPrimitives} {f g : SmallPoly}
    (h : checksPass (SmallPoly.reversed f) (SmallPoly.reversed g) = true)
    (hbnorm : P.bnormLt f g = true) (hsolve : (P.solveNTRU f g solveLimit).isSome) :
    (completeFromFg P (f, g)).isSome := by
  simp only [checksPass, Bool.and_eq_true] at h
  obtain ⟨⟨⟨hf, hg⟩, hnorm⟩, hunit⟩ := h
  obtain ⟨F, hF⟩ := Option.isSome_iff_exists.mp hsolve
  have hlimit : exceedsLimit fgLimit f g = false := by
    have hlim : fgLimit = 16 := rfl
    refine exceedsLimit_eq_false_iff.mpr fun i hi => ?_
    have hfi : f[i]!.toInt.natAbs < 16 :=
      Nat.le_of_ble_eq_true (List.all_eq_true.mp hf _ (getElem!_mem_reversed f hi))
    have hgi : g[i]!.toInt.natAbs < 16 :=
      Nat.le_of_ble_eq_true (List.all_eq_true.mp hg _ (getElem!_mem_reversed g hi))
    rw [hlim, abs_lt, abs_lt]
    omega
  have hsq : ¬ normFg f g ≥ 16823 := by
    obtain ⟨b', hb'⟩ := Option.isSome_iff_exists.mp hnorm
    obtain ⟨b, hb, hb'⟩ := Option.bind_eq_some_iff.mp hb'
    have hfsum := normWithin_eq_some hb
    have hgsum := normWithin_eq_some hb'
    rw [ge_iff_le, UInt32.le_iff_toNat_le, toNat_normFg]
    have hbound : (16823 : UInt32).toNat = 16823 := rfl
    omega
  have hpub : (computePublicAt P 0 f g).isSome :=
    (isPublicOf_computePublicAt 0).isSome_iff.mpr fun p hp =>
      forward_ne_zero_of_natInvertible (isBlock_residues f) hunit hp
  rw [completeFromFg_isSome_iff, keygenRound_eq_some_iff.mpr ⟨hlimit, hsq, hbnorm, hpub, hF⟩]
  rfl

/-- The first attempt for a seed, up to the floating-point norm and the solver. -/
def runAttempt (fuel : ℕ) (seed : Bytes32) : Bool :=
  match runSample fuel (.start seed) with
  | none => false
  | some (fs, gs) => checksPass fs gs

/-- **An attempt that passes the evaluator is completed**, if the floating-point norm and the
solver of the reference accept it. -/
theorem completeFromFg_of_runAttempt {P : FalconPrimitives} {fuel : ℕ} {seed : Bytes32}
    (h : runAttempt (fuel + 1) seed = true) (hbnorm : ∀ f g, P.bnormLt f g = true)
    (hsolve : ∀ f g, (P.solveNTRU f g solveLimit).isSome) :
    ∃ fg kp, devSampleFg (fuel + 1) seed = some fg ∧ completeFromFg P fg = some kp := by
  rw [runAttempt] at h
  split at h
  · cases h
  · rename_i fs gs hrun
    obtain ⟨f, g, hfg, rfl, rfl⟩ := runSample_sound hrun
    obtain ⟨kp, hkp⟩ := Option.isSome_iff_exists.mp
      (completeFromFg_of_checksPass h (hbnorm f g) (hsolve f g))
    exact ⟨(f, g), kp, hfg, hkp⟩

set_option maxRecDepth 100000 in
/-- The first attempt for this seed passes. -/
theorem runAttempt_ones : runAttempt 64 (Vector.replicate 32 1) = true := by decide +kernel

/-- For this seed the reference accepts its first attempt, and returns the key of the completion. -/
theorem split_keygen_ones : KeygenAcceptsAt default 64 (List.replicate 32 1) 0 ∧
    ∃ fg kp, pqvSampleFg 64 (List.replicate 32 1) = some fg ∧
      completeFromFg default fg = some kp ∧
        keygenFromSeed default 64 1 (List.replicate 32 1) = some (.ok kp) := by
  obtain ⟨fg, kp, hfg, hkp⟩ := completeFromFg_of_runAttempt (P := default) runAttempt_ones
    (fun _ _ => rfl) (fun _ _ => rfl)
  have hseed : (Vector.replicate 32 1 : Bytes32).toList = List.replicate 32 1 := rfl
  rw [devSampleFg_eq_pqvSampleFg, hseed] at hfg
  obtain ⟨haccepts, -, hreturns⟩ :=
    split_keygen default 64 (List.replicate 32 1) (n := 0) (by norm_num)
  refine ⟨haccepts.mpr ⟨⟨fg, sampleFgNth_zero.trans hfg, ?_⟩,
    fun m hm => absurd hm (Nat.not_lt_zero m)⟩, fg, kp, hfg, hkp, ?_⟩
  · rw [hkp]
    rfl
  · exact (hreturns fg hfg).1 kp hkp 1 Nat.one_pos

end FalconVanity
