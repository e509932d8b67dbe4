import FalconVanity.Foundation.Compaction
import FalconVanity.Sampler
import FalconVanity.VerifyRaw

/-!
# Hashing to a Point

The point that a signature is for consists of residues from a SHAKE256 source: two bytes give a
sample, which is rejected above the largest multiple of `q` and reduced otherwise. The plain loop
takes samples until it has enough. The constant-time variant takes a fixed number of them, marks
the rejected ones, and squeezes the marks out of its array in passes of doubling distance. Both
give the same point whenever the fixed number of samples is enough; otherwise the marks are left
at the end of the point.

Both variants run over any source of samples. The rejections of the plain loop have no bound of
their own: it takes a bound on the samples as fuel.

## Main results

* `hashToPointVartime_eq_some`: what the plain loop returns, and with which fuel.
* `getElem_hashToPointCt`: what the constant-time variant returns.
* `hashToPoint_variants_agree_iff`: when the two points are the same.
-/

namespace FalconVanity

open Draws

/-- A sample: two bytes of the source, most significant first. -/
def extractU16 (perm : Lanes → Lanes) (sc : ShakeContext) : UInt32 × ShakeContext :=
  let (buf, sc) := shakeExtract perm sc 2
  (buf[0]!.toUInt32 <<< 8 ||| buf[1]!.toUInt32, sc)

section Source

variable {σ : Type} (next : σ → UInt32 × σ)

/-! ### The plain loop -/

/-- `while (w >= 12289) w -= 12289` -/
def subtractQ (w : UInt32) : UInt32 :=
  if 12289 ≤ w.toNat then subtractQ (w - 12289) else w
termination_by w.toNat
decreasing_by
  rename_i h
  have hlt := w.toNat_lt
  have hq : (12289 : UInt32).toNat = 12289 := rfl
  rw [UInt32.toNat_sub, hq]
  omega

/-- The loop of `hash_to_point_vartime`, with `n` values to go. -/
def vartimeLoop : ℕ → ℕ → σ → List UInt16 → Option (List UInt16 × σ)
  | _, 0, sc, x => some (x, sc)
  | 0, _ + 1, _, _ => none
  | fuel + 1, n + 1, sc, x =>
    let (w, sc) := next sc
    if w < 61445 then vartimeLoop fuel n sc (x ++ [(subtractQ w).toUInt16])
    else vartimeLoop fuel (n + 1) sc x

/-- `hash_to_point_vartime`, for `logn = 10` -/
def hashToPointVartime (fuel : ℕ) (sc : σ) : Option (Poly16 × σ) :=
  (vartimeLoop next fuel (1 <<< 10) sc []).map fun (x, sc) =>
    (Vector.ofFn fun i : Fin 1024 => x.getD i 0, sc)

/-! ### The constant-time variant -/

/-- `overtab`: how many samples beyond the degree are drawn, by the degree. -/
def overtab : List ℕ := [0, 65, 67, 71, 77, 86, 100, 122, 154, 205, 287]

/-- The arrays of `hash_to_point_ct`: the point, the scratch space of the caller, and its own. -/
structure Samples where
  x : Poly16
  tt1 : Poly16
  tt2 : Vector UInt16 63

/-- The entry `u` of the three arrays, one after the other. -/
def Samples.get (S : Samples) (u : ℕ) : UInt16 :=
  if u < 1024 then S.x[u]! else if u < 2048 then S.tt1[u - 1024]! else S.tt2[u - 2048]!

/-- The store of the entry `u`. -/
def Samples.set (S : Samples) (u : ℕ) (w : UInt16) : Samples :=
  if u < 1024 then { S with x := S.x.set! u w }
  else if u < 2048 then { S with tt1 := S.tt1.set! (u - 1024) w }
  else { S with tt2 := S.tt2.set! (u - 2048) w }

/-- `x - (c & (((x - c) >> 31) - 1))`: a multiple of `q`, subtracted if it can be. -/
def subtractIf (x c : UInt32) : UInt32 := x - (c &&& (((x - c) >>> 31) - 1))

/-- A sample as it is stored: reduced, or all ones when it is rejected. -/
def sampleWord (w : UInt32) : UInt16 :=
  let wr := subtractIf w 24578
  let wr := subtractIf wr 24578
  let wr := subtractIf wr 12289
  let wr := wr ||| (((w - 61445) >>> 31) - 1)
  wr.toUInt16

/-- The first loop of `hash_to_point_ct`. -/
def fillSamples (m : ℕ) (sc : σ) (S : Samples) : Samples × σ :=
  (List.range m).foldl (fun (S, sc) u =>
    let (w, sc) := next sc
    (S.set u (sampleWord w), sc)) (S, sc)

/-- The body of the inner loop of a pass, with the index `v` of the next valid value. -/
def squeezeStep (p : ℕ) (s : UInt32 × Samples) (u : ℕ) : UInt32 × Samples :=
  let (v, S) := s
  let sv := (S.get u).toUInt32
  let j := u.toUInt32 - v
  let mk := (sv >>> 15) - 1
  let v := v - mk
  if u < p then (v, S)
  else
    let dv := (S.get (u - p)).toUInt32
    let mk := mk &&& ((0 : UInt32) - (((j &&& p.toUInt32) + 0x1FF) >>> 9))
    let S := S.set u (sv ^^^ (mk &&& (sv ^^^ dv))).toUInt16
    (v, S.set (u - p) (dv ^^^ (mk &&& (sv ^^^ dv))).toUInt16)

/-- The loop over the distances `p`, which are doubled up to `overN`. -/
def squeezeLoop (overN m p : ℕ) (S : Samples) : Samples :=
  if _h : 0 < p ∧ p ≤ overN then
    squeezeLoop overN m (p <<< 1) ((List.range m).foldl (squeezeStep p) (0, S)).2
  else S
termination_by overN + 1 - p
decreasing_by
  rw [Nat.shiftLeft_eq]
  omega

/-- `hash_to_point_ct`, for `logn = 10`, with what its arrays held before. -/
def hashToPointCt (sc : σ) (S : Samples) : Poly16 × σ :=
  let n := 1 <<< 10
  let overN := overtab.getD 10 0
  let m := n + overN
  let (S, sc) := fillSamples next m sc S
  ((squeezeLoop overN m 1 S).x, sc)

/-! ### Samples -/

/-- A sample that is not rejected. -/
def accepted (w : UInt32) : Bool := w < 61445

/-- The residue of a sample. -/
def residueWord (w : UInt32) : UInt16 := (w.toNat % 12289).toUInt16

/-- A sample is reduced modulo `q`. -/
theorem toNat_residueWord (w : UInt32) : (residueWord w).toNat = w.toNat % 12289 := by
  have hlt := Nat.mod_lt w.toNat (by norm_num : 0 < 12289)
  rw [residueWord, Nat.toUInt16, UInt16.toNat_ofNat', Nat.mod_eq_of_lt (by omega)]

/-- Subtracting `q` under a mask, again and again, reduces a sample modulo `q`. -/
theorem toNat_subtractQ (w : UInt32) : (subtractQ w).toNat = w.toNat % 12289 := by
  induction w using subtractQ.induct with
  | case1 w h ih =>
      have hlt := w.toNat_lt
      have hq : (12289 : UInt32).toNat = 12289 := rfl
      have hsub : (w - 12289).toNat = w.toNat - 12289 := by
        rw [UInt32.toNat_sub, hq]
        omega
      rw [subtractQ, if_pos h, ih, hsub, ← Nat.mod_eq_sub_mod h]
  | case2 w h => rw [subtractQ, if_neg h, Nat.mod_eq_of_lt (by omega)]

/-- Both variants reduce a sample to the same residue. -/
theorem subtractQ_eq (w : UInt32) : (subtractQ w).toUInt16 = residueWord w := by
  have hlt := Nat.mod_lt w.toNat (by norm_num : 0 < 12289)
  apply UInt16.toNat_inj.mp
  rw [UInt32.toNat_toUInt16, toNat_subtractQ, toNat_residueWord, Nat.mod_eq_of_lt (by omega)]

/-- The mask of a comparison of small words. -/
theorem shiftRight_sub_one {x c : UInt32} (hx : x.toNat < 2 ^ 31) (hc : c.toNat ≤ 2 ^ 31) :
    ((x - c) >>> 31) - 1 = if x.toNat < c.toNat then 0 else -1 := by
  have hsub : (x - c).toNat = (2 ^ 32 - c.toNat + x.toNat) % 2 ^ 32 := UInt32.toNat_sub ..
  have hshift : ((x - c) >>> 31).toNat = (x - c).toNat / 2 ^ 31 :=
    Words.UInt32.toNat_shiftRight_of_lt _ 31 (k := 31) rfl (by norm_num)
  by_cases hlt : x.toNat < c.toNat
  · have htop : (x - c) >>> 31 = 1 := UInt32.toNat_inj.mp (by rw [hshift]; change _ = 1; omega)
    rw [htop, if_pos hlt]
    rfl
  · have htop : (x - c) >>> 31 = 0 := UInt32.toNat_inj.mp (by rw [hshift]; change _ = 0; omega)
    rw [htop, if_neg hlt]
    rfl

/-- A subtraction under the mask that the sign of the difference makes. -/
theorem toNat_subtractIf {x c : UInt32} (hx : x.toNat < 2 ^ 31) (hc : c.toNat ≤ 2 ^ 31) :
    (subtractIf x c).toNat = if x.toNat < c.toNat then x.toNat else x.toNat - c.toNat := by
  rw [subtractIf, shiftRight_sub_one hx hc]
  by_cases hlt : x.toNat < c.toNat
  · rw [if_pos hlt, if_pos hlt, UInt32.and_zero, UInt32.sub_zero]
  · rw [if_neg hlt, if_neg hlt, UInt32.and_neg_one, UInt32.toNat_sub]
    have hxlt := x.toNat_lt
    omega

/-- **A sample as it is stored.** -/
theorem sampleWord_eq {w : UInt32} (hw : w.toNat < 65536) :
    sampleWord w = if accepted w then residueWord w else 0xFFFF := by
  have h1 : (24578 : UInt32).toNat = 24578 := rfl
  have h2 : (12289 : UInt32).toNat = 12289 := rfl
  have h3 : (61445 : UInt32).toNat = 61445 := rfl
  have hacc : accepted w = true ↔ w.toNat < 61445 := by
    rw [accepted, decide_eq_true_iff, UInt32.lt_iff_toNat_lt, h3]
  have hle : ∀ {x c : UInt32}, x.toNat < 65536 → c.toNat ≤ 2 ^ 31 →
      (subtractIf x c).toNat < 65536 := by
    intro x c hx hc
    rw [toNat_subtractIf (by omega) hc]
    split <;> omega
  have hfirst := toNat_subtractIf (x := w) (c := 24578) (by omega) (by rw [h1]; norm_num)
  have hlt₁ := hle (c := 24578) hw (by rw [h1]; norm_num)
  have hsecond := toNat_subtractIf (x := subtractIf w 24578) (c := 24578) (by omega)
    (by rw [h1]; norm_num)
  have hlt₂ := hle (c := 24578) hlt₁ (by rw [h1]; norm_num)
  have hthird := toNat_subtractIf (x := subtractIf (subtractIf w 24578) 24578) (c := 12289)
    (by omega) (by rw [h2]; norm_num)
  have hmask := shiftRight_sub_one (x := w) (c := 61445) (by omega) (by rw [h3]; norm_num)
  rw [h1] at hfirst hsecond
  rw [h2] at hthird
  rw [h3] at hmask
  rw [sampleWord, hmask, if_congr hacc rfl rfl]
  by_cases hlt : w.toNat < 61445
  · rw [if_pos hlt, if_pos hlt, UInt32.or_zero]
    apply UInt16.toNat_inj.mp
    rw [UInt32.toNat_toUInt16, toNat_residueWord]
    split at hfirst <;> split at hsecond <;> split at hthird <;> omega
  · rw [if_neg hlt, if_neg hlt, UInt32.or_neg_one]
    rfl

/-! ### The squeeze -/

/-- A stored sample that was not rejected. -/
def validWord (w : UInt16) : Bool := w.toNat < 32768

/-- A sample that is stored is read back, wherever its place is among the three arrays. -/
theorem Samples.get_set (S : Samples) {u k : ℕ} (hk : k < 2111) (w : UInt16) :
    (S.set u w).get k = if k = u then w else S.get k := by
  rw [Samples.set]
  by_cases hu₁ : u < 1024
  · rw [if_pos hu₁, Samples.get, Samples.get]
    by_cases hk₁ : k < 1024
    · rw [if_pos hk₁, if_pos hk₁, Words.getElem!_set! _ hk₁, if_congr eq_comm rfl rfl]
    · rw [if_neg hk₁, if_neg hk₁, if_neg (by omega : k ≠ u)]
  · rw [if_neg hu₁]
    by_cases hu₂ : u < 2048
    · rw [if_pos hu₂, Samples.get, Samples.get]
      by_cases hk₁ : k < 1024
      · rw [if_pos hk₁, if_pos hk₁, if_neg (by omega : k ≠ u)]
      · rw [if_neg hk₁, if_neg hk₁]
        by_cases hk₂ : k < 2048
        · have hiff : u - 1024 = k - 1024 ↔ k = u := by omega
          rw [if_pos hk₂, if_pos hk₂, Words.getElem!_set! _ (by omega : k - 1024 < 1024),
            if_congr hiff rfl rfl]
        · rw [if_neg hk₂, if_neg hk₂, if_neg (by omega : k ≠ u)]
    · rw [if_neg hu₂, Samples.get, Samples.get]
      by_cases hk₁ : k < 1024
      · rw [if_pos hk₁, if_pos hk₁, if_neg (by omega : k ≠ u)]
      · rw [if_neg hk₁, if_neg hk₁]
        by_cases hk₂ : k < 2048
        · rw [if_pos hk₂, if_pos hk₂, if_neg (by omega : k ≠ u)]
        · have hiff : u - 2048 = k - 2048 ↔ k = u := by omega
          rw [if_neg hk₂, if_neg hk₂, Words.getElem!_set! _ (by omega : k - 2048 < 63),
            if_congr hiff rfl rfl]

/-- Two stores of what was there. -/
theorem Samples.get_restore (S : Samples) (u d : ℕ) {k : ℕ} (hk : k < 2111) :
    ((S.set u (S.get u)).set d (S.get d)).get k = S.get k := by
  rw [Samples.get_set _ hk, Samples.get_set _ hk]
  by_cases hd : k = d
  · rw [if_pos hd, hd]
  · rw [if_neg hd]
    by_cases hu : k = u
    · rw [if_pos hu, hu]
    · rw [if_neg hu]

/-- The state of a pass of the source follows that of a pass over a function. -/
structure Follows (m u : ℕ) (s : UInt32 × Samples) (s' : ℕ × (ℕ → UInt16)) : Prop where
  index : s.1.toNat = s'.1
  le : s'.1 ≤ u
  get : ∀ k < m, s.2.get k = s'.2 k

/-- The mask of a stored sample: all ones when it is valid. -/
theorem validMask (w : UInt16) :
    (w.toUInt32 >>> 15) - 1 = if validWord w then -1 else 0 := by
  have hshift : (w.toUInt32 >>> 15).toNat = w.toNat / 2 ^ 15 := by
    rw [Words.UInt32.toNat_shiftRight_of_lt _ 15 (k := 15) rfl (by norm_num),
      UInt16.toNat_toUInt32]
  have hlt := w.toNat_lt
  have hvalid : validWord w = true ↔ w.toNat < 32768 := decide_eq_true_iff
  rw [if_congr hvalid rfl rfl]
  by_cases h : w.toNat < 32768
  · have htop : w.toUInt32 >>> 15 = 0 := UInt32.toNat_inj.mp (by rw [hshift]; change _ = 0; omega)
    rw [htop, if_pos h]
    rfl
  · have htop : w.toUInt32 >>> 15 = 1 := UInt32.toNat_inj.mp (by rw [hshift]; change _ = 1; omega)
    rw [htop, if_neg h]
    rfl

/-- The mask of a distance: all ones when the jump has its bit. -/
theorem jumpMask {t : ℕ} (ht : t ≤ 8) (j : UInt32) :
    (0 : UInt32) - (((j &&& (2 ^ t).toUInt32) + 0x1FF) >>> 9) =
      if j.toNat.testBit t then -1 else 0 := by
  have hpow : 2 ^ t ≤ 2 ^ 8 := Nat.pow_le_pow_right (by norm_num) ht
  have hpos := Nat.two_pow_pos t
  have hp : ((2 ^ t).toUInt32).toNat = 2 ^ t := by
    rw [Nat.toUInt32, UInt32.toNat_ofNat', Nat.mod_eq_of_lt (by omega)]
  have hand : (j &&& (2 ^ t).toUInt32).toNat = if j.toNat.testBit t then 2 ^ t else 0 := by
    rw [UInt32.toNat_and, hp, Words.Nat.and_two_pow]
  have hc : (0x1FF : UInt32).toNat = 511 := rfl
  have hshift : (((j &&& (2 ^ t).toUInt32) + 0x1FF) >>> 9).toNat =
      ((j &&& (2 ^ t).toUInt32).toNat + 511) % 2 ^ 32 / 2 ^ 9 := by
    rw [Words.UInt32.toNat_shiftRight_of_lt _ 9 (k := 9) rfl (by norm_num), UInt32.toNat_add, hc]
  rw [hand] at hshift
  by_cases hbit : j.toNat.testBit t = true
  · rw [if_pos hbit] at hshift
    have hone : ((j &&& (2 ^ t).toUInt32) + 0x1FF) >>> 9 = 1 :=
      UInt32.toNat_inj.mp (by rw [hshift]; change _ = 1; omega)
    rw [hone, if_pos hbit]
    rfl
  · rw [if_neg hbit] at hshift
    have hzero : ((j &&& (2 ^ t).toUInt32) + 0x1FF) >>> 9 = 0 :=
      UInt32.toNat_inj.mp (by rw [hshift]; rfl)
    rw [hzero, if_neg hbit]
    rfl

/-- The exchange through a mask of all ones. -/
theorem xor_exchange (s d : UInt16) :
    (s.toUInt32 ^^^ (-1 &&& (s.toUInt32 ^^^ d.toUInt32))).toUInt16 = d ∧
      (d.toUInt32 ^^^ (-1 &&& (s.toUInt32 ^^^ d.toUInt32))).toUInt16 = s := by
  rw [UInt32.and_comm, UInt32.and_neg_one]
  constructor
  · rw [← UInt32.xor_assoc, UInt32.xor_self, UInt32.zero_xor, UInt16.toUInt16_toUInt32]
  · rw [UInt32.xor_comm s.toUInt32, ← UInt32.xor_assoc, UInt32.xor_self, UInt32.zero_xor,
      UInt16.toUInt16_toUInt32]

/-- **One step of a pass.** -/
theorem Follows.step {t : ℕ} (ht : t ≤ 8) {m u : ℕ} (hm : m ≤ 2111) (hu : u < m)
    {s : UInt32 × Samples} {s' : ℕ × (ℕ → UInt16)} (h : Follows m u s s') :
    Follows m (u + 1) (squeezeStep (2 ^ t) s u) (Compaction.moveStep validWord t s' u) := by
  obtain ⟨v, S⟩ := s
  obtain ⟨v', a⟩ := s'
  obtain ⟨hindex, hle, hget⟩ := h
  dsimp only at hindex hle hget
  have hsv := hget u hu
  have hjump : (u.toUInt32 - v).toNat = u - v' := by
    have hnat : u.toUInt32.toNat = u := by
      rw [Nat.toUInt32, UInt32.toNat_ofNat', Nat.mod_eq_of_lt (by omega)]
    rw [UInt32.toNat_sub, hnat, hindex]
    omega
  have hmask := validMask (S.get u)
  have hbit := jumpMask ht (u.toUInt32 - v)
  rw [hjump] at hbit
  rw [hsv] at hmask
  rw [squeezeStep, Compaction.moveStep, hsv, hmask, hbit]
  dsimp only
  -- What is not moved is written back.
  have hstay : ∀ k < m, ((S.set u (a u)).set (u - 2 ^ t) (S.get (u - 2 ^ t))).get k = a k := by
    intro k hk
    rw [← hsv, S.get_restore _ _ (by omega), hget k hk]
  by_cases hvalid : validWord (a u) = true
  · have hnext : (v - (-1 : UInt32)).toNat = v' + 1 := by
      have hone : (-1 : UInt32).toNat = 2 ^ 32 - 1 := rfl
      rw [UInt32.toNat_sub, hone, hindex]
      omega
    rw [if_pos hvalid, if_pos hvalid]
    by_cases hup : u < 2 ^ t
    · have hmove : ¬ (2 ^ t ≤ u ∧ validWord (a u) = true ∧ (u - v').testBit t = true) :=
        fun hmove => absurd hup (Nat.not_lt.mpr hmove.1)
      rw [if_pos hup, if_neg hmove]
      exact ⟨hnext, Nat.succ_le_succ hle, hget⟩
    · have hge : 2 ^ t ≤ u := Nat.le_of_not_lt hup
      rw [if_neg hup]
      refine ⟨hnext, Nat.succ_le_succ hle, fun k hk => ?_⟩
      dsimp only
      by_cases hset : (u - v').testBit t = true
      · obtain ⟨hs, hd⟩ := xor_exchange (a u) (S.get (u - 2 ^ t))
        have hones : (-1 : UInt32) &&& -1 = -1 := rfl
        rw [if_pos hset, if_pos ⟨hge, hvalid, hset⟩, hones, hs, hd, Samples.get_set _ (by omega),
          Samples.get_set _ (by omega), Compaction.swap, hget k hk,
          hget (u - 2 ^ t) ((Nat.sub_le _ _).trans_lt hu)]
      · rw [if_neg hset, if_neg fun hmove => hset hmove.2.2, UInt32.and_zero, UInt32.zero_and,
          UInt32.xor_zero, UInt32.xor_zero, UInt16.toUInt16_toUInt32, UInt16.toUInt16_toUInt32]
        exact hstay k hk
  · have hsame : (v - 0).toNat = v' := by rw [UInt32.sub_zero, hindex]
    have hmove : ¬ (2 ^ t ≤ u ∧ validWord (a u) = true ∧ (u - v').testBit t = true) :=
      fun hmove => hvalid hmove.2.1
    rw [if_neg hvalid, if_neg hvalid, if_neg hmove]
    by_cases hup : u < 2 ^ t
    · rw [if_pos hup]
      exact ⟨hsame, hle.trans (Nat.le_succ u), hget⟩
    · rw [if_neg hup]
      refine ⟨hsame, hle.trans (Nat.le_succ u), fun k hk => ?_⟩
      dsimp only
      rw [UInt32.zero_and, UInt32.zero_and, UInt32.xor_zero, UInt32.xor_zero,
        UInt16.toUInt16_toUInt32, UInt16.toUInt16_toUInt32]
      exact hstay k hk

/-- **One pass.** -/
theorem squeeze_pass {t : ℕ} (ht : t ≤ 8) {m : ℕ} (hm : m ≤ 2111) {S : Samples} {a : ℕ → UInt16}
    (hget : ∀ k < m, S.get k = a k) :
    ∀ k < m, ((List.range m).foldl (squeezeStep (2 ^ t)) (0, S)).2.get k =
      ((List.range m).foldl (Compaction.moveStep validWord t) (0, a)).2 k := by
  have hrun : ∀ n ≤ m, Follows m n ((List.range n).foldl (squeezeStep (2 ^ t)) (0, S))
      ((List.range n).foldl (Compaction.moveStep validWord t) (0, a)) := by
    intro n hn
    induction n with
    | zero => exact ⟨rfl, le_rfl, hget⟩
    | succ n ih =>
        rw [List.range_succ, List.foldl_append, List.foldl_append]
        exact (ih (by omega)).step ht hm hn
  exact (hrun m le_rfl).get

/-- The loop over the distances, as a loop over their bits. -/
theorem squeezeLoop_eq {overN m n t : ℕ} (hlow : ∀ i < n, 2 ^ (t + i) ≤ overN)
    (hhigh : overN < 2 ^ (t + n)) (S : Samples) :
    squeezeLoop overN m (2 ^ t) S = (List.range' t n).foldl
      (fun S t => ((List.range m).foldl (squeezeStep (2 ^ t)) (0, S)).2) S := by
  induction n generalizing t S with
  | zero =>
      rw [Nat.add_zero] at hhigh
      rw [squeezeLoop, dif_neg fun h => absurd h.2 (Nat.not_le.mpr hhigh)]
      rfl
  | succ n ih =>
      have hdouble : 2 ^ t <<< 1 = 2 ^ (t + 1) := by rw [Nat.shiftLeft_eq, pow_one, pow_succ]
      rw [squeezeLoop, dif_pos ⟨Nat.two_pow_pos t, hlow 0 (Nat.zero_lt_succ n)⟩, hdouble,
        List.range'_succ, List.foldl_cons]
      refine ih (fun i hi => ?_) ?_ _
      · have hi' := hlow (i + 1) (Nat.succ_lt_succ hi)
        rwa [Nat.add_comm i, ← Nat.add_assoc] at hi'
      · rwa [Nat.add_assoc, Nat.add_comm 1]

/-- A list of stored samples, after all passes. -/
def squeezed (l : List UInt16) : ℕ → UInt16 := (List.range 9).foldl
  (fun a t => ((List.range l.length).foldl (Compaction.moveStep validWord t) (0, a)).2)
  (fun k => l.getD k 0xFFFF)

/-- **All passes**, over the function that the arrays hold. -/
theorem get_squeezeLoop {l : List UInt16} (hlen : l.length ≤ 2111) {S : Samples}
    (hS : ∀ k < l.length, S.get k = l.getD k 0xFFFF) :
    ∀ k < l.length, (squeezeLoop 287 l.length 1 S).get k = squeezed l k := by
  have hbits : ∀ n ≤ 9, ∀ k < l.length,
      ((List.range n).foldl
        (fun S t => ((List.range l.length).foldl (squeezeStep (2 ^ t)) (0, S)).2) S).get k =
      (List.range n).foldl
        (fun a t => ((List.range l.length).foldl (Compaction.moveStep validWord t) (0, a)).2)
        (fun k => l.getD k 0xFFFF) k := by
    intro n hn
    induction n with
    | zero => exact hS
    | succ n ih =>
        rw [List.range_succ, List.foldl_append, List.foldl_append]
        exact squeeze_pass (by omega) hlen (ih (by omega))
  have hloop := @squeezeLoop_eq 287 l.length 9 0 (by decide) (by norm_num) S
  rw [pow_zero, ← List.range_eq_range'] at hloop
  intro k hk
  rw [hloop, hbits 9 le_rfl k hk, squeezed]

/-! ### The points -/

/-- The first loop stores the samples, one after the other. -/
theorem get_fillSamples {m : ℕ} (hm : m ≤ 2111) (sc : σ) (S : Samples) :
    ∀ k < m, (fillSamples next m sc S).1.get k =
      ((draws next m sc).map sampleWord).getD k 0xFFFF := by
  have hrun : ∀ n t (sc : σ) (S : Samples), t + n ≤ 2111 → ∀ k < 2111,
      ((List.range' t n).foldl (fun (S, sc) u =>
        let (w, sc) := next sc
        (S.set u (sampleWord w), sc)) (S, sc)).1.get k =
      if t ≤ k ∧ k < t + n then ((draws next n sc).map sampleWord).getD (k - t) 0xFFFF
      else S.get k := by
    intro n
    induction n with
    | zero =>
        intro t sc S _ k _
        rw [if_neg (by omega)]
        rfl
    | succ n ih =>
        intro t sc S ht k hk
        rw [List.range'_succ, List.foldl_cons, draws, List.map_cons]
        refine (ih (t + 1) (next sc).2 (S.set t (sampleWord (next sc).1)) (by omega) k hk).trans ?_
        by_cases hlt : t + 1 ≤ k ∧ k < t + 1 + n
        · have hindex : k - t = (k - (t + 1)) + 1 := by omega
          rw [if_pos hlt, if_pos (by omega), hindex, List.getD_cons_succ]
        · rw [if_neg hlt, Samples.get_set _ hk]
          by_cases hkt : k = t
          · rw [if_pos hkt, if_pos (by omega), hkt, Nat.sub_self, List.getD_cons_zero]
          · rw [if_neg hkt, if_neg (by omega)]
  intro k hk
  rw [fillSamples, List.range_eq_range']
  refine (hrun m 0 sc S (by omega) k (by omega)).trans ?_
  rw [if_pos (by omega), Nat.sub_zero]

/-- As many samples as asked for are drawn. -/
theorem length_draws (n : ℕ) (sc : σ) : (draws next n sc).length = n := by
  induction n generalizing sc with
  | zero => rfl
  | succ n ih => rw [draws, List.length_cons, ih]

/-- The residues of the samples that are not rejected, among the first `n`. -/
def residues (n : ℕ) (sc : σ) : List UInt16 :=
  ((draws next n sc).filter accepted).map residueWord

variable {next}

/-- The mark of a sample that is rejected. -/
theorem validWord_sampleWord {w : UInt32} (hw : w.toNat < 65536) :
    validWord (sampleWord w) = accepted w := by
  rw [sampleWord_eq hw]
  cases accepted w with
  | true =>
      have hlt := Nat.mod_lt w.toNat (by norm_num : 0 < 12289)
      rw [if_pos rfl, validWord, decide_eq_true_iff, toNat_residueWord]
      omega
  | false => rfl

/-- The valid words among the stored samples are the residues. -/
theorem filter_validWord {ws : List UInt32} (hws : ∀ w ∈ ws, w.toNat < 65536) :
    (ws.map sampleWord).filter validWord = (ws.filter accepted).map residueWord := by
  rw [List.filter_map]
  have hvalid : ws.filter (validWord ∘ sampleWord) = ws.filter accepted :=
    List.filter_congr fun w hw => validWord_sampleWord (hws w hw)
  rw [hvalid]
  refine List.map_congr_left fun w hw => ?_
  obtain ⟨hmem, hacc⟩ := List.mem_filter.mp hw
  rw [sampleWord_eq (hws w hmem), if_pos hacc]

/-- The entries of the point of the constant-time variant. -/
theorem getElem_hashToPointCt_eq (next : σ → UInt32 × σ) (sc : σ) (S : Samples) {k : ℕ}
    (hk : k < 1024) :
    (hashToPointCt next sc S).1[k]! = squeezed ((draws next 1311 sc).map sampleWord) k := by
  have hlen : ((draws next 1311 sc).map sampleWord).length = 1311 := by
    rw [List.length_map, length_draws]
  have hfill := get_fillSamples next (m := 1311) (by norm_num) sc S
  have hover : overtab.getD 10 0 = 287 := rfl
  have hm : 1 <<< 10 + 287 = 1311 := rfl
  rw [hashToPointCt, hover, hm]
  generalize (draws next 1311 sc).map sampleWord = l at *
  generalize fillSamples next 1311 sc S = r at *
  obtain ⟨S', sc'⟩ := r
  have hrun := get_squeezeLoop (l := l) (by omega) (S := S') (fun k hk => hfill k (by omega)) k
    (by omega)
  rw [hlen, Samples.get, if_pos hk] at hrun
  dsimp only
  generalize squeezeLoop 287 1311 1 S' = T at *
  exact hrun

section Words

variable (hnext : ∀ sc, (next sc).1.toNat < 65536)
include hnext

/-- Samples have 16 bits. -/
theorem toNat_of_mem_draws {m : ℕ} {sc : σ} : ∀ w ∈ draws next m sc, w.toNat < 65536 := by
  intro w hw
  obtain ⟨t, rfl⟩ := exists_of_mem_draws hw
  exact hnext t

/-- **The constant-time variant** returns the first residues, and all ones where they run out,
unless more than 511 samples were rejected. -/
theorem getElem_hashToPointCt (sc : σ) (S : Samples)
    (hfew : 800 ≤ (residues next 1311 sc).length) :
    ∀ k < 1024, (hashToPointCt next sc S).1[k]! = (residues next 1311 sc).getD k 0xFFFF := by
  have hdraws := @toNat_of_mem_draws _ _ hnext 1311 sc
  have hvalid := filter_validWord hdraws
  have hlen : ((draws next 1311 sc).map sampleWord).length = 1311 := by
    rw [List.length_map, length_draws]
  have hbad : ∀ w ∈ (draws next 1311 sc).map sampleWord, validWord w = false → w = 0xFFFF := by
    intro w hw hinvalid
    obtain ⟨v, hv, rfl⟩ := List.mem_map.mp hw
    rw [validWord_sampleWord (hdraws v hv)] at hinvalid
    rw [sampleWord_eq (hdraws v hv), hinvalid]
    rfl
  have hentries := fun k (hk : k < 1024) => getElem_hashToPointCt_eq next sc S hk
  rw [residues, ← hvalid] at hfew ⊢
  generalize (draws next 1311 sc).map sampleWord = l at *
  have hcount : (l.filter fun w => !validWord w).length < 512 := by
    have hsplit := List.length_eq_length_filter_add (l := l) validWord
    omega
  intro k hk
  rw [hentries k hk]
  exact Compaction.getD_passes hbad rfl hcount (by omega)

/-- A point of residues takes as many samples that are not rejected. -/
theorem le_length_residues {sc : σ} {S : Samples}
    (hall : ∀ k < 1024, validWord (hashToPointCt next sc S).1[k]! = true) :
    1024 ≤ (residues next 1311 sc).length := by
  have hvalid := filter_validWord (@toNat_of_mem_draws _ _ hnext 1311 sc)
  have hlen : ((draws next 1311 sc).map sampleWord).length = 1311 := by
    rw [List.length_map, length_draws]
  have hentries := fun k (hk : k < 1024) => getElem_hashToPointCt_eq next sc S hk
  rw [residues, ← hvalid]
  generalize (draws next 1311 sc).map sampleWord = l at *
  have hcount : Compaction.countValid validWord l.length (squeezed l) =
      Compaction.countValid validWord l.length fun k => l.getD k 0xFFFF :=
    Compaction.countValid_passes _ 9
  rw [← Compaction.countValid_getD 0xFFFF, ← hcount]
  refine Compaction.le_countValid (by omega) fun k hk => ?_
  rw [← hentries k hk]
  exact hall k hk

end Words

/-- The first sample is among the residues if it is accepted. -/
theorem residues_succ (m : ℕ) (sc : σ) : residues next (m + 1) sc =
    if accepted (next sc).1 then residueWord (next sc).1 :: residues next m (next sc).2
    else residues next m (next sc).2 := by
  rw [residues, draws, List.filter_cons]
  split <;> rfl

/-- More samples add residues at the end. -/
theorem residues_extend (next : σ → UInt32 × σ) {m m' : ℕ} (hle : m ≤ m') (sc : σ) :
    residues next m sc <+: residues next m' sc := by
  induction m generalizing m' sc with
  | zero => exact List.nil_prefix
  | succ m ih =>
      obtain ⟨n, rfl⟩ : ∃ n, m' = n + 1 := ⟨m' - 1, by omega⟩
      have htail := ih (Nat.le_of_succ_le_succ hle) (next sc).2
      rw [residues_succ, residues_succ]
      split
      · exact (List.prefix_cons_inj _).mpr htail
      · exact htail

/-- Enough residues are the same, whatever the number of samples. -/
theorem take_residues {m m' : ℕ} {sc : σ} (hm : 1024 ≤ (residues next m sc).length)
    (hm' : 1024 ≤ (residues next m' sc).length) :
    (residues next m sc).take 1024 = (residues next m' sc).take 1024 := by
  rcases Nat.le_total m m' with hle | hle
  · obtain ⟨rest, hrest⟩ := residues_extend next hle sc
    rw [← hrest, List.take_append_of_le_length hm]
  · obtain ⟨rest, hrest⟩ := residues_extend next hle sc
    rw [← hrest, List.take_append_of_le_length hm']

/-- The loop of the plain variant, when enough of the next samples are not rejected. -/
theorem vartimeLoop_of_enough {fuel m n : ℕ} (hfuel : m ≤ fuel) {sc : σ} (x : List UInt16)
    (hn : n ≤ (residues next m sc).length) :
    ∃ sc', vartimeLoop next fuel n sc x = some (x ++ (residues next m sc).take n, sc') := by
  induction fuel generalizing m n sc x with
  | zero =>
      obtain rfl := Nat.le_zero.mp hfuel
      obtain rfl := Nat.le_zero.mp hn
      exact ⟨sc, by rw [vartimeLoop, List.take_zero, List.append_nil]⟩
  | succ fuel ih =>
      rcases n with _ | n
      · exact ⟨sc, by rw [vartimeLoop, List.take_zero, List.append_nil]⟩
      · rcases m with _ | m
        · exact absurd hn (Nat.not_succ_le_zero n)
        · rw [residues_succ] at hn ⊢
          rw [vartimeLoop]
          dsimp only
          by_cases hacc : (next sc).1 < 61445
          · have hacc' : accepted (next sc).1 = true := decide_eq_true hacc
            rw [if_pos hacc'] at hn ⊢
            obtain ⟨sc', hrun⟩ := ih (m := m) (by omega)
              (x ++ [(subtractQ (next sc).1).toUInt16]) (Nat.le_of_succ_le_succ hn)
            refine ⟨sc', ?_⟩
            rw [if_pos hacc, hrun, subtractQ_eq, List.take_succ_cons, List.append_assoc,
              List.singleton_append]
          · have hacc' : ¬ (accepted (next sc).1 = true) := fun h => hacc (of_decide_eq_true h)
            rw [if_neg hacc'] at hn ⊢
            obtain ⟨sc', hrun⟩ := ih (m := m) (by omega) x hn
            exact ⟨sc', by rw [if_neg hacc, hrun]⟩

/-- The plain loop stops within its fuel only if enough of the samples are not rejected. -/
theorem enough_of_vartimeLoop {fuel n : ℕ} {sc sc' : σ} {x y : List UInt16}
    (h : vartimeLoop next fuel n sc x = some (y, sc')) :
    ∃ m ≤ fuel, n ≤ (residues next m sc).length ∧ y = x ++ (residues next m sc).take n := by
  induction fuel generalizing n sc x with
  | zero =>
      rcases n with _ | n
      · rw [vartimeLoop] at h
        obtain ⟨rfl, -⟩ := Prod.mk.inj (Option.some.inj h)
        exact ⟨0, le_rfl, Nat.zero_le _, by rw [List.take_zero, List.append_nil]⟩
      · exact (Option.some_ne_none _ h.symm).elim
  | succ fuel ih =>
      rcases n with _ | n
      · rw [vartimeLoop] at h
        obtain ⟨rfl, -⟩ := Prod.mk.inj (Option.some.inj h)
        exact ⟨0, Nat.zero_le _, Nat.zero_le _, by rw [List.take_zero, List.append_nil]⟩
      · rw [vartimeLoop] at h
        dsimp only at h
        by_cases hacc : (next sc).1 < 61445
        · have hacc' : accepted (next sc).1 = true := decide_eq_true hacc
          rw [if_pos hacc] at h
          obtain ⟨m, hm, hlen, hy⟩ := ih h
          refine ⟨m + 1, Nat.succ_le_succ hm, ?_, ?_⟩
          · rw [residues_succ, if_pos hacc', List.length_cons]
            exact Nat.succ_le_succ hlen
          · rw [residues_succ, if_pos hacc', hy, subtractQ_eq, List.take_succ_cons,
              List.append_assoc, List.singleton_append]
        · have hacc' : ¬ (accepted (next sc).1 = true) := fun h => hacc (of_decide_eq_true h)
          rw [if_neg hacc] at h
          obtain ⟨m, hm, hlen, hy⟩ := ih h
          refine ⟨m + 1, Nat.succ_le_succ hm, ?_, ?_⟩
          · rwa [residues_succ, if_neg hacc']
          · rw [residues_succ, if_neg hacc', hy]

/-- **What the plain variant returns**: the first residues, once there are enough. -/
theorem hashToPointVartime_eq_some {fuel : ℕ} {sc : σ} {c : Poly16} :
    (∃ sc', hashToPointVartime next fuel sc = some (c, sc')) ↔
      ∃ m ≤ fuel, 1024 ≤ (residues next m sc).length ∧
        c.toList = (residues next m sc).take 1024 := by
  have hn : 1 <<< 10 = 1024 := rfl
  rw [hashToPointVartime, hn]
  constructor
  · rintro ⟨sc', hrun⟩
    obtain ⟨⟨x, sc''⟩, hloop, hout⟩ := Option.map_eq_some_iff.mp hrun
    obtain ⟨m, hm, hlen, hx⟩ := enough_of_vartimeLoop hloop
    rw [List.nil_append] at hx
    have hxlen : x.length = 1024 := by rw [hx, List.length_take, Nat.min_eq_left hlen]
    refine ⟨m, hm, hlen, ?_⟩
    rw [← hx]
    exact (Words.ofFn_getD_eq_iff hxlen 0).mp (Prod.mk.inj hout).1
  · rintro ⟨m, hm, hlen, hc⟩
    obtain ⟨sc', hloop⟩ := vartimeLoop_of_enough hm [] hlen
    rw [List.nil_append, ← hc] at hloop
    refine ⟨sc', ?_⟩
    rw [hloop, Option.map_some]
    exact congrArg (fun y => some (y, sc'))
      ((Words.ofFn_getD_eq_iff Vector.length_toList 0).mpr rfl)

end Source

/-- A sample has sixteen bits. -/
theorem toNat_extractU16_lt (perm : Lanes → Lanes) (sc : ShakeContext) :
    (extractU16 perm sc).1.toNat < 65536 := by
  rw [extractU16]
  dsimp only
  generalize (shakeExtract perm sc 2).1 = buf
  have hhigh := buf[0]!.toNat_lt
  have hlow := buf[1]!.toNat_lt
  have hor := Words.UInt32.toNat_shiftLeft_or buf[0]!.toUInt32 (b := buf[1]!.toUInt32) (k := 8)
    (by norm_num) (by rw [UInt8.toNat_toUInt32]; exact hlow)
  rw [UInt8.toNat_toUInt32, UInt8.toNat_toUInt32] at hor
  refine hor.trans_lt ?_
  omega

/-- The point of the constant-time variant, when its samples are enough. -/
theorem toList_hashToPointCt {perm : Lanes → Lanes} {sc : ShakeContext} (S : Samples)
    (hlen : 1024 ≤ (residues (extractU16 perm) 1311 sc).length) :
    (hashToPointCt (extractU16 perm) sc S).1.toList =
      (residues (extractU16 perm) 1311 sc).take 1024 := by
  have hentries := getElem_hashToPointCt (toNat_extractU16_lt perm) sc S (by omega)
  have htake : ((residues (extractU16 perm) 1311 sc).take 1024).length = 1024 := by
    rw [List.length_take, Nat.min_eq_left hlen]
  refine List.ext_getElem (by rw [Vector.length_toList, htake]) fun k hk hk' => ?_
  rw [Vector.length_toList] at hk
  have hentry := hentries k hk
  rw [getElem!_pos _ k hk, List.getD_eq_getElem _ _ (by omega)] at hentry
  rw [Vector.getElem_toList, hentry, List.getElem_take]

/-- When the samples of the constant-time variant are enough, the plain variant has one point
to return, with fuel or without. -/
theorem hashToPointVartime_iff_of_enough {perm : Lanes → Lanes} {sc : ShakeContext} (S : Samples)
    (hlen : 1024 ≤ (residues (extractU16 perm) 1311 sc).length) {c : Poly16} :
    (∃ fuel sc', hashToPointVartime (extractU16 perm) fuel sc = some (c, sc')) ↔
      c = (hashToPointCt (extractU16 perm) sc S).1 := by
  rw [← Vector.toList_inj, toList_hashToPointCt S hlen]
  constructor
  · rintro ⟨fuel, hrun⟩
    obtain ⟨m, -, hm, hc⟩ := hashToPointVartime_eq_some.mp hrun
    rw [hc, take_residues hm hlen]
  · intro hc
    exact ⟨1311, hashToPointVartime_eq_some.mpr ⟨1311, le_rfl, hlen, hc⟩⟩

/-- **The two variants** return the same point exactly when the fixed number of samples is
enough, whatever the arrays held before. -/
theorem hashToPoint_variants_agree_iff (perm : Lanes → Lanes) (sc : ShakeContext) (S : Samples) :
    (∃ fuel sc', hashToPointVartime (extractU16 perm) fuel sc =
        some ((hashToPointCt (extractU16 perm) sc S).1, sc')) ↔
      1024 ≤ (residues (extractU16 perm) 1311 sc).length := by
  constructor
  · rintro ⟨fuel, hrun⟩
    obtain ⟨m, -, -, hpoint⟩ := hashToPointVartime_eq_some.mp hrun
    refine le_length_residues (toNat_extractU16_lt perm) (S := S) fun k hk => ?_
    have hmem := Words.getElem!_mem_toList (hashToPointCt (extractU16 perm) sc S).1 hk
    rw [hpoint] at hmem
    obtain ⟨w, -, hw⟩ := List.mem_map.mp (List.mem_of_mem_take hmem)
    have hlt := Nat.mod_lt w.toNat (by norm_num : 0 < 12289)
    rw [← hw, validWord, decide_eq_true_iff, toNat_residueWord]
    omega
  · intro hlen
    exact (hashToPointVartime_iff_of_enough S hlen).mpr rfl

end FalconVanity
