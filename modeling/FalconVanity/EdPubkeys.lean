import FalconVanity.ScalarMult
import FalconVanity.Sha512

/-!
# Batches of Public Keys

The classic search computes the public keys of a batch with one inversion: the running products
of the denominators go up, and the inverse of the last of them is peeled from the top. Each of
the keys is the one that the reference path of the vendored code encodes, whose select moves
every entry of the table conditionally.

## Main results

* `geSelect_eq`: the two ways to select.
* `BatchProducts.step`, `peel_spec`: the invariants of the two loops.
* `edPubkeysBatch_eq`, `edPubkeysBatch_eq_reference`: the keys of a batch.
* `edPubkeysBatch_points`: the multiples of the base point that they encode.
-/

namespace FalconVanity

open Field25519 Finset

variable (V : Vendored)

/-! ### The reference path -/

/-- `negative`: the sign bit of a digit. -/
def geNegative (b : Int8) : UInt8 := (b.toInt64.toUInt64 >>> 63).toUInt8

/-- `equal`: one if two digits are equal, without a branch. -/
def geEqual (b c : Int8) : UInt8 :=
  let x := b.toUInt8 ^^^ c.toUInt8
  let y := x.toUInt64 - 1
  (y >>> 63).toUInt8

/-- `cmov`: the entry is replaced if the flag is one. -/
def geCmov (t u : GePrecomp) (b : UInt8) : GePrecomp where
  yplusx := feCmov t.yplusx u.yplusx b.toUInt32
  yminusx := feCmov t.yminusx u.yminusx b.toUInt32
  xy2d := feCmov t.xy2d u.xy2d b.toUInt32

/-- The absolute value of a digit, as `select` computes it. -/
def geAbs (b : Int8) : UInt8 :=
  let bnegative := geNegative b
  (b.toInt32 - ((-bnegative.toUInt32.toInt32 &&& b.toInt32) <<< 1)).toUInt32.toUInt8

/-- `select`: the entry of a digit, without a branch: all eight are read. -/
def geSelect (pos : ℕ) (b : Int8) : GePrecomp :=
  let bnegative := geNegative b
  let babs := geAbs b
  let t : GePrecomp := { yplusx := fe1, yminusx := fe1, xy2d := fe0 }
  let t := (List.range 8).foldl
    (fun t j => geCmov t (V.base pos j) (geEqual babs.toInt8 (Int8.ofNat (j + 1)))) t
  let minust : GePrecomp :=
    { yplusx := feCopy t.yminusx, yminusx := feCopy t.yplusx, xy2d := feNeg t.xy2d }
  geCmov t minust bnegative

/-- `ge_scalarmult_base`: the reference multiplication: the digits at odd places, four doublings,
and those at even places. -/
def geScalarmultBase (a : Bytes32) : GeP3 := scalarmultBase V (geSelect V) a

/-! ### The select -/

section Select

variable {V}

/-- The sign bit of a digit. -/
theorem geNegative_eq (b : Int8) : geNegative b = if b.toInt < 0 then 1 else 0 :=
  Words.forall_byte (P := fun n => geNegative n.toInt8 = if n.toInt8.toInt < 0 then 1 else 0)
    (by decide +kernel) b.toUInt8

/-- The absolute value of a digit, by masks. -/
theorem geAbs_toNat (b : Int8) : (geAbs b).toNat = b.toInt.natAbs :=
  Words.forall_byte (P := fun n => (geAbs n.toInt8).toNat = n.toInt8.toInt.natAbs)
    (by decide +kernel) b.toUInt8

/-- The comparison without a branch. -/
theorem geEqual_eq (b c : Int8) : geEqual b c = if b = c then 1 else 0 := by
  have hsub : ∀ x : UInt8, ((x.toUInt64 - 1) >>> 63).toUInt8 = if x = 0 then 1 else 0 :=
    Words.forall_byte (by decide +kernel)
  have hiff : b.toUInt8 ^^^ c.toUInt8 = 0 ↔ b = c := by
    rw [UInt8.xor_eq_zero_iff]
    exact ⟨fun h => congrArg UInt8.toInt8 h, fun h => congrArg Int8.toUInt8 h⟩
  rw [geEqual, hsub]
  simp only [hiff]

/-- **A conditional move** of an entry. -/
theorem geCmov_flag (t u : GePrecomp) (c : Prop) [Decidable c] :
    geCmov t u (if c then 1 else 0) = if c then u else t := by
  have hflag : (if c then (1 : UInt8) else 0).toUInt32 = if c then 1 else 0 := by
    split <;> rfl
  simp only [geCmov, hflag, feCmov_flag]
  split <;> rfl

/-- The conditional moves find the entry of the absolute value. -/
theorem foldl_geCmov (t : ℕ → GePrecomp) (u : GePrecomp) (x : UInt8) {n : ℕ} (hn : n ≤ 8) :
    (List.range n).foldl
        (fun s j => geCmov s (t j) (geEqual x.toInt8 (Int8.ofNat (j + 1)))) u =
      if 1 ≤ x.toNat ∧ x.toNat ≤ n then t (x.toNat - 1) else u := by
  induction n with
  | zero => rw [List.range_zero, List.foldl_nil, if_neg (by omega)]
  | succ n ih =>
      have hiff : x.toInt8 = Int8.ofNat (n + 1) ↔ x.toNat = n + 1 := by
        constructor
        · intro h
          have hx : x = UInt8.ofNat (n + 1) := congrArg Int8.toUInt8 h
          rw [hx, UInt8.toNat_ofNat_of_lt' (hn.trans_lt (by decide))]
        · intro h
          rw [← h, ← UInt8.toInt8_ofNat', UInt8.ofNat_toNat]
      rw [List.range_succ, List.foldl_append, ih (Nat.le_of_succ_le hn), List.foldl_cons,
        List.foldl_nil, geEqual_eq, geCmov_flag]
      simp only [hiff]
      split
      · next hx =>
          rw [if_pos (by omega), hx]
          rfl
      · next hx =>
          split
          · next hle => rw [if_pos (by omega)]
          · next hlt => rw [if_neg (by omega)]

/-- **The two ways to select** find the same entry, for a digit of the recoding. -/
theorem geSelect_eq (pos : ℕ) {b : Int8} (hb : -8 ≤ b.toInt ∧ b.toInt ≤ 8) :
    geSelect V pos b = edSelectVartime V pos b := by
  have habs := geAbs_toNat b
  rw [edSelectVartime_eq, geSelect, tableEntry]
  simp only [foldl_geCmov _ _ _ le_rfl, geNegative_eq, geCmov_flag, habs]
  rcases lt_trichotomy b.toInt 0 with hneg | hzero | hpos
  · have hindex : b.toInt.natAbs - 1 = (-b.toInt - 1).toNat := by omega
    rw [if_pos hneg, if_pos (by omega), if_neg (by omega), if_neg (by omega), hindex]
    rfl
  · rw [hzero, if_neg (lt_irrefl 0), if_neg (by simp), if_pos rfl]
  · have hindex : b.toInt.natAbs - 1 = (b.toInt - 1).toNat := by omega
    rw [if_neg (by omega), if_pos (by omega), if_neg (by omega), if_pos hpos, hindex]

end Select

/-- The loop over the digits depends on what is selected for the digits alone. -/
theorem addDigits_congr {V : Vendored} {select₁ select₂ : ℕ → Int8 → GePrecomp} {e : Vector Int8 64}
    (hselect : ∀ pos, ∀ j < 64, select₁ pos e[j]! = select₂ pos e[j]!) {start n : ℕ}
    (hstart : start < 2) (hn : n ≤ 32) (h : GeP3) :
    addDigits V select₁ e start n h = addDigits V select₂ e start n h := by
  induction n with
  | zero => rfl
  | succ n ih =>
      rw [addDigits_succ, addDigits_succ, ih (Nat.le_of_succ_le hn),
        hselect _ (start + 2 * n) (by omega)]

/-- **The two multiplications** of the base point compute the same coordinates. -/
theorem geScalarmultBase_eq {a : Bytes32} (ha : a[31]! ≤ 127) :
    geScalarmultBase V a = edScalarmultBaseVartime V a := by
  have hselect : ∀ pos, ∀ j < 64,
      geSelect V pos (recode a)[j]! = edSelectVartime V pos (recode a)[j]! :=
    fun pos j hj => geSelect_eq pos (recode_bounds ha hj)
  rw [geScalarmultBase, edScalarmultBaseVartime, scalarmultBase, scalarmultBase]
  simp only [addDigits_congr hselect one_lt_two le_rfl,
    addDigits_congr hselect zero_lt_two le_rfl]

/-! ### A batch -/

/-- `ed_encode_with_recip`: the encoding of a point whose denominator is inverted already. -/
def edEncodeWithRecip (p : GeP3) (recip : Fe) : Bytes32 :=
  let x := V.feMul p.X recip
  let y := V.feMul p.Y recip
  let pk := V.feTobytes y
  pk.set! 31 (pk[31]! ^^^ V.feIsnegative x <<< 7)

/-- The arrays of `ed_pubkeys_batch`. They are not initialized: a batch may find anything in them.
-/
structure BatchArrays where
  P : Vector GeP3 8
  acc : Vector Fe 8

/-- The body of the loop that multiplies the denominators up. -/
def edPubkeysUp (seeds : Vector Bytes32 8) (b : BatchArrays) (k : ℕ) : BatchArrays :=
  let a := edSeedToScalar V seeds[k]!
  let P := b.P.set! k (edScalarmultBaseVartime V a)
  let acc := if k = 0 then b.acc.set! 0 (feCopy P[0]!.Z)
    else b.acc.set! k (V.feMul b.acc[k - 1]! P[k]!.Z)
  { P, acc }

/-- The body of the loop that peels the inverse and writes the keys. -/
def edPubkeysDown (b : BatchArrays) (s : Fe × Vector Bytes32 8) (k : ℕ) : Fe × Vector Bytes32 8 :=
  let (inv, pks) := s
  let (recip, inv) := if 0 < k then (V.feMul inv b.acc[k - 1]!, V.feMul inv b.P[k]!.Z)
    else (feCopy inv, inv)
  (inv, pks.set! k (edEncodeWithRecip V b.P[k]! recip))

/-- `ed_pubkeys_batch`: the keys after it, from what is in the arrays before. -/
def edPubkeysBatch (garbage : BatchArrays) (seeds : Vector Bytes32 8) (nk : ℕ)
    (pks : Vector Bytes32 8) : Vector Bytes32 8 :=
  let b := (List.range nk).foldl (edPubkeysUp V seeds) garbage
  let inv := V.feInvert b.acc[nk - 1]!
  ((List.range nk).reverse.foldl (edPubkeysDown V b) (inv, pks)).2

/-! ### The loops -/

section Loops

variable {V} {seeds : Vector Bytes32 8}

/-- The point of a seed. -/
def batchPoint (V : Vendored) (seeds : Vector Bytes32 8) (k : ℕ) : GeP3 :=
  edScalarmultBaseVartime V (edSeedToScalar V seeds[k]!)

/-- The denominator of the point of a seed. -/
def batchZ (V : Vendored) (seeds : Vector Bytes32 8) (k : ℕ) : ZMod q :=
  feValue (batchPoint V seeds k).Z

/-- The entries of the arrays before a position: points, and products of their denominators. One
inversion of the last product serves all points. -/
structure BatchProducts (V : Vendored) (seeds : Vector Bytes32 8) (n : ℕ) (b : BatchArrays) :
    Prop where
  point : ∀ j < n, b.P[j]! = batchPoint V seeds j
  product : ∀ j < n, Represents 101 b.acc[j]! (∏ i ∈ range (j + 1), batchZ V seeds i)

/-- **A step up** multiplies one more denominator. -/
theorem BatchProducts.step (hV : V.Implements) {n : ℕ} {b : BatchArrays}
    (hz : Represents 101 (batchPoint V seeds n).Z (batchZ V seeds n))
    (hb : BatchProducts V seeds n b) (hn : n < 8) :
    BatchProducts V seeds (n + 1) (edPubkeysUp V seeds b n) := by
  have hpoint : (b.P.set! n (batchPoint V seeds n))[n]! = batchPoint V seeds n := by
    rw [Words.getElem!_set! _ hn, if_pos rfl]
  constructor
  · intro j hj
    change (b.P.set! n (batchPoint V seeds n))[j]! = batchPoint V seeds j
    rw [Words.getElem!_set! _ (by omega)]
    split
    · next hnj => rw [hnj]
    · next hnj => exact hb.point j (by omega)
  · intro j hj
    change Represents 101 (if n = 0 then
        b.acc.set! 0 (feCopy (b.P.set! n (batchPoint V seeds n))[0]!.Z)
      else b.acc.set! n (V.feMul b.acc[n - 1]! (b.P.set! n (batchPoint V seeds n))[n]!.Z))[j]! _
    rw [hpoint]
    cases n with
    | zero =>
        obtain rfl : j = 0 := by omega
        rw [if_pos rfl, hpoint, Words.getElem!_set! _ (by omega), if_pos rfl, prod_range_one]
        exact hz
    | succ n =>
        rw [if_neg (Nat.succ_ne_zero n), Words.getElem!_set! _ (by omega)]
        split
        · next hnj =>
            rw [← hnj, prod_range_succ]
            exact hV.mul ((hb.product n (Nat.lt_succ_self n)).mono (by norm_num))
              (hz.mono (by norm_num))
        · next hnj => exact hb.product j (by omega)

/-- **The way up**, for a number of seeds. -/
theorem batchProducts_foldl (hV : V.Implements) (garbage : BatchArrays) {n : ℕ} (hn : n ≤ 8)
    (hz : ∀ k < n, Represents 101 (batchPoint V seeds k).Z (batchZ V seeds k)) :
    BatchProducts V seeds n ((List.range n).foldl (edPubkeysUp V seeds) garbage) := by
  induction n with
  | zero =>
      constructor
      · exact fun j hj => absurd hj (Nat.not_lt_zero j)
      · exact fun j hj => absurd hj (Nat.not_lt_zero j)
  | succ n ih =>
      rw [List.range_succ, List.foldl_append]
      exact (ih (by omega) fun k hk => hz k (by omega)).step hV (hz n (Nat.lt_succ_self n)) hn

/-- **The encoding**, from limbs for the inverse of the denominator. -/
theorem edEncodeWithRecip_eq (hV : V.Implements) {p : GeP3} {x y z t : ZMod q}
    (hp : p.Represents x y z t) {recip : Fe} (hrecip : Represents 101 recip z⁻¹) :
    edEncodeWithRecip V p recip = geP3Tobytes V p := by
  have hinv : Represents 101 (V.feInvert p.Z) z⁻¹ := hV.invert (hp.Z.mono (by norm_num))
  have hfactor : ∀ {f x}, Represents 101 f x → ∀ {r}, Represents 101 r z⁻¹ →
      Represents 220 (V.feMul f r) (x * z⁻¹) := fun hf r hr =>
    (hV.mul (hf.mono (by norm_num)) (hr.mono (by norm_num))).mono (by norm_num)
  rw [edEncodeWithRecip, geP3Tobytes, hV.isnegative (hfactor hp.X hrecip) (hfactor hp.X hinv),
    hV.toBytes (hfactor hp.Y hrecip) (hfactor hp.Y hinv)]

/-- **A step down** drops one denominator from the running inverse, and writes a key. -/
theorem edPubkeysDown_spec (hV : V.Implements) {b : BatchArrays} {m n : ℕ}
    (hb : BatchProducts V seeds m b) (hnm : n < m)
    (hrep : ∀ k < m, ∃ x y t, (batchPoint V seeds k).Represents x y (batchZ V seeds k) t)
    (hne : ∀ k < m, batchZ V seeds k ≠ 0) {inv : Fe}
    (hinv : Represents 101 inv (∏ i ∈ range (n + 1), batchZ V seeds i)⁻¹)
    (pks : Vector Bytes32 8) :
    (0 < n → Represents 101 (edPubkeysDown V b (inv, pks) n).1
      (∏ i ∈ range n, batchZ V seeds i)⁻¹) ∧
    (edPubkeysDown V b (inv, pks) n).2 =
      pks.set! n (geP3Tobytes V (batchPoint V seeds n)) := by
  obtain ⟨x, y, t, hpoint⟩ := hrep n hnm
  have hprod : ∏ i ∈ range n, batchZ V seeds i ≠ 0 :=
    prod_ne_zero_iff.mpr fun i hi => hne i ((mem_range.mp hi).trans hnm)
  have hz := hne n hnm
  rw [prod_range_succ] at hinv
  simp only [edPubkeysDown]
  split
  · next hpos =>
      obtain ⟨k, rfl⟩ := Nat.exists_eq_add_one.mpr hpos
      have hrecip := hV.mul (hinv.mono (by norm_num))
        ((hb.product k (by omega)).mono (by norm_num))
      have hdrop := hV.mul (hinv.mono (by norm_num)) (hpoint.Z.mono (by norm_num))
      rw [mul_inv, mul_right_comm, inv_mul_cancel₀ hprod, one_mul] at hrecip
      rw [mul_inv, mul_assoc, inv_mul_cancel₀ hz, mul_one] at hdrop
      refine ⟨fun _ => ?_, ?_⟩
      · rw [hb.point _ hnm]
        exact hdrop
      · rw [hb.point _ hnm, Nat.add_sub_cancel, edEncodeWithRecip_eq hV hpoint hrecip]
  · next hpos =>
      obtain rfl : n = 0 := by omega
      rw [prod_range_zero, one_mul] at hinv
      refine ⟨fun h => absurd h hpos, ?_⟩
      rw [hb.point _ hnm, feCopy, edEncodeWithRecip_eq hV hpoint hinv]

/-- **The way down** writes the keys of the positions that are left, as long as the running
inverse is that of the product of their denominators. -/
theorem foldl_edPubkeysDown (hV : V.Implements) {b : BatchArrays} {m : ℕ}
    (hb : BatchProducts V seeds m b)
    (hrep : ∀ k < m, ∃ x y t, (batchPoint V seeds k).Represents x y (batchZ V seeds k) t)
    (hne : ∀ k < m, batchZ V seeds k ≠ 0) {n : ℕ} (hnm : n ≤ m) {inv : Fe}
    (hinv : 0 < n → Represents 101 inv (∏ i ∈ range n, batchZ V seeds i)⁻¹)
    (pks : Vector Bytes32 8) {j : ℕ} (hj : j < 8) :
    ((List.range n).reverse.foldl (edPubkeysDown V b) (inv, pks)).2[j]! =
      if j < n then geP3Tobytes V (batchPoint V seeds j) else pks[j]! := by
  induction n generalizing inv pks with
  | zero => rfl
  | succ n ih =>
      obtain ⟨hnext, hpks⟩ := edPubkeysDown_spec hV hb (by omega) hrep hne
        (hinv (Nat.succ_pos n)) pks
      rw [List.range_succ, List.reverse_append, List.reverse_singleton, List.singleton_append,
        List.foldl_cons, ← Prod.mk.eta (p := edPubkeysDown V b (inv, pks) n),
        ih (by omega) hnext, hpks, Words.getElem!_set! _ hj]
      rcases lt_trichotomy j n with hlt | heq | hgt
      · rw [if_pos hlt, if_pos (by omega)]
      · rw [if_neg (by omega), if_pos heq.symm, if_pos (by omega), heq]
      · rw [if_neg (by omega), if_neg (by omega), if_neg (by omega)]

/-- **The keys of a batch**, from points whose denominators are not zero. -/
theorem edPubkeysBatch_eq (hV : V.Implements) (garbage : BatchArrays) (pks : Vector Bytes32 8)
    {nk : ℕ} (hlo : 1 ≤ nk) (hhi : nk ≤ 8)
    (hrep : ∀ k < nk, ∃ x y t, (batchPoint V seeds k).Represents x y (batchZ V seeds k) t)
    (hne : ∀ k < nk, batchZ V seeds k ≠ 0) {j : ℕ} (hj : j < 8) :
    (edPubkeysBatch V garbage seeds nk pks)[j]! =
      if j < nk then geP3Tobytes V (batchPoint V seeds j) else pks[j]! := by
  have hup := batchProducts_foldl hV garbage hhi fun k hk => by
    obtain ⟨x, y, t, hp⟩ := hrep k hk
    exact hp.Z
  have hlast := hup.product (nk - 1) (by omega)
  rw [Nat.sub_add_cancel hlo] at hlast
  exact foldl_edPubkeysDown hV hup hrep hne le_rfl
    (fun _ => hV.invert (hlast.mono (by norm_num))) pks hj

end Loops

/-! ### The keys -/

/-- **The keys of a batch** are those of the reference path, each from its own seed, and the
remaining ones are left as they are. -/
theorem edPubkeysBatch_eq_reference (V : Vendored) (hV : V.Implements)
    (hbase : ∀ pos < 32, ∀ j < 8, ∃ yp ym xy, (V.base pos j).Represents yp ym xy)
    (garbage : BatchArrays) (seeds pks : Vector Bytes32 8) {nk : ℕ} (hlo : 1 ≤ nk) (hhi : nk ≤ 8)
    (hz : ∀ k < nk, feValue (geScalarmultBase V (edSeedToScalar V seeds[k]!)).Z ≠ 0) :
    ∀ k < 8, (edPubkeysBatch V garbage seeds nk pks)[k]! =
      if k < nk then geP3Tobytes V (geScalarmultBase V (edSeedToScalar V seeds[k]!))
      else pks[k]! := by
  intro k hk
  have href : ∀ j, geScalarmultBase V (edSeedToScalar V seeds[j]!) = batchPoint V seeds j :=
    fun j => geScalarmultBase_eq V (edSeedToScalar_le V _)
  have hrep : ∀ j, ∃ x y t, (batchPoint V seeds j).Represents x y (batchZ V seeds j) t := by
    intro j
    obtain ⟨x, y, z, t, hp⟩ :=
      (reducedMeaning hV hbase).scalarmultBase (edSeedToScalar_le V seeds[j]!)
    obtain rfl : batchZ V seeds j = z := hp.Z.value
    exact ⟨x, y, t, hp⟩
  have hne : ∀ j < nk, batchZ V seeds j ≠ 0 := by
    intro j hj
    rw [batchZ, ← href j]
    exact hz j hj
  rw [href k]
  exact edPubkeysBatch_eq hV garbage pks hlo hhi (fun j _ => hrep j) hne hk

/-- A batch of three seeds, in a group of three points. The key of the first seed is the inverse
of the base point. -/
theorem edPubkeysBatch_eq_reference_threes :
    let E := EdwardsGroup.threes (EdwardsGroup.orderThree_quarters thirty_ne_zero_of_field)
    let V := exactVendored E 1
    let seeds : Vector Bytes32 8 := Vector.ofFn fun i => Vector.replicate 32 i.val.toUInt8
    let pks : Vector Bytes32 8 := Vector.replicate 8 (Vector.replicate 32 0)
    let garbage : BatchArrays := { P := Vector.replicate 8 geP30, acc := Vector.replicate 8 fe0 }
    scalar (edSeedToScalar V seeds[0]!) • (1 : ZMod 3) = -1 ∧
      ∀ k < 8, (edPubkeysBatch V garbage seeds 3 pks)[k]! =
        if k < 3 then geP3Tobytes V (geScalarmultBase V (edSeedToScalar V seeds[k]!))
        else pks[k]! := by
  intro E V seeds pks garbage
  refine ⟨?_, edPubkeysBatch_eq_reference V exactField_implements
    (fun pos _ j _ => ⟨_, _, _, duifOf_duifForm _ _⟩) garbage seeds pks (by norm_num) (by norm_num)
    fun k _ => ?_⟩
  · have hseed : seeds[0]!.toList = List.replicate 32 0 := by decide
    have hscalar : scalar (edSeedToScalar V seeds[0]!) % 3 = 2 := by
      rw [edSeedToScalar, hseed, exactVendored_sha512, sha512_zeros]
      decide +kernel
    rw [nsmul_eq_mul, mul_one, ← ZMod.natCast_mod, hscalar]
    rfl
  · have hclamp := edSeedToScalar_le V seeds[k]!
    rw [geScalarmultBase_eq V hclamp]
    exact exactMeaning_ne_zero ((exactMeaning E 1).scalarmultBase hclamp)

/-! ### The points behind the keys -/

/-- The encoding of a point with affine coordinates `x` and `y`: the bytes of `y`, and the parity
of `x` in the highest bit. -/
def pointBytes (x y : ZMod q) : Bytes32 :=
  let s := V.feTobytes (feOf y)
  s.set! 31 (s[31]! ^^^ V.feIsnegative (feOf x) <<< 7)

section Points

variable {V} {G : Type*} [AddCommGroup G] {d : ZMod q} {E : EdwardsGroup (ZMod q) G d}

/-- **The encoding** of a point depends on its affine coordinates alone. -/
theorem geP3Tobytes_eq (hV : V.Implements) {p : GeP3} {g : G} {x y z t : ZMod q}
    (hp : p.Represents x y z t) (hg : E.OverOne x y z g) :
    geP3Tobytes V p = pointBytes V (E.x g) (E.y g) := by
  obtain ⟨hx, hy⟩ := hg.affine
  have hinv : Represents 101 (V.feInvert p.Z) z⁻¹ := hV.invert (hp.Z.mono (by norm_num))
  have hX := hV.mul (hp.X.mono (by norm_num)) (hinv.mono (by norm_num))
  have hY := hV.mul (hp.Y.mono (by norm_num)) (hinv.mono (by norm_num))
  rw [hx] at hX
  rw [hy] at hY
  rw [geP3Tobytes, pointBytes,
    hV.isnegative (hX.mono (by norm_num)) ((feOf_represents _).mono (by norm_num)),
    hV.toBytes (hY.mono (by norm_num)) ((feOf_represents _).mono (by norm_num))]

/-- **The keys of a batch** encode the multiples of the base point by the clamped scalars, where
the table has the multiples of a base point in a group of points. -/
theorem edPubkeysBatch_points (hV : V.Implements) (B : G)
    (hbase : ∀ pos < 32, ∀ j < 8, DuifForm E (V.base pos j) (((j + 1) * 256 ^ pos) • B))
    (garbage : BatchArrays) (seeds pks : Vector Bytes32 8) {nk : ℕ} (hlo : 1 ≤ nk)
    (hhi : nk ≤ 8) {k : ℕ} (hk : k < nk) :
    let g := scalar (edSeedToScalar V seeds[k]!) • B
    (edPubkeysBatch V garbage seeds nk pks)[k]! = pointBytes V (E.x g) (E.y g) := by
  intro g
  have hpoint : ∀ j, ∃ x y t, (batchPoint V seeds j).Represents x y (batchZ V seeds j) t ∧
      E.OverOne x y (batchZ V seeds j) (scalar (edSeedToScalar V seeds[j]!) • B) := by
    intro j
    obtain ⟨x, y, z, t, hp, hg, -⟩ :=
      (edwardsMeaning hV E B hbase).scalarmultBase (edSeedToScalar_le V seeds[j]!)
    obtain rfl : batchZ V seeds j = z := hp.Z.value
    exact ⟨x, y, t, hp, hg⟩
  have hrep : ∀ j < nk, ∃ x y t,
      (batchPoint V seeds j).Represents x y (batchZ V seeds j) t := by
    intro j _
    obtain ⟨x, y, t, hp, -⟩ := hpoint j
    exact ⟨x, y, t, hp⟩
  have hne : ∀ j < nk, batchZ V seeds j ≠ 0 := by
    intro j _
    obtain ⟨x, y, t, -, hg⟩ := hpoint j
    exact hg.ne
  obtain ⟨x, y, t, hp, hg⟩ := hpoint k
  rw [edPubkeysBatch_eq hV garbage pks hlo hhi hrep hne (hk.trans_le hhi), if_pos hk]
  exact geP3Tobytes_eq hV hp hg

end Points

end FalconVanity
