import FalconVanity.FieldElement
import FalconVanity.Foundation.EdwardsGroup
import FalconVanity.Foundation.Sha2

/-!
# Points

The vendored representations of the points of the curve, and their arithmetic: extended
coordinates `ge_p3`, projective ones `ge_p2`, the completed ones `ge_p1p1` that a sum or a
double comes in, and the entries `ge_precomp` of the table of multiples of the base point.

What the representations stand for is a `GroupMeaning`: relations with the elements of a group,
so that the functions compute in this group. Coordinates of a group of points of an Edwards
curve are one, if the functions on field elements keep their promise.

## Main results

* `geMadd_represents`, `geP2Dbl_represents`: the coordinates that are computed.
* `edwardsMeaning`: the functions compute the group law of the curve.
* `reducedMeaning`: the coordinates of points are products, with the bounds of products.
-/

namespace FalconVanity

open Field25519

/-- `ge_p2`: a point over one denominator. -/
structure GeP2 where
  X : Fe
  Y : Fe
  Z : Fe

/-- `ge_p3`: a point over one denominator, with the product of its coordinates. -/
structure GeP3 where
  X : Fe
  Y : Fe
  Z : Fe
  T : Fe
deriving Inhabited

/-- `ge_p1p1`: a point over two denominators. -/
structure GeP1p1 where
  X : Fe
  Y : Fe
  Z : Fe
  T : Fe

/-- `ge_precomp`: a point with affine coordinates, by their sum, their difference and their scaled
product. -/
structure GePrecomp where
  yplusx : Fe
  yminusx : Fe
  xy2d : Fe

/-- The vendored code on which the functions on points and keys rest: the functions on field
elements and SHA-512, which are modelled as `vendoredField` and `SeedHash.sha512` and are kept
apart here, and the table of multiples of the base point, which is a parameter throughout. -/
structure Vendored extends FieldCode where
  /-- `base` -/
  base : ℕ → ℕ → GePrecomp
  /-- `sha512` -/
  sha512 : List UInt8 → Vector UInt8 64

/-! ### Functions on points -/

section Functions

variable (V : Vendored)

/-- `ge_p3_0`: the neutral point. -/
def geP30 : GeP3 := ⟨fe0, fe1, fe1, fe0⟩

/-- `ge_madd`: the sum of a point and an entry of the table. -/
def geMadd (p : GeP3) (q : GePrecomp) : GeP1p1 :=
  let rX := feAdd p.Y p.X
  let rY := feSub p.Y p.X
  let rZ := V.feMul rX q.yplusx
  let rY := V.feMul rY q.yminusx
  let rT := V.feMul q.xy2d p.T
  let t0 := feAdd p.Z p.Z
  { X := feSub rZ rY, Y := feAdd rZ rY, Z := feAdd t0 rT, T := feSub t0 rT }

/-- `ge_p1p1_to_p2`: one denominator instead of two. -/
def geP1p1ToP2 (p : GeP1p1) : GeP2 :=
  { X := V.feMul p.X p.T, Y := V.feMul p.Y p.Z, Z := V.feMul p.Z p.T }

/-- `ge_p1p1_to_p3`: one denominator instead of two, and the product of the coordinates. -/
def geP1p1ToP3 (p : GeP1p1) : GeP3 :=
  { X := V.feMul p.X p.T, Y := V.feMul p.Y p.Z, Z := V.feMul p.Z p.T, T := V.feMul p.X p.Y }

/-- `ge_p2_dbl`: the double of a point. -/
def geP2Dbl (p : GeP2) : GeP1p1 :=
  let rX := V.feSq p.X
  let rZ := V.feSq p.Y
  let rT := V.feSq2 p.Z
  let rY := feAdd p.X p.Y
  let t0 := V.feSq rY
  let rY := feAdd rZ rX
  let rZ := feSub rZ rX
  { X := feSub t0 rY, Y := rY, Z := rZ, T := feSub rT rZ }

/-- `ge_p3_to_p2`: the product of the coordinates is left out. -/
def geP3ToP2 (p : GeP3) : GeP2 := { X := feCopy p.X, Y := feCopy p.Y, Z := feCopy p.Z }

/-- `ge_p3_dbl`: the double of a point. -/
def geP3Dbl (p : GeP3) : GeP1p1 := geP2Dbl V (geP3ToP2 p)

/-- `ge_p3_tobytes`: the bytes of the second coordinate, with the sign of the first one in the
highest bit. -/
def geP3Tobytes (h : GeP3) : Bytes32 :=
  let recip := V.feInvert h.Z
  let x := V.feMul h.X recip
  let y := V.feMul h.Y recip
  let s := V.feTobytes y
  s.set! 31 (s[31]! ^^^ V.feIsnegative x <<< 7)

end Functions

/-! ### Coordinates -/

/-- The projective coordinates, with the bounds of products. The limbs stand for field elements,
and are small enough to be added once. -/
structure GeP2.Represents (p : GeP2) (x y z : ZMod q) : Prop where
  X : FalconVanity.Represents 101 p.X x
  Y : FalconVanity.Represents 101 p.Y y
  Z : FalconVanity.Represents 101 p.Z z

/-- The extended coordinates, with the bounds of products. -/
structure GeP3.Represents (p : GeP3) (x y z t : ZMod q) : Prop where
  X : FalconVanity.Represents 101 p.X x
  Y : FalconVanity.Represents 101 p.Y y
  Z : FalconVanity.Represents 101 p.Z z
  T : FalconVanity.Represents 101 p.T t

/-- The completed coordinates, with the bounds of factors. The limbs are as large as a product
still takes them. -/
structure GeP1p1.Represents (p : GeP1p1) (x y z t : ZMod q) : Prop where
  X : FalconVanity.Represents 330 p.X x
  Y : FalconVanity.Represents 330 p.Y y
  Z : FalconVanity.Represents 330 p.Z z
  T : FalconVanity.Represents 330 p.T t

/-- The coordinates of an entry of the table, with the bounds of products. -/
structure GePrecomp.Represents (p : GePrecomp) (yplusx yminusx xy2d : ZMod q) : Prop where
  yplusx : FalconVanity.Represents 101 p.yplusx yplusx
  yminusx : FalconVanity.Represents 101 p.yminusx yminusx
  xy2d : FalconVanity.Represents 101 p.xy2d xy2d

section Coordinates

variable {V : Vendored} {x y z t yp ym xy : ZMod q}

/-- The neutral point has the coordinates zero and one. -/
theorem geP30_represents : geP30.Represents 0 1 1 0 :=
  ⟨represents_zero, represents_one, represents_one, represents_zero⟩

/-- The entry for the digit zero stands for the neutral point. -/
theorem neutral_represents : GePrecomp.Represents ⟨fe1, fe1, fe0⟩ 1 1 0 :=
  ⟨represents_one, represents_one, represents_zero⟩

/-- The negative of an entry: the first two coordinates are exchanged. -/
theorem GePrecomp.Represents.neg {p : GePrecomp} (hp : p.Represents yp ym xy) :
    GePrecomp.Represents ⟨p.yminusx, p.yplusx, feNeg p.xy2d⟩ ym yp (-xy) :=
  ⟨hp.yminusx, hp.yplusx, hp.xy2d.neg (by norm_num)⟩

/-- **The coordinates of a sum.** -/
theorem geMadd_represents (hV : V.Implements) {p : GeP3} {r : GePrecomp}
    (hp : p.Represents x y z t) (hr : r.Represents yp ym xy) :
    (geMadd V p r).Represents
      ((y + x) * yp - (y - x) * ym) ((y + x) * yp + (y - x) * ym) (z + z + xy * t)
      (z + z - xy * t) := by
  have hplus := hV.mul ((hp.Y.add hp.X (by norm_num)).mono (by norm_num))
    (hr.yplusx.mono (by norm_num))
  have hminus := hV.mul ((hp.Y.sub hp.X (by norm_num)).mono (by norm_num))
    (hr.yminusx.mono (by norm_num))
  have hT := hV.mul (hr.xy2d.mono (by norm_num)) (hp.T.mono (by norm_num))
  have hZ := hp.Z.add hp.Z (by norm_num)
  constructor
  · exact (hplus.sub hminus (by norm_num)).mono (by norm_num)
  · exact (hplus.add hminus (by norm_num)).mono (by norm_num)
  · exact (hZ.add hT (by norm_num)).mono (by norm_num)
  · exact (hZ.sub hT (by norm_num)).mono (by norm_num)

/-- A point over two denominators is brought over one, without the product of the coordinates. -/
theorem geP1p1ToP2_represents (hV : V.Implements) {p : GeP1p1} (hp : p.Represents x y z t) :
    (geP1p1ToP2 V p).Represents (x * t) (y * z) (z * t) :=
  ⟨hV.mul hp.X hp.T, hV.mul hp.Y hp.Z, hV.mul hp.Z hp.T⟩

/-- A point over two denominators is brought over one, with the product of the coordinates. -/
theorem geP1p1ToP3_represents (hV : V.Implements) {p : GeP1p1} (hp : p.Represents x y z t) :
    (geP1p1ToP3 V p).Represents (x * t) (y * z) (z * t) (x * y) :=
  ⟨hV.mul hp.X hp.T, hV.mul hp.Y hp.Z, hV.mul hp.Z hp.T, hV.mul hp.X hp.Y⟩

/-- **The coordinates of a double.** -/
theorem geP2Dbl_represents (hV : V.Implements) {p : GeP2} (hp : p.Represents x y z) :
    (geP2Dbl V p).Represents ((x + y) ^ 2 - (y ^ 2 + x ^ 2)) (y ^ 2 + x ^ 2) (y ^ 2 - x ^ 2)
      (2 • z ^ 2 - (y ^ 2 - x ^ 2)) := by
  have hX := hV.sq (hp.X.mono (by norm_num))
  have hY := hV.sq (hp.Y.mono (by norm_num))
  have hZ := hV.sq2 (hp.Z.mono (by norm_num))
  have hXY := hV.sq ((hp.X.add hp.Y (by norm_num)).mono (by norm_num))
  have hplus := hY.add hX (by norm_num)
  have hminus := hY.sub hX (by norm_num)
  constructor
  · exact (hXY.sub hplus (by norm_num)).mono (by norm_num)
  · exact hplus.mono (by norm_num)
  · exact hminus.mono (by norm_num)
  · exact (hZ.sub hminus (by norm_num)).mono (by norm_num)

/-- The product of the coordinates is left out. -/
theorem geP3ToP2_represents {p : GeP3} (hp : p.Represents x y z t) :
    (geP3ToP2 p).Represents x y z :=
  ⟨hp.X, hp.Y, hp.Z⟩

end Coordinates

/-! ### Meanings -/

/-- **A group** in which the functions on points compute: which elements the representations
stand for, and that sums, doubles and conversions are those of the group. The entry `j` at
position `pos` of the table is `j + 1` times the multiple `256 ^ pos` of the base point. -/
structure GroupMeaning (V : Vendored) {G : Type*} [AddCommGroup G] (B : G) where
  p2 : GeP2 → G → Prop
  p3 : GeP3 → G → Prop
  p1p1 : GeP1p1 → G → Prop
  precomp : GePrecomp → G → Prop
  zero : p3 geP30 0
  madd : ∀ {p g r h}, p3 p g → precomp r h → p1p1 (geMadd V p r) (g + h)
  toP2 : ∀ {p g}, p1p1 p g → p2 (geP1p1ToP2 V p) g
  toP3 : ∀ {p g}, p1p1 p g → p3 (geP1p1ToP3 V p) g
  p2Dbl : ∀ {p g}, p2 p g → p1p1 (geP2Dbl V p) (g + g)
  p3Dbl : ∀ {p g}, p3 p g → p1p1 (geP3Dbl V p) (g + g)
  base : ∀ pos < 32, ∀ j < 8, precomp (V.base pos j) (((j + 1) * 256 ^ pos) • B)
  neutral : precomp ⟨fe1, fe1, fe0⟩ 0
  neg : ∀ {r h}, precomp r h → precomp ⟨r.yminusx, r.yplusx, feNeg r.xy2d⟩ (-h)

/-- **Bounds alone**: the group has one element, and the entries of the table have the bounds of
products. -/
def reducedMeaning {V : Vendored} (hV : V.Implements)
    (hbase : ∀ pos < 32, ∀ j < 8, ∃ yp ym xy, (V.base pos j).Represents yp ym xy) :
    GroupMeaning V (0 : PUnit.{1}) where
  p2 p _ := ∃ x y z, p.Represents x y z
  p3 p _ := ∃ x y z t, p.Represents x y z t
  p1p1 p _ := ∃ x y z t, p.Represents x y z t
  precomp r _ := ∃ yp ym xy, r.Represents yp ym xy
  zero := ⟨_, _, _, _, geP30_represents⟩
  madd := by
    rintro p - r - ⟨x, y, z, t, hp⟩ ⟨yp, ym, xy, hr⟩
    exact ⟨_, _, _, _, geMadd_represents hV hp hr⟩
  toP2 := by
    rintro p - ⟨x, y, z, t, hp⟩
    exact ⟨_, _, _, geP1p1ToP2_represents hV hp⟩
  toP3 := by
    rintro p - ⟨x, y, z, t, hp⟩
    exact ⟨_, _, _, _, geP1p1ToP3_represents hV hp⟩
  p2Dbl := by
    rintro p - ⟨x, y, z, hp⟩
    exact ⟨_, _, _, _, geP2Dbl_represents hV hp⟩
  p3Dbl := by
    rintro p - ⟨x, y, z, t, hp⟩
    exact ⟨_, _, _, _, geP2Dbl_represents hV (geP3ToP2_represents hp)⟩
  base := hbase
  neutral := ⟨_, _, _, neutral_represents⟩
  neg := by
    rintro r - ⟨yp, ym, xy, hr⟩
    exact ⟨_, _, _, hr.neg⟩

/-- The coordinates of an entry that stands for a point: the sum and the difference of its
affine coordinates, and `2 * d` times their product. -/
def DuifForm {G : Type*} [AddCommGroup G] {d : ZMod q} (E : EdwardsGroup (ZMod q) G d)
    (r : GePrecomp) (g : G) : Prop :=
  r.Represents (E.y g + E.x g) (E.y g - E.x g) (2 • (d * E.x g * E.y g))

/-- **The group of points** of an Edwards curve, if the table has the multiples of a base
point. -/
def edwardsMeaning {V : Vendored} (hV : V.Implements) {G : Type*} [AddCommGroup G] {d : ZMod q}
    (E : EdwardsGroup (ZMod q) G d) (B : G)
    (hbase : ∀ pos < 32, ∀ j < 8, DuifForm E (V.base pos j) (((j + 1) * 256 ^ pos) • B)) :
    GroupMeaning V B where
  p2 p g := ∃ x y z, p.Represents x y z ∧ E.OverOne x y z g
  p3 p g := ∃ x y z t, p.Represents x y z t ∧ E.OverOne x y z g ∧ t * z = x * y
  p1p1 p g := ∃ x y z t, p.Represents x y z t ∧ E.OverTwo x y z t g
  precomp := DuifForm E
  zero := ⟨_, _, _, _, geP30_represents, EdwardsGroup.OverOne.zero, by simp⟩
  madd := by
    rintro p g r h ⟨x, y, z, t, hp, hg, ht⟩ hr
    exact ⟨_, _, _, _, geMadd_represents hV hp hr, hg.add two_ne_zero_of_field ht⟩
  toP2 := by
    rintro p g ⟨x, y, z, t, hp, hg⟩
    exact ⟨_, _, _, geP1p1ToP2_represents hV hp, hg.toOverOne⟩
  toP3 := by
    rintro p g ⟨x, y, z, t, hp, hg⟩
    exact ⟨_, _, _, _, geP1p1ToP3_represents hV hp, hg.toOverOne, by ring⟩
  p2Dbl := by
    rintro p g ⟨x, y, z, hp, hg⟩
    exact ⟨_, _, _, _, geP2Dbl_represents hV hp, hg.double⟩
  p3Dbl := by
    rintro p g ⟨x, y, z, t, hp, hg, -⟩
    exact ⟨_, _, _, _, geP2Dbl_represents hV (geP3ToP2_represents hp), hg.double⟩
  base := hbase
  neutral := by
    rw [DuifForm, E.x_zero, E.y_zero]
    simpa using neutral_represents
  neg := by
    intro r h hr
    rw [DuifForm, E.x_neg, E.y_neg]
    have hneg := hr.neg
    rw [← sub_eq_add_neg, sub_neg_eq_add, mul_neg, neg_mul, smul_neg]
    exact hneg

/-! ### Computed in the field -/

section Exact

variable {G : Type*} [AddCommGroup G] {d : ZMod q} (E : EdwardsGroup (ZMod q) G d)

/-- The entry of the table that stands for a point. -/
def duifOf (g : G) : GePrecomp :=
  ⟨feOf (E.y g + E.x g), feOf (E.y g - E.x g), feOf (2 • (d * E.x g * E.y g))⟩

/-- The entry of a point has the form that the additions expect. -/
theorem duifOf_duifForm (g : G) : DuifForm E (duifOf E g) g :=
  ⟨feOf_represents _, feOf_represents _, feOf_represents _⟩

/-- Functions that compute in the field, with the table of a base point and the SHA-512 of the
standard. -/
def exactVendored (B : G) : Vendored where
  toFieldCode := exactField
  base pos j := duifOf E (((j + 1) * 256 ^ pos) • B)
  sha512 m :=
    let H := Sha2.hash Sha2.sha512Initial m
    Vector.ofFn fun i => (Sha2.beBytes 8 H[i.val / 8].toNat)[i.val % 8]!

/-- The hash is SHA-512. -/
theorem exactVendored_sha512 (B : G) (m : List UInt8) :
    (exactVendored E B).sha512 m = Sha2.sha512 m := by
  refine Vector.ext fun i hi => ?_
  have hdiv : i / 8 < 8 := by omega
  rw [exactVendored, Sha2.sha512, Vector.getElem_ofFn, Vector.getElem_ofFn,
    getElem!_pos (Sha2.hash Sha2.sha512Initial m) (i / 8) hdiv]

/-- **The group of points**, computed in the field. -/
def exactMeaning (B : G) : GroupMeaning (exactVendored E B) B :=
  edwardsMeaning exactField_implements E B fun _ _ _ _ => duifOf_duifForm E _

/-- The denominator of a point is not zero. -/
theorem exactMeaning_ne_zero {E : EdwardsGroup (ZMod q) G d} {B g : G} {p : GeP3}
    (hp : (exactMeaning E B).p3 p g) : feValue p.Z ≠ 0 := by
  obtain ⟨x, y, z, t, hrep, hg, -⟩ := hp
  rw [hrep.Z.value]
  exact hg.ne

end Exact

/-- The parameter of the curve of Ed25519. -/
def edwardsD : ZMod q := -121665 * 121666⁻¹

end FalconVanity
