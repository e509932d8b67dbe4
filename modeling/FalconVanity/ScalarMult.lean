import FalconVanity.GroupElement

/-!
# Multiples of the Base Point

The multiplication of the base point by a clamped scalar, as the classic search computes it: the
nibbles of the scalar become digits between -8 and 8, the odd ones are added up from the table,
four doublings multiply by 16, and the even ones are added. Digits and carries are signed bytes
of the source; the same schedule, with another way to select, is the reference path of the
vendored code.

## Main results

* `recodeLoop_fits`, `recode_bounds`, `sum_recode`: the recoding.
* `GroupMeaning.scalarmultBase`: the point that is computed.
* `edScalarmultBaseVartime_correct`: all of it, for a clamped scalar.
-/

namespace FalconVanity

open Finset

/-! ### Recoding -/

/-- The nibbles of a scalar, the least significant one first. -/
def nibbles (a : Bytes32) : Vector Int8 64 :=
  Vector.ofFn fun j =>
    (if j.val % 2 = 0 then (a[j.val / 2]! >>> 0) &&& 15 else (a[j.val / 2]! >>> 4) &&& 15).toInt8

/-- The body of the loop over the digits, which writes one of them and the carry. -/
def recodeStep (s : Vector Int8 64 × Int8) (i : ℕ) : Vector Int8 64 × Int8 :=
  let e := s.1.set! i (s.1[i]! + s.2)
  let carry := (e[i]! + 8) >>> 4
  (e.set! i (e[i]! - carry <<< 4), carry)

/-- The digits and the carry after the first `n` steps. -/
def recodeLoop (a : Bytes32) (n : ℕ) : Vector Int8 64 × Int8 :=
  (List.range n).foldl recodeStep (nibbles a, 0)

/-- The signed digits of a scalar. -/
def recode (a : Bytes32) : Vector Int8 64 :=
  let (e, carry) := recodeLoop a 63
  e.set! 63 (e[63]! + carry)

/-! ### Points -/

section Points

variable (V : Vendored)

/-- `ed_seed_to_scalar`: the first half of the hash of a seed, clamped. -/
def edSeedToScalar (seed : Bytes32) : Bytes32 :=
  let h := V.sha512 seed.toList
  let a : Bytes32 := Vector.ofFn fun i => h[i.val]!
  let a := a.set! 0 (a[0]! &&& 248)
  let a := a.set! 31 (a[31]! &&& 63)
  a.set! 31 (a[31]! ||| 64)

/-- `ed_select_vartime`: the entry of a digit, with branches. -/
def edSelectVartime (pos : ℕ) (b : Int8) : GePrecomp :=
  if b = 0 then { yplusx := fe1, yminusx := fe1, xy2d := fe0 }
  else
    let babs := if b < 0 then -b.toInt else b.toInt
    let u := V.base pos (babs - 1).toNat
    if 0 < b then
      { yplusx := feCopy u.yplusx, yminusx := feCopy u.yminusx, xy2d := feCopy u.xy2d }
    else { yplusx := feCopy u.yminusx, yminusx := feCopy u.yplusx, xy2d := feNeg u.xy2d }

/-- The loop over every second digit, from the digit `start` on. -/
def addDigits (select : ℕ → Int8 → GePrecomp) (e : Vector Int8 64) (start n : ℕ) (h : GeP3) :
    GeP3 :=
  (List.range' start n 2).foldl
    (fun h i => geP1p1ToP3 V (geMadd V h (select (i / 2) e[i]!))) h

/-- The schedule of a multiplication of the base point: the odd digits, four doublings, and the
even digits. -/
def scalarmultBase (select : ℕ → Int8 → GePrecomp) (a : Bytes32) : GeP3 :=
  let e := recode a
  let h := addDigits V select e 1 32 geP30
  let r := geP3Dbl V h
  let s := geP1p1ToP2 V r
  let r := geP2Dbl V s
  let s := geP1p1ToP2 V r
  let r := geP2Dbl V s
  let s := geP1p1ToP2 V r
  let r := geP2Dbl V s
  let h := geP1p1ToP3 V r
  addDigits V select e 0 32 h

/-- `ed_scalarmult_base_vartime`: the multiplication with the same order of additions and doublings
as the reference. -/
def edScalarmultBaseVartime (a : Bytes32) : GeP3 := scalarmultBase V (edSelectVartime V) a

end Points

/-! ### The digits -/

/-- The number that the bytes of a scalar stand for, the least significant one first. -/
def scalar (a : Bytes32) : ℕ := ∑ i ∈ range 32, a[i]!.toNat * 256 ^ i

/-- A digit before it is recoded. -/
def digit (a : Bytes32) (j : ℕ) : ℤ := (nibbles a)[j]!.toInt

/-- The results of a step that writes the digit `x`, with a carry `c` into it, as long as they
are the exact ones. -/
structure StepFits (x c : Int8) : Prop where
  add : (x + c).toInt = x.toInt + c.toInt
  round : (x + c + 8).toInt = x.toInt + c.toInt + 8
  shift : ((x + c + 8) >>> 4).toInt = (x.toInt + c.toInt + 8) / 16
  back : (((x + c + 8) >>> 4) <<< 4).toInt = (x.toInt + c.toInt + 8) / 16 * 16
  sub : (x + c - ((x + c + 8) >>> 4) <<< 4).toInt =
    x.toInt + c.toInt - (x.toInt + c.toInt + 8) / 16 * 16

/-- A digit is the lower or the upper half of its byte. -/
theorem digit_eq (a : Bytes32) {j : ℕ} (hj : j < 64) :
    digit a j = (if j % 2 = 0 then a[j / 2]!.toNat % 16 else a[j / 2]!.toNat / 16 : ℕ) := by
  have hbyte : ∀ b : UInt8, ((b >>> 0) &&& 15).toInt8.toInt = (b.toNat % 16 : ℕ) ∧
      ((b >>> 4) &&& 15).toInt8.toInt = (b.toNat / 16 : ℕ) :=
    Words.forall_byte (by decide +kernel)
  rw [digit, getElem!_pos _ j hj, nibbles, Vector.getElem_ofFn]
  split
  · exact (hbyte _).1
  · exact (hbyte _).2

/-- A digit before it is recoded lies between 0 and 15. -/
theorem digit_bounds (a : Bytes32) (j : ℕ) : 0 ≤ digit a j ∧ digit a j < 2 * 8 := by
  by_cases hj : j < 64
  · have hbyte := a[j / 2]!.toNat_lt
    rw [digit_eq a hj]
    split
    · omega
    · omega
  · rw [digit, getElem!_neg _ j hj]
    decide

/-- **A step fits**, for a nibble and a carry. -/
theorem stepFits {x c : Int8} (hx : 0 ≤ x.toInt ∧ x.toInt < 16) (hc : 0 ≤ c.toInt ∧ c.toInt ≤ 1) :
    StepFits x c := by
  have hall : ∀ n : ℕ, n < 16 → ∀ m : ℕ, m < 2 →
      (Int8.ofNat n + Int8.ofNat m).toInt = n + m ∧
      (Int8.ofNat n + Int8.ofNat m + 8).toInt = n + m + 8 ∧
      ((Int8.ofNat n + Int8.ofNat m + 8) >>> 4).toInt = (n + m + 8) / 16 ∧
      (((Int8.ofNat n + Int8.ofNat m + 8) >>> 4) <<< 4).toInt = (n + m + 8) / 16 * 16 ∧
      (Int8.ofNat n + Int8.ofNat m - ((Int8.ofNat n + Int8.ofNat m + 8) >>> 4) <<< 4).toInt =
        n + m - (n + m + 8) / 16 * 16 := by
    decide +kernel
  have hnat : ∀ y : Int8, 0 ≤ y.toInt → y = Int8.ofNat y.toInt.toNat ∧ y.toInt.toNat = y.toInt := by
    intro y hy
    have hy' := Int.toNat_of_nonneg hy
    refine ⟨?_, hy'⟩
    rw [← Int8.ofInt_eq_ofNat, hy', Int8.ofInt_toInt]
  obtain ⟨hxn, hxz⟩ := hnat x hx.1
  obtain ⟨hcn, hcz⟩ := hnat c hc.1
  obtain ⟨h1, h2, h3, h4, h5⟩ := hall x.toInt.toNat (by omega) c.toInt.toNat (by omega)
  rw [← hxn, ← hcn, hxz, hcz] at h1 h2 h3 h4 h5
  exact ⟨h1, h2, h3, h4, h5⟩

/-- The digits after some steps: those before the position are signed. -/
structure Recoded (a : Bytes32) (n : ℕ) (s : Vector Int8 64 × Int8) : Prop where
  done : ∀ j < n, s.1[j]!.toInt = SignedDigits.recoded 8 (digit a) 63 j
  left : ∀ j < 64, n ≤ j → s.1[j]!.toInt = digit a j
  carry : s.2.toInt = SignedDigits.carry 8 (digit a) n

/-- Before the first step, the digits are those of the scalar, and there is no carry. -/
theorem Recoded.zero (a : Bytes32) : Recoded a 0 (nibbles a, 0) where
  done j hj := absurd hj (Nat.not_lt_zero j)
  left _ _ _ := rfl
  carry := rfl

/-- **One step** fits, and the digit it writes is signed. -/
theorem Recoded.step {a : Bytes32} {n : ℕ} {s : Vector Int8 64 × Int8} (hs : Recoded a n s)
    (hn : n < 63) : StepFits s.1[n]! s.2 ∧ Recoded a (n + 1) (recodeStep s n) := by
  have hn64 : n < 64 := hn.trans (by norm_num)
  have hx : s.1[n]!.toInt = digit a n := hs.left n hn64 le_rfl
  have hdigit := digit_bounds a n
  have hcarry := SignedDigits.carry_bounds (h := 8) (by norm_num) (digit_bounds a) n
  have hfits : StepFits s.1[n]! s.2 := stepFits (by rw [hx]; exact hdigit) (by rwa [hs.carry])
  have hnext : SignedDigits.carry 8 (digit a) (n + 1) =
      (digit a n + SignedDigits.carry 8 (digit a) n + 8) / 16 := rfl
  refine ⟨hfits, ?_, ?_, ?_⟩
  · intro j hj
    simp only [recodeStep, Words.getElem!_set! _ hn64, if_true]
    rw [Words.getElem!_set! _ (by omega)]
    split
    · next hnj =>
        subst hnj
        rw [hfits.sub, hx, hs.carry, SignedDigits.recoded, if_pos hn, hnext]
        ring
    · next hnj =>
        rw [Words.getElem!_set! _ (by omega), if_neg hnj]
        exact hs.done j (by omega)
  · intro j hj hnj
    simp only [recodeStep]
    rw [Words.getElem!_set! _ hj, if_neg (by omega), Words.getElem!_set! _ hj, if_neg (by omega)]
    exact hs.left j hj (by omega)
  · simp only [recodeStep, Words.getElem!_set! _ hn64, if_true]
    rw [hfits.shift, hx, hs.carry, hnext]

/-- The loop makes one step after the other. -/
theorem recodeLoop_succ (a : Bytes32) (n : ℕ) :
    recodeLoop a (n + 1) = recodeStep (recodeLoop a n) n := by
  rw [recodeLoop, List.range_succ, List.foldl_append]
  rfl

/-- **The loop**, after some steps. -/
theorem recodeLoop_recoded (a : Bytes32) {n : ℕ} (hn : n ≤ 63) : Recoded a n (recodeLoop a n) := by
  induction n with
  | zero => exact Recoded.zero a
  | succ n ih =>
      rw [recodeLoop_succ]
      exact ((ih (Nat.le_of_succ_le hn)).step hn).2

/-- **Every step fits.** -/
theorem recodeLoop_fits (a : Bytes32) {n : ℕ} (hn : n < 63) :
    StepFits (recodeLoop a n).1[n]! (recodeLoop a n).2 :=
  ((recodeLoop_recoded a hn.le).step hn).1

/-- The last digit and the carry into it fit. -/
theorem recode_last_fits (a : Bytes32) :
    ((recodeLoop a 63).1[63]! + (recodeLoop a 63).2).toInt =
      (recodeLoop a 63).1[63]!.toInt + (recodeLoop a 63).2.toInt := by
  have hloop := recodeLoop_recoded a le_rfl
  apply (stepFits _ _).add
  · rw [hloop.left 63 (by norm_num) le_rfl]
    exact digit_bounds a 63
  · rw [hloop.carry]
    exact SignedDigits.carry_bounds (by norm_num) (digit_bounds a) 63

/-- **The signed digits** of a scalar. -/
theorem recode_eq (a : Bytes32) {j : ℕ} (hj : j < 64) :
    (recode a)[j]!.toInt = SignedDigits.recoded 8 (digit a) 63 j := by
  have hloop := recodeLoop_recoded a le_rfl
  rw [recode, Words.getElem!_set! _ hj]
  split
  · next h63 =>
      subst h63
      rw [recode_last_fits, hloop.left 63 hj le_rfl, hloop.carry, SignedDigits.recoded,
        if_neg (lt_irrefl 63)]
  · exact hloop.done j (by omega)

/-- **The digits of a clamped scalar** are between -8 and 8. -/
theorem recode_bounds {a : Bytes32} (ha : a[31]! ≤ 127) {j : ℕ} (hj : j < 64) :
    -8 ≤ (recode a)[j]!.toInt ∧ (recode a)[j]!.toInt ≤ 8 := by
  rw [recode_eq a hj]
  by_cases h63 : j < 63
  · obtain ⟨hlo, hhi⟩ := SignedDigits.recoded_bounds (d := digit a) (h := 8) (by norm_num) h63
    exact ⟨hlo, hhi.le⟩
  · obtain rfl : j = 63 := by omega
    obtain ⟨hlo, hhi⟩ := SignedDigits.recoded_last_bounds (h := 8) (by norm_num) (digit_bounds a) 63
    have hbyte : a[31]!.toNat ≤ 127 := ha
    have htop : digit a 63 ≤ 7 := by
      rw [digit_eq a hj, if_neg (by norm_num)]
      change ((a[31]!.toNat / 16 : ℕ) : ℤ) ≤ 7
      omega
    constructor
    · linarith
    · linarith

/-- **The value of the digits** is the scalar. -/
theorem sum_recode (a : Bytes32) :
    ∑ i ∈ range 64, (recode a)[i]!.toInt * 16 ^ i = scalar a := by
  have hrecoded : ∑ i ∈ range 64, (recode a)[i]!.toInt * 16 ^ i =
      ∑ i ∈ range (63 + 1), SignedDigits.recoded 8 (digit a) 63 i * (2 * 8) ^ i :=
    sum_congr rfl fun i hi => by
      rw [recode_eq a (mem_range.mp hi)]
      rfl
  have hpairs := SignedDigits.sum_even_add_odd 16 (digit a) 32
  have hbyte : ∀ k < 32, 16 * digit a (2 * k + 1) + digit a (2 * k) = a[k]!.toNat := by
    intro k hk
    have hodd : 2 * k + 1 < 64 := by omega
    have hhalf : (2 * k + 1) / 2 = k := by omega
    rw [digit_eq a hodd, digit_eq a (Nat.lt_of_succ_lt hodd), if_neg (by omega),
      if_pos (Nat.mul_mod_right 2 k), hhalf, Nat.mul_div_right k zero_lt_two]
    omega
  calc ∑ i ∈ range 64, (recode a)[i]!.toInt * 16 ^ i
      = ∑ i ∈ range (2 * 32), digit a i * 16 ^ i := hrecoded.trans (SignedDigits.sum_recoded ..)
    _ = ∑ k ∈ range 32, (16 * digit a (2 * k + 1) + digit a (2 * k)) * 256 ^ k := by
        rw [hpairs, mul_sum, ← sum_add_distrib]
        exact sum_congr rfl fun k _ => by ring
    _ = ∑ k ∈ range 32, (a[k]!.toNat : ℤ) * 256 ^ k :=
        sum_congr rfl fun k hk => by rw [hbyte k (mem_range.mp hk)]
    _ = scalar a := by
        rw [scalar]
        push_cast
        rfl

/-! ### The point -/

/-- The entry of the table for a digit: none for zero, and a negative one for a negative
digit. -/
def tableEntry (V : Vendored) (pos : ℕ) (b : ℤ) : GePrecomp :=
  if b = 0 then ⟨fe1, fe1, fe0⟩
  else if 0 < b then V.base pos (b - 1).toNat
  else
    let u := V.base pos (-b - 1).toNat
    ⟨u.yminusx, u.yplusx, feNeg u.xy2d⟩

/-- The selection reads the entry of the digit, and negates it if the digit is negative. -/
theorem edSelectVartime_eq (V : Vendored) (pos : ℕ) (b : Int8) :
    edSelectVartime V pos b = tableEntry V pos b.toInt := by
  have hzero : b = 0 ↔ b.toInt = 0 := Int8.toInt_inj.symm
  simp only [edSelectVartime, tableEntry, hzero, Int8.lt_iff_toInt_lt, Int8.toInt_zero]
  split
  · rfl
  · split
    · rw [if_neg (by omega)]
      rfl
    · rw [if_pos (by omega)]
      rfl

/-- The loop over the digits adds one entry after the other. -/
theorem addDigits_succ (V : Vendored) (select : ℕ → Int8 → GePrecomp) (e : Vector Int8 64)
    (start n : ℕ) (h : GeP3) :
    addDigits V select e start (n + 1) h =
      geP1p1ToP3 V (geMadd V (addDigits V select e start n h)
        (select ((start + 2 * n) / 2) e[start + 2 * n]!)) := by
  rw [addDigits, List.range'_concat, List.foldl_append]
  rfl

section Meaning

variable {V : Vendored} {G : Type*} [AddCommGroup G] {B : G} (M : GroupMeaning V B)

/-- The entry of a digit between -8 and 8 stands for the multiple by the digit. -/
theorem GroupMeaning.tableEntry {pos : ℕ} (hpos : pos < 32) {b : ℤ} (hb : -8 ≤ b ∧ b ≤ 8) :
    M.precomp (tableEntry V pos b) ((b * 256 ^ pos) • B) := by
  rw [FalconVanity.tableEntry]
  split
  · next hzero =>
      rw [hzero, zero_mul, zero_smul]
      exact M.neutral
  · split
    · next hzero hlt =>
        have hmul : (b * 256 ^ pos) • B = (((b - 1).toNat + 1) * 256 ^ pos) • B := by
          rw [← natCast_zsmul]
          congr 1
          push_cast
          rw [Int.toNat_of_nonneg (by omega)]
          ring
        rw [hmul]
        exact M.base pos hpos (b - 1).toNat (by omega)
    · next hzero hlt =>
        have hmul : (b * 256 ^ pos) • B = -((((-b - 1).toNat + 1) * 256 ^ pos) • B) := by
          rw [← natCast_zsmul, ← neg_zsmul]
          congr 1
          push_cast
          rw [Int.toNat_of_nonneg (by omega)]
          ring
        rw [hmul]
        exact M.neg (M.base pos hpos (-b - 1).toNat (by omega))

/-- **Every second digit** adds its multiple. -/
theorem GroupMeaning.addDigits {e : Vector Int8 64}
    (he : ∀ j < 64, -8 ≤ e[j]!.toInt ∧ e[j]!.toInt ≤ 8) {start n : ℕ} (hstart : start < 2)
    (hn : n ≤ 32) {h : GeP3} {g : G} (hg : M.p3 h g) :
    M.p3 (addDigits V (edSelectVartime V) e start n h)
      (g + (∑ k ∈ range n, e[start + 2 * k]!.toInt * 256 ^ k) • B) := by
  induction n with
  | zero =>
      rw [sum_range_zero, zero_smul, add_zero]
      exact hg
  | succ n ih =>
      have hpos : (start + 2 * n) / 2 = n := by omega
      have hentry := M.tableEntry (Nat.lt_of_succ_le hn) (he (start + 2 * n) (by omega))
      have hsum := M.toP3 (M.madd (ih (by omega)) hentry)
      rw [add_assoc, ← add_smul] at hsum
      rw [addDigits_succ, hpos, edSelectVartime_eq, sum_range_succ]
      exact hsum

/-- **The schedule** multiplies by the number of the digits. -/
theorem GroupMeaning.scalarmultBase {a : Bytes32} (ha : a[31]! ≤ 127) :
    M.p3 (edScalarmultBaseVartime V a) (scalar a • B) := by
  have hodd := M.addDigits (fun j hj => recode_bounds ha hj) one_lt_two le_rfl M.zero
  have hdbl := M.toP3 (M.p2Dbl (M.toP2 (M.p2Dbl (M.toP2 (M.p2Dbl (M.toP2 (M.p3Dbl hodd)))))))
  have heven := M.addDigits (fun j hj => recode_bounds ha hj) zero_lt_two le_rfl hdbl
  have hvalue : 16 * ∑ k ∈ range 32, (recode a)[1 + 2 * k]!.toInt * 256 ^ k +
      ∑ k ∈ range 32, (recode a)[0 + 2 * k]!.toInt * 256 ^ k = scalar a := by
    have hpairs := SignedDigits.sum_even_add_odd 16 (fun i => (recode a)[i]!.toInt) 32
    norm_num only [sum_recode] at hpairs
    simpa only [add_comm 1, zero_add] using hpairs.symm
  have hmul : ∀ x : ℤ, x • B + x • B = (2 * x) • B := fun x => by rw [← add_smul, two_mul]
  have hsixteen : ∀ x : ℤ, 16 * x = 2 * (2 * (2 * (2 * x))) := fun x => by ring
  have hexact : (scalar a • B : G) =
      (2 * (2 * (2 * (2 * ∑ k ∈ range 32, (recode a)[1 + 2 * k]!.toInt * 256 ^ k)))) • B +
        (∑ k ∈ range 32, (recode a)[0 + 2 * k]!.toInt * 256 ^ k) • B := by
    rw [← add_smul, ← natCast_zsmul, ← hvalue, hsixteen]
  rw [zero_add, hmul, hmul, hmul, hmul] at heven
  rw [hexact]
  exact heven

end Meaning

/-! ### Multiples of the base point -/

/-- **A clamped scalar** has no highest bit. -/
theorem edSeedToScalar_le (V : Vendored) (seed : Bytes32) : (edSeedToScalar V seed)[31]! ≤ 127 := by
  have hclamp : ∀ b : UInt8, (b &&& 63) ||| 64 ≤ 127 := Words.forall_byte (by decide +kernel)
  have hlt : 31 < 32 := by norm_num
  simp only [edSeedToScalar, Words.getElem!_set! _ hlt, if_true]
  exact hclamp _

/-- **Signed digits in radix 16** multiply the base point. No step of the recoding overflows,
the digits are between -8 and 8, so that the table has an entry for each, and their value is
the scalar. In any group in which the functions on points compute, the result stands for the
multiple of the base point. -/
theorem edScalarmultBaseVartime_correct {V : Vendored} {G : Type*} [AddCommGroup G] {B : G}
    (M : GroupMeaning V B) {a : Bytes32} (ha : a[31]! ≤ 127) :
    (∀ i < 63, StepFits (recodeLoop a i).1[i]! (recodeLoop a i).2) ∧
      ((recodeLoop a 63).1[63]! + (recodeLoop a 63).2).toInt =
        (recodeLoop a 63).1[63]!.toInt + (recodeLoop a 63).2.toInt ∧
      (∀ i < 64, -8 ≤ (recode a)[i]!.toInt ∧ (recode a)[i]!.toInt ≤ 8 ∧
        |(recode a)[i]!.toInt| - 1 ≤ 7) ∧
      ∑ i ∈ range 64, (recode a)[i]!.toInt * 16 ^ i = scalar a ∧
      M.p3 (edScalarmultBaseVartime V a) (scalar a • B) ∧
      ∀ seed, (edSeedToScalar V seed)[31]! ≤ 127 := by
  refine ⟨fun i hi => recodeLoop_fits a hi, recode_last_fits a, fun i hi => ?_, sum_recode a,
    M.scalarmultBase ha, edSeedToScalar_le V⟩
  obtain ⟨hlo, hhi⟩ := recode_bounds ha hi
  have habs := abs_le.mpr ⟨hlo, hhi⟩
  exact ⟨hlo, hhi, by linarith⟩

/-- The scalar with all nibbles at the upper bound of a digit, in the smallest group. -/
theorem edScalarmultBaseVartime_correct_sevens :
    let B : Additive ℤˣ := Additive.ofMul (-1)
    let E := EdwardsGroup.signs (ZMod Field25519.q) edwardsD
    let a : Bytes32 := Vector.replicate 32 0x77
    a[31]! ≤ 127 ∧
      (exactMeaning E B).p3 (edScalarmultBaseVartime (exactVendored E B) a) (scalar a • B) := by
  refine ⟨by decide, ?_⟩
  obtain ⟨-, -, -, -, hpoint, -⟩ := edScalarmultBaseVartime_correct
    (exactMeaning (EdwardsGroup.signs (ZMod Field25519.q) edwardsD) (Additive.ofMul (-1)))
    (a := Vector.replicate 32 0x77) (by decide)
  exact hpoint

end FalconVanity
