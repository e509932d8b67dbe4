import Mathlib.Tactic

/-!
# Fixed-Width Words as Numbers

The value lemmas for the bit operations that packing loops perform on machine words: a
disjoint OR is an addition, a mask is a remainder, a right shift is a division. Each is
stated on `toNat`, with the bound that makes the machine operation exact, so that a proof
about a loop on words continues in `ℕ` and ends with `omega`. A store into an array of words
replaces one entry.

## Main results

* `BitVec.toNat_shiftLeft_or`: one step of a big-endian accumulation.
* `UInt64.toNat_ofBytes`, `UInt64.toNat_ofBytesBE`, `UInt64.ext_bytes`, `byte_xor_shifted`: words
  and their bytes.
* `UInt64.toNat_and_low`, `UInt64.and_high_eq_iff`: the two ends of a masked word, as a
  remainder and as a quotient.
-/

namespace Words

/-! ### Arrays -/

/-- A store replaces one entry. -/
theorem getElem!_set! {α : Type*} [Inhabited α] {n : ℕ} (e : Vector α n) {i j : ℕ} (hj : j < n)
    (x : α) : (e.set! i x)[j]! = if i = j then x else e[j]! := by
  rw [getElem!_pos _ j hj, getElem!_pos e j hj, Vector.set!_eq_setIfInBounds,
    Vector.getElem_setIfInBounds hj]

/-- A list with a value for each entry is the list of the array. -/
theorem toList_ofFn_getD {α : Type*} {n : ℕ} {xs : List α} (hlen : xs.length = n) (x : α) :
    (Vector.ofFn fun i : Fin n => xs.getD i x).toList = xs := by
  refine List.ext_getElem (by simp [hlen]) fun i h₁ h₂ => ?_
  simp [h₂]

/-- A vector that is read from a list of its length has the elements of the list. -/
theorem ofFn_getD_eq_iff {α : Type*} {n : ℕ} {xs : List α} (hlen : xs.length = n) (x : α)
    {y : Vector α n} : (Vector.ofFn fun i : Fin n => xs.getD i x) = y ↔ y.toList = xs := by
  rw [← Vector.toList_inj, toList_ofFn_getD hlen, eq_comm]

/-- An element of a vector is in its list. -/
theorem getElem!_mem_toList {α : Type*} [Inhabited α] {n : ℕ} (e : Vector α n) {i : ℕ}
    (hi : i < n) : e[i]! ∈ e.toList := by
  rw [getElem!_pos e i hi, Vector.mem_toList_iff]
  exact Vector.getElem_mem hi

/-- **A loop that checks and stores**: each entry is stored unless it is bad. -/
theorem foldlM_check_set! {α : Type*} [Inhabited α] {n : ℕ} (bad : ℕ → Prop) [DecidablePred bad]
    (val : ℕ → α) (d : Vector α n) {k : ℕ} (hk : k ≤ n) :
    (List.range k).foldlM (fun d u => if bad u then none else some (d.set! u (val u))) d =
      if ∀ u < k, ¬ bad u then
        some (Vector.ofFn fun u : Fin n => if u.val < k then val u else d[u])
      else none := by
  induction k with
  | zero =>
      rw [if_pos fun u hu => absurd hu (Nat.not_lt_zero u)]
      exact congrArg some (Vector.ext fun i hi => by simp)
  | succ k ih =>
      rw [List.range_succ, List.foldlM_append, ih (Nat.le_of_succ_le hk)]
      by_cases hbefore : ∀ u < k, ¬ bad u
      · rw [if_pos hbefore, Option.bind_eq_bind, Option.bind_some, List.foldlM_cons]
        by_cases hbad : bad k
        · rw [if_pos hbad, if_neg fun h => h k (Nat.lt_succ_self k) hbad]
          rfl
        · rw [if_neg hbad,
            if_pos fun u hu => (Nat.lt_succ_iff_lt_or_eq.mp hu).elim (hbefore u) (· ▸ hbad)]
          refine congrArg some (Vector.ext fun i hi => ?_)
          rw [Vector.set!_eq_setIfInBounds, Vector.getElem_setIfInBounds hi]
          by_cases hik : k = i
          · subst hik
            rw [if_pos rfl, Vector.getElem_ofFn, if_pos (Nat.lt_succ_self _)]
          · have hlt : i < k ↔ i < k + 1 := by omega
            rw [if_neg hik, Vector.getElem_ofFn, Vector.getElem_ofFn]
            exact if_congr hlt rfl rfl
      · rw [if_neg hbefore, if_neg fun h => hbefore fun u hu => h u (by omega)]
        rfl

/-- Bytes are numbers below 256. -/
theorem lt_of_mem_bytes (bytes : List UInt8) : ∀ x ∈ bytes.map UInt8.toNat, x < 256 := by
  intro x hx
  obtain ⟨b, -, rfl⟩ := List.mem_map.mp hx
  exact b.toNat_lt

/-! ### Bit operations -/

/-- Bits above a boundary and bits below it: OR is addition. -/
theorem Nat.or_eq_add_of_dvd {u w k : ℕ} (hu : 2 ^ k ∣ u) (hw : w < 2 ^ k) : u ||| w = u + w := by
  obtain ⟨v, rfl⟩ := hu
  rw [mul_comm, ← Nat.shiftLeft_eq, Nat.shiftLeft_add_eq_or_of_lt hw]

/-- A mask of one bit. -/
theorem Nat.and_two_pow (n k : ℕ) : n &&& 2 ^ k = if n.testBit k then 2 ^ k else 0 := by
  refine Nat.eq_of_testBit_eq fun i => ?_
  rw [Nat.testBit_and, Nat.testBit_two_pow]
  by_cases hki : k = i
  · subst hki
    cases hbit : n.testBit k <;> simp
  · cases n.testBit k <;> simp [hki]

/-- A word shifted above the bits of another one adds `2 ^ k` times its value. -/
theorem UInt32.toNat_or_shiftLeft {a b : UInt32} {k w : ℕ} (ha : a.toNat < 2 ^ k)
    (hb : b.toNat < 2 ^ w) (hk : k < 32) (hkw : k + w ≤ 32) :
    (a ||| b <<< k.toUInt32).toNat = a.toNat + b.toNat * 2 ^ k := by
  have hshift : k.toUInt32.toNat % 32 = k := by simp; omega
  have hlt : b.toNat * 2 ^ k < 2 ^ 32 := by
    calc b.toNat * 2 ^ k < 2 ^ w * 2 ^ k := Nat.mul_lt_mul_of_pos_right hb (by positivity)
      _ = 2 ^ (k + w) := by rw [pow_add, mul_comm]
      _ ≤ 2 ^ 32 := Nat.pow_le_pow_right (by norm_num) hkw
  rw [UInt32.toNat_or, UInt32.toNat_shiftLeft, hshift, Nat.shiftLeft_eq,
    Nat.mod_eq_of_lt hlt, Nat.or_comm, ← Nat.shiftLeft_eq, ← Nat.shiftLeft_add_eq_or_of_lt ha,
    Nat.shiftLeft_eq, Nat.add_comm]

/-- A word shifted to make room for a new item, with the item below it. What leaves the word
at the top is lost. -/
theorem UInt32.toNat_shiftLeft_or (a : UInt32) {b : UInt32} {k : ℕ} (hk : k < 32)
    (hb : b.toNat < 2 ^ k) :
    (a <<< k.toUInt32 ||| b).toNat = (a.toNat * 2 ^ k + b.toNat) % 2 ^ 32 := by
  have hshift : k.toUInt32.toNat % 32 = k := by simp; omega
  have hpow : (2 : ℕ) ^ 32 = 2 ^ (32 - k) * 2 ^ k := by rw [← pow_add]; congr 1; omega
  have hmod : a.toNat * 2 ^ k % 2 ^ 32 = a.toNat % 2 ^ (32 - k) * 2 ^ k := by
    rw [hpow, Nat.mul_mod_mul_right]
  have hlt : a.toNat % 2 ^ (32 - k) * 2 ^ k + b.toNat < 2 ^ 32 := by
    have hle : (a.toNat % 2 ^ (32 - k) + 1) * 2 ^ k ≤ 2 ^ (32 - k) * 2 ^ k :=
      Nat.mul_le_mul_right _ (Nat.mod_lt _ (Nat.two_pow_pos _))
    rw [Nat.succ_mul, ← hpow] at hle
    omega
  rw [UInt32.toNat_or, UInt32.toNat_shiftLeft, hshift, Nat.shiftLeft_eq, hmod,
    Nat.or_eq_add_of_dvd (Dvd.intro_left _ rfl) hb, ← Nat.mod_eq_of_lt hlt, ← hmod,
    Nat.mod_add_mod]

/-- Masking the low `k` bits takes the remainder modulo `2 ^ k`. -/
theorem UInt32.toNat_and_mask (a m : UInt32) {k : ℕ} (hm : m.toNat = 2 ^ k - 1) :
    (a &&& m).toNat = a.toNat % 2 ^ k := by
  rw [UInt32.toNat_and, hm, Nat.and_two_pow_sub_one_eq_mod]

/-- One bit. -/
theorem UInt32.toNat_one_shiftLeft {k : ℕ} (hk : k < 32) :
    ((1 : UInt32) <<< k.toUInt32).toNat = 2 ^ k := by
  have hshift : k.toUInt32.toNat % 32 = k := by simp; omega
  have hlt : 2 ^ k < 2 ^ 32 := Nat.pow_lt_pow_right (by norm_num) hk
  rw [UInt32.toNat_shiftLeft, hshift, UInt32.toNat_one, Nat.shiftLeft_eq, Nat.one_mul,
    Nat.mod_eq_of_lt hlt]

/-- The mask of the low `k` bits. -/
theorem UInt32.toNat_lowMask {k : ℕ} (hk : k < 32) :
    ((1 : UInt32) <<< k.toUInt32 - 1).toNat = 2 ^ k - 1 := by
  have hpow := UInt32.toNat_one_shiftLeft hk
  have hle : (1 : UInt32) ≤ (1 : UInt32) <<< k.toUInt32 := by
    rw [UInt32.le_iff_toNat_le, hpow]
    exact Nat.one_le_two_pow
  rw [UInt32.toNat_sub_of_le _ _ hle, hpow, UInt32.toNat_one]

/-- A right shift divides. -/
theorem UInt32.toNat_shiftRight_of_lt (a s : UInt32) {k : ℕ} (hs : s.toNat = k)
    (hk : k < 32) : (a >>> s).toNat = a.toNat / 2 ^ k := by
  rw [UInt32.toNat_shiftRight, hs, Nat.mod_eq_of_lt hk, Nat.shiftRight_eq_div_pow]

/-- A difference that may wrap, to which `q` is added when its top bit is set: with operands
below `2 ^ 31`, the top bit is the borrow. -/
theorem UInt32.toNat_sub_addBack {x y q : UInt32} (hx : x.toNat < 2 ^ 31)
    (hy : y.toNat < 2 ^ 31) (hq : y.toNat ≤ x.toNat + q.toNat)
    (hfit : x.toNat + q.toNat < 2 ^ 32) :
    ((x - y) + (q &&& ((0 : UInt32) - ((x - y) >>> 31)))).toNat =
      if x.toNat < y.toNat then x.toNat + q.toNat - y.toNat else x.toNat - y.toNat := by
  have hsub : (x - y).toNat = (2 ^ 32 - y.toNat + x.toNat) % 2 ^ 32 := UInt32.toNat_sub ..
  by_cases hlt : x.toNat < y.toNat
  · have hd : (x - y).toNat = 2 ^ 32 - (y.toNat - x.toNat) := by omega
    have htop : (x - y) >>> 31 = 1 := by
      apply UInt32.toNat_inj.mp
      rw [UInt32.toNat_shiftRight_of_lt _ 31 (k := 31) rfl (by norm_num), hd]
      change _ = 1
      omega
    have hmask : (0 : UInt32) - 1 = -1 := rfl
    rw [htop, hmask, UInt32.and_neg_one, UInt32.toNat_add, hd,
      if_pos hlt]
    omega
  · have hd : (x - y).toNat = x.toNat - y.toNat := by omega
    have htop : (x - y) >>> 31 = 0 := by
      apply UInt32.toNat_inj.mp
      rw [UInt32.toNat_shiftRight_of_lt _ 31 (k := 31) rfl (by norm_num), hd]
      change _ = 0
      omega
    have hmask : (0 : UInt32) - 0 = 0 := rfl
    rw [htop, hmask, UInt32.and_zero, UInt32.add_zero, hd, if_neg hlt]

/-- One conditional subtraction: a value below `2 * q`, less `q`, to which `q` is added back when
the top bit is set. -/
theorem UInt32.toNat_reduceOnce {x q : UInt32} (hq : q.toNat < 2 ^ 31)
    (hx : x.toNat < 2 * q.toNat) :
    ((x - q) + (q &&& ((0 : UInt32) - ((x - q) >>> 31)))).toNat =
      if x.toNat < q.toNat then x.toNat else x.toNat - q.toNat := by
  have hxlt := x.toNat_lt
  have hsub : (x - q).toNat = (2 ^ 32 - q.toNat + x.toNat) % 2 ^ 32 := UInt32.toNat_sub ..
  have hshift : ((x - q) >>> 31).toNat = (x - q).toNat / 2 ^ 31 :=
    UInt32.toNat_shiftRight_of_lt _ 31 (k := 31) rfl (by norm_num)
  by_cases hlt : x.toNat < q.toNat
  · have hd : (x - q).toNat = 2 ^ 32 - (q.toNat - x.toNat) := by omega
    have htop : (x - q) >>> 31 = 1 := UInt32.toNat_inj.mp (by rw [hshift, hd]; change _ = 1; omega)
    have hmask : (0 : UInt32) - 1 = -1 := rfl
    rw [htop, hmask, UInt32.and_neg_one, UInt32.toNat_add, hd, if_pos hlt]
    omega
  · have hd : (x - q).toNat = x.toNat - q.toNat := by omega
    have htop : (x - q) >>> 31 = 0 := UInt32.toNat_inj.mp (by rw [hshift, hd]; change _ = 0; omega)
    have hmask : (0 : UInt32) - 0 = 0 := rfl
    rw [htop, hmask, UInt32.and_zero, UInt32.add_zero, hd, if_neg hlt]

/-- A word, read as a signed number. -/
theorem UInt32.toInt_toInt32 (x : UInt32) :
    x.toInt32.toInt = if x.toNat < 2 ^ 31 then (x.toNat : ℤ) else (x.toNat : ℤ) - 2 ^ 32 := by
  have hcond : 2 * x.toNat < 2 ^ 32 ↔ x.toNat < 2 ^ 31 := by omega
  calc x.toInt32.toInt = x.toBitVec.toInt := rfl
    _ = if 2 * x.toNat < 2 ^ 32 then (x.toNat : ℤ) else (x.toNat : ℤ) - 2 ^ 32 := by
      rw [BitVec.toInt_eq_toNat_cond, UInt32.toNat_toBitVec, Nat.cast_pow, Nat.cast_ofNat]
    _ = _ := by simp only [hcond]

/-- A signed word shifted to the right is divided and rounded down. -/
theorem Int64.toInt_shiftRight (x : Int64) {c : Int64} {n : ℕ}
    (hc : (c.toBitVec.smod 64).toNat = n) : (x >>> c).toInt = x.toInt / 2 ^ n := by
  have h : (x >>> c).toInt = (BitVec.sshiftRight' x.toBitVec (c.toBitVec.smod 64)).toInt := rfl
  rw [h, BitVec.toInt_sshiftRight', hc, Int.shiftRight_eq_div_pow, Nat.cast_pow, Nat.cast_ofNat]
  rfl

/-- A signed word shifted to the left is multiplied. -/
theorem Int64.toInt_shiftLeft (x : Int64) {c : Int64} {n : ℕ}
    (hc : (c.toBitVec.smod 64).toNat = n) :
    (x <<< c).toInt = (x.toInt * 2 ^ n).bmod (2 ^ 64) := by
  have h : (x <<< c).toInt = (x.toBitVec <<< (c.toBitVec.smod 64)).toInt := rfl
  have hx : x.toInt = (x.toBitVec.toNat : ℤ).bmod (2 ^ 64) := BitVec.toInt_eq_toNat_bmod _
  rw [h, BitVec.shiftLeft_eq', hc, BitVec.toInt_shiftLeft, hx, Int.bmod_mul_bmod,
    Nat.shiftLeft_eq, Nat.cast_mul, Nat.cast_pow, Nat.cast_ofNat]

/-- An arithmetic shift to the right divides and rounds down. -/
theorem Int32.toInt_shiftRight (x : Int32) {c : Int32} {n : ℕ}
    (hc : (c.toBitVec.smod 32).toNat = n) : (x >>> c).toInt = x.toInt / 2 ^ n := by
  have h : (x >>> c).toInt = (BitVec.sshiftRight' x.toBitVec (c.toBitVec.smod 32)).toInt := rfl
  rw [h, BitVec.toInt_sshiftRight', hc, Int.shiftRight_eq_div_pow, Nat.cast_pow, Nat.cast_ofNat]
  rfl

/-- A shift to the left multiplies, as long as there is no overflow. -/
theorem Int32.toInt_shiftLeft (x : Int32) {c : Int32} {n : ℕ}
    (hc : (c.toBitVec.smod 32).toNat = n) :
    (x <<< c).toInt = (x.toInt * 2 ^ n).bmod (2 ^ 32) := by
  have h : (x <<< c).toInt = (x.toBitVec <<< (c.toBitVec.smod 32)).toInt := rfl
  have hx : x.toInt = (x.toBitVec.toNat : ℤ).bmod (2 ^ 32) := BitVec.toInt_eq_toNat_bmod _
  rw [h, BitVec.shiftLeft_eq', hc, BitVec.toInt_shiftLeft, hx, Int.bmod_mul_bmod,
    Nat.shiftLeft_eq, Nat.cast_mul, Nat.cast_pow, Nat.cast_ofNat]

/-- A word shifted up to make room for a value of `k` bits. -/
theorem BitVec.toNat_shiftLeft_or {w k : ℕ} {v b : BitVec w} (hv : v.toNat * 2 ^ k < 2 ^ w)
    (hb : b.toNat < 2 ^ k) : (v <<< k ||| b).toNat = v.toNat * 2 ^ k + b.toNat := by
  rw [BitVec.toNat_or, BitVec.toNat_shiftLeft, Nat.shiftLeft_eq, Nat.mod_eq_of_lt hv,
    ← Nat.shiftLeft_eq, ← Nat.shiftLeft_add_eq_or_of_lt hb, Nat.shiftLeft_eq]

/-- A shift to the left that loses no bit multiplies. -/
theorem UInt64.toNat_shiftLeft_of_lt {v : UInt64} {k : ℕ} (hk : k < 64)
    (hv : v.toNat * 2 ^ k < 2 ^ 64) : (v <<< k.toUInt64).toNat = v.toNat * 2 ^ k := by
  have hshift : k.toUInt64.toNat % 64 = k := by simp; omega
  rw [UInt64.toNat_shiftLeft, hshift, Nat.shiftLeft_eq, Nat.mod_eq_of_lt hv]

/-- A 64-bit word shifted up to make room for a value of `k` bits. -/
theorem UInt64.toNat_shiftLeft_or {v b : UInt64} {k : ℕ} (hk : k < 64)
    (hv : v.toNat * 2 ^ k < 2 ^ 64) (hb : b.toNat < 2 ^ k) :
    (v <<< k.toUInt64 ||| b).toNat = v.toNat * 2 ^ k + b.toNat := by
  rw [UInt64.toNat_or, UInt64.toNat_shiftLeft_of_lt hk hv,
    ← Nat.shiftLeft_eq, ← Nat.shiftLeft_add_eq_or_of_lt hb, Nat.shiftLeft_eq]

/-- A mask of the low `k` bits takes the remainder. -/
theorem UInt64.toNat_and_low {a : UInt64} {k : ℕ} (hk : k < 64) :
    (a &&& (1 <<< k.toUInt64 - 1)).toNat = a.toNat % 2 ^ k := by
  have hpow : (1 : UInt64).toNat * 2 ^ k < 2 ^ 64 := by
    simpa using Nat.pow_lt_pow_right (by norm_num) hk
  have hone : (1 <<< k.toUInt64 : UInt64).toNat = 2 ^ k := by
    rw [UInt64.toNat_shiftLeft_of_lt hk hpow]
    simp
  have hle : (1 : UInt64) ≤ 1 <<< k.toUInt64 := by
    rw [UInt64.le_iff_toNat_le, hone]
    exact Nat.one_le_two_pow
  rw [UInt64.toNat_and, UInt64.toNat_sub_of_le _ _ hle, hone]
  exact Nat.and_two_pow_sub_one_eq_mod _ _

/-- A mask of the bits from `k` on compares the quotient. -/
theorem UInt64.and_high_eq_iff {a v : UInt64} {k : ℕ} (hk : k < 64)
    (hv : v.toNat * 2 ^ k < 2 ^ 64) :
    a &&& 0xffffffffffffffff <<< k.toUInt64 = v <<< k.toUInt64 ↔ a.toNat / 2 ^ k = v.toNat := by
  have hmask : a &&& 0xffffffffffffffff <<< k.toUInt64 = (a >>> k.toUInt64) <<< k.toUInt64 := by
    apply UInt64.toBitVec_inj.mp
    ext i hi
    have hones : ∀ j (hj : j < 64), (18446744073709551615#64)[j] = true :=
      fun j hj => BitVec.getElem_allOnes j hj
    by_cases hik : i < k
    · simp [hik, Nat.mod_eq_of_lt hk]
    · have hsub : k + (i - k) = i := by omega
      simp [hik, Nat.mod_eq_of_lt hk, hones, hsub, BitVec.getLsbD_eq_getElem hi]
  have hshift : k.toUInt64.toNat % 64 = k := by simp; omega
  have hdiv : (a >>> k.toUInt64).toNat = a.toNat / 2 ^ k := by
    rw [UInt64.toNat_shiftRight, hshift, Nat.shiftRight_eq_div_pow]
  have ha : (a >>> k.toUInt64).toNat * 2 ^ k < 2 ^ 64 := by
    rw [hdiv]
    exact (Nat.div_mul_le_self _ _).trans_lt a.toNat_lt
  rw [hmask, ← UInt64.toNat_inj, UInt64.toNat_shiftLeft_of_lt hk ha,
    UInt64.toNat_shiftLeft_of_lt hk hv, hdiv]
  exact Nat.mul_left_inj (by positivity)

/-- Bits below a boundary and bits above it: OR is addition. -/
theorem Nat.or_mul_eq_add {a : ℕ} (b : ℕ) {k : ℕ} (ha : a < 2 ^ k) :
    a ||| b * 2 ^ k = a + b * 2 ^ k := by
  rw [Nat.or_comm, Nat.or_eq_add_of_dvd (Dvd.intro_left b rfl) ha, Nat.add_comm]

/-- A property of all bytes, from the numbers below 256. -/
theorem forall_byte {P : UInt8 → Prop} (h : ∀ n : ℕ, n < 256 → P n.toUInt8) (b : UInt8) : P b := by
  have hback : b.toNat.toUInt8 = b := UInt8.ofNat_toNat
  have hb := h b.toNat b.toNat_lt
  rwa [hback] at hb

/-- A byte shifted to a byte position. -/
theorem UInt8.toNat_toUInt64_shiftLeft (b : UInt8) {k : ℕ} (hk : k ≤ 56) :
    (b.toUInt64 <<< k.toUInt64).toNat = b.toNat * 2 ^ k := by
  have hlt : b.toNat * 2 ^ k < 2 ^ 64 := by
    calc b.toNat * 2 ^ k < 2 ^ 8 * 2 ^ k := Nat.mul_lt_mul_of_pos_right b.toNat_lt (by positivity)
      _ ≤ 2 ^ 8 * 2 ^ 56 := Nat.mul_le_mul_left _ (Nat.pow_le_pow_right (by norm_num) hk)
  have h := UInt64.toNat_shiftLeft_of_lt (v := b.toUInt64) (k := k) (by omega) (by simpa using hlt)
  rwa [UInt8.toNat_toUInt64] at h

/-- Byte number `k` of a 64-bit word. -/
theorem UInt64.toNat_byte (w : UInt64) {k : ℕ} (hk : k < 64) :
    (w >>> k.toUInt64).toUInt8.toNat = w.toNat / 2 ^ k % 256 := by
  have hshift : k.toUInt64.toNat % 64 = k := by simp; omega
  rw [UInt64.toNat_toUInt8, UInt64.toNat_shiftRight, hshift, Nat.shiftRight_eq_div_pow]

/-- Eight bytes put together, least significant first. -/
theorem UInt64.toNat_ofBytes (b₀ b₁ b₂ b₃ b₄ b₅ b₆ b₇ : UInt8) :
    (b₀.toUInt64 ||| b₁.toUInt64 <<< 8 ||| b₂.toUInt64 <<< 16 ||| b₃.toUInt64 <<< 24 |||
      b₄.toUInt64 <<< 32 ||| b₅.toUInt64 <<< 40 ||| b₆.toUInt64 <<< 48 |||
      b₇.toUInt64 <<< 56).toNat =
    b₀.toNat + b₁.toNat * 2 ^ 8 + b₂.toNat * 2 ^ 16 + b₃.toNat * 2 ^ 24 + b₄.toNat * 2 ^ 32 +
      b₅.toNat * 2 ^ 40 + b₆.toNat * 2 ^ 48 + b₇.toNat * 2 ^ 56 := by
  have h₀ := b₀.toNat_lt
  have h₁ := b₁.toNat_lt
  have h₂ := b₂.toNat_lt
  have h₃ := b₃.toNat_lt
  have h₄ := b₄.toNat_lt
  have h₅ := b₅.toNat_lt
  have h₆ := b₆.toNat_lt
  have hs₁ : (b₁.toUInt64 <<< 8).toNat = b₁.toNat * 2 ^ 8 :=
    UInt8.toNat_toUInt64_shiftLeft b₁ (k := 8) (by norm_num)
  have hs₂ : (b₂.toUInt64 <<< 16).toNat = b₂.toNat * 2 ^ 16 :=
    UInt8.toNat_toUInt64_shiftLeft b₂ (k := 16) (by norm_num)
  have hs₃ : (b₃.toUInt64 <<< 24).toNat = b₃.toNat * 2 ^ 24 :=
    UInt8.toNat_toUInt64_shiftLeft b₃ (k := 24) (by norm_num)
  have hs₄ : (b₄.toUInt64 <<< 32).toNat = b₄.toNat * 2 ^ 32 :=
    UInt8.toNat_toUInt64_shiftLeft b₄ (k := 32) (by norm_num)
  have hs₅ : (b₅.toUInt64 <<< 40).toNat = b₅.toNat * 2 ^ 40 :=
    UInt8.toNat_toUInt64_shiftLeft b₅ (k := 40) (by norm_num)
  have hs₆ : (b₆.toUInt64 <<< 48).toNat = b₆.toNat * 2 ^ 48 :=
    UInt8.toNat_toUInt64_shiftLeft b₆ (k := 48) (by norm_num)
  have hs₇ : (b₇.toUInt64 <<< 56).toNat = b₇.toNat * 2 ^ 56 :=
    UInt8.toNat_toUInt64_shiftLeft b₇ (k := 56) (by norm_num)
  rw [UInt64.toNat_or, UInt64.toNat_or, UInt64.toNat_or, UInt64.toNat_or, UInt64.toNat_or,
    UInt64.toNat_or, UInt64.toNat_or, UInt8.toNat_toUInt64, hs₁, hs₂, hs₃, hs₄, hs₅, hs₆, hs₇,
    Nat.or_mul_eq_add b₁.toNat (by omega), Nat.or_mul_eq_add b₂.toNat (by omega),
    Nat.or_mul_eq_add b₃.toNat (by omega), Nat.or_mul_eq_add b₄.toNat (by omega),
    Nat.or_mul_eq_add b₅.toNat (by omega), Nat.or_mul_eq_add b₆.toNat (by omega),
    Nat.or_mul_eq_add b₇.toNat (by omega)]

/-- Eight bytes put together, most significant first. -/
theorem UInt64.toNat_ofBytesBE (b₀ b₁ b₂ b₃ b₄ b₅ b₆ b₇ : UInt8) :
    (b₀.toUInt64 <<< 56 ||| b₁.toUInt64 <<< 48 ||| b₂.toUInt64 <<< 40 ||| b₃.toUInt64 <<< 32 |||
      b₄.toUInt64 <<< 24 ||| b₅.toUInt64 <<< 16 ||| b₆.toUInt64 <<< 8 ||| b₇.toUInt64).toNat =
    b₇.toNat + b₆.toNat * 2 ^ 8 + b₅.toNat * 2 ^ 16 + b₄.toNat * 2 ^ 24 + b₃.toNat * 2 ^ 32 +
      b₂.toNat * 2 ^ 40 + b₁.toNat * 2 ^ 48 + b₀.toNat * 2 ^ 56 := by
  have hreverse : ∀ a b c d e f g h : UInt64,
      a ||| b ||| c ||| d ||| e ||| f ||| g ||| h =
        h ||| g ||| f ||| e ||| d ||| c ||| b ||| a := by
    intros
    ac_rfl
  rw [hreverse, UInt64.toNat_ofBytes]

/-- An amount below 64 is taken as it is. -/
theorem UInt64.toBitVec_shift {k : ℕ} (hk : k < 64) : (k.toUInt64.toBitVec % 64).toNat = k := by
  have h : k.toUInt64.toNat = k := by simp; omega
  rw [BitVec.toNat_umod]
  exact (Nat.mod_eq_of_lt (h.trans_lt hk)).trans h

/-- The bits of a byte at position `j` of a word. -/
theorem getLsbD_byte (w : UInt64) {j z : ℕ} (hj : j < 8) (hz : z < 8) :
    (w >>> (8 * j).toUInt64).toUInt8.toBitVec.getLsbD z = w.toBitVec.getLsbD (8 * j + z) := by
  simp only [UInt64.toBitVec_toUInt8, UInt64.toBitVec_shiftRight, BitVec.ushiftRight_eq',
    BitVec.getLsbD_setWidth, BitVec.getLsbD_ushiftRight]
  rw [UInt64.toBitVec_shift (by omega)]
  simp [hz]

/-- The bits of a byte shifted to position `m` of a word. -/
theorem getLsbD_shifted (b : UInt8) {m j z : ℕ} (hm : m < 8) (hj : j < 8) (hz : z < 8) :
    (b.toUInt64 <<< (8 * m).toUInt64).toBitVec.getLsbD (8 * j + z) =
      (decide (m = j) && b.toBitVec.getLsbD z) := by
  simp only [UInt64.toBitVec_shiftLeft, BitVec.shiftLeft_eq', BitVec.getLsbD_shiftLeft,
    UInt8.toBitVec_toUInt64, BitVec.getLsbD_setWidth]
  rw [UInt64.toBitVec_shift (by omega)]
  rcases Nat.lt_trichotomy m j with h | rfl | h
  · have hge : b.toBitVec.getLsbD (8 * j + z - 8 * m) = false := BitVec.getLsbD_of_ge _ _ (by omega)
    simp [hge, h.ne]
  · have hword : 8 * m + z < 64 := by omega
    have hbit : z < 64 := by omega
    simp [hword, hbit]
  · have hbelow : 8 * j + z < 8 * m := by omega
    simp [hbelow, h.ne']

/-- A byte added at one position of a word changes that byte only. -/
theorem byte_xor_shifted (w : UInt64) (b : UInt8) {m j : ℕ} (hm : m < 8) (hj : j < 8) :
    ((w ^^^ b.toUInt64 <<< (8 * m).toUInt64) >>> (8 * j).toUInt64).toUInt8 =
      (w >>> (8 * j).toUInt64).toUInt8 ^^^ (if m = j then b else 0) := by
  apply UInt8.toBitVec_inj.mp
  refine BitVec.eq_of_getLsbD_eq fun z hz => ?_
  rw [getLsbD_byte _ hj hz, UInt64.toBitVec_xor, BitVec.getLsbD_xor, getLsbD_shifted b hm hj hz,
    UInt8.toBitVec_xor, BitVec.getLsbD_xor, getLsbD_byte _ hj hz]
  by_cases h : m = j <;> simp [h]

/-- Words with the same bytes are equal. -/
theorem UInt64.ext_bytes {v w : UInt64}
    (h : ∀ j < 8, (v >>> (8 * j).toUInt64).toUInt8 = (w >>> (8 * j).toUInt64).toUInt8) : v = w := by
  apply UInt64.toBitVec_inj.mp
  refine BitVec.eq_of_getLsbD_eq fun z hz => ?_
  have hdiv : z / 8 < 8 := by omega
  have hbyte := congrArg (fun b : UInt8 => b.toBitVec.getLsbD (z % 8)) (h (z / 8) hdiv)
  simp only [getLsbD_byte _ hdiv (Nat.mod_lt z (by norm_num))] at hbyte
  rwa [Nat.div_add_mod] at hbyte

end Words
