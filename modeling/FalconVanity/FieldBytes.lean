import FalconVanity.FieldMul
import FalconVanity.EdPubkeys

/-!
# Bytes of Field Elements

The vendored code finds how often the prime fits into the number that the limbs stand for: the
quotient by the next power of two, of the number and a multiple of its highest limb, is exact.
What is left is below the prime. Carries turn it into digits of 26 and 25 bits in turn, and the
bytes are cut out of these, so that an element has one encoding only.

## Main results

* `primeQuotient_eq`: the quotient.
* `sum_feDigit`: the digits.
* `feTobytes_eq`: the bytes.
* `vendoredField_exact`: the vendored code computes in the field, and its products do not
  overflow.
* `edPubkeysBatch_encodes`: the bytes of the keys of a batch.
-/

namespace FalconVanity

open Field25519 Finset

/-! ### The functions of the reference -/

/-- The bits of a limb, for a shift of 32 bits. -/
def limbBits32 (i : ℕ) : Int32 := if i % 2 = 0 then 26 else 25

/-- The value `q` in `fe_tobytes`. -/
def feQuotient (h : Fe) : Int32 :=
  (List.range 10).foldl (fun q i => (h[i]! + q) >>> limbBits32 i)
    (((19 : Int32) * h[9]! + (1 : Int32) <<< 24) >>> 25)

/-- A carry in `fe_tobytes`. The last one is not added to any limb. -/
def floorStep (h : Fe) (i : ℕ) : Fe :=
  let carry := h[i]! >>> limbBits32 i
  let h := if i = 9 then h else h.set! (i + 1) (h[i + 1]! + carry)
  h.set! i (h[i]! - carry <<< limbBits32 i)

/-- The limbs after `h0 += 19 * q`. -/
def addQuotient (h : Fe) : Fe := h.set! 0 (h[0]! + (19 : Int32) * feQuotient h)

/-- The limbs before `fe_tobytes` writes the bytes. -/
def feDigits (h : Fe) : Fe := (List.range 10).foldl floorStep (addQuotient h)

/-- A conversion to `unsigned char`. -/
def unsignedChar (x : Int32) : UInt8 := x.toUInt32.toUInt8

/-- The bytes that `fe_tobytes` writes. -/
def limbBytes (h : Fe) : Bytes32 :=
  #v[unsignedChar (h[0]! >>> 0),
    unsignedChar (h[0]! >>> 8),
    unsignedChar (h[0]! >>> 16),
    unsignedChar (h[0]! >>> 24 ||| h[1]! <<< 2),
    unsignedChar (h[1]! >>> 6),
    unsignedChar (h[1]! >>> 14),
    unsignedChar (h[1]! >>> 22 ||| h[2]! <<< 3),
    unsignedChar (h[2]! >>> 5),
    unsignedChar (h[2]! >>> 13),
    unsignedChar (h[2]! >>> 21 ||| h[3]! <<< 5),
    unsignedChar (h[3]! >>> 3),
    unsignedChar (h[3]! >>> 11),
    unsignedChar (h[3]! >>> 19 ||| h[4]! <<< 6),
    unsignedChar (h[4]! >>> 2),
    unsignedChar (h[4]! >>> 10),
    unsignedChar (h[4]! >>> 18),
    unsignedChar (h[5]! >>> 0),
    unsignedChar (h[5]! >>> 8),
    unsignedChar (h[5]! >>> 16),
    unsignedChar (h[5]! >>> 24 ||| h[6]! <<< 1),
    unsignedChar (h[6]! >>> 7),
    unsignedChar (h[6]! >>> 15),
    unsignedChar (h[6]! >>> 23 ||| h[7]! <<< 3),
    unsignedChar (h[7]! >>> 5),
    unsignedChar (h[7]! >>> 13),
    unsignedChar (h[7]! >>> 21 ||| h[8]! <<< 4),
    unsignedChar (h[8]! >>> 4),
    unsignedChar (h[8]! >>> 12),
    unsignedChar (h[8]! >>> 20 ||| h[9]! <<< 6),
    unsignedChar (h[9]! >>> 2),
    unsignedChar (h[9]! >>> 10),
    unsignedChar (h[9]! >>> 18)]

/-- `fe_tobytes`: the bytes of the reduced limbs. -/
def feTobytes (h : Fe) : Bytes32 := limbBytes (feDigits h)

/-! ### The quotient by the prime -/

/-- The radix of the limbs, with carries that leave digits. What leaves the last one is lost. -/
def digitRadix : Carry.Radix where
  limbs := 10
  bits i := 26 - i % 2
  offset _ := 0
  fold := 0

theorem limbShift_eq (n : ℕ) : limbShift n = digitRadix.shift n := by
  induction n with
  | zero => rfl
  | succ n ih =>
      rw [Carry.Radix.shift_succ, ← ih]
      change (51 * (n + 1) + 1) / 2 = (51 * n + 1) / 2 + (26 - n % 2)
      obtain ⟨k, rfl | rfl⟩ := n.even_or_odd' <;> omega

/-- The limbs as integers. -/
def limbs32 (h : Fe) (k : ℕ) : ℤ := h[k]!.toInt

/-- The number that limbs stand for. -/
def limbSum (z : ℕ → ℤ) : ℤ := ∑ i ∈ range 10, z i * 2 ^ limbShift i

section Quotient

variable {h : Fe} {x : ZMod q} {z : ℕ → ℤ}

theorem smod_limbBits32 (i : ℕ) :
    ((limbBits32 i).toBitVec.smod 32).toNat = digitRadix.bits i := by
  change _ = 26 - i % 2
  rw [limbBits32]
  rcases Nat.mod_two_eq_zero_or_one i with h2 | h2
  · rw [if_pos h2, h2]
    decide
  · rw [if_neg (by omega), h2]
    decide

/-- **The number that limbs stand for**, modulo the prime. -/
theorem val_eq_limbSum_emod (hx : feValue h = x) : (x.val : ℤ) = limbSum (limbs32 h) % q := by
  have hsum : x = ((limbSum (limbs32 h) : ℤ) : ZMod q) := by
    rw [← hx, feValue_eq_sum, limbSum]
    push_cast
    rfl
  rw [hsum, ZMod.val_intCast]

/-- The highest limb is almost the number. -/
theorem abs_limbSum_sub_lt (hz : ∀ i < 10, |z i| ≤ 2 ^ 27) :
    |limbSum z - z 9 * 2 ^ 230| < 2 ^ 240 := by
  have hsplit : limbSum z - z 9 * 2 ^ 230 = ∑ i ∈ range 9, z i * 2 ^ limbShift i := by
    rw [limbSum, sum_range_succ]
    exact add_sub_cancel_right _ _
  have hterm : ∀ i ∈ range 9, |z i * 2 ^ limbShift i| ≤ 2 ^ 27 * 2 ^ limbShift i := by
    intro i hi
    have hi' := mem_range.mp hi
    rw [abs_mul, abs_of_pos (by positivity : (0 : ℤ) < 2 ^ limbShift i)]
    exact mul_le_mul_of_nonneg_right (hz i (by omega)) (by positivity)
  rw [hsplit]
  calc |∑ i ∈ range 9, z i * 2 ^ limbShift i|
      ≤ ∑ i ∈ range 9, (2 ^ 27 * 2 ^ limbShift i : ℤ) :=
        (abs_sum_le_sum_abs _ _).trans (sum_le_sum hterm)
    _ < 2 ^ 240 := by decide +kernel

/-- **The quotient by the prime**, from the highest limb and the power of two. -/
theorem primeQuotient_eq {n top : ℤ} (hlow : |n - top * 2 ^ 230| < 2 ^ 240)
    (htop : |top| ≤ 2 ^ 27) :
    (n + (19 * top + 2 ^ 24) / 2 ^ 25) / 2 ^ 255 = n / q := by
  obtain ⟨hlo, hhi⟩ := abs_lt.mp hlow
  obtain ⟨htlo, hthi⟩ := abs_le.mp htop
  have hq : (q : ℤ) = 2 ^ 255 - 19 := by norm_num [q]
  rw [hq]
  norm_num at hlo hhi htlo hthi ⊢
  omega

/-- The limbs of the source are small. -/
theorem Represents.abs_limbs32_le (hx : Represents 220 h x) {k : ℕ} (hk : k < 10) :
    |limbs32 h k| ≤ 2 ^ 27 := by
  have hle := hx.bounded ⟨k, hk⟩
  have hpow : (2 : ℤ) ^ (25 - k % 2) ≤ 2 ^ 25 := by gcongr <;> omega
  change 100 * |h[k].toInt| ≤ 220 * 2 ^ (25 - k % 2) at hle
  rw [limbs32, getElem!_pos h k hk]
  omega

/-- The highest limb is shorter. -/
theorem Represents.abs_limbs32_nine_le (hx : Represents 220 h x) : |limbs32 h 9| ≤ 2 ^ 26 := by
  have hle := hx.bounded ⟨9, by norm_num⟩
  change 100 * |limbs32 h 9| ≤ 220 * 2 ^ 24 at hle
  omega

/-- Where the quotient enters the first limb. -/
theorem toInt_feQuotient_start (hx : Represents 220 h x) :
    (((19 : Int32) * h[9]! + (1 : Int32) <<< 24) >>> 25).toInt =
      (19 * limbs32 h 9 + 2 ^ 24) / 2 ^ 25 := by
  obtain ⟨hlo, hhi⟩ := abs_le.mp hx.abs_limbs32_nine_le
  have h19 : ((19 : Int32) * h[9]!).toInt = 19 * limbs32 h 9 :=
    toInt_scaled 19 rfl (abs_lt.mpr (by change _ < 19 * limbs32 h 9 ∧ 19 * limbs32 h 9 < _; omega))
  have hround : ((1 : Int32) <<< 24).toInt = 2 ^ 24 := by decide
  rw [Words.Int32.toInt_shiftRight _ (n := 25) (by decide), Int32.toInt_add, h19, hround,
    Int.bmod_eq_of_le (by omega) (by omega)]

/-- **The quotient of words** is that of integers, which is small. -/
theorem toInt_feQuotient (hx : Represents 220 h x) :
    (feQuotient h).toInt = limbSum (limbs32 h) / q ∧ |(feQuotient h).toInt| ≤ 2 ^ 6 := by
  have hstart := toInt_feQuotient_start hx
  have hrun : ∀ n ≤ 10, ((List.range n).foldl (fun q i => (h[i]! + q) >>> limbBits32 i)
        (((19 : Int32) * h[9]! + (1 : Int32) <<< 24) >>> 25)).toInt =
      digitRadix.quotient (limbs32 h) ((19 * limbs32 h 9 + 2 ^ 24) / 2 ^ 25) n ∧
      |digitRadix.quotient (limbs32 h) ((19 * limbs32 h 9 + 2 ^ 24) / 2 ^ 25) n| ≤ 2 ^ 6 := by
    intro n hn
    induction n with
    | zero =>
        obtain ⟨hlo, hhi⟩ := abs_le.mp hx.abs_limbs32_nine_le
        refine ⟨hstart, ?_⟩
        rw [Carry.Radix.quotient, abs_le]
        omega
    | succ n ih =>
        obtain ⟨hq, hsmall⟩ := ih (by omega)
        obtain ⟨hlo, hhi⟩ := abs_le.mp hsmall
        obtain ⟨hlo', hhi'⟩ := abs_le.mp (hx.abs_limbs32_le (show n < 10 by omega))
        rw [List.range_succ, List.foldl_append, List.foldl_cons, List.foldl_nil,
          Carry.Radix.quotient, Words.Int32.toInt_shiftRight _ (smod_limbBits32 n),
          Int32.toInt_add, hq]
        change ((limbs32 h n + _).bmod _ / _ = _) ∧ _
        rw [Int.bmod_eq_of_le (by omega) (by omega)]
        refine ⟨rfl, ?_⟩
        change |_ / 2 ^ (26 - n % 2)| ≤ _
        rcases Nat.mod_two_eq_zero_or_one n with h2 | h2
        · rw [h2, abs_le]
          omega
        · rw [h2, abs_le]
          omega
  obtain ⟨hq, hsmall⟩ := hrun 10 le_rfl
  have hprime := primeQuotient_eq (abs_limbSum_sub_lt fun i hi => hx.abs_limbs32_le hi)
    (hx.abs_limbs32_le (show 9 < 10 by norm_num))
  have hshift : digitRadix.shift 10 = 255 := rfl
  have hsum : ∑ i ∈ range 10, limbs32 h i * 2 ^ digitRadix.shift i = limbSum (limbs32 h) :=
    sum_congr rfl fun i _ => by rw [limbShift_eq]
  rw [← hq] at hsmall
  rw [Carry.Radix.quotient_eq, hshift, hsum, hprime] at hq
  exact ⟨hq, hsmall⟩

end Quotient

/-! ### Digits -/

section Digits

variable {h : Fe} {b : ℕ → ℕ} {i : ℕ}

/-- The entries after a carry. -/
theorem getElem!_floorStep (h : Fe) (hi : i < 10) {k : ℕ} (hk : k < 10) :
    (floorStep h i)[k]! =
      if k = i then h[i]! - (h[i]! >>> limbBits32 i) <<< limbBits32 i
      else if k = i + 1 then h[k]! + h[i]! >>> limbBits32 i
      else h[k]! := by
  rw [floorStep]
  by_cases h9 : i = 9
  · rw [if_pos h9, Words.getElem!_set! _ hk]
    by_cases hki : k = i
    · rw [if_pos hki.symm, if_pos hki]
    · rw [if_neg (Ne.symm hki), if_neg hki, if_neg (by omega)]
  · rw [if_neg h9, Words.getElem!_set! _ hk, Words.getElem!_set! _ hi, Words.getElem!_set! _ hk,
      if_neg (show ¬ i + 1 = i by omega)]
    by_cases hki : k = i
    · rw [if_pos hki.symm, if_pos hki]
    · rw [if_neg (Ne.symm hki), if_neg hki]
      by_cases hk1 : k = i + 1
      · rw [if_pos hk1.symm, if_pos hk1, hk1]
      · rw [if_neg (Ne.symm hk1), if_neg hk1]

/-- **A carry of words** is a carry of integers, with enough room. -/
theorem limbs32_floorStep (hb : digitRadix.Bounded b (limbs32 h))
    (hroom : digitRadix.RoomAt (2 ^ 31) b i) (hi : i < 10) {k : ℕ} (hk : k < 10) :
    limbs32 (floorStep h i) k = digitRadix.step (limbs32 h) i k := by
  have hoff : digitRadix.offset i < 2 ^ digitRadix.bits i := Nat.two_pow_pos _
  have hcarry : (h[i]! >>> limbBits32 i).toInt = digitRadix.carry (limbs32 h) i := by
    rw [Words.Int32.toInt_shiftRight _ (smod_limbBits32 i), Carry.Radix.carry]
    change _ = (_ + ((0 : ℕ) : ℤ)) / _
    rw [Nat.cast_zero, add_zero]
    rfl
  have hfit : (digitRadix.step (limbs32 h) i k).bmod (2 ^ 32) =
      digitRadix.step (limbs32 h) i k := by
    have hle := abs_le.mp (Carry.Radix.bounded_step hoff hi hb k hk)
    have hlt := (hroom k hk).2
    exact Int.bmod_eq_of_le (by omega) (by omega)
  rw [limbs32, getElem!_floorStep h hi hk, ← hfit, Carry.Radix.step]
  by_cases hki : k = i
  · rw [if_pos hki, if_pos hki, Int32.toInt_sub, Words.Int32.toInt_shiftLeft _ (smod_limbBits32 i),
      hcarry, Int.sub_bmod_bmod]
    rfl
  · rw [if_neg hki, if_neg hki]
    rw [Carry.Radix.step, if_neg hki] at hfit
    by_cases h9 : i = 9
    · have hfactor : digitRadix.factor i = 0 := by rw [h9]; rfl
      rw [hfactor, Nat.cast_zero, zero_mul, add_zero, ite_self] at hfit ⊢
      rw [if_neg (by omega)]
      exact hfit.symm
    · have hnext : digitRadix.next i = i + 1 := if_neg (by change ¬ i + 1 = 10; omega)
      have hfactor : digitRadix.factor i = 1 := if_neg (by change ¬ i + 1 = 10; omega)
      rw [hnext, hfactor, Nat.cast_one, one_mul] at hfit ⊢
      by_cases hk1 : k = i + 1
      · rw [if_pos hk1, if_pos hk1, Int32.toInt_add, hcarry]
        rfl
      · rw [if_neg hk1] at hfit
        rw [if_neg hk1, if_neg hk1]
        exact hfit.symm

/-- **The weights of the limbs**: what leaves the last one is a multiple of the base. -/
theorem digitRadix_weighs {i : ℕ} (hi : i < 10) :
    digitRadix.Weighs (fun i => (2 : ZMod (2 ^ 255)) ^ limbShift i) i := by
  obtain h9 | h9 : i = 9 ∨ i < 9 := by omega
  · have hbase : (2 : ZMod (2 ^ 255)) ^ 255 = 0 := by
      have hself := ZMod.natCast_self (2 ^ 255)
      rwa [Nat.cast_pow, Nat.cast_ofNat] at hself
    subst h9
    change ((0 : ℕ) : ZMod (2 ^ 255)) * 2 ^ 0 = ((2 ^ 25 : ℕ) : ZMod (2 ^ 255)) * 2 ^ 230
    rw [Nat.cast_zero, zero_mul, Nat.cast_pow, Nat.cast_ofNat, ← pow_add, hbase]
  · have hfactor : digitRadix.factor i = 1 := if_neg (by change ¬ i + 1 = 10; omega)
    have hnext : digitRadix.next i = i + 1 := if_neg (by change ¬ i + 1 = 10; omega)
    rw [Carry.Radix.Weighs, hfactor, hnext, limbShift_eq, limbShift_eq, Carry.Radix.shift_succ,
      Nat.add_comm, pow_add, Nat.cast_one, one_mul, Nat.cast_pow, Nat.cast_ofNat]

/-- The room for the carries. -/
theorem room_digits : digitRadix.Room (2 ^ 31) (List.range 10) fun _ => 2 ^ 28 := by
  decide +kernel

variable {x : ZMod q}

/-- The digits of an element. -/
def feDigit (h : Fe) (k : ℕ) : ℕ := (limbs32 (feDigits h) k).toNat

/-- The limbs before the carries. -/
theorem limbs32_addQuotient (hx : Represents 220 h x) :
    digitRadix.Bounded (fun _ => 2 ^ 28) (limbs32 (addQuotient h)) ∧
      limbSum (limbs32 (addQuotient h)) =
        limbSum (limbs32 h) + 19 * (limbSum (limbs32 h) / q) := by
  obtain ⟨hq, hsmall⟩ := toInt_feQuotient hx
  obtain ⟨hlo, hhi⟩ := abs_le.mp hsmall
  obtain ⟨hlo', hhi'⟩ := abs_le.mp (hx.abs_limbs32_le (show 0 < 10 by norm_num))
  have h19 : ((19 : Int32) * feQuotient h).toInt = 19 * (feQuotient h).toInt :=
    toInt_scaled 19 rfl (abs_lt.mpr (by omega))
  have hzero : (h[0]! + (19 : Int32) * feQuotient h).toInt =
      limbs32 h 0 + 19 * (feQuotient h).toInt := by
    rw [Int32.toInt_add, h19]
    change (limbs32 h 0 + _).bmod _ = _
    exact Int.bmod_eq_of_le (by omega) (by omega)
  have hentry : ∀ k < 10, limbs32 (addQuotient h) k =
      limbs32 h k + if 0 = k then 19 * (feQuotient h).toInt else 0 := by
    intro k hk
    rw [limbs32, addQuotient, Words.getElem!_set! _ hk]
    by_cases hk0 : 0 = k
    · rw [if_pos hk0, if_pos hk0, hzero, hk0]
    · rw [if_neg hk0, if_neg hk0, add_zero]
      rfl
  constructor
  · intro k hk
    obtain ⟨hklo, hkhi⟩ := abs_le.mp (hx.abs_limbs32_le hk)
    rw [hentry k hk, abs_le]
    split <;> constructor <;> push_cast <;> omega
  · have hsum : ∑ k ∈ range 10, (if 0 = k then 19 * (feQuotient h).toInt else 0) *
        2 ^ limbShift k = 19 * (feQuotient h).toInt := by
      rw [sum_eq_single_of_mem 0 (mem_range.mpr (by norm_num))]
      · rw [if_pos rfl]
        exact mul_one _
      · intro k _ hk
        rw [if_neg hk.symm, zero_mul]
    rw [← hq, limbSum, limbSum, ← hsum, ← sum_add_distrib]
    exact sum_congr rfl fun k hk => by rw [hentry k (mem_range.mp hk), add_mul]

/-- The limbs after the carries, as integers. -/
theorem limbs32_feDigits (hx : Represents 220 h x) : ∀ k < 10, limbs32 (feDigits h) k =
    digitRadix.run (List.range 10) (limbs32 (addQuotient h)) k := by
  have hrun := Carry.Radix.run_of_step (R := digitRadix) limbs32 floorStep
    (fun _ _ => Nat.two_pow_pos _) (fun hi hb hroom _ hk => limbs32_floorStep hb hroom hi hk)
    (fun _ hi => List.mem_range.mp hi) (limbs32_addQuotient hx).1 room_digits
  rw [feDigits]
  exact hrun

/-- **The limbs after the carries** are digits. -/
theorem feDigit_spec (hx : Represents 220 h x) {k : ℕ} (hk : k < 10) :
    limbs32 (feDigits h) k = feDigit h k ∧ feDigit h k < 2 ^ digitRadix.bits k := by
  obtain ⟨hlo, hhi⟩ := Carry.Radix.digits_run (R := digitRadix) (n := 10) (fun _ => rfl) rfl le_rfl
    (limbs32 (addQuotient h)) k hk
  rw [← limbs32_feDigits hx k hk] at hlo hhi
  have hnat : ((feDigit h k : ℕ) : ℤ) = limbs32 (feDigits h) k := Int.toNat_of_nonneg hlo
  refine ⟨hnat.symm, ?_⟩
  rw [← Nat.cast_lt (α := ℤ), hnat]
  push_cast
  exact hhi

/-- **The carries keep the number** modulo their base. -/
theorem cast_sum_feDigit (hx : Represents 220 h x) :
    ((∑ k ∈ range 10, feDigit h k * 2 ^ digitRadix.shift k : ℕ) : ZMod (2 ^ 255)) =
      (limbSum (limbs32 (addQuotient h)) : ZMod (2 ^ 255)) := by
  have hvalue := Carry.Radix.value_run (R := digitRadix) (by decide)
    (fun i (hi : i ∈ List.range 10) =>
      ⟨List.mem_range.mp hi, digitRadix_weighs (List.mem_range.mp hi)⟩)
    (limbs32 (addQuotient h))
  rw [Carry.Radix.value, Carry.Radix.value] at hvalue
  rw [Nat.cast_sum, limbSum, Int.cast_sum]
  refine Eq.trans (sum_congr rfl fun k hk => ?_) (hvalue.trans (sum_congr rfl fun k _ => ?_))
  · rw [← limbs32_feDigits hx k (mem_range.mp hk), (feDigit_spec hx (mem_range.mp hk)).1,
      limbShift_eq]
    push_cast
    rfl
  · push_cast
    rfl

/-- **The digits** of an element are those of the number below the prime. -/
theorem sum_feDigit (hx : Represents 220 h x) :
    ∑ k ∈ range 10, feDigit h k * 2 ^ digitRadix.shift k = x.val := by
  have hlt := Carry.Radix.digits_lt (R := digitRadix) (n := 10) fun k hk => (feDigit_spec hx hk).2
  have hshift : digitRadix.shift 10 = 255 := rfl
  rw [hshift] at hlt
  have hval : x.val < 2 ^ 255 := (ZMod.val_lt x).trans (by norm_num [q])
  -- The base and the prime differ by the multiple of the quotient that was added.
  have hmod : (limbSum (limbs32 (addQuotient h)) : ZMod (2 ^ 255)) =
      ((x.val : ℤ) : ZMod (2 ^ 255)) := by
    have hdiv := Int.emod_add_mul_ediv (limbSum (limbs32 h)) q
    have hq : (q : ℤ) = 2 ^ 255 - 19 := by norm_num [q]
    rw [(limbs32_addQuotient hx).2, ZMod.intCast_eq_intCast_iff_dvd_sub,
      val_eq_limbSum_emod hx.value]
    refine ⟨-(limbSum (limbs32 h) / q), ?_⟩
    push_cast
    linear_combination hdiv - (limbSum (limbs32 h) / q) * hq
  have hcast := (cast_sum_feDigit hx).trans hmod
  rw [Int.cast_natCast, ZMod.natCast_eq_natCast_iff'] at hcast
  rwa [Nat.mod_eq_of_lt hlt, Nat.mod_eq_of_lt hval] at hcast

end Digits

/-! ### Bytes -/

section Bytes

variable {x y : Int32} {i : ℕ}

/-- The bits of a byte that is cut out of a word. -/
theorem testBit_unsignedChar (x : Int32) (hi : i < 8) :
    (unsignedChar x).toNat.testBit i = x.toBitVec.getLsbD i := by
  have hbyte : (unsignedChar x).toNat = x.toBitVec.toNat % 2 ^ 8 := rfl
  rw [hbyte, Nat.testBit_mod_two_pow, decide_eq_true hi, Bool.true_and]
  rfl

/-- The bits of a word that is not negative. -/
theorem getLsbD_of_toInt {d : ℕ} (hx : x.toInt = d) : x.toBitVec.getLsbD i = d.testBit i := by
  have hlt := x.toInt_lt
  have hd : x.toBitVec.toNat = d := by
    have h : x.toInt = (x.toBitVec.toNat : ℤ).bmod (2 ^ 32) := BitVec.toInt_eq_toNat_bmod _
    have hlt' := x.toBitVec.isLt
    rw [Int.bmod_def] at h
    split at h <;> omega
  rw [← hd]
  rfl

/-- A digit, shifted down. -/
theorem getLsbD_shiftRight {a r : ℕ} {s : Int32} (hx : x.toInt = a)
    (hs : (s.toBitVec.smod 32).toNat = r) (hr : r + i < 32) :
    (x >>> s).toBitVec.getLsbD i = a.testBit (r + i) := by
  have hshift : (x >>> s).toBitVec = x.toBitVec.sshiftRight' (s.toBitVec.smod 32) := rfl
  rw [hshift, BitVec.getLsbD_sshiftRight', hs, if_pos hr, getLsbD_of_toInt hx,
    decide_eq_false (by omega), Bool.not_false, Bool.true_and]

/-- A digit, shifted up. -/
theorem getLsbD_shiftLeft {b l : ℕ} {t : Int32} (hy : y.toInt = b)
    (ht : (t.toBitVec.smod 32).toNat = l) (hi : i < 8) :
    (y <<< t).toBitVec.getLsbD i = (!decide (i < l) && b.testBit (i - l)) := by
  have hshift : (y <<< t).toBitVec = y.toBitVec <<< (t.toBitVec.smod 32) := rfl
  rw [hshift, BitVec.shiftLeft_eq', ht, BitVec.getLsbD_shiftLeft, getLsbD_of_toInt hy,
    decide_eq_true (by omega : i < 32), Bool.true_and]

variable {e : Fe} {d : ℕ → ℕ}

/-- Digits of the radix, in limbs. -/
def AreDigits (e : Fe) (d : ℕ → ℕ) : Prop :=
  ∀ k < 10, e[k]!.toInt = d k ∧ d k < 2 ^ digitRadix.bits k

/-- A byte of a number. -/
def byteAt (v j : ℕ) : UInt8 := (v / 256 ^ j).toUInt8

/-- The number that digits stand for. -/
def digitSum (d : ℕ → ℕ) : ℕ := ∑ k ∈ range 10, d k * 2 ^ digitRadix.shift k

theorem toNat_byteAt (v j : ℕ) : (byteAt v j).toNat = v / 256 ^ j % 256 := UInt8.toNat_ofNat'

/-- A byte, by its bits. -/
theorem eq_byteAt {v j : ℕ} {u : UInt8} (hu : ∀ i < 8, u.toNat.testBit i = v.testBit (8 * j + i)) :
    u = byteAt v j := by
  refine UInt8.toNat_inj.mp (Nat.eq_of_testBit_eq fun i => ?_)
  have hbyte : (byteAt v j).toNat = v / 2 ^ (8 * j) % 2 ^ 8 := by
    rw [toNat_byteAt, pow_mul]
    rfl
  have hsmall : u.toNat < 2 ^ 8 := u.toNat_lt
  rw [hbyte, Nat.testBit_mod_two_pow, Nat.testBit_div_two_pow]
  by_cases hi : i < 8
  · rw [decide_eq_true hi, Bool.true_and, hu i hi, Nat.add_comm]
  · rw [decide_eq_false hi, Bool.false_and]
    exact Nat.testBit_lt_two_pow (hsmall.trans_le (Nat.pow_le_pow_right two_pos (by omega)))

/-- **A byte that is cut out of one digit.** The highest bit of the last byte is none of any
digit. -/
theorem byte_of_digit (he : AreDigits e d) {j k r : ℕ} {s : Int32} (hk : k < 10)
    (hs : (s.toBitVec.smod 32).toNat = r) (hj : 8 * j = digitRadix.shift k + r)
    (hr : r + 8 ≤ digitRadix.bits k ∨ k = 9 ∧ r + 8 ≤ 32) :
    unsignedChar (e[k]! >>> s) = byteAt (digitSum d) j := by
  have hbits : digitRadix.bits k ≤ 26 := Nat.sub_le 26 _
  refine eq_byteAt fun i hi => ?_
  rw [testBit_unsignedChar _ hi, getLsbD_shiftRight (he k hk).1 hs (by omega), hj, Nat.add_assoc,
    digitSum]
  by_cases hri : r + i < digitRadix.bits k
  · rw [Carry.Radix.testBit_digits (fun k hk => (he k hk).2) hk hri]
  · obtain rfl : k = 9 := by omega
    have hlt := Carry.Radix.digits_lt (R := digitRadix) (n := 10) fun k hk => (he k hk).2
    have hshift : digitRadix.shift 10 = digitRadix.shift 9 + digitRadix.bits 9 :=
      Carry.Radix.shift_succ 9
    rw [Nat.testBit_lt_two_pow ((he 9 hk).2.trans_le (Nat.pow_le_pow_right two_pos (by omega))),
      Nat.testBit_lt_two_pow (hlt.trans_le (Nat.pow_le_pow_right two_pos (by omega)))]

/-- **A byte that is cut out of two digits.** -/
theorem byte_of_digits (he : AreDigits e d) {j k r l : ℕ} {s t : Int32} (hk : k + 1 < 10)
    (hs : (s.toBitVec.smod 32).toNat = r) (ht : (t.toBitVec.smod 32).toNat = l)
    (hj : 8 * j = digitRadix.shift k + r) (hl : r + l = digitRadix.bits k) (hl8 : l < 8)
    (hr : r + 8 ≤ 32) :
    unsignedChar (e[k]! >>> s ||| e[k + 1]! <<< t) = byteAt (digitSum d) j := by
  have hbits : digitRadix.bits k ≤ 26 := Nat.sub_le 26 _
  have hbits' : 25 ≤ digitRadix.bits (k + 1) := by change 25 ≤ 26 - _; omega
  have hor : (e[k]! >>> s ||| e[k + 1]! <<< t).toBitVec =
      (e[k]! >>> s).toBitVec ||| (e[k + 1]! <<< t).toBitVec := rfl
  refine eq_byteAt fun i hi => ?_
  rw [testBit_unsignedChar _ hi, hor, BitVec.getLsbD_or,
    getLsbD_shiftRight (he k (by omega)).1 hs (by omega), getLsbD_shiftLeft (he (k + 1) hk).1 ht hi,
    hj, Nat.add_assoc, digitSum]
  by_cases hil : i < l
  · rw [decide_eq_true hil, Bool.not_true, Bool.false_and, Bool.or_false,
      Carry.Radix.testBit_digits (fun k hk => (he k hk).2) (by omega) (by omega)]
  · have hnext : digitRadix.shift k + (r + i) = digitRadix.shift (k + 1) + (i - l) := by
      rw [Carry.Radix.shift_succ]
      omega
    rw [decide_eq_false hil, Bool.not_false, Bool.true_and, hnext,
      Carry.Radix.testBit_digits (fun k hk => (he k hk).2) hk (by omega),
      Nat.testBit_lt_two_pow ((he k (by omega)).2.trans_le
        (Nat.pow_le_pow_right two_pos (by omega))), Bool.false_or]

/-- **The bytes** of digits are those of the number. -/
theorem limbBytes_eq (he : AreDigits e d) :
    limbBytes e = Vector.ofFn fun j : Fin 32 => byteAt (digitSum d) j := by
  refine Vector.ext fun j hj => ?_
  rw [Vector.getElem_ofFn]
  change (limbBytes e)[j] = byteAt (digitSum d) j
  -- Of each sixteen bytes, four are cut out of two digits.
  by_cases htwo : j % 16 ∈ [3, 6, 9, 12]
  · interval_cases j
    all_goals
      first
      | exact absurd htwo (by decide)
      | exact byte_of_digits he (by norm_num) rfl rfl (by decide) (by decide) (by decide)
          (by decide)
  · interval_cases j
    all_goals
      first
      | exact absurd (by decide) htwo
      | exact byte_of_digit he (by norm_num) rfl (by decide) (by decide)

/-- **The bytes of an element** are those of the number below the prime. -/
theorem feTobytes_eq {h : Fe} {x : ZMod q} (hx : Represents 220 h x) :
    feTobytes h = Vector.ofFn fun j : Fin 32 => byteAt x.val j := by
  rw [feTobytes, limbBytes_eq fun k hk => feDigit_spec hx hk, digitSum, sum_feDigit hx]

end Bytes

/-! ### The field -/

/-- The vendored functions. -/
def vendoredField : FieldCode where
  feMul := feMul
  feSq := feSq
  feSq2 := feSq2
  feInvert := feInvert
  feTobytes := feTobytes

/-- **The vendored code computes in the field**, within the bounds that it gives for its limbs. -/
theorem vendoredField_implements : vendoredField.Implements where
  mul := feMul_represents
  sq := feSq_represents
  sq2 := feSq2_represents
  invert := feInvert_represents
  toBytes hf hg := (feTobytes_eq hf).trans (feTobytes_eq hg).symm

/-- **The vendored code is exact**: products, squares and inverses are those of the field, with
limbs that are small enough for the next of them; every scaled limb, every product, every sum on
the way and every carry of `fe_mul`, `fe_sq` and `fe_sq2` is exact as an integer, and so is
everything in the chain of products that `fe_invert` is; and the bytes of an element are those of
the number below the prime. -/
theorem vendoredField_exact :
    vendoredField.Implements ∧
    (∀ {f g : Fe} {x y : ZMod q}, Represents 330 f x → Represents 330 g y →
      MulFits f g ∧ SqFits f ∧ Sq2Fits f) ∧
    (∀ {z : Fe} {x : ZMod q}, Represents 330 z x → ChainOf z (feInvert z) ∧
      ∀ f g, ChainOf z f → ChainOf z g → MulFits f g ∧ SqFits f) ∧
    ∀ {h : Fe} {x : ZMod q}, Represents 220 h x →
      vendoredField.feTobytes h = Vector.ofFn fun j : Fin 32 => byteAt x.val j :=
  ⟨vendoredField_implements, fun hf hg => ⟨mulFits hf hg, sqFits hf, sq2Fits hf⟩,
    fun hz => ⟨chainOf_feInvert _, fun _ _ hf hg => hf.fits hz hg⟩, feTobytes_eq⟩

/-! ### Keys -/

section Keys

variable {V : Vendored}

/-- A byte of a number and a bit above it. -/
theorem byteAt_add_bit {y b : ℕ} (hy : y < 2 ^ 255) (hb : b < 2) {j : ℕ} (hj : j < 32) :
    byteAt (y + 2 ^ 255 * b) j =
      if 31 = j then byteAt y 31 ^^^ UInt8.ofNat b <<< 7 else byteAt y j := by
  refine UInt8.toNat_inj.mp ?_
  rw [toNat_byteAt]
  by_cases h31 : 31 = j
  · subst h31
    have htop : (byteAt y 31).toNat = y / 256 ^ 31 := by
      rw [toNat_byteAt]
      omega
    have hflip : ∀ u : UInt8, u.toNat < 128 → (u ^^^ UInt8.ofNat 1 <<< 7).toNat = u.toNat + 128 :=
      Words.forall_byte (by decide +kernel)
    rw [if_pos rfl]
    obtain rfl | rfl : b = 0 ∨ b = 1 := by omega
    · have hsame : byteAt y 31 ^^^ UInt8.ofNat 0 <<< 7 = byteAt y 31 := UInt8.xor_zero
      rw [hsame, htop]
      omega
    · rw [hflip _ (by omega), htop]
      omega
  · have hsplit : 2 ^ 255 * b = 256 ^ j * (256 * (2 ^ (247 - 8 * j) * b)) := by
      have hpow : (2 : ℕ) ^ 255 = 256 ^ j * 256 * 2 ^ (247 - 8 * j) := by
        rw [show (256 : ℕ) = 2 ^ 8 from rfl, ← pow_mul, ← pow_add, ← pow_add]
        congr 1
        omega
      rw [hpow]
      ring
    rw [if_neg h31, toNat_byteAt, hsplit, Nat.add_mul_div_left _ _ (by positivity),
      Nat.add_mul_mod_self_left]

/-- **The encoding of a point**: the number below the prime for `y`, and the parity of `x`
above it. -/
theorem pointBytes_eq (hV : V.toFieldCode = vendoredField) (x y : ZMod q) :
    pointBytes V x y =
      Vector.ofFn fun j : Fin 32 => byteAt (y.val + 2 ^ 255 * (x.val % 2)) j := by
  have hbytes : ∀ z : ZMod q, V.feTobytes (feOf z) =
      Vector.ofFn fun j : Fin 32 => byteAt z.val j := by
    intro z
    rw [hV]
    exact feTobytes_eq ((feOf_represents z).mono (by norm_num))
  have hparity : V.feIsnegative (feOf x) = UInt8.ofNat (x.val % 2) := by
    rw [FieldCode.feIsnegative, hbytes, getElem!_pos _ 0 (by norm_num), Vector.getElem_ofFn]
    refine UInt8.toNat_inj.mp ?_
    rw [UInt8.toNat_and, toNat_byteAt, UInt8.toNat_ofNat']
    change x.val / 256 ^ 0 % 256 &&& 1 = _
    rw [Nat.and_one_is_mod, pow_zero, Nat.div_one]
    omega
  have hval : y.val < 2 ^ 255 := (ZMod.val_lt y).trans (by norm_num [q])
  refine Vector.ext fun j hj => ?_
  rw [pointBytes, hparity, ← getElem!_pos _ j hj, Words.getElem!_set! _ hj, hbytes,
    getElem!_pos _ j hj, getElem!_pos _ 31 (by norm_num), Vector.getElem_ofFn, Vector.getElem_ofFn,
    Vector.getElem_ofFn, byteAt_add_bit hval (Nat.mod_lt _ two_pos) hj]

/-- **The keys of the batch**, with the vendored field: each is the number below the prime for
the second coordinate of the multiple of the base point, with the parity of the first one above
it. -/
theorem edPubkeysBatch_encodes {G : Type*} [AddCommGroup G] {d : ZMod q}
    (E : EdwardsGroup (ZMod q) G d) (B : G) (hV : V.toFieldCode = vendoredField)
    (hbase : ∀ pos < 32, ∀ j < 8, DuifForm E (V.base pos j) (((j + 1) * 256 ^ pos) • B))
    (garbage : BatchArrays) (seeds pks : Vector Bytes32 8) {nk : ℕ} (hlo : 1 ≤ nk)
    (hhi : nk ≤ 8) :
    ∀ k < nk,
      let g := scalar (edSeedToScalar V seeds[k]!) • B
      (edPubkeysBatch V garbage seeds nk pks)[k]! =
        Vector.ofFn fun j : Fin 32 => byteAt ((E.y g).val + 2 ^ 255 * ((E.x g).val % 2)) j := by
  intro k hk g
  have himpl : V.Implements := hV ▸ vendoredField_implements
  rw [edPubkeysBatch_points himpl B hbase garbage seeds pks hlo hhi hk, pointBytes_eq hV]

end Keys

end FalconVanity
