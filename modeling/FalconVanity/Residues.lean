import FalconVanity.Foundation.Logged
import FalconVanity.Foundation.Montgomery
import FalconVanity.Foundation.Words
import FalconVanity.NttTables

/-!
# Residues in Machine Words

The public key polynomial is computed with 32-bit operations on residues below `q`, and the
results are stored in arrays of 16-bit words. Sums and differences may leave the range by one
`q`, and are corrected; products are in Montgomery form. Each operation is logged, so that the
range of every intermediate result is a statement about the log of a computation.

## Main results

* `reduced_mqAdd`, `reduced_mqSub`, `reduced_mqMontymul`, `reduced_mqRshift1`: the values.
* `Op.add_ensures` and its siblings: the operations are safe on residues.
-/

namespace FalconVanity

open Logged

/-- An array of 1024 16-bit words. -/
abbrev Poly16 := Vector UInt16 1024

/-- `PQ_Q`: the modulus 12289. -/
abbrev pqQ32 : UInt32 := 12289

/-- `PQ_Q0I`: the negated inverse of `q` modulo `2 ^ 16`. -/
abbrev pqQ0i : UInt32 := 12287

/-- `PQ_R2`: the square of the radix modulo `q`. -/
abbrev pqR2 : UInt32 := 10952

/-! ### Operations on residues -/

/-- `mq_conv_small`: a small signed number as a residue. -/
def mqConvSmall (x : Int8) : UInt32 :=
  let y := x.toInt32.toUInt32
  y + (pqQ32 &&& ((0 : UInt32) - (y >>> 31)))

/-- `mq_add`: the sum of residues, reduced by a masked subtraction. -/
def mqAdd (x y : UInt32) : UInt32 :=
  let d := x + y - pqQ32
  d + (pqQ32 &&& ((0 : UInt32) - (d >>> 31)))

/-- `mq_sub`: the difference of residues, made positive by a masked addition. -/
def mqSub (x y : UInt32) : UInt32 :=
  let d := x - y
  d + (pqQ32 &&& ((0 : UInt32) - (d >>> 31)))

/-- `mq_rshift1`: half of a residue. -/
def mqRshift1 (x : UInt32) : UInt32 :=
  let x := x + (pqQ32 &&& ((0 : UInt32) - (x &&& 1)))
  x >>> 1

/-- `mq_montymul`: the Montgomery product of residues. -/
def mqMontymul (x y : UInt32) : UInt32 :=
  let z := x * y
  let w := ((z * pqQ0i) &&& 0xFFFF) * pqQ32
  let z := (z + w) >>> 16
  let z := z - pqQ32
  z + (pqQ32 &&& ((0 : UInt32) - (z >>> 31)))

/-- An operation on residues, or the store of a result to an array. The events are what is checked
for safety, with the operands that the code has. -/
inductive MqEvent
  | convSmall (x : Int8)
  | add (x y : UInt32)
  | sub (x y : UInt32)
  | rshift1 (x : UInt32)
  | montymul (x y : UInt32)
  | store (v : UInt32)

/-- Computations on residues, with the log of their operations. -/
abbrev Mq := Logged MqEvent

namespace Op

/-- `mq_conv_small`, with its event. -/
def convSmall (x : Int8) : Mq UInt32 := do
  emit (.convSmall x)
  return mqConvSmall x

/-- `mq_add`, with its event. -/
def add (x y : UInt32) : Mq UInt32 := do
  emit (.add x y)
  return mqAdd x y

/-- `mq_sub`, with its event. -/
def sub (x y : UInt32) : Mq UInt32 := do
  emit (.sub x y)
  return mqSub x y

/-- `mq_rshift1`, with its event. -/
def rshift1 (x : UInt32) : Mq UInt32 := do
  emit (.rshift1 x)
  return mqRshift1 x

/-- `mq_montymul`, with its event. -/
def montymul (x y : UInt32) : Mq UInt32 := do
  emit (.montymul x y)
  return mqMontymul x y

/-- `mq_montysqr`: the Montgomery square of a residue. -/
def montysqr (x : UInt32) : Mq UInt32 := montymul x x

/-- `a[j] = (uint16_t)v` -/
def store (a : Poly16) (j : ℕ) (v : UInt32) : Mq Poly16 := do
  emit (.store v)
  return a.set! j v.toUInt16

end Op

/-- `a[j]`, as a 32-bit operand. -/
def load (a : Poly16) (j : ℕ) : UInt32 := a[j]!.toUInt32

/-! ### The values of the operations -/

/-- The word `x` is the residue of `v`. It is the least one, below `q`. -/
structure Reduced (x : UInt32) (v : ZMod pqQ) : Prop where
  lt : x.toNat < 12289
  cast : (x.toNat : ZMod pqQ) = v

variable {x y : UInt32} {v w : ZMod pqQ}

/-- The last step of several operations: one subtraction of `q`, undone when it borrows. -/
theorem reduced_correct {s : ℕ} (hs : x.toNat = s) (hlt : s < 2 * 12289)
    (hcast : (s : ZMod pqQ) = v) :
    Reduced ((x - pqQ32) + (pqQ32 &&& ((0 : UInt32) - ((x - pqQ32) >>> 31)))) v := by
  have hq : pqQ32.toNat = 12289 := rfl
  have hval := Words.UInt32.toNat_sub_addBack (x := x) (y := pqQ32) (q := pqQ32)
    (by omega) (by omega) (by omega) (by omega)
  rw [hs, hq] at hval
  by_cases hle : s < 12289
  · rw [if_pos hle, Nat.add_sub_cancel] at hval
    exact ⟨by omega, by rw [hval, hcast]⟩
  · rw [if_neg hle] at hval
    refine ⟨by omega, ?_⟩
    rw [hval, Nat.cast_sub (by omega), hcast, ZMod.natCast_self, sub_zero]

/-- The sum is below `q`, and stands for the sum of the residues. -/
theorem reduced_mqAdd (hx : Reduced x v) (hy : Reduced y w) : Reduced (mqAdd x y) (v + w) := by
  have hxlt := hx.lt
  have hylt := hy.lt
  have hsum : (x + y).toNat = x.toNat + y.toNat := by
    rw [UInt32.toNat_add]
    omega
  exact reduced_correct hsum (by omega) (by rw [Nat.cast_add, hx.cast, hy.cast])

/-- The difference is below `q`, and stands for the difference of the residues. -/
theorem reduced_mqSub (hx : Reduced x v) (hy : Reduced y w) : Reduced (mqSub x y) (v - w) := by
  have hxlt := hx.lt
  have hylt := hy.lt
  have hq : pqQ32.toNat = 12289 := rfl
  have hval := Words.UInt32.toNat_sub_addBack (x := x) (y := y) (q := pqQ32)
    (by omega) (by omega) (by omega) (by omega)
  rw [hq] at hval
  change (mqSub x y).toNat = _ at hval
  by_cases hlt : x.toNat < y.toNat
  · rw [if_pos hlt] at hval
    refine ⟨by omega, ?_⟩
    rw [hval, Nat.cast_sub (by omega), Nat.cast_add, hx.cast, hy.cast, ZMod.natCast_self,
      add_zero]
  · rw [if_neg hlt] at hval
    refine ⟨by omega, ?_⟩
    rw [hval, Nat.cast_sub (by omega), hx.cast, hy.cast]

/-- A small integer as a difference of natural numbers. -/
theorem toUInt32_eq_sub (x : Int8) :
    x.toInt32.toUInt32 = UInt32.ofNat x.toInt.toNat - UInt32.ofNat (-x.toInt).toNat := by
  have hlo := x.le_toInt
  have hhi := x.toInt_lt
  have hint : x.toInt32.toUInt32.toBitVec.toInt = x.toInt := x.toInt_toInt32
  rw [BitVec.toInt_eq_toNat_cond] at hint
  apply UInt32.toNat_inj.mp
  rw [UInt32.toNat_sub, UInt32.toNat_ofNat', UInt32.toNat_ofNat']
  change _ = _ at hint
  have hnat : x.toInt32.toUInt32.toNat = x.toInt32.toUInt32.toBitVec.toNat := rfl
  have hlt := x.toInt32.toUInt32.toNat_lt
  split at hint <;> omega

/-- A negative coefficient becomes a residue by adding `q`. -/
theorem reduced_mqConvSmall (x : Int8) : Reduced (mqConvSmall x) (x.toInt : ZMod pqQ) := by
  have hlo := x.le_toInt
  have hhi := x.toInt_lt
  have hq : pqQ32.toNat = 12289 := rfl
  have hpos : (UInt32.ofNat x.toInt.toNat).toNat = x.toInt.toNat := by
    rw [UInt32.toNat_ofNat', Nat.mod_eq_of_lt (by omega)]
  have hneg : (UInt32.ofNat (-x.toInt).toNat).toNat = (-x.toInt).toNat := by
    rw [UInt32.toNat_ofNat', Nat.mod_eq_of_lt (by omega)]
  have hval := Words.UInt32.toNat_sub_addBack (x := UInt32.ofNat x.toInt.toNat)
    (y := UInt32.ofNat (-x.toInt).toNat) (q := pqQ32)
    (by omega) (by omega) (by omega) (by omega)
  rw [← toUInt32_eq_sub, hpos, hneg, hq] at hval
  change (mqConvSmall x).toNat = _ at hval
  by_cases hlt : x.toInt < 0
  · have hint : ((mqConvSmall x).toNat : ℤ) = x.toInt + 12289 := by
      rw [hval, if_pos (by omega)]
      omega
    refine ⟨by omega, ?_⟩
    have hcast := congrArg (Int.cast : ℤ → ZMod pqQ) hint
    rw [Int.cast_natCast, Int.cast_add] at hcast
    have hq : ((12289 : ℤ) : ZMod pqQ) = 0 := ZMod.natCast_self pqQ
    rw [hcast, hq, add_zero]
  · have hint : ((mqConvSmall x).toNat : ℤ) = x.toInt := by
      rw [hval, if_neg (by omega)]
      omega
    refine ⟨by omega, ?_⟩
    have hcast := congrArg (Int.cast : ℤ → ZMod pqQ) hint
    rwa [Int.cast_natCast] at hcast

/-- Halving: an odd residue is made even by adding `q`. -/
theorem reduced_mqRshift1 (hx : Reduced x v) : Reduced (mqRshift1 x) (v / 2) := by
  have hxlt := hx.lt
  have h2 : (2 : ZMod pqQ) ≠ 0 := by decide
  have hbit : (x &&& 1).toNat = x.toNat % 2 := by
    rw [UInt32.toNat_and]
    exact Nat.and_one_is_mod _
  have hhalf : ∀ y : UInt32, (y >>> 1).toNat = y.toNat / 2 := fun y =>
    Words.UInt32.toNat_shiftRight_of_lt y 1 (k := 1) rfl (by norm_num)
  have hval : 2 * (mqRshift1 x).toNat = x.toNat + x.toNat % 2 * 12289 := by
    rw [mqRshift1, hhalf]
    rcases Nat.mod_two_eq_zero_or_one x.toNat with h | h
    · have hmask : x &&& 1 = 0 := UInt32.toNat_inj.mp (by rw [hbit, h]; rfl)
      have hnone : (0 : UInt32) - 0 = 0 := rfl
      rw [hmask, hnone, UInt32.and_zero, UInt32.add_zero]
      omega
    · have hmask : x &&& 1 = 1 := UInt32.toNat_inj.mp (by rw [hbit, h]; rfl)
      have hall : (0 : UInt32) - 1 = -1 := rfl
      rw [hmask, hall, UInt32.and_neg_one, UInt32.toNat_add]
      have hq : pqQ32.toNat = 12289 := rfl
      omega
  refine ⟨by omega, ?_⟩
  have hcast := congrArg (Nat.cast : ℕ → ZMod pqQ) hval
  rw [Nat.cast_mul, Nat.cast_add, Nat.cast_mul, ZMod.natCast_self, mul_zero, add_zero, hx.cast]
    at hcast
  rw [eq_div_iff h2, mul_comm, ← hcast]
  norm_num

/-- **Montgomery multiplication** divides the product by the radix. -/
theorem reduced_mqMontymul (hx : Reduced x v) (hy : Reduced y w) :
    Reduced (mqMontymul x y) (v * w / (pqR : ℕ)) := by
  have hxlt := hx.lt
  have hylt := hy.lt
  have hprod : x.toNat * y.toNat ≤ 12288 * 12288 := Nat.mul_le_mul (by omega) (by omega)
  have hz : (x * y).toNat = x.toNat * y.toNat := by
    rw [UInt32.toNat_mul, Nat.mod_eq_of_lt (by omega)]
  have hlow : ((x * y * pqQ0i) &&& 0xFFFF).toNat = x.toNat * y.toNat * 12287 % 65536 := by
    rw [Words.UInt32.toNat_and_mask _ 0xFFFF (k := 16) rfl, UInt32.toNat_mul, hz]
    exact Nat.mod_mod_of_dvd _ (by norm_num)
  have hw : (((x * y * pqQ0i) &&& 0xFFFF) * pqQ32).toNat =
      Montgomery.fill 65536 12289 12287 (x.toNat * y.toNat) := by
    rw [UInt32.toNat_mul, hlow, Montgomery.fill]
    have hmod := Nat.mod_lt (x.toNat * y.toNat * 12287) (Nat.two_pow_pos 16)
    have hq : pqQ32.toNat = 12289 := rfl
    rw [hq]
    omega
  have hradix : 0 < 65536 := by norm_num
  have hfill := Montgomery.fill_le (q := 12289) (p := 12287) hradix (x.toNat * y.toNat)
  have hsum : ((x * y + ((x * y * pqQ0i) &&& 0xFFFF) * pqQ32) >>> 16).toNat =
      Montgomery.reduce 65536 12289 12287 (x.toNat * y.toNat) := by
    rw [Words.UInt32.toNat_shiftRight_of_lt _ 16 (k := 16) rfl (by norm_num), UInt32.toNat_add,
      hz, hw, Nat.mod_eq_of_lt (by omega)]
    rfl
  refine reduced_correct hsum (Montgomery.reduce_lt (by norm_num) (by omega)) ?_
  have hcast := Montgomery.cast_reduce (R := 65536) (q := 12289) (p := 12287) (by norm_num)
    (x.toNat * y.toNat)
  rw [Nat.cast_mul, hx.cast, hy.cast] at hcast
  rw [eq_div_iff pqR_ne_zero, ← hcast]
  congr 1

/-! ### Safe events -/

/-- The result of an operation on residues; a store has none. -/
def MqEvent.result : MqEvent → Option UInt32
  | .convSmall x => some (mqConvSmall x)
  | .add x y => some (mqAdd x y)
  | .sub x y => some (mqSub x y)
  | .rshift1 x => some (mqRshift1 x)
  | .montymul x y => some (mqMontymul x y)
  | .store _ => none

/-- The exact values of the 32-bit sums and products that an operation forms and uses in full.
The differences, and the additions of `q` that correct them, are not among them. -/
def MqEvent.words : MqEvent → List ℕ
  | .add x y => [x.toNat + y.toNat]
  | .rshift1 x => [x.toNat + 12289]
  | .montymul x y =>
    let z := x.toNat * y.toNat
    let w := Montgomery.fill 65536 12289 12287 z
    [z, w, z + w]
  | _ => []

/-- The exact values of the 32-bit products of which an operation uses the low half only. -/
def MqEvent.maskedWords : MqEvent → List ℕ
  | .montymul x y => [x.toNat * y.toNat * 12287]
  | _ => []

/-- The operands of a difference. It wraps exactly when it borrows, and is then corrected. -/
def MqEvent.Corrected : MqEvent → Prop
  | .sub x y => x.toNat < 12289 ∧ y.toNat < 12289
  | _ => True

/-- No uint16 store truncates. -/
def MqEvent.Stored : MqEvent → Prop
  | .store v => v.toUInt16.toNat = v.toNat
  | _ => True

/-- An event with its result in range, no wrap other than a correction, and no truncation. The wrap
in the Montgomery product is intended, and left out. -/
structure MqEvent.Safe (e : MqEvent) : Prop where
  result_lt : ∀ r, e.result = some r → r.toNat < 12289
  words_lt : ∀ z ∈ e.words, z < 2 ^ 32
  corrected : e.Corrected
  stored : e.Stored

/-- An operation with a safe event is safe, and returns what it computes. -/
theorem Op.ensures {e : MqEvent} {r : UInt32} (he : e.Safe) (hr : Reduced r v) :
    Ensures MqEvent.Safe (emit e >>= fun _ => pure r) (Reduced · v) :=
  (Ensures.emit he).bind fun _ _ => Ensures.pure hr

/-- The conversion of a small coefficient is safe. -/
theorem Op.convSmall_ensures (x : Int8) :
    Ensures MqEvent.Safe (Op.convSmall x) (Reduced · (x.toInt : ZMod pqQ)) := by
  have hr := reduced_mqConvSmall x
  refine Op.ensures ⟨?_, by simp [MqEvent.words], trivial, trivial⟩ hr
  rintro r ⟨⟩
  exact hr.lt

/-- A sum of residues below `q` is safe. -/
theorem Op.add_ensures (hx : Reduced x v) (hy : Reduced y w) :
    Ensures MqEvent.Safe (Op.add x y) (Reduced · (v + w)) := by
  have hr := reduced_mqAdd hx hy
  have hxlt := hx.lt
  have hylt := hy.lt
  refine Op.ensures ⟨?_, ?_, trivial, trivial⟩ hr
  · rintro r ⟨⟩
    exact hr.lt
  · intro z hz
    obtain rfl := List.mem_singleton.mp hz
    omega

/-- A difference of residues below `q` is safe. -/
theorem Op.sub_ensures (hx : Reduced x v) (hy : Reduced y w) :
    Ensures MqEvent.Safe (Op.sub x y) (Reduced · (v - w)) := by
  have hr := reduced_mqSub hx hy
  refine Op.ensures ⟨?_, by simp [MqEvent.words], ⟨hx.lt, hy.lt⟩, trivial⟩ hr
  rintro r ⟨⟩
  exact hr.lt

/-- Halving a residue below `q` is safe. -/
theorem Op.rshift1_ensures (hx : Reduced x v) :
    Ensures MqEvent.Safe (Op.rshift1 x) (Reduced · (v / 2)) := by
  have hr := reduced_mqRshift1 hx
  have hxlt := hx.lt
  refine Op.ensures ⟨?_, ?_, trivial, trivial⟩ hr
  · rintro r ⟨⟩
    exact hr.lt
  · intro z hz
    obtain rfl := List.mem_singleton.mp hz
    omega

/-- A Montgomery product of residues below `q` is safe. -/
theorem Op.montymul_ensures (hx : Reduced x v) (hy : Reduced y w) :
    Ensures MqEvent.Safe (Op.montymul x y) (Reduced · (v * w / (pqR : ℕ))) := by
  have hr := reduced_mqMontymul hx hy
  have hxlt := hx.lt
  have hylt := hy.lt
  refine Op.ensures ⟨?_, ?_, trivial, trivial⟩ hr
  · rintro r ⟨⟩
    exact hr.lt
  · have hprod : x.toNat * y.toNat ≤ 12288 * 12288 := Nat.mul_le_mul (by omega) (by omega)
    have hradix : 0 < 65536 := by norm_num
    have hfill := Montgomery.fill_le (q := 12289) (p := 12287) hradix (x.toNat * y.toNat)
    intro z hz
    simp only [MqEvent.words, List.mem_cons, List.not_mem_nil, or_false] at hz
    omega

end FalconVanity
