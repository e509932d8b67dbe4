import FalconVanity.PubkeyCodec

/-!
# Signed Coefficients in a Fixed Width

The polynomials of a private key, and those of a signature of constant length, are written in
two's complement with a fixed number of bits. The encoders refuse what leaves the symmetric range,
and the decoders refuse the one value of the width outside of it: the encodings that are
accepted are those that the encoders write. Both decoders are one loop, which differs in the type
of what it stores.

## Main results

* `packBits_spec`: the bytes of the encoders are the digits of the number they were given.
* `trimDecode_eq_some_iff`: the decoders return the digits of the number that they read, with
  their signs extended.
* `trimI8Decode_eq_some_iff`, `trimI16Decode_eq_some_iff`: what is accepted is what is written.
-/

namespace FalconVanity

open Positional Words

/-! ### The decoders -/

section Decoder

variable {α : Type}

/-- `w |= -(w & mask2)` -/
def trimExtend (bits : ℕ) (w : UInt32) : UInt32 :=
  let mask2 : UInt32 := (1 : UInt32) <<< (bits - 1).toUInt32
  w ||| ((0 : UInt32) - (w &&& mask2))

/-- The inner loop of the decoders: values leave the accumulator, until there are `n`. -/
def trimTake (store : UInt32 → α) (bits n : ℕ) (acc : UInt32) (accLen : ℕ) (x : List α) :
    Option (ℕ × List α) :=
  if accLen ≥ bits ∧ x.length < n then
    let mask1 : UInt32 := (1 : UInt32) <<< bits.toUInt32 - 1
    let mask2 : UInt32 := (1 : UInt32) <<< (bits - 1).toUInt32
    let accLen := accLen - bits
    let w := trimExtend bits ((acc >>> accLen.toUInt32) &&& mask1)
    if w = 0 - mask2 then none else trimTake store bits n acc accLen (x ++ [store w])
  else some (accLen, x)
termination_by n - x.length
decreasing_by
  rename_i h _
  rw [List.length_append, List.length_singleton]
  omega

/-- The body of the outer loop of the decoders: `none` for the return value 0. -/
def trimDecodeStep (store : UInt32 → α) (bits n : ℕ) (s : UInt32 × ℕ × List α) (b : UInt8) :
    Option (UInt32 × ℕ × List α) :=
  let (acc, accLen, x) := s
  let acc := acc <<< 8 ||| b.toUInt32
  (trimTake store bits n acc (accLen + 8) x).map fun (accLen, x) => (acc, accLen, x)

/-- The outer loop of the decoders: `none` for the return value 0, or when the bytes run out,
which would be a read beyond the buffer. -/
def trimDecodeLoop (store : UInt32 → α) (bits n : ℕ) :
    List UInt8 → UInt32 × ℕ × List α → Option (UInt32 × ℕ × List α)
  | [], s => if s.2.2.length < n then none else some s
  | b :: buf, s =>
    if s.2.2.length < n then
      (trimDecodeStep store bits n s b).bind (trimDecodeLoop store bits n buf)
    else some s

/-- The decoders, for `logn = 10`: the number of bytes read, and the values. -/
def trimDecode [Inhabited α] (store : UInt32 → α) (bits : ℕ) (buf : List UInt8)
    (maxInLen : ℕ) : Option (ℕ × Vector α 1024) :=
  let n := 1 <<< 10
  let inLen := (n * bits + 7) >>> 3
  if inLen > maxInLen then none
  else
    (trimDecodeLoop store bits n buf (0, 0, [])).bind fun (acc, accLen, x) =>
      if (acc &&& ((1 : UInt32) <<< accLen.toUInt32 - 1)) ≠ 0 then none
      else some (inLen, Vector.ofFn fun i => x.getD i default)

end Decoder

/-- `trim_i8_decode`: the coefficients in a fixed number of bits. The pattern of the least number
is rejected. -/
def trimI8Decode (bits : ℕ) (buf : List UInt8) (maxInLen : ℕ) : Option (ℕ × SmallPoly) :=
  trimDecode (fun w => w.toInt32.toInt8) bits buf maxInLen

/-- An array of 1024 signed 16-bit words. -/
abbrev PolyS16 := Vector Int16 1024

/-- `trim_i16_decode`, which extends the sign twice. -/
def trimI16Decode (bits : ℕ) (buf : List UInt8) (maxInLen : ℕ) : Option (ℕ × PolyS16) :=
  trimDecode (fun w => (trimExtend bits w).toInt32.toInt16) bits buf maxInLen

/-- `trim_i16_encode`: the number of bytes written, and the bytes. -/
def trimI16Encode (maxOutLen : ℕ) (x : PolyS16) (bits : ℕ) : Option (ℕ × List UInt8) :=
  let maxv : ℤ := 2 ^ (bits - 1) - 1
  let minv : ℤ := -maxv
  if x.toList.any (fun c => decide (c.toInt < minv ∨ c.toInt > maxv)) then none
  else
    let outLen := (1024 * bits + 7) >>> 3
    if outLen > maxOutLen then none
    else
      let mask : UInt32 := (1 : UInt32) <<< bits.toUInt32 - 1
      some (outLen, packBits bits (x.toList.map fun c => c.toUInt16.toUInt32 &&& mask))

/-! ### The encoders -/

/-- The state of an encoder of items of `w` bits, after some items: the number that they denote,
of which the accumulator holds the low 32 bits, while all but the low bits that wait are
written. -/
structure Packed (w : ℕ) (xs : List ℕ) (s : UInt32 × ℕ × List UInt8) : Prop where
  acc : s.1.toNat = ofDigitsBE (2 ^ w) xs % 2 ^ 32
  waiting : s.2.1 < 8
  emitted : Emitted 8 (ofDigitsBE (2 ^ w) xs) s.2.1 (s.2.2.map UInt8.toNat)

variable {w : ℕ}

/-- A value of `w` bits is packed after the others. -/
theorem Packed.packStep {xs : List ℕ} {s : UInt32 × ℕ × List UInt8} (h : Packed w xs s)
    (hw : w ≤ 24) {x : UInt32} (hx : x.toNat < 2 ^ w) :
    Packed w (xs ++ [x.toNat]) (packStep w s x) := by
  obtain ⟨-, hlt⟩ := packStep_length w s x
  have hfit : s.2.1 + w ≤ 32 := by
    have hwait : s.2.1 < 8 := h.waiting
    omega
  have hacc : (s.1 <<< w.toUInt32 ||| x).toNat =
      (ofDigitsBE (2 ^ w) xs * 2 ^ w + x.toNat) % 2 ^ 32 := by
    rw [UInt32.toNat_shiftLeft_or s.1 (by omega) hx, h.acc, Nat.add_mod, Nat.mod_mul_mod,
      ← Nat.add_mod]
  refine ⟨?_, hlt, ?_⟩
  · rw [ofDigitsBE_concat]
    exact hacc
  · rw [ofDigitsBE_concat]
    exact flushBytes_spec hacc hfit (h.emitted.read hx)

/-- All values are packed one after the other. -/
theorem packed_foldl (hw : w ≤ 24) (ws : List UInt32) (hws : ∀ x ∈ ws, x.toNat < 2 ^ w) :
    Packed w (ws.map UInt32.toNat) (ws.foldl (packStep w) (0, 0, [])) := by
  induction ws using List.reverseRecOn with
  | nil => exact ⟨rfl, by norm_num, Emitted.nil _ _ _⟩
  | append_singleton ws x ih =>
      rw [List.foldl_append, List.map_append]
      exact (ih fun v hv => hws v (List.mem_append_left _ hv)).packStep hw
        (hws x (List.mem_append_right _ (List.mem_singleton_self x)))

/-- **The bytes of the encoders.** When the items fill whole bytes, the bytes are the digits of
the number whose digits are the items. -/
theorem packBits_spec (hw : w ≤ 24) {ws : List UInt32} (hws : ∀ x ∈ ws, x.toNat < 2 ^ w) {m : ℕ}
    (hm : ws.length * w = 8 * m) :
    (packBits w ws).map UInt8.toNat =
      digitsBE (2 ^ 8) m (ofDigitsBE (2 ^ w) (ws.map UInt32.toNat)) := by
  have hspec := packed_foldl hw ws hws
  obtain ⟨hlen, hlt⟩ := foldl_packStep_length w ws (0, 0, []) (by norm_num)
  have hemitted := hspec.emitted
  rw [packBits]
  generalize ws.foldl (packStep w) (0, 0, []) = s at *
  obtain ⟨acc, accLen, buf⟩ := s
  simp only [List.length_nil] at hlen hlt hemitted ⊢
  obtain ⟨hbuf, rfl⟩ : buf.length = m ∧ accLen = 0 := by omega
  rw [if_neg (lt_irrefl 0)]
  rw [Emitted, List.length_map, hbuf, pow_zero, Nat.div_one] at hemitted
  exact hemitted

/-! ### The sign -/

/-- The value of an item of `k + 1` bits in two's complement. -/
def signedDigit (k d : ℕ) : ℤ := if d < 2 ^ k then (d : ℤ) else (d : ℤ) - 2 ^ (k + 1)

/-- The item of `k + 1` bits that stands for a value. -/
def digitOf (k : ℕ) (z : ℤ) : ℕ := (z % 2 ^ (k + 1)).toNat

/-- **Two's complement** without its smallest value. -/
theorem digitOf_eq_iff {k d : ℕ} {z : ℤ} (hd : d < 2 ^ (k + 1)) :
    digitOf k z = d ∧ |z| ≤ 2 ^ k - 1 ↔ signedDigit k d = z ∧ d ≠ 2 ^ k := by
  have hpow : (2 : ℤ) ^ (k + 1) = 2 * 2 ^ k := pow_succ' 2 k
  have hnat : 2 ^ (k + 1) = 2 * 2 ^ k := pow_succ' 2 k
  have hcast : ((2 ^ k : ℕ) : ℤ) = 2 ^ k := by push_cast; rfl
  have hpos := Nat.two_pow_pos k
  rw [digitOf, signedDigit, abs_le, hpow]
  constructor
  · rintro ⟨rfl, hlo, hhi⟩
    rcases lt_or_ge z 0 with hneg | hpos'
    · have hmod : z % (2 * 2 ^ k) = z + 2 * 2 ^ k := by
        rw [← Int.add_emod_right, Int.emod_eq_of_lt (by omega) (by omega)]
      rw [hmod, if_neg (by omega)]
      omega
    · rw [Int.emod_eq_of_lt hpos' (by omega), if_pos (by omega)]
      omega
  · rintro ⟨rfl, hne⟩
    split
    · rename_i hlt
      rw [Int.emod_eq_of_lt (by omega) (by omega)]
      omega
    · rw [← Int.add_emod_right, Int.emod_eq_of_lt (by omega) (by omega)]
      omega

/-- The mask of one bit. -/
theorem and_one_shiftLeft (x : UInt32) {k : ℕ} (hk : k < 32) :
    x &&& (1 : UInt32) <<< k.toUInt32 =
      if x.toNat.testBit k then (1 : UInt32) <<< k.toUInt32 else 0 := by
  apply UInt32.toNat_inj.mp
  rw [UInt32.toNat_and, UInt32.toNat_one_shiftLeft hk, Words.Nat.and_two_pow]
  split
  · rw [UInt32.toNat_one_shiftLeft hk]
  · rfl

/-- The negation of one bit is the bit, and all ones above it. -/
theorem toNat_neg_one_shiftLeft {k : ℕ} (hk : k < 31) :
    ((0 : UInt32) - (1 : UInt32) <<< k.toUInt32).toNat = 2 ^ 32 - 2 ^ (k + 1) ||| 2 ^ k := by
  have hpow : 2 ^ (k + 1) = 2 * 2 ^ k := pow_succ' 2 k
  have hle : 2 ^ (k + 1) ≤ 2 ^ 32 := Nat.pow_le_pow_right (by norm_num) (by omega)
  have hdvd : 2 ^ (k + 1) ∣ 2 ^ 32 - 2 ^ (k + 1) :=
    Nat.dvd_sub (Nat.pow_dvd_pow 2 (by omega)) dvd_rfl
  have hpos := Nat.two_pow_pos k
  rw [UInt32.toNat_sub, UInt32.toNat_one_shiftLeft (by omega), UInt32.toNat_zero,
    Nat.or_eq_add_of_dvd hdvd (by omega)]
  omega

/-- **The sign extension** of a word. -/
theorem trimExtend_eq {k : ℕ} (hk : k < 31) (x : UInt32) :
    trimExtend (k + 1) x = if x.toNat.testBit k
      then x ||| ((0 : UInt32) - (1 : UInt32) <<< k.toUInt32) else x := by
  rw [trimExtend, Nat.add_sub_cancel, and_one_shiftLeft x (by omega)]
  have hzero : (0 : UInt32) - 0 = 0 := rfl
  split
  · rfl
  · rw [hzero, UInt32.or_zero]

/-- A second extension changes nothing. -/
theorem trimExtend_trimExtend {k : ℕ} (hk : k < 31) (x : UInt32) :
    trimExtend (k + 1) (trimExtend (k + 1) x) = trimExtend (k + 1) x := by
  rw [trimExtend_eq hk (trimExtend (k + 1) x), trimExtend_eq hk x]
  by_cases hbit : x.toNat.testBit k = true
  · rw [if_pos hbit, UInt32.or_assoc, UInt32.or_self, ite_self]
  · rw [if_neg hbit, if_neg hbit]

/-- The sign is extended to 32 bits. -/
theorem toNat_trimExtend {k : ℕ} (hk : k < 31) {x : UInt32} (hx : x.toNat < 2 ^ (k + 1)) :
    (trimExtend (k + 1) x).toNat =
      if x.toNat < 2 ^ k then x.toNat else 2 ^ 32 - 2 ^ (k + 1) + x.toNat := by
  have hpow : 2 ^ (k + 1) = 2 * 2 ^ k := pow_succ' 2 k
  have hdvd : 2 ^ (k + 1) ∣ 2 ^ 32 - 2 ^ (k + 1) :=
    Nat.dvd_sub (Nat.pow_dvd_pow 2 (by omega)) dvd_rfl
  rw [trimExtend_eq hk]
  by_cases hlt : x.toNat < 2 ^ k
  · rw [Nat.testBit_lt_two_pow hlt, if_pos hlt]
    rfl
  · obtain ⟨e, he⟩ : ∃ e, x.toNat = 2 ^ k + e := ⟨x.toNat - 2 ^ k, by omega⟩
    have hbit : x.toNat.testBit k = true := by
      rw [he, Nat.testBit_two_pow_add_eq, Nat.testBit_lt_two_pow (by omega)]
      rfl
    have hself : x.toNat ||| 2 ^ k = x.toNat := by
      rw [he, ← Nat.or_eq_add_of_dvd dvd_rfl (by omega), Nat.or_comm, ← Nat.or_assoc,
        Nat.or_self]
    rw [if_pos hbit, if_neg hlt, UInt32.toNat_or, toNat_neg_one_shiftLeft hk,
      Nat.or_comm _ (2 ^ k), ← Nat.or_assoc, hself, Nat.or_comm, Nat.or_eq_add_of_dvd hdvd hx]

/-- An item with its sign extended, as a signed number. -/
theorem toInt_trimExtend {k : ℕ} (hk : k < 31) {x : UInt32} (hx : x.toNat < 2 ^ (k + 1)) :
    (trimExtend (k + 1) x).toInt32.toInt = signedDigit k x.toNat := by
  have hpow : 2 ^ (k + 1) = 2 * 2 ^ k := pow_succ' 2 k
  have hle : 2 ^ (k + 1) ≤ 2 ^ 31 := Nat.pow_le_pow_right (by norm_num) (by omega)
  have hcast : ((2 ^ (k + 1) : ℕ) : ℤ) = 2 ^ (k + 1) := by push_cast; rfl
  rw [UInt32.toInt_toInt32, toNat_trimExtend hk hx, signedDigit]
  by_cases hlt : x.toNat < 2 ^ k
  · rw [if_pos hlt, if_pos hlt, if_pos (by omega)]
  · rw [if_neg hlt, if_neg hlt, if_neg (by omega)]
    omega

/-- The value that the decoders refuse. -/
theorem trimExtend_eq_iff {k : ℕ} (hk : k < 31) {x : UInt32} (hx : x.toNat < 2 ^ (k + 1)) :
    trimExtend (k + 1) x = 0 - (1 : UInt32) <<< (k + 1 - 1).toUInt32 ↔ x.toNat = 2 ^ k := by
  have hmask : ((1 : UInt32) <<< (k + 1 - 1).toUInt32).toNat = 2 ^ k :=
    UInt32.toNat_one_shiftLeft (by omega)
  have hpow : 2 ^ (k + 1) = 2 * 2 ^ k := pow_succ' 2 k
  have hpos := Nat.two_pow_pos k
  have hle : 2 ^ (k + 1) ≤ 2 ^ 31 := Nat.pow_le_pow_right (by norm_num) (by omega)
  rw [← UInt32.toNat_inj, toNat_trimExtend hk hx, UInt32.toNat_sub, hmask, UInt32.toNat_zero]
  split <;> omega

/-! ### The decoders, byte by byte -/

section Decoder

variable {α : Type} {store : UInt32 → α} {k total togo : ℕ} {s : UInt32 × ℕ × List α}

/-- What the decoders store for an item of `k + 1` bits. -/
def trimItem (store : UInt32 → α) (k d : ℕ) : α := store (trimExtend (k + 1) (UInt32.ofNat d))

/-- The state of a decoder of a buffer, with some bytes to go: `total` is the number that all
bytes denote. -/
structure Trimmed (store : UInt32 → α) (k total togo : ℕ) (s : UInt32 × ℕ × List α) : Prop where
  acc : s.1.toNat = total / (2 ^ 8) ^ togo % 2 ^ 32
  length : (k + 1) * s.2.2.length + s.2.1 + 8 * togo = (k + 1) * 1024
  items : s.2.2 =
    ((digitsBE (2 ^ (k + 1)) 1024 total).take s.2.2.length).map (trimItem store k)
  allowed : ∀ d ∈ (digitsBE (2 ^ (k + 1)) 1024 total).take s.2.2.length, d ≠ 2 ^ k

/-- The value that leaves the accumulator is the next digit. -/
theorem Trimmed.toNat_value (h : Trimmed store k total togo s) (hfit : s.2.1 ≤ 32)
    (hk : k < 31) (hge : k + 1 ≤ s.2.1) (hmore : s.2.2.length < 1024) :
    ∃ d ∈ digitsBE (2 ^ (k + 1)) 1024 total,
      (s.1 >>> (s.2.1 - (k + 1)).toUInt32) &&& ((1 : UInt32) <<< (k + 1).toUInt32 - 1) =
          UInt32.ofNat d ∧ d < 2 ^ (k + 1) ∧
        (digitsBE (2 ^ (k + 1)) 1024 total).take (s.2.2.length + 1) =
          (digitsBE (2 ^ (k + 1)) 1024 total).take s.2.2.length ++ [d] := by
  have hlength := h.length
  have hlt : s.2.2.length < (digitsBE (2 ^ (k + 1)) 1024 total).length := by
    rwa [length_digitsBE]
  have hdigit := lt_of_mem_digitsBE (Nat.two_pow_pos (k + 1)) (List.getElem_mem hlt)
  have hexp : (2 ^ (k + 1)) ^ (1024 - 1 - s.2.2.length) =
      (2 ^ 8) ^ togo * 2 ^ (s.2.1 - (k + 1)) := by
    obtain ⟨m, hm⟩ : ∃ m, 1024 = s.2.2.length + 1 + m := ⟨1024 - 1 - s.2.2.length, by omega⟩
    have hrest : 1024 - 1 - s.2.2.length = m := by omega
    rw [hm, Nat.mul_add, Nat.mul_add, Nat.mul_one] at hlength
    rw [hrest, ← pow_mul, ← pow_mul, ← pow_add]
    congr 1
    omega
  refine ⟨_, List.getElem_mem hlt, ?_, hdigit, (List.take_concat_get' _ _ hlt).symm⟩
  have hle : 2 ^ (k + 1) ≤ 2 ^ 31 := Nat.pow_le_pow_right (by norm_num) (by omega)
  apply UInt32.toNat_inj.mp
  rw [UInt32.toNat_and_mask _ _ (UInt32.toNat_lowMask (by omega)),
    toNat_shiftRight_mod h.acc (by omega) (by omega), UInt32.toNat_ofNat',
    Nat.mod_eq_of_lt (hdigit.trans_le (by omega)), getElem_digitsBE, hexp,
    Nat.div_div_eq_div_mul]

/-- **The inner loop**: values are checked and stored while there are bits for them. -/
theorem trimTake_spec (hk : k < 31) {acc : UInt32} {accLen : ℕ} {x : List α}
    (h : Trimmed store k total togo (acc, accLen, x)) (hfit : accLen ≤ 32) :
    (∀ r, trimTake store (k + 1) 1024 acc accLen x = some r →
      Trimmed store k total togo (acc, r) ∧ r.1 < k + 1) ∧
    ((∀ d ∈ digitsBE (2 ^ (k + 1)) 1024 total, d ≠ 2 ^ k) →
      (trimTake store (k + 1) 1024 acc accLen x).isSome) := by
  induction accLen using Nat.strong_induction_on generalizing x with
  | _ accLen ih =>
      have hlength : (k + 1) * x.length + accLen + 8 * togo = (k + 1) * 1024 := h.length
      rw [trimTake]
      by_cases hgo : accLen ≥ k + 1 ∧ x.length < 1024
      · obtain ⟨d, hmem, hvalue, hd, htake⟩ := h.toNat_value hfit hk hgo.1 hgo.2
        dsimp only at hvalue htake
        rw [if_pos hgo]
        simp only [hvalue]
        have hnat : (UInt32.ofNat d).toNat = d := by
          have hle : 2 ^ (k + 1) ≤ 2 ^ 31 := Nat.pow_le_pow_right (by norm_num) (by omega)
          rw [UInt32.toNat_ofNat', Nat.mod_eq_of_lt (hd.trans_le (by omega))]
        have hbad := trimExtend_eq_iff hk (x := UInt32.ofNat d) (by rwa [hnat])
        rw [hnat] at hbad
        by_cases hforbidden : d = 2 ^ k
        · rw [if_pos (hbad.mpr hforbidden)]
          exact ⟨fun r hr => (Option.some_ne_none r hr.symm).elim,
            fun hall => absurd hforbidden (hall d hmem)⟩
        · rw [if_neg (mt hbad.mp hforbidden)]
          have hnext : Trimmed store k total togo
              (acc, accLen - (k + 1), x ++ [store (trimExtend (k + 1) (UInt32.ofNat d))]) := by
            refine ⟨h.acc, ?_, ?_, ?_⟩
            · dsimp only
              rw [List.length_append, List.length_singleton, Nat.mul_add, Nat.mul_one]
              omega
            · rw [List.length_append, List.length_singleton, htake, List.map_append]
              exact congrArg (· ++ _) h.items
            · rw [List.length_append, List.length_singleton, htake]
              intro d' hd'
              rcases List.mem_append.mp hd' with hd' | hd'
              · exact h.allowed d' hd'
              · rw [List.mem_singleton.mp hd']
                exact hforbidden
          exact ih (accLen - (k + 1)) (by omega) hnext (by omega)
      · rw [if_neg hgo]
        refine ⟨fun r hr => ?_, fun _ => rfl⟩
        obtain rfl := Option.some.inj hr
        refine ⟨h, ?_⟩
        by_cases hlt : accLen < k + 1
        · exact hlt
        · have hfull : 1024 ≤ x.length := by omega
          have hmul : (k + 1) * 1024 ≤ (k + 1) * x.length := Nat.mul_le_mul_left _ hfull
          dsimp only
          omega

/-- **One byte.** -/
theorem Trimmed.step (hk : k < 25) (h : Trimmed store k total (togo + 1) s)
    (hwait : s.2.1 < k + 1) {b : UInt8} (hb : b.toNat = total / (2 ^ 8) ^ togo % 2 ^ 8) :
    (∀ s', trimDecodeStep store (k + 1) 1024 s b = some s' →
      Trimmed store k total togo s' ∧ s'.2.1 < k + 1) ∧
    ((∀ d ∈ digitsBE (2 ^ (k + 1)) 1024 total, d ≠ 2 ^ k) →
      (trimDecodeStep store (k + 1) 1024 s b).isSome) := by
  obtain ⟨acc, accLen, x⟩ := s
  have hlength := h.length
  have hlt : b.toUInt32.toNat < 2 ^ 8 := by
    rw [UInt8.toNat_toUInt32]
    exact b.toNat_lt
  have hacc : (acc <<< 8 ||| b.toUInt32).toNat = total / (2 ^ 8) ^ togo % 2 ^ 32 := by
    have hor := UInt32.toNat_shiftLeft_or acc (k := 8) (by norm_num) hlt
    rw [h.acc, UInt8.toNat_toUInt32, hb, Nat.add_mod, Nat.mod_mul_mod, ← Nat.add_mod, pow_succ,
      ← Nat.div_div_eq_div_mul, Nat.div_add_mod'] at hor
    exact hor
  have hread : Trimmed store k total togo (acc <<< 8 ||| b.toUInt32, accLen + 8, x) :=
    ⟨hacc, by dsimp only at hlength ⊢; omega, h.items, h.allowed⟩
  obtain ⟨hkeep, hsome⟩ := trimTake_spec (by omega) hread (by dsimp only at hwait; omega)
  rw [trimDecodeStep]
  refine ⟨fun s' hs' => ?_, fun hall => ?_⟩
  · obtain ⟨r, hr, rfl⟩ := Option.map_eq_some_iff.mp hs'
    exact hkeep r hr
  · rw [Option.isSome_map]
    exact hsome hall

/-- **The outer loop**, to the last byte that it needs. -/
theorem trimDecodeLoop_spec (rest : List UInt8) (hk : k < 25) {buf : List UInt8}
    (h : Trimmed store k total buf.length s) (hwait : s.2.1 < k + 1)
    (hbuf : buf.map UInt8.toNat = digitsBE (2 ^ 8) buf.length total) :
    (∀ s', trimDecodeLoop store (k + 1) 1024 (buf ++ rest) s = some s' →
      Trimmed store k total 0 s' ∧ s'.2.1 < k + 1) ∧
    ((∀ d ∈ digitsBE (2 ^ (k + 1)) 1024 total, d ≠ 2 ^ k) →
      (trimDecodeLoop store (k + 1) 1024 (buf ++ rest) s).isSome) := by
  induction buf generalizing s with
  | nil =>
      have hlength := h.length
      rw [List.length_nil, Nat.mul_zero, Nat.add_zero] at hlength
      have hdone : ¬ s.2.2.length < 1024 := by
        intro hlt
        have hmul : (k + 1) * (s.2.2.length + 1) ≤ (k + 1) * 1024 := Nat.mul_le_mul_left _ hlt
        rw [Nat.mul_add, Nat.mul_one] at hmul
        omega
      have hstop : trimDecodeLoop store (k + 1) 1024 rest s = some s := by
        rcases rest with _ | ⟨b, rest⟩
        · rw [trimDecodeLoop, if_neg hdone]
        · rw [trimDecodeLoop, if_neg hdone]
      rw [List.nil_append, hstop]
      refine ⟨fun s' hs' => ?_, fun _ => rfl⟩
      obtain rfl := Option.some.inj hs'
      exact ⟨h, hwait⟩
  | cons b buf ih =>
      have hlength := h.length
      rw [List.length_cons] at hlength
      have hmore : s.2.2.length < 1024 := by
        by_contra hge
        have hmul : (k + 1) * 1024 ≤ (k + 1) * s.2.2.length := Nat.mul_le_mul_left _ (by omega)
        omega
      rw [List.length_cons, Nat.add_comm, digitsBE_add, List.map_cons] at hbuf
      obtain ⟨hb, hrest⟩ := List.cons.inj hbuf
      obtain ⟨hkeep, hsome⟩ := Trimmed.step hk h hwait hb
      rw [List.cons_append, trimDecodeLoop, if_pos hmore]
      refine ⟨fun s' hs' => ?_, fun hall => ?_⟩
      · obtain ⟨s₁, hs₁, hs'⟩ := Option.bind_eq_some_iff.mp hs'
        exact (ih (hkeep s₁ hs₁).1 (hkeep s₁ hs₁).2 hrest).1 s' hs'
      · obtain ⟨s₁, hs₁⟩ := Option.isSome_iff_exists.mp (hsome hall)
        rw [hs₁, Option.bind_some]
        exact (ih (hkeep s₁ hs₁).1 (hkeep s₁ hs₁).2 hrest).2 hall

/-- **The decoders** return the digits of the number that they read, with their signs extended,
unless one of them is refused. -/
theorem trimDecode_eq_some_iff [Inhabited α] (hk : k < 25) {buf : List UInt8}
    (hlen : 128 * (k + 1) ≤ buf.length) {m v : ℕ} {x : Vector α 1024} :
    trimDecode store (k + 1) buf m = some (v, x) ↔
      v = 128 * (k + 1) ∧ v ≤ m ∧
        (∀ d ∈ digitsBE (2 ^ (k + 1)) 1024 (bytesValue (buf.take v)), d ≠ 2 ^ k) ∧
        x.toList = (digitsBE (2 ^ (k + 1)) 1024 (bytesValue (buf.take v))).map
          (trimItem store k) := by
  have hin : (1 <<< 10 * (k + 1) + 7) >>> 3 = 128 * (k + 1) := by
    rw [Nat.shiftRight_eq_div_pow]
    have hone : (1 <<< 10 : ℕ) = 1024 := rfl
    rw [hone]
    omega
  have htake : (buf.take (128 * (k + 1))).length = 128 * (k + 1) := by
    rw [List.length_take]
    omega
  set total := bytesValue (buf.take (128 * (k + 1))) with htotal
  have hdigits : (buf.take (128 * (k + 1))).map UInt8.toNat =
      digitsBE (2 ^ 8) (buf.take (128 * (k + 1))).length total := (digitsBE_bytes _).symm
  have hlt : total < (2 ^ 8) ^ (buf.take (128 * (k + 1))).length := ofDigitsBE_bytes_lt _
  have hstart : Trimmed store k total (buf.take (128 * (k + 1))).length (0, 0, []) := by
    refine ⟨?_, ?_, rfl, fun d hd => ?_⟩
    · rw [Nat.div_eq_of_lt hlt]
      rfl
    · rw [htake]
      dsimp only [List.length_nil]
      omega
    · rw [List.length_nil, List.take_zero] at hd
      exact absurd hd List.not_mem_nil
  obtain ⟨hkeep, hsome⟩ := trimDecodeLoop_spec (buf.drop (128 * (k + 1))) hk hstart (Nat.succ_pos k)
    hdigits
  rw [List.take_append_drop] at hkeep hsome
  -- At the end of the loop no bit waits, and all values are there.
  have hdone : ∀ s : UInt32 × ℕ × List α, Trimmed store k total 0 s → s.2.1 < k + 1 →
      s.2.1 = 0 ∧ s.2.2 = (digitsBE (2 ^ (k + 1)) 1024 total).map (trimItem store k) ∧
        ∀ d ∈ digitsBE (2 ^ (k + 1)) 1024 total, d ≠ 2 ^ k := by
    intro s hs hwait
    have hlength := hs.length
    have hcount : s.2.2.length = 1024 := by
      rcases Nat.lt_trichotomy s.2.2.length 1024 with hlt | heq | hgt
      · have hmul : (k + 1) * (s.2.2.length + 1) ≤ (k + 1) * 1024 := Nat.mul_le_mul_left _ hlt
        rw [Nat.mul_add, Nat.mul_one] at hmul
        omega
      · exact heq
      · have hmul : (k + 1) * (1024 + 1) ≤ (k + 1) * s.2.2.length := Nat.mul_le_mul_left _ hgt
        omega
    have hall : (digitsBE (2 ^ (k + 1)) 1024 total).take s.2.2.length =
        digitsBE (2 ^ (k + 1)) 1024 total := by
      rw [hcount]
      exact List.take_of_length_le (length_digitsBE _ _ _).le
    have hitems := hs.items
    have hallowed := hs.allowed
    rw [hall] at hitems hallowed
    rw [hcount] at hlength
    exact ⟨by omega, hitems, hallowed⟩
  have hmask : ∀ acc : UInt32, acc &&& ((1 : UInt32) <<< (0 : ℕ).toUInt32 - 1) = 0 :=
    fun acc => UInt32.and_zero
  rw [trimDecode]
  simp only [hin]
  by_cases hm : 128 * (k + 1) > m
  · rw [if_pos hm]
    refine iff_of_false (fun h => Option.some_ne_none _ h.symm) ?_
    rintro ⟨rfl, hle, -⟩
    omega
  · rw [if_neg hm, Option.bind_eq_some_iff]
    constructor
    · rintro ⟨⟨acc, accLen, xs⟩, hloop, hout⟩
      obtain ⟨hs, hwait⟩ := hkeep _ hloop
      obtain ⟨hzero, hitems, hallowed⟩ := hdone _ hs hwait
      dsimp only at hzero hitems hout
      subst hzero
      rw [hmask, if_neg (fun hne => hne rfl)] at hout
      obtain ⟨rfl, hx⟩ := Prod.mk.inj (Option.some.inj hout)
      refine ⟨rfl, by omega, hallowed, ?_⟩
      rw [← hitems]
      refine (ofFn_getD_eq_iff ?_ default).mp hx
      rw [hitems, List.length_map, length_digitsBE]
    · rintro ⟨rfl, -, hallowed, hx⟩
      obtain ⟨⟨acc, accLen, xs⟩, hloop⟩ := Option.isSome_iff_exists.mp (hsome hallowed)
      obtain ⟨hs, hwait⟩ := hkeep _ hloop
      obtain ⟨hzero, hitems, -⟩ := hdone _ hs hwait
      dsimp only at hzero hitems
      subst hzero
      refine ⟨_, hloop, ?_⟩
      dsimp only
      rw [hmask, if_neg (fun hne => hne rfl)]
      refine congrArg (fun y => some (_, y))
        ((ofFn_getD_eq_iff ?_ default).mpr (hx.trans hitems.symm))
      rw [hitems, List.length_map, length_digitsBE]

end Decoder

/-! ### Encoders and decoders -/

section Codec

variable {α : Type} {store : UInt32 → α} {toInt : α → ℤ} {k : ℕ}

/-- Digits and values, item by item. -/
theorem map_trimItem_eq_iff
    (hstore : ∀ d < 2 ^ (k + 1), ∀ c, trimItem store k d = c ↔ signedDigit k d = toInt c)
    {ds : List ℕ} (hds : ∀ d ∈ ds, d < 2 ^ (k + 1)) {xs : List α} :
    (∀ d ∈ ds, d ≠ 2 ^ k) ∧ xs = ds.map (trimItem store k) ↔
      (∀ c ∈ xs, |toInt c| ≤ 2 ^ k - 1) ∧ ds = xs.map fun c => digitOf k (toInt c) := by
  induction ds generalizing xs with
  | nil =>
      rcases xs with _ | ⟨c, xs⟩ <;> simp
  | cons d ds ih =>
      rcases xs with _ | ⟨c, xs⟩
      · simp
      · have hd := hds d List.mem_cons_self
        have hitem := (digitOf_eq_iff (z := toInt c) hd).trans
          (and_congr_left' (hstore d hd c).symm)
        have hrest := @ih (fun d' hd' => hds d' (List.mem_cons_of_mem d hd')) xs
        simp only [List.forall_mem_cons, List.map_cons, List.cons.injEq]
        rw [eq_comm (a := c), eq_comm (a := d)]
        tauto

/-- **The decoders**, against the digits of the encoders. -/
theorem trimDecode_eq_some_iff_digits [Inhabited α] (toInt : α → ℤ)
    (hstore : ∀ d < 2 ^ (k + 1), ∀ c, trimItem store k d = c ↔ signedDigit k d = toInt c)
    (hk : k < 25) {buf : List UInt8} (hlen : 128 * (k + 1) ≤ buf.length) {m v : ℕ}
    {x : Vector α 1024} :
    trimDecode store (k + 1) buf m = some (v, x) ↔
      v = 128 * (k + 1) ∧ v ≤ m ∧ (∀ c ∈ x.toList, |toInt c| ≤ 2 ^ k - 1) ∧
        (buf.take v).map UInt8.toNat = digitsBE (2 ^ 8) v
          (ofDigitsBE (2 ^ (k + 1)) (x.toList.map fun c => digitOf k (toInt c))) := by
  rw [trimDecode_eq_some_iff hk hlen]
  refine and_congr_right fun hv => and_congr_right fun _ => ?_
  subst hv
  have hcount : (buf.take (128 * (k + 1))).length = 128 * (k + 1) := by
    rw [List.length_take]
    omega
  have hone : 1 < 2 ^ (k + 1) := Nat.one_lt_two_pow (Nat.succ_ne_zero k)
  have hitems : ∀ d ∈ x.toList.map (fun c => digitOf k (toInt c)), d < 2 ^ (k + 1) := by
    intro d hd
    obtain ⟨c, -, rfl⟩ := List.mem_map.mp hd
    have hpos : (0 : ℤ) < 2 ^ (k + 1) := by positivity
    have hlt := Int.emod_lt_of_pos (toInt c) hpos
    have hge := Int.emod_nonneg (toInt c) hpos.ne'
    have hcast : ((2 ^ (k + 1) : ℕ) : ℤ) = 2 ^ (k + 1) := by push_cast; rfl
    rw [digitOf]
    omega
  have hbytes : ∀ b ∈ (buf.take (128 * (k + 1))).map UInt8.toNat, b < 2 ^ 8 :=
    lt_of_mem_bytes _
  -- Both numerals have the same range.
  have hpow : (2 ^ (k + 1)) ^ 1024 = (2 ^ 8) ^ (128 * (k + 1)) := by
    rw [← pow_mul, ← pow_mul]
    congr 1
    omega
  have htotal : bytesValue (buf.take (128 * (k + 1))) < (2 ^ (k + 1)) ^ 1024 := by
    have hlt := ofDigitsBE_bytes_lt (buf.take (128 * (k + 1)))
    rw [hcount] at hlt
    rw [hpow]
    exact hlt
  have hvalue := ofDigitsBE_lt hone hitems
  rw [List.length_map, Vector.length_toList] at hvalue
  rw [map_trimItem_eq_iff hstore fun d hd => lt_of_mem_digitsBE (Nat.two_pow_pos _) hd]
  refine and_congr_right fun _ => ?_
  rw [digitsBE_eq_iff hone (by rw [List.length_map, Vector.length_toList]) hitems,
    eq_comm (a := (buf.take _).map _), digitsBE_eq_iff (by norm_num)
      (by rw [List.length_map, hcount]) hbytes, Nat.mod_eq_of_lt htotal, ← hpow,
    Nat.mod_eq_of_lt hvalue]
  exact eq_comm

/-- A value of `w` bits, cut to an item. -/
theorem mod_eq_digitOf {n w : ℕ} (hkw : k + 1 ≤ w) {z : ℤ}
    (hz : z = if 2 * n < 2 ^ w then (n : ℤ) else (n : ℤ) - ((2 ^ w : ℕ) : ℤ)) :
    n % 2 ^ (k + 1) = digitOf k z := by
  have hdvd : ((2 : ℤ) ^ (k + 1)) ∣ ((2 ^ w : ℕ) : ℤ) := by
    rw [Nat.cast_pow]
    exact pow_dvd_pow 2 hkw
  have hmod : z % 2 ^ (k + 1) = (n : ℤ) % 2 ^ (k + 1) := by
    rw [hz]
    split
    · rfl
    · rw [Int.sub_emod, Int.emod_eq_zero_of_dvd hdvd, sub_zero, Int.emod_emod_of_dvd _ dvd_rfl]
  rw [digitOf, hmod]
  have hcast : ((n % 2 ^ (k + 1) : ℕ) : ℤ) = (n : ℤ) % 2 ^ (k + 1) := by push_cast; rfl
  rw [← hcast, Int.toNat_natCast]

/-- **The encoders**, as the digits that they write. -/
theorem packBits_map_eq_iff {item : α → UInt32}
    (hitem : ∀ c, (item c).toNat = digitOf k (toInt c)) (hk : k < 24) {x : Vector α 1024}
    {bytes : List UInt8} :
    packBits (k + 1) (x.toList.map item) = bytes ↔
      bytes.map UInt8.toNat = digitsBE (2 ^ 8) (128 * (k + 1))
        (ofDigitsBE (2 ^ (k + 1)) (x.toList.map fun c => digitOf k (toInt c))) := by
  have hlt : ∀ c, (item c).toNat < 2 ^ (k + 1) := by
    intro c
    have hpos : (0 : ℤ) < 2 ^ (k + 1) := by positivity
    have hmod := Int.emod_lt_of_pos (toInt c) hpos
    have hge := Int.emod_nonneg (toInt c) hpos.ne'
    have hcast : ((2 ^ (k + 1) : ℕ) : ℤ) = 2 ^ (k + 1) := by push_cast; rfl
    rw [hitem, digitOf]
    omega
  have hspec := @packBits_spec (k + 1) (by omega) (x.toList.map item) (fun y hy => by
      obtain ⟨c, -, rfl⟩ := List.mem_map.mp hy
      exact hlt c)
    (128 * (k + 1)) (by rw [List.length_map, Vector.length_toList]; omega)
  rw [List.map_map] at hspec
  have hdigits : UInt32.toNat ∘ item = fun c => digitOf k (toInt c) := funext hitem
  rw [hdigits] at hspec
  rw [← hspec, eq_comm]
  exact (List.map_injective_iff.mpr fun a b h => UInt8.toNat_inj.mp h).eq_iff.symm

/-- The range check of the encoders. -/
theorem any_range_eq_false_iff (toInt : α → ℤ) {x : Vector α 1024} {maxv : ℤ} :
    x.toList.any (fun c => decide (toInt c < -maxv ∨ toInt c > maxv)) = false ↔
      ∀ c ∈ x.toList, |toInt c| ≤ maxv := by
  rw [List.any_eq_false]
  refine forall₂_congr fun c _ => ?_
  rw [decide_eq_true_eq, abs_le]
  omega

/-- **The encoders**: the checks, and the digits. -/
theorem encoder_eq_some_iff {item : α → UInt32}
    (hitem : ∀ c, (item c).toNat = digitOf k (toInt c)) (hk : k < 24) {m v : ℕ}
    {x : Vector α 1024} {bytes : List UInt8} :
    (if x.toList.any (fun c => decide (toInt c < -(2 ^ k - 1) ∨ toInt c > 2 ^ k - 1)) then none
      else if 128 * (k + 1) > m then none
      else some (128 * (k + 1), packBits (k + 1) (x.toList.map item))) = some (v, bytes) ↔
      v = 128 * (k + 1) ∧ v ≤ m ∧ (∀ c ∈ x.toList, |toInt c| ≤ 2 ^ k - 1) ∧
        bytes.map UInt8.toNat = digitsBE (2 ^ 8) v
          (ofDigitsBE (2 ^ (k + 1)) (x.toList.map fun c => digitOf k (toInt c))) := by
  cases hany : x.toList.any (fun c => decide (toInt c < -(2 ^ k - 1) ∨ toInt c > 2 ^ k - 1)) with
  | true =>
      rw [if_pos rfl]
      refine iff_of_false (fun h => Option.some_ne_none _ h.symm) ?_
      rintro ⟨-, -, hrange, -⟩
      rw [(any_range_eq_false_iff _).mpr hrange] at hany
      exact Bool.false_ne_true hany
  | false =>
      rw [if_neg Bool.false_ne_true]
      by_cases hm : 128 * (k + 1) > m
      · rw [if_pos hm]
        refine iff_of_false (fun h => Option.some_ne_none _ h.symm) ?_
        rintro ⟨rfl, hle, -⟩
        omega
      · rw [if_neg hm, Option.some_inj, Prod.mk.injEq, packBits_map_eq_iff hitem hk]
        constructor
        · rintro ⟨rfl, hbytes⟩
          exact ⟨rfl, by omega, (any_range_eq_false_iff _).mp hany, hbytes⟩
        · rintro ⟨rfl, -, -, hbytes⟩
          exact ⟨rfl, hbytes⟩

end Codec

/-! ### Bytes and 16-bit words -/

/-- The digit that `trim_i8_encode` writes. -/
theorem toNat_item_int8 {k : ℕ} (hk : k < 8) (c : Int8) :
    (c.toUInt8.toUInt32 &&& ((1 : UInt32) <<< (k + 1).toUInt32 - 1)).toNat =
      digitOf k c.toInt := by
  rw [UInt32.toNat_and_mask _ _ (UInt32.toNat_lowMask (by omega)), UInt8.toNat_toUInt32]
  exact mod_eq_digitOf (w := 8) (by omega) (BitVec.toInt_eq_toNat_cond c.toBitVec)

/-- The lowest bits of a 16-bit number are its digit. -/
theorem toNat_item_int16 {k : ℕ} (hk : k < 16) (c : Int16) :
    (c.toUInt16.toUInt32 &&& ((1 : UInt32) <<< (k + 1).toUInt32 - 1)).toNat =
      digitOf k c.toInt := by
  rw [UInt32.toNat_and_mask _ _ (UInt32.toNat_lowMask (by omega)), UInt16.toNat_toUInt32]
  exact mod_eq_digitOf (w := 16) (by omega) (BitVec.toInt_eq_toNat_cond c.toBitVec)

/-- The range of what the decoders store. -/
theorem toInt_item {k d : ℕ} (hk : k < 25) (hd : d < 2 ^ (k + 1)) :
    (trimExtend (k + 1) (UInt32.ofNat d)).toInt32.toInt = signedDigit k d ∧
      -2 ^ k ≤ signedDigit k d ∧ signedDigit k d < 2 ^ k := by
  have hle : 2 ^ (k + 1) ≤ 2 ^ 31 := Nat.pow_le_pow_right (by norm_num) (by omega)
  have hnat : (UInt32.ofNat d).toNat = d := by
    rw [UInt32.toNat_ofNat', Nat.mod_eq_of_lt (hd.trans_le (by omega))]
  have hext := toInt_trimExtend (by omega : k < 31) (x := UInt32.ofNat d) (by rwa [hnat])
  rw [hnat] at hext
  refine ⟨hext, ?_⟩
  have hpow : (2 : ℤ) ^ (k + 1) = 2 * 2 ^ k := pow_succ' 2 k
  have hnpow : 2 ^ (k + 1) = 2 * 2 ^ k := pow_succ' 2 k
  have hcast : ((2 ^ k : ℕ) : ℤ) = 2 ^ k := by push_cast; rfl
  rw [signedDigit, hpow]
  split <;> omega

/-- A digit that is stored as a signed byte. -/
theorem trimItem_int8_eq_iff {k d : ℕ} (hk : k < 8) (hd : d < 2 ^ (k + 1)) (c : Int8) :
    trimItem (fun w => w.toInt32.toInt8) k d = c ↔ signedDigit k d = c.toInt := by
  obtain ⟨hext, hlo, hhi⟩ := toInt_item (by omega) hd
  have hpow : (2 : ℤ) ^ k ≤ 2 ^ 7 := pow_le_pow_right₀ (by norm_num) (by omega)
  have hval : (trimItem (fun w => w.toInt32.toInt8) k d).toInt = signedDigit k d := by
    rw [trimItem, Int32.toInt_toInt8, hext]
    exact Int.bmod_eq_of_le (by omega) (by omega)
  rw [← Int8.toInt_inj, hval]

/-- A digit whose sign is extended, stored in 16 bits. -/
theorem trimItem_int16_eq_iff {k d : ℕ} (hk : k < 16) (hd : d < 2 ^ (k + 1)) (c : Int16) :
    trimItem (fun w => (trimExtend (k + 1) w).toInt32.toInt16) k d = c ↔
      signedDigit k d = c.toInt := by
  obtain ⟨hext, hlo, hhi⟩ := toInt_item (by omega) hd
  have hpow : (2 : ℤ) ^ k ≤ 2 ^ 15 := pow_le_pow_right₀ (by norm_num) (by omega)
  have hval : (trimItem (fun w => (trimExtend (k + 1) w).toInt32.toInt16) k d).toInt =
      signedDigit k d := by
    rw [trimItem, trimExtend_trimExtend (by omega), Int32.toInt_toInt16, hext]
    exact Int.bmod_eq_of_le (by omega) (by omega)
  rw [← Int16.toInt_inj, hval]

/-- `trim_i8_encode`, as the digits that it writes. -/
theorem trimI8Encode_eq_some_iff {k : ℕ} (hk : k < 8) {m v : ℕ} {x : SmallPoly}
    {bytes : List UInt8} :
    trimI8Encode m x (k + 1) = some (v, bytes) ↔
      v = 128 * (k + 1) ∧ v ≤ m ∧ (∀ c ∈ x.toList, |c.toInt| ≤ 2 ^ k - 1) ∧
        bytes.map UInt8.toNat = digitsBE (2 ^ 8) v
          (ofDigitsBE (2 ^ (k + 1)) (x.toList.map fun c => digitOf k c.toInt)) := by
  have hout : (1024 * (k + 1) + 7) >>> 3 = 128 * (k + 1) := by
    rw [Nat.shiftRight_eq_div_pow]
    omega
  rw [trimI8Encode]
  simp only [hout, Nat.add_sub_cancel]
  exact encoder_eq_some_iff (toNat_item_int8 hk) (by omega)

/-- `trim_i16_encode`, as the digits that it writes. -/
theorem trimI16Encode_eq_some_iff {k : ℕ} (hk : k < 16) {m v : ℕ} {x : PolyS16}
    {bytes : List UInt8} :
    trimI16Encode m x (k + 1) = some (v, bytes) ↔
      v = 128 * (k + 1) ∧ v ≤ m ∧ (∀ c ∈ x.toList, |c.toInt| ≤ 2 ^ k - 1) ∧
        bytes.map UInt8.toNat = digitsBE (2 ^ 8) v
          (ofDigitsBE (2 ^ (k + 1)) (x.toList.map fun c => digitOf k c.toInt)) := by
  have hout : (1024 * (k + 1) + 7) >>> 3 = 128 * (k + 1) := by
    rw [Nat.shiftRight_eq_div_pow]
    omega
  rw [trimI16Encode]
  simp only [hout, Nat.add_sub_cancel]
  exact encoder_eq_some_iff (toNat_item_int16 hk) (by omega)

/-- **Bytes**: what `trim_i8_decode` accepts is what `trim_i8_encode` writes. -/
theorem trimI8Decode_eq_some_iff {k : ℕ} (hk : k < 8) {buf : List UInt8}
    (hlen : 128 * (k + 1) ≤ buf.length) {m v : ℕ} {x : SmallPoly} :
    trimI8Decode (k + 1) buf m = some (v, x) ↔
      trimI8Encode m x (k + 1) = some (v, buf.take v) := by
  rw [trimI8Decode, trimDecode_eq_some_iff_digits Int8.toInt
    (fun d hd c => trimItem_int8_eq_iff hk hd c) (by omega) hlen]
  exact (trimI8Encode_eq_some_iff hk).symm

/-- **16-bit words**: what `trim_i16_decode` accepts is what `trim_i16_encode` writes. -/
theorem trimI16Decode_eq_some_iff {k : ℕ} (hk : k < 16) {buf : List UInt8}
    (hlen : 128 * (k + 1) ≤ buf.length) {m v : ℕ} {x : PolyS16} :
    trimI16Decode (k + 1) buf m = some (v, x) ↔
      trimI16Encode m x (k + 1) = some (v, buf.take v) := by
  rw [trimI16Decode, trimDecode_eq_some_iff_digits Int16.toInt
    (fun d hd c => trimItem_int16_eq_iff hk hd c) (by omega) hlen]
  exact (trimI16Encode_eq_some_iff hk).symm

end FalconVanity
