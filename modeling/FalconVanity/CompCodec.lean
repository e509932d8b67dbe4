import FalconVanity.Foundation.BitStream
import FalconVanity.TrimCodec

/-!
# Signatures, Compressed

A coefficient of a compressed signature is its sign, the low seven bits of its absolute value,
and the rest of the absolute value in unary. The codes have different lengths, and the last byte
is filled up with zeros. The decoder refuses a negative zero, an absolute value above 2047, and
bits after the last code that are not zero: then no two byte strings are decoded to the same
signature, and what is decoded is what the encoder writes.

## Main results

* `compEncode_eq_some_iff`: what the encoder writes.
* `exists_compEncode`: when it succeeds.
* `readsExactly_compDecodeOne`: the decoder reads the code of one coefficient.
* `compDecode_eq_some_iff`: what the decoder accepts is what the encoder writes.
-/

namespace FalconVanity

open Positional BitStream Words

/-! ### The encoder -/

/-- The inner loop of `comp_encode`: whole bytes leave the accumulator, while there is room. -/
def compFlush (maxOutLen : ℕ) (acc : UInt32) (accLen : ℕ) (buf : List UInt8) :
    Option (ℕ × List UInt8) :=
  if 8 ≤ accLen then
    if buf.length ≥ maxOutLen then none
    else
      compFlush maxOutLen acc (accLen - 8) (buf ++ [(acc >>> (accLen - 8).toUInt32).toUInt8])
  else some (accLen, buf)
termination_by accLen

/-- The body of the loop of `comp_encode`. -/
def compEncodeStep (maxOutLen : ℕ) (s : UInt32 × ℕ × List UInt8) (x : Int16) :
    Option (UInt32 × ℕ × List UInt8) :=
  let (acc, accLen, buf) := s
  let acc := acc <<< 1
  let t := x.toInt
  let acc := if t < 0 then acc ||| 1 else acc
  let w := t.natAbs
  let acc := acc <<< 7
  let acc := acc ||| (UInt32.ofNat w &&& 127)
  let w := w >>> 7
  let accLen := accLen + 8
  let acc := acc <<< (w + 1).toUInt32
  let acc := acc ||| 1
  let accLen := accLen + (w + 1)
  (compFlush maxOutLen acc accLen buf).map fun (accLen, buf) => (acc, accLen, buf)

/-- `comp_encode`, for `logn = 10` and a buffer: the bytes written, of which the length is
returned. -/
def compEncode (maxOutLen : ℕ) (x : PolyS16) : Option (List UInt8) :=
  if x.toList.any (fun c => decide (c.toInt < -2047 ∨ c.toInt > 2047)) then none
  else
    (x.toList.foldlM (compEncodeStep maxOutLen) (0, 0, [])).bind fun (acc, accLen, buf) =>
      if accLen > 0 then
        if buf.length ≥ maxOutLen then none
        else some (buf ++ [(acc <<< (8 - accLen).toUInt32).toUInt8])
      else some buf

/-! ### The decoder -/

/-- The inner loop of `comp_decode`, until a 1 is read; `buf` is what is not yet read. -/
def compDecodeHigh (acc : UInt32) (accLen : ℕ) (m : ℕ) (buf : List UInt8) :
    Option (ℕ × UInt32 × ℕ × List UInt8) :=
  let refill : Option (UInt32 × ℕ × List UInt8) :=
    if accLen = 0 then
      match buf with
      | [] => none
      | b :: buf => some (acc <<< 8 ||| b.toUInt32, 8, buf)
    else some (acc, accLen, buf)
  match refill with
  | none => none
  | some (acc, accLen, buf) =>
    let accLen := accLen - 1
    if (acc >>> accLen.toUInt32) &&& 1 ≠ 0 then some (m, acc, accLen, buf)
    else
      let m := m + 128
      if m > 2047 then none else compDecodeHigh acc accLen m buf
termination_by 2047 - m

/-- The body of the loop of `comp_decode`: a coefficient, and the state. -/
def compDecodeOne (s : UInt32 × ℕ × List UInt8) : Option (Int16 × UInt32 × ℕ × List UInt8) :=
  let (acc, accLen, buf) := s
  match buf with
  | [] => none
  | b :: buf =>
    let acc := acc <<< 8 ||| b.toUInt32
    let b := acc >>> accLen.toUInt32
    let s := b &&& 128
    let m := (b &&& 127).toNat
    match compDecodeHigh acc accLen m buf with
    | none => none
    | some (m, acc, accLen, buf) =>
      if s ≠ 0 ∧ m = 0 then none
      else some (Int16.ofInt (if s ≠ 0 then -(m : ℤ) else m), acc, accLen, buf)

/-- `comp_decode`, for `logn = 10`: the number of bytes read, and the values. -/
def compDecode (buf : List UInt8) : Option (ℕ × PolyS16) :=
  (readList compDecodeOne 1024 (0, 0, buf)).bind fun (x, acc, accLen, rest) =>
    if (acc &&& ((1 : UInt32) <<< accLen.toUInt32 - 1)) ≠ 0 then none
    else some (buf.length - rest.length, Vector.ofFn fun i => x.getD i 0)

/-! ### The code -/

/-- The code of a coefficient: its sign, seven bits of its absolute value, and the rest of it in
unary. -/
def compCode (z : Int16) : List ℕ :=
  (if z.toInt < 0 then 1 else 0) :: (digitsBE 2 7 (z.toInt.natAbs % 128) ++
    (List.replicate (z.toInt.natAbs / 128) 0 ++ [1]))

/-- What can be encoded. -/
def CompRange (z : Int16) : Prop := |z.toInt| ≤ 2047

theorem length_compCode (z : Int16) : (compCode z).length = 8 + (z.toInt.natAbs / 128 + 1) := by
  rw [compCode, List.length_cons, List.length_append, length_digitsBE, List.length_append,
    List.length_replicate, List.length_singleton]
  omega

/-! ### The encoder, code by code -/

/-- Flushing moves bits, and fails only when the buffer is full. -/
theorem compFlush_spec {m : ℕ} {acc : UInt32} {accLen : ℕ} {buf : List UInt8} {bits : List ℕ}
    (hfit : accLen ≤ 32) (hroom : buf.length ≤ m)
    (hbits : byteBits buf ++ waiting acc accLen = bits) :
    (∀ r, compFlush m acc accLen buf = some r →
      r.1 < 8 ∧ r.2.length ≤ m ∧ byteBits r.2 ++ waiting acc r.1 = bits) ∧
    (compFlush m acc accLen buf = none → 8 * m < bits.length) := by
  induction accLen using Nat.strong_induction_on generalizing buf with
  | _ accLen ih =>
      rw [compFlush]
      by_cases h8 : 8 ≤ accLen
      · rw [if_pos h8]
        by_cases hfull : buf.length ≥ m
        · rw [if_pos hfull]
          refine ⟨fun r hr => (Option.some_ne_none r hr.symm).elim, fun _ => ?_⟩
          rw [← hbits, List.length_append, length_byteBits, length_waiting]
          omega
        · rw [if_neg hfull]
          refine ih (accLen - 8) (by omega) (by omega) ?_ ?_
          · rw [List.length_append, List.length_singleton]
            omega
          · have hsplit : accLen - 8 + 8 = accLen := by omega
            rw [waiting_write acc (by omega), hsplit, hbits]
      · rw [if_neg h8]
        refine ⟨fun r hr => ?_, fun h => (Option.some_ne_none _ h).elim⟩
        obtain rfl := Option.some.inj hr
        exact ⟨by dsimp only; omega, hroom, hbits⟩

/-- The state of the encoder, when it wrote `bits`, up to those that wait. Whole bytes are in the
buffer, and fewer than eight bits in the accumulator. -/
structure CompEncoded (m : ℕ) (bits : List ℕ) (s : UInt32 × ℕ × List UInt8) : Prop where
  waits : s.2.1 < 8
  room : s.2.2.length ≤ m
  bits_eq : byteBits s.2.2 ++ waiting s.1 s.2.1 = bits

theorem digitsBE_one (w : ℕ) : digitsBE 2 (w + 1) 1 = List.replicate w 0 ++ [1] := by
  have hpush := digitsBE_push (p := w) (s := 1) (n := 0) (v := 1) (by norm_num)
  rw [Nat.zero_mul, Nat.zero_add, digitsBE_zero] at hpush
  exact hpush

/-- The three pushes of a coefficient. -/
theorem waiting_compCode {acc : UInt32} {accLen : ℕ} (hwait : accLen < 8) {z : Int16}
    (hz : CompRange z) :
    waiting ((((if z.toInt < 0 then acc <<< 1 ||| 1 else acc <<< 1) <<< 7 |||
        (UInt32.ofNat z.toInt.natAbs &&& 127)) <<< (z.toInt.natAbs >>> 7 + 1).toUInt32) ||| 1)
      (accLen + 8 + (z.toInt.natAbs >>> 7 + 1)) = waiting acc accLen ++ compCode z := by
  have hrange : z.toInt.natAbs ≤ 2047 := by
    have h := abs_le.mp hz
    omega
  have hhigh : z.toInt.natAbs >>> 7 = z.toInt.natAbs / 128 := Nat.shiftRight_eq_div_pow _ _
  have hle : z.toInt.natAbs / 128 ≤ 15 := by omega
  have hsign : waiting (if z.toInt < 0 then acc <<< 1 ||| 1 else acc <<< 1) (accLen + 1) =
      waiting acc accLen ++ [if z.toInt < 0 then 1 else 0] := by
    split
    · exact waiting_push (v := 1) (k := 1) (by decide) (by omega) (by norm_num)
    · have hpush := @waiting_push 1 acc 0 accLen (by decide) (by omega) (by norm_num)
      rw [UInt32.or_zero] at hpush
      exact hpush
  have hlow : (UInt32.ofNat z.toInt.natAbs &&& 127).toNat = z.toInt.natAbs % 128 := by
    rw [UInt32.toNat_and_mask _ 127 (k := 7) rfl, UInt32.toNat_ofNat',
      Nat.mod_eq_of_lt (by omega : z.toInt.natAbs < 2 ^ 32)]
    rfl
  have hseven := @waiting_push 7 (if z.toInt < 0 then acc <<< 1 ||| 1 else acc <<< 1)
    (UInt32.ofNat z.toInt.natAbs &&& 127) (accLen + 1) (by rw [hlow]; omega) (by omega)
    (by norm_num)
  rw [hlow, hsign] at hseven
  rw [hhigh, waiting_push (v := 1) (Nat.one_lt_two_pow (Nat.succ_ne_zero _)) (by omega) (by omega)]
  rw [UInt32.toNat_one, digitsBE_one, compCode]
  refine (congrArg (· ++ _) hseven).trans ?_
  simp only [List.append_assoc, List.cons_append, List.nil_append]

/-- **One coefficient.** -/
theorem CompEncoded.step {m : ℕ} {bits : List ℕ} {s : UInt32 × ℕ × List UInt8}
    (h : CompEncoded m bits s) {z : Int16} (hz : CompRange z) :
    (∀ t, compEncodeStep m s z = some t → CompEncoded m (bits ++ compCode z) t) ∧
      (compEncodeStep m s z = none → 8 * m < (bits ++ compCode z).length) := by
  obtain ⟨acc, accLen, buf⟩ := s
  have hwait : accLen < 8 := h.waits
  have hhigh : z.toInt.natAbs >>> 7 = z.toInt.natAbs / 128 := Nat.shiftRight_eq_div_pow _ _
  have hrange := abs_le.mp hz
  have hbits := h.bits_eq
  dsimp only at hbits
  have hflush := @compFlush_spec m ((((if z.toInt < 0 then acc <<< 1 ||| 1 else acc <<< 1) <<< 7 |||
        (UInt32.ofNat z.toInt.natAbs &&& 127)) <<< (z.toInt.natAbs >>> 7 + 1).toUInt32) ||| 1)
    (accLen + 8 + (z.toInt.natAbs >>> 7 + 1)) buf (bits ++ compCode z) (by rw [hhigh]; omega) h.room
    (by rw [waiting_compCode hwait hz, ← List.append_assoc, hbits])
  refine ⟨fun t ht => ?_, fun hnone => hflush.2 (Option.map_eq_none_iff.mp hnone)⟩
  obtain ⟨r, hr, rfl⟩ := Option.map_eq_some_iff.mp ht
  obtain ⟨hlt, hroom, hout⟩ := hflush.1 r hr
  exact ⟨hlt, hroom, hout⟩

/-- **The encoder**, after some coefficients. -/
theorem compEncoded_foldlM {m : ℕ} {zs : List Int16} (hzs : ∀ z ∈ zs, CompRange z)
    {bits : List ℕ} {s : UInt32 × ℕ × List UInt8} (h : CompEncoded m bits s) :
    (∀ t, zs.foldlM (compEncodeStep m) s = some t →
      CompEncoded m (bits ++ zs.flatMap compCode) t) ∧
    (zs.foldlM (compEncodeStep m) s = none →
      8 * m < (bits ++ zs.flatMap compCode).length) := by
  induction zs generalizing bits s with
  | nil =>
      rw [List.flatMap_nil, List.append_nil]
      refine ⟨fun t ht => ?_, fun hnone => (Option.some_ne_none _ hnone).elim⟩
      obtain rfl := Option.some.inj ht
      exact h
  | cons z zs ih =>
      obtain ⟨hz, hzs⟩ := List.forall_mem_cons.mp hzs
      obtain ⟨hkeep, hfail⟩ := h.step hz
      rw [List.foldlM_cons, List.flatMap_cons, ← List.append_assoc]
      cases hstep : compEncodeStep m s z with
      | none =>
          refine ⟨fun t ht => (Option.some_ne_none t ht.symm).elim, fun _ => ?_⟩
          have hlt := hfail hstep
          rw [List.length_append]
          omega
      | some t => exact ih hzs (hkeep t hstep)

/-- The last byte of the encoder. -/
theorem CompEncoded.finish {m : ℕ} {bits : List ℕ} {s : UInt32 × ℕ × List UInt8}
    (h : CompEncoded m bits s) {out : Option (List UInt8)}
    (hout : out = if s.2.1 > 0 then
        if s.2.2.length ≥ m then none
        else some (s.2.2 ++ [(s.1 <<< (8 - s.2.1).toUInt32).toUInt8])
      else some s.2.2) :
    (∀ bytes, out = some bytes →
      bytes.length ≤ m ∧ ∃ p < 8, byteBits bytes = bits ++ List.replicate p 0) ∧
    (out = none → 8 * m < bits.length) := by
  have hwait := h.waits
  have hroom := h.room
  have hlen := congrArg List.length h.bits_eq
  rw [List.length_append, length_byteBits, length_waiting] at hlen
  subst hout
  by_cases hpos : s.2.1 > 0
  · rw [if_pos hpos]
    by_cases hfull : s.2.2.length ≥ m
    · rw [if_pos hfull]
      exact ⟨fun bytes hb => (Option.some_ne_none bytes hb.symm).elim, fun _ => by omega⟩
    · rw [if_neg hfull]
      refine ⟨fun bytes hb => ?_, fun hnone => (Option.some_ne_none _ hnone).elim⟩
      obtain rfl := Option.some.inj hb
      refine ⟨by rw [List.length_append, List.length_singleton]; omega, 8 - s.2.1, by omega, ?_⟩
      rw [byteBits_append, byteBits_cons, byteBits_nil, List.append_nil,
        digitsBE_flush s.1 hwait.le, ← List.append_assoc, h.bits_eq]
  · rw [if_neg hpos]
    refine ⟨fun bytes hb => ?_, fun hnone => (Option.some_ne_none _ hnone).elim⟩
    obtain rfl := Option.some.inj hb
    have hzero : s.2.1 = 0 := by omega
    have hbits := h.bits_eq
    rw [hzero, waiting_zero, List.append_nil] at hbits
    exact ⟨hroom, 0, by norm_num, by rw [hbits, List.replicate_zero, List.append_nil]⟩

/-- Bits filled up with zeros to whole bytes are those of one list of bytes. -/
theorem padded_unique {bits : List ℕ} {xs ys : List UInt8} {p q : ℕ} (hp : p < 8) (hq : q < 8)
    (hxs : byteBits xs = bits ++ List.replicate p 0)
    (hys : byteBits ys = bits ++ List.replicate q 0) : xs = ys := by
  have hx := congrArg List.length hxs
  have hy := congrArg List.length hys
  rw [length_byteBits, List.length_append, List.length_replicate] at hx hy
  obtain rfl : p = q := by omega
  exact byteBits_injective (hxs.trans hys.symm)

/-- The range check of the encoder. -/
theorem any_comp_eq_false_iff {x : PolyS16} :
    x.toList.any (fun c => decide (c.toInt < -2047 ∨ c.toInt > 2047)) = false ↔
      ∀ c ∈ x.toList, CompRange c := any_range_eq_false_iff Int16.toInt

/-- **What the encoder writes**: the codes of the coefficients, filled up with zeros to whole
bytes. It fails when a coefficient is out of range, or when this is too long. -/
theorem compEncode_eq_some_iff {m : ℕ} {x : PolyS16} {bytes : List UInt8} :
    compEncode m x = some bytes ↔ (∀ c ∈ x.toList, CompRange c) ∧ bytes.length ≤ m ∧
      ∃ p < 8, byteBits bytes = x.toList.flatMap compCode ++ List.replicate p 0 := by
  rw [compEncode]
  cases hany : x.toList.any (fun c => decide (c.toInt < -2047 ∨ c.toInt > 2047)) with
  | true =>
      rw [if_pos rfl]
      refine iff_of_false (fun h => Option.some_ne_none _ h.symm) fun h => ?_
      rw [any_comp_eq_false_iff.mpr h.1] at hany
      exact Bool.false_ne_true hany
  | false =>
      have hrange := any_comp_eq_false_iff.mp hany
      have hstart : CompEncoded m [] (0, 0, []) := ⟨by norm_num, Nat.zero_le m, rfl⟩
      obtain ⟨hkeep, hfail⟩ := compEncoded_foldlM hrange hstart
      rw [List.nil_append] at hkeep hfail
      rw [if_neg Bool.false_ne_true]
      constructor
      · intro h
        obtain ⟨s, hs, hlast⟩ := Option.bind_eq_some_iff.mp h
        obtain ⟨hlen, hbits⟩ := ((hkeep s hs).finish hlast.symm).1 bytes rfl
        exact ⟨hrange, hlen, hbits⟩
      · rintro ⟨-, hlen, p, hp, hbits⟩
        have hcount := congrArg List.length hbits
        rw [length_byteBits, List.length_append, List.length_replicate] at hcount
        cases hs : x.toList.foldlM (compEncodeStep m) (0, 0, []) with
        | none =>
            have hlong := hfail hs
            omega
        | some s =>
            rw [Option.bind_some]
            generalize hout : (match s with
              | (acc, accLen, buf) =>
                if accLen > 0 then
                  if buf.length ≥ m then none
                  else some (buf ++ [(acc <<< (8 - accLen).toUInt32).toUInt8])
                else some buf) = out
            obtain ⟨hdone, hshort⟩ := (hkeep s hs).finish hout.symm
            cases out with
            | none =>
                have hlong := hshort rfl
                omega
            | some bytes' =>
                obtain ⟨-, p', hp', hbits'⟩ := hdone bytes' rfl
                exact congrArg some (padded_unique hp' hp hbits' hbits)

/-- **The encoder succeeds** when the codes fit in the buffer. -/
theorem exists_compEncode {m : ℕ} {x : PolyS16} (hrange : ∀ c ∈ x.toList, CompRange c)
    (hle : (x.toList.flatMap compCode).length ≤ 8 * m) : ∃ bytes, compEncode m x = some bytes := by
  have hstart : CompEncoded m [] (0, 0, []) := ⟨by norm_num, Nat.zero_le m, rfl⟩
  obtain ⟨hkeep, hfail⟩ := compEncoded_foldlM hrange hstart
  rw [List.nil_append] at hkeep hfail
  rw [compEncode, any_comp_eq_false_iff.mpr hrange, if_neg Bool.false_ne_true]
  refine Option.ne_none_iff_exists'.mp fun hnone => ?_
  cases hs : x.toList.foldlM (compEncodeStep m) (0, 0, []) with
  | none => exact Nat.not_lt.mpr hle (hfail hs)
  | some s =>
      rw [hs, Option.bind_some] at hnone
      exact Nat.not_lt.mpr hle (((hkeep s hs).finish hnone.symm).2 rfl)

/-- Short vectors have short codes: the part in unary grows more slowly than the square. -/
theorem length_flatMap_compCode_le (zs : List Int16) :
    16384 * (zs.flatMap compCode).length ≤
      16384 * (9 * zs.length) + (zs.map fun z => z.toInt.natAbs ^ 2).sum := by
  induction zs with
  | nil => simp
  | cons z zs ih =>
      have hunary : 16384 * (z.toInt.natAbs / 128) ≤ z.toInt.natAbs ^ 2 := by
        have hdiv := Nat.div_mul_le_self z.toInt.natAbs 128
        generalize z.toInt.natAbs / 128 = k at hdiv ⊢
        calc
          16384 * k ≤ 16384 * k ^ 2 := Nat.mul_le_mul_left _ (Nat.le_self_pow two_ne_zero k)
          _ = (k * 128) ^ 2 := by ring
          _ ≤ z.toInt.natAbs ^ 2 := Nat.pow_le_pow_left hdiv 2
      rw [List.flatMap_cons, List.length_append, length_compCode, List.map_cons, List.sum_cons,
        List.length_cons]
      omega

/-! ### The decoder, code by code -/

/-- What is left to read: the bits that wait, and the bytes that are not yet read. -/
def streamOf (s : UInt32 × ℕ × List UInt8) : List ℕ := waiting s.1 s.2.1 ++ byteBits s.2.2

/-- The first of the bits that wait. -/
theorem streamOf_succ (acc : UInt32) {l : ℕ} (hl : l < 8) (buf : List UInt8) :
    streamOf (acc, l + 1, buf) =
      (if (acc >>> l.toUInt32) &&& 1 ≠ 0 then 1 else 0) :: streamOf (acc, l, buf) := by
  have hbit : waiting (acc >>> l.toUInt32) 1 =
      [if (acc >>> l.toUInt32) &&& 1 ≠ 0 then 1 else 0] := by
    have hmod : ((acc >>> l.toUInt32) &&& 1).toNat = (acc >>> l.toUInt32).toNat % 2 :=
      UInt32.toNat_and_mask _ 1 (k := 1) rfl
    have hne : (acc >>> l.toUInt32) &&& 1 ≠ 0 ↔ (acc >>> l.toUInt32).toNat % 2 ≠ 0 := by
      rw [← hmod, Ne, Ne, ← UInt32.toNat_inj, UInt32.toNat_zero]
    have hdigit : waiting (acc >>> l.toUInt32) 1 = [(acc >>> l.toUInt32).toNat % 2] := rfl
    rw [hdigit, if_congr hne rfl rfl]
    split <;> congr 1 <;> omega
  rw [streamOf, Nat.add_comm, waiting_split acc (by omega : l < 32), hbit]
  rfl

/-- **One bit** of the inner loop: it reads the next bit of the stream, if there is one. -/
theorem compDecodeHigh_next (acc : UInt32) {accLen : ℕ} (hlen : accLen ≤ 8) (buf : List UInt8) :
    (streamOf (acc, accLen, buf) = [] ∧ ∀ m, compDecodeHigh acc accLen m buf = none) ∨
    ∃ bit s, s.2.1 < 8 ∧ bit ≤ 1 ∧ streamOf (acc, accLen, buf) = bit :: streamOf s ∧
      ∀ m, compDecodeHigh acc accLen m buf =
        if bit = 1 then some (m, s)
        else if m + 128 > 2047 then none
        else compDecodeHigh s.1 s.2.1 (m + 128) s.2.2 := by
  -- With a bit that waits, there is no refill.
  have hgo : ∀ (acc : UInt32) (l : ℕ) (buf : List UInt8), l < 8 →
      ∃ bit s, s.2.1 < 8 ∧ bit ≤ 1 ∧ streamOf (acc, l + 1, buf) = bit :: streamOf s ∧
        ∀ m, compDecodeHigh acc (l + 1) m buf =
          if bit = 1 then some (m, s)
          else if m + 128 > 2047 then none
          else compDecodeHigh s.1 s.2.1 (m + 128) s.2.2 := by
    intro acc l buf hl
    refine ⟨_, (acc, l, buf), hl, ?_, streamOf_succ acc hl buf, fun m => ?_⟩
    · split <;> norm_num
    · rw [compDecodeHigh.eq_def]
      simp only [Nat.succ_ne_zero, if_false, Nat.add_sub_cancel]
      split <;> simp
  rcases accLen with _ | l
  · rcases buf with _ | ⟨b, buf⟩
    · refine .inl ⟨rfl, fun m => ?_⟩
      rw [compDecodeHigh.eq_def]
      simp
    · right
      obtain ⟨bit, s, hs, hbit, hstream, hnext⟩ :=
        hgo (acc <<< 8 ||| b.toUInt32) 7 buf (by norm_num)
      refine ⟨bit, s, hs, hbit, ?_, fun m => ?_⟩
      · rw [← hstream]
        exact (waiting_read acc (Nat.zero_le 24) b buf).symm
      · rw [← hnext m, compDecodeHigh.eq_def, compDecodeHigh.eq_def _ (7 + 1)]
        simp
  · exact .inr (hgo acc l buf (by omega))

/-- **The inner loop** reads a number in unary. -/
theorem compDecodeHigh_sound {acc : UInt32} {accLen m : ℕ} {buf : List UInt8} (hlen : accLen ≤ 8)
    {m' : ℕ} {s : UInt32 × ℕ × List UInt8}
    (h : compDecodeHigh acc accLen m buf = some (m', s)) :
    s.2.1 < 8 ∧ ∃ k, m' = m + 128 * k ∧ (m ≤ 2047 → m' ≤ 2047) ∧
      streamOf (acc, accLen, buf) = List.replicate k 0 ++ 1 :: streamOf s := by
  induction hn : 2047 - m using Nat.strong_induction_on generalizing acc accLen m buf with
  | _ n ih =>
      rcases compDecodeHigh_next acc hlen buf with
        ⟨-, hnone⟩ | ⟨bit, s₁, hs₁, hbit, hstream, hnext⟩
      · rw [hnone m] at h
        exact (Option.some_ne_none _ h.symm).elim
      · rw [hnext m] at h
        by_cases hone : bit = 1
        · rw [if_pos hone] at h
          obtain ⟨rfl, rfl⟩ := Prod.mk.inj (Option.some.inj h)
          exact ⟨hs₁, 0, rfl, id, by rw [hstream, hone]; rfl⟩
        · rw [if_neg hone] at h
          by_cases hbig : m + 128 > 2047
          · rw [if_pos hbig] at h
            exact (Option.some_ne_none _ h.symm).elim
          · rw [if_neg hbig] at h
            obtain ⟨hs, k, hm', hle, hrest⟩ := ih _ (by omega) hs₁.le h rfl
            obtain rfl : bit = 0 := by omega
            refine ⟨hs, k + 1, by omega, fun _ => hle (by omega), ?_⟩
            rw [hstream, List.replicate_succ, List.cons_append]
            exact congrArg _ hrest

theorem compDecodeHigh_complete {k : ℕ} {acc : UInt32} {accLen m : ℕ} {buf : List UInt8}
    (hlen : accLen ≤ 8) {rest : List ℕ}
    (hstream : streamOf (acc, accLen, buf) = List.replicate k 0 ++ 1 :: rest)
    (hm : m + 128 * k ≤ 2047) :
    ∃ s, compDecodeHigh acc accLen m buf = some (m + 128 * k, s) ∧ streamOf s = rest := by
  induction k generalizing acc accLen m buf with
  | zero =>
      rcases compDecodeHigh_next acc hlen buf with
        ⟨hnil, -⟩ | ⟨bit, s₁, hs₁, hbit, hstream', hnext⟩
      · rw [hnil] at hstream
        exact absurd hstream (List.cons_ne_nil _ _).symm
      · obtain ⟨rfl, hrest⟩ := List.cons.inj (hstream'.symm.trans hstream)
        exact ⟨s₁, by rw [hnext m, if_pos rfl, Nat.mul_zero, Nat.add_zero], hrest⟩
  | succ k ih =>
      rw [List.replicate_succ, List.cons_append] at hstream
      rcases compDecodeHigh_next acc hlen buf with
        ⟨hnil, -⟩ | ⟨bit, s₁, hs₁, hbit, hstream', hnext⟩
      · rw [hnil] at hstream
        exact absurd hstream (List.cons_ne_nil _ _).symm
      · obtain ⟨rfl, hrest⟩ := List.cons.inj (hstream'.symm.trans hstream)
        obtain ⟨s, hs, hout⟩ := ih (m := m + 128) hs₁.le hrest (by omega)
        refine ⟨s, ?_, hout⟩
        have htotal : m + 128 + 128 * k = m + 128 * (k + 1) := by ring
        rw [hnext m, if_neg (by norm_num), if_neg (by omega), hs, htotal]

/-- A byte of the accumulator, as the decoder takes it apart. -/
theorem waiting_byte (v : UInt32) :
    waiting v 8 = (if v &&& 128 ≠ 0 then 1 else 0) :: digitsBE 2 7 (v &&& 127).toNat := by
  have hlow : (v &&& 127).toNat = v.toNat % 2 ^ 7 := UInt32.toNat_and_mask v 127 (k := 7) rfl
  have hmask : v &&& 128 = if v.toNat.testBit 7 then 128 else 0 :=
    and_one_shiftLeft v (k := 7) (by norm_num)
  have hbit : (v &&& 128 ≠ 0) ↔ v.toNat / 2 ^ 7 % 2 = 1 := by
    rw [hmask, Nat.testBit_eq_decide_div_mod_eq]
    split <;> simp_all
  have hhigh : waiting (v >>> (7 : ℕ).toUInt32) 1 = [v.toNat / 2 ^ 7 % 2] := by
    have hshift := UInt32.toNat_shiftRight_of_lt v 7 (k := 7) rfl (by norm_num)
    exact congrArg (fun n => [n % 2]) hshift
  rw [hlow, digitsBE_mod le_rfl, if_congr hbit rfl rfl, show 8 = 1 + 7 from rfl,
    waiting_split v (by norm_num), hhigh]
  refine congrArg₂ List.cons ?_ rfl
  split <;> omega

/-- The code of a coefficient, from the parts that the decoder reads. -/
theorem compCode_of_parts {z : Int16} {neg : Prop} [Decidable neg] {m k : ℕ} (hm : m < 128)
    (hz : z.toInt = if neg then -((m + 128 * k : ℕ) : ℤ) else ((m + 128 * k : ℕ) : ℤ))
    (hzero : ¬ (neg ∧ m + 128 * k = 0)) :
    compCode z = (if neg then 1 else 0) :: (digitsBE 2 7 m ++ (List.replicate k 0 ++ [1])) := by
  have habs : z.toInt.natAbs = m + 128 * k := by
    rw [hz]
    split <;> omega
  have hneg : z.toInt < 0 ↔ neg := by
    rw [hz]
    by_cases h : neg
    · have hpos : m + 128 * k ≠ 0 := fun h0 => hzero ⟨h, h0⟩
      simp only [h, if_true, iff_true]
      omega
    · simp only [h, if_false, iff_false]
      omega
  have hmod : (m + 128 * k) % 128 = m := by omega
  have hdiv : (m + 128 * k) / 128 = k := by omega
  rw [compCode, habs, hmod, hdiv, if_congr hneg rfl rfl]

/-- The stream, when a byte is taken into the accumulator and its high bits are taken out. -/
theorem streamOf_byte (acc : UInt32) {accLen : ℕ} (hwait : accLen < 8) (b : UInt8)
    (buf : List UInt8) :
    streamOf (acc, accLen, b :: buf) = waiting ((acc <<< 8 ||| b.toUInt32) >>> accLen.toUInt32) 8 ++
      streamOf (acc <<< 8 ||| b.toUInt32, accLen, buf) := by
  rw [streamOf, ← waiting_read acc (by omega : accLen ≤ 24), Nat.add_comm accLen,
    waiting_split _ (by omega : accLen < 32), List.append_assoc]
  rfl

/-- A coefficient in range, from its sign and its absolute value. -/
theorem toInt_signed (neg : Prop) [Decidable neg] {m : ℕ} (hm : m ≤ 2047) :
    (Int16.ofInt (if neg then -(m : ℤ) else m)).toInt = if neg then -(m : ℤ) else m := by
  apply Int16.toInt_ofInt_of_le
  · norm_num
    split <;> omega
  · norm_num
    split <;> omega

/-- **The decoder reads the code of one coefficient**, and fails where no code starts. -/
theorem readsExactly_compDecodeOne :
    ReadsExactly (fun s => s.2.1 < 8) streamOf CompRange compCode compDecodeOne := by
  constructor
  · rintro ⟨acc, accLen, buf⟩ z t hwait hread
    rcases buf with _ | ⟨b, buf⟩
    · exact (Option.some_ne_none _ hread.symm).elim
    · rw [compDecodeOne] at hread
      dsimp only at hread hwait
      rw [streamOf_byte acc hwait b buf, waiting_byte]
      generalize acc <<< 8 ||| b.toUInt32 = acc' at *
      generalize acc' >>> accLen.toUInt32 = v at *
      have hlow : (v &&& 127).toNat < 128 := by
        rw [UInt32.toNat_and_mask v 127 (k := 7) rfl]
        exact Nat.mod_lt _ (by norm_num)
      cases hhigh : compDecodeHigh acc' accLen (v &&& 127).toNat buf with
      | none =>
          rw [hhigh] at hread
          exact (Option.some_ne_none _ hread.symm).elim
      | some r =>
          obtain ⟨m, s⟩ := r
          obtain ⟨hs, k, rfl, hle, hstream⟩ := compDecodeHigh_sound hwait.le hhigh
          have hle := hle (by omega)
          rw [hhigh] at hread
          dsimp only at hread
          by_cases hzero : v &&& 128 ≠ 0 ∧ (v &&& 127).toNat + 128 * k = 0
          · rw [if_pos hzero] at hread
            exact (Option.some_ne_none _ hread.symm).elim
          · rw [if_neg hzero] at hread
            obtain ⟨rfl, rfl⟩ := Prod.mk.inj (Option.some.inj hread)
            have hvalue := toInt_signed (v &&& 128 ≠ 0) hle
            refine ⟨hs, ?_, ?_⟩
            · rw [CompRange, hvalue, abs_le]
              split <;> omega
            · rw [compCode_of_parts hlow hvalue hzero, hstream]
              simp only [List.cons_append, List.append_assoc, List.nil_append]
  · rintro ⟨acc, accLen, buf⟩ z rest hwait hz hstream
    dsimp only at hwait
    rcases buf with _ | ⟨b, buf⟩
    · have hlen := congrArg List.length hstream
      rw [streamOf, List.length_append, length_waiting, List.length_append, length_compCode,
        byteBits_nil, List.length_nil] at hlen
      dsimp only at hlen
      omega
    · rw [streamOf_byte acc hwait b buf, waiting_byte, compCode] at hstream
      rw [compDecodeOne]
      generalize acc <<< 8 ||| b.toUInt32 = acc' at *
      generalize acc' >>> accLen.toUInt32 = v at *
      rw [List.cons_append, List.cons_append, List.append_assoc] at hstream
      obtain ⟨hsign, htail⟩ := List.cons.inj hstream
      obtain ⟨hdigits, hunary⟩ := List.append_inj htail (by rw [length_digitsBE, length_digitsBE])
      have hneg : v &&& 128 ≠ 0 ↔ z.toInt < 0 := by
        by_cases h : z.toInt < 0 <;> by_cases h' : v &&& 128 ≠ 0 <;> simp_all
      have hlow : (v &&& 127).toNat = z.toInt.natAbs % 128 := by
        have hvalue := congrArg (ofDigitsBE 2) hdigits
        rw [ofDigitsBE_digitsBE, ofDigitsBE_digitsBE,
          UInt32.toNat_and_mask v 127 (k := 7) rfl, Nat.mod_mod] at hvalue
        rw [UInt32.toNat_and_mask v 127 (k := 7) rfl, hvalue]
        exact Nat.mod_mod _ _
      have hrange : z.toInt.natAbs ≤ 2047 := by
        have h := abs_le.mp hz
        omega
      rw [List.append_assoc, List.singleton_append] at hunary
      have htotal : z.toInt.natAbs % 128 + 128 * (z.toInt.natAbs / 128) = z.toInt.natAbs :=
        Nat.mod_add_div _ _
      obtain ⟨s, hhigh, hs⟩ := compDecodeHigh_complete (m := z.toInt.natAbs % 128) hwait.le hunary
        (by omega)
      rw [htotal] at hhigh
      refine ⟨s, ?_, hs⟩
      rw [hlow, hhigh]
      have hzero : ¬ (v &&& 128 ≠ 0 ∧ z.toInt.natAbs = 0) := by
        rw [hneg]
        omega
      have hvalue : (if v &&& 128 ≠ 0 then -(z.toInt.natAbs : ℤ) else z.toInt.natAbs) =
          z.toInt := by
        rw [if_congr hneg rfl rfl]
        split <;> omega
      dsimp only
      rw [if_neg hzero, hvalue, Int16.ofInt_toInt]

/-! ### The decoder -/

/-- **Compressed coefficients**: the decoder returns the values that the encoder writes to the
bytes that were read. -/
theorem compDecode_eq_some_iff {buf : List UInt8} {v : ℕ} {x : PolyS16} :
    compDecode buf = some (v, x) ↔
      v ≤ buf.length ∧ compEncode v x = some (buf.take v) := by
  have hread := readsExactly_compDecodeOne.list 1024
  have hstart : streamOf (0, 0, buf) = byteBits buf := rfl
  rw [compDecode, compEncode_eq_some_iff, Option.bind_eq_some_iff]
  constructor
  · rintro ⟨⟨xs, acc, accLen, rest⟩, hlist, hout⟩
    obtain ⟨hwait, ⟨hlen, hrange⟩, hbits⟩ := hread.sound _ _ _ (by norm_num) hlist
    dsimp only at hwait hout
    by_cases hmask : acc &&& ((1 : UInt32) <<< accLen.toUInt32 - 1) ≠ 0
    · rw [if_pos hmask] at hout
      exact (Option.some_ne_none _ hout.symm).elim
    · rw [if_neg hmask] at hout
      obtain ⟨rfl, hx⟩ := Prod.mk.inj (Option.some.inj hout)
      obtain rfl := (ofFn_getD_eq_iff hlen 0).mp hx
      rw [hstart, streamOf, (waiting_eq_replicate_iff (by omega)).mpr (not_not.mp hmask),
        ← List.append_assoc] at hbits
      have htotal := congrArg List.length hbits
      rw [length_byteBits, List.length_append, length_byteBits] at htotal
      dsimp only at htotal hbits
      have hsplit := hbits
      rw [← List.take_append_drop (buf.length - rest.length) buf, byteBits_append] at hsplit
      obtain ⟨htake, -⟩ := List.append_inj' hsplit (by
        rw [length_byteBits, length_byteBits, List.length_drop]
        omega)
      refine ⟨Nat.sub_le _ _, hrange, ?_, accLen, hwait, htake⟩
      rw [List.length_take]
      exact min_le_left _ _
  · rintro ⟨hv, hrange, -, p, hp, hbits⟩
    have hcount : (buf.drop v).length = buf.length - v := List.length_drop
    have hstream : streamOf (0, 0, buf) =
        x.toList.flatMap compCode ++ (List.replicate p 0 ++ byteBits (buf.drop v)) := by
      rw [← List.append_assoc, ← hbits, ← byteBits_append, List.take_append_drop]
      rfl
    obtain ⟨⟨acc, accLen, rest⟩, hlist, hrest⟩ := hread.complete (0, 0, buf) x.toList _
      (by norm_num) ⟨Vector.length_toList, hrange⟩ hstream
    obtain ⟨hwait, -, -⟩ := hread.sound _ _ _ (by norm_num) hlist
    have htotal := congrArg List.length hrest
    rw [streamOf, List.length_append, length_waiting, length_byteBits, List.length_append,
      List.length_replicate, length_byteBits, hcount] at htotal
    dsimp only at hwait htotal
    obtain ⟨rfl, hleft⟩ : accLen = p ∧ rest.length = buf.length - v := by omega
    obtain ⟨hzeros, -⟩ := List.append_inj hrest (by rw [length_waiting, List.length_replicate])
    refine ⟨_, hlist, ?_⟩
    dsimp only at hzeros ⊢
    rw [if_neg (not_not.mpr ((waiting_eq_replicate_iff (by omega)).mp hzeros)), hleft,
      Nat.sub_sub_self hv, (ofFn_getD_eq_iff Vector.length_toList 0).mpr rfl]

/-! ### The other format -/

/-- Coefficients that can be compressed are encoded with twelve bits, too. -/
theorem exists_trimI16Encode {m : ℕ} (hm : 1536 ≤ m) {s2 : PolyS16}
    (h : ∀ c ∈ s2.toList, CompRange c) :
    ∃ bytes, trimI16Encode m s2 12 = some (1536, bytes) ∧ bytes.length = 1536 := by
  have hany : s2.toList.any (fun c => decide (c.toInt < -(2 ^ (12 - 1) - 1) ∨
      c.toInt > 2 ^ (12 - 1) - 1)) = false := by
    rw [List.any_eq_false]
    intro c hc hbad
    have hrange := abs_le.mp (h c hc)
    have hbad := of_decide_eq_true hbad
    norm_num at hbad
    omega
  have hout : (1024 * 12 + 7) >>> 3 = 1536 := rfl
  obtain ⟨bytes, hbytes⟩ : ∃ bytes, trimI16Encode m s2 12 = some (1536, bytes) := by
    rw [trimI16Encode]
    dsimp only
    rw [hany, if_neg Bool.false_ne_true, hout, if_neg (Nat.not_lt.mpr hm)]
    exact ⟨_, rfl⟩
  refine ⟨bytes, hbytes, ?_⟩
  have hdigits := congrArg List.length
    ((trimI16Encode_eq_some_iff (k := 11) (by norm_num)).mp hbytes).2.2.2
  rwa [List.length_map, length_digitsBE] at hdigits

end FalconVanity
