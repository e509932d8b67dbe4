import FalconVanity.Foundation.Positional
import FalconVanity.Foundation.Words
import FalconVanity.SaltSweep

/-!
# Public Keys, Encoded and Decoded

The device writes the coefficients of a public key in 14 bits each, and the reference reads
them back. Both move bits through an accumulator of 32 bits that is never cleared. What it
loses at the top was written before, because fewer than 32 bits ever wait: the written items
are then the digits of the number that was read, in the other base, and the two codecs are
inverse because two numerals of one number are.

## Main results

* `foldl_packStep_spec`: the accumulator and the bytes of the encoder, after every coefficient.
* `modqDecodeLoop_spec`: the accumulator and the coefficients of the decoder, after every byte.
* `pubkey_round_trip`: both round trips.
-/

namespace FalconVanity

open Positional Words

/-! ### The decoder -/

/-- The body of the loop of `modq_decode`: `none` for a value that is out of range. -/
def modqDecodeStep (s : UInt32 × ℕ × List UInt16) (b : UInt8) :
    Option (UInt32 × ℕ × List UInt16) :=
  let (acc, accLen, x) := s
  let acc := acc <<< 8 ||| b.toUInt32
  let accLen := accLen + 8
  if accLen ≥ 14 then
    let accLen := accLen - 14
    let w := (acc >>> accLen.toUInt32) &&& 0x3FFF
    if w ≥ 12289 then none else some (acc, accLen, x ++ [w.toUInt16])
  else some (acc, accLen, x)

/-- The loop of `modq_decode`, until `n` values are read: `none` for the return value 0, or
when the bytes run out, which would be a read beyond the buffer. -/
def modqDecodeLoop (n : ℕ) : List UInt8 → UInt32 × ℕ × List UInt16 →
    Option (UInt32 × ℕ × List UInt16)
  | [], s => if s.2.2.length < n then none else some s
  | b :: buf, s =>
    if s.2.2.length < n then (modqDecodeStep s b).bind (modqDecodeLoop n buf) else some s

/-- `modq_decode`, for `logn = 10`: the number of bytes read, and the values. -/
def modqDecode (buf : List UInt8) (maxInLen : ℕ) : Option (ℕ × Poly16) :=
  let n := 1 <<< 10
  let inLen := (n * 14 + 7) >>> 3
  if inLen > maxInLen then none
  else
    (modqDecodeLoop n buf (0, 0, [])).bind fun (acc, accLen, x) =>
      if (acc &&& ((1 : UInt32) <<< accLen.toUInt32 - 1)) ≠ 0 then none
      else some (inLen, Vector.ofFn fun i => x.getD i 0)

/-- `FALCON_ERR_FORMAT`: an encoding that is not valid. -/
def falconErrFormat : ℤ := -3

/-- `pubkey_coeffs`. The header byte is not looked at. -/
def pubkeyCoeffs (publicKey : Vector UInt8 pubkeySize) : Except FalconError Poly16 :=
  match modqDecode (publicKey.toList.drop 1) (pubkeySize - 1) with
  | none => .error (.pubkeyDecode falconErrFormat)
  | some (v, h) =>
    if v ≠ pubkeySize - 1 then .error (.pubkeyDecode falconErrFormat) else .ok h

/-! ### The encoder, coefficient by coefficient -/

/-- The bits of an accumulator above its low `k`, where the lost bits do not reach. -/
theorem toNat_shiftRight_mod {acc : UInt32} {value k w : ℕ} (hacc : acc.toNat = value % 2 ^ 32)
    (hkw : k + w ≤ 32) (hk : k < 32) :
    (acc >>> k.toUInt32).toNat % 2 ^ w = value / 2 ^ k % 2 ^ w := by
  have hkval : k.toUInt32.toNat = k := by
    rw [Nat.toUInt32, UInt32.toNat_ofNat', Nat.mod_eq_of_lt (by omega)]
  have hsplit : (2 : ℕ) ^ 32 = 2 ^ k * (2 ^ w * 2 ^ (32 - k - w)) := by
    rw [← pow_add, ← pow_add]
    congr 1
    omega
  rw [UInt32.toNat_shiftRight_of_lt acc _ hkval hk, hacc, hsplit, Nat.mod_mul_right_div_self,
    Nat.mod_mul_right_mod]

/-- Flushing bytes: fewer than eight bits wait, and the others are written. -/
theorem flushBytes_spec {acc : UInt32} {accLen value : ℕ} {buf : List UInt8}
    (hacc : acc.toNat = value % 2 ^ 32) (hlen : accLen ≤ 32)
    (hbuf : Emitted 8 value accLen (buf.map UInt8.toNat)) :
    Emitted 8 value (flushBytes acc accLen buf).1
      ((flushBytes acc accLen buf).2.map UInt8.toNat) := by
  induction accLen using Nat.strong_induction_on generalizing buf with
  | _ accLen ih =>
      rw [flushBytes]
      by_cases h : 8 ≤ accLen
      · rw [if_pos h]
        refine ih (accLen - 8) (by omega) (by omega) ?_
        have hbyte : ((acc >>> (accLen - 8).toUInt32).toUInt8).toNat =
            value / 2 ^ (accLen - 8) % 2 ^ 8 := by
          rw [UInt32.toNat_toUInt8]
          exact toNat_shiftRight_mod hacc (by omega) (by omega)
        have hsplit : accLen = accLen - 8 + 8 := by omega
        rw [hsplit] at hbuf
        rw [List.map_append, List.map_singleton, hbyte]
        exact hbuf.write
      · rw [if_neg h]
        exact hbuf

/-- The state of the encoder after some coefficients: the number that they denote, of which
the accumulator holds the low 32 bits, while all but the low bits that wait are written. -/
structure Encoded (xs : List ℕ) (s : UInt32 × ℕ × List UInt8) : Prop where
  acc : s.1.toNat = ofDigitsBE (2 ^ 14) xs % 2 ^ 32
  waiting : s.2.1 < 8
  length : 8 * s.2.2.length + s.2.1 = 14 * xs.length
  emitted : Emitted 8 (ofDigitsBE (2 ^ 14) xs) s.2.1 (s.2.2.map UInt8.toNat)

/-- A coefficient of 14 bits is packed after the others. -/
theorem Encoded.packStep {xs : List ℕ} {s : UInt32 × ℕ × List UInt8} (h : Encoded xs s)
    {w : UInt32} (hw : w.toNat < 2 ^ 14) : Encoded (xs ++ [w.toNat]) (packStep 14 s w) := by
  obtain ⟨hlen, hlt⟩ := packStep_length 14 s w
  have hlength := h.length
  have hfit : s.2.1 + 14 ≤ 32 := by
    have hwait : s.2.1 < 8 := h.waiting
    omega
  have hacc : (s.1 <<< (14 : ℕ).toUInt32 ||| w).toNat =
      (ofDigitsBE (2 ^ 14) xs * 2 ^ 14 + w.toNat) % 2 ^ 32 := by
    rw [UInt32.toNat_shiftLeft_or s.1 (by norm_num) hw, h.acc, Nat.add_mod, Nat.mod_mul_mod,
      ← Nat.add_mod]
  refine ⟨?_, hlt, ?_, ?_⟩
  · rw [ofDigitsBE_concat]
    exact hacc
  · rw [hlen, List.length_append, List.length_singleton]
    omega
  · rw [ofDigitsBE_concat]
    exact flushBytes_spec hacc hfit (h.emitted.read hw)

/-- **The encoder**, after every coefficient. -/
theorem foldl_packStep_spec (ws : List UInt32) (hws : ∀ w ∈ ws, w.toNat < 2 ^ 14) :
    Encoded (ws.map UInt32.toNat) (ws.foldl (packStep 14) (0, 0, [])) := by
  induction ws using List.reverseRecOn with
  | nil => exact ⟨rfl, by norm_num, rfl, Emitted.nil _ _ _⟩
  | append_singleton ws w ih =>
      rw [List.foldl_append, List.map_append]
      exact (ih fun v hv => hws v (List.mem_append_left _ hv)).packStep
        (hws w (List.mem_append_right _ (List.mem_singleton_self w)))

/-- A residue has 14 bits. -/
theorem toNat_lt_of_coeff {h : Poly16} (hh : ∀ i < 1024, h[i]!.toNat < 12289) :
    ∀ x ∈ h.toList.map UInt16.toNat, x < 2 ^ 14 := by
  intro x hx
  obtain ⟨c, hc, rfl⟩ := List.mem_map.mp hx
  obtain ⟨i, hi, rfl⟩ := List.mem_iff_getElem.mp hc
  rw [Vector.length_toList] at hi
  have hlt := hh i hi
  rw [getElem!_pos h i hi] at hlt
  rw [Vector.getElem_toList]
  omega

/-- The bytes that the device writes after the header: the digits of the number whose digits
are the coefficients. -/
theorem devModqEncode_spec {h : Poly16} (hh : ∀ x ∈ h.toList.map UInt16.toNat, x < 2 ^ 14) :
    ∃ buf, devModqEncode h = 0x0A :: buf ∧
      buf.map UInt8.toNat = digitsBE (2 ^ 8) 1792
        (ofDigitsBE (2 ^ 14) (h.toList.map UInt16.toNat)) := by
  have hwords : (h.toList.map UInt16.toUInt32).map UInt32.toNat = h.toList.map UInt16.toNat := by
    rw [List.map_map]
    exact List.map_congr_left fun c _ => UInt16.toNat_toUInt32 c
  have hws : ∀ w ∈ h.toList.map UInt16.toUInt32, w.toNat < 2 ^ 14 := fun w hw =>
    hh w.toNat (hwords ▸ List.mem_map_of_mem hw)
  have hspec := foldl_packStep_spec (h.toList.map UInt16.toUInt32) hws
  rw [hwords] at hspec
  have hcount : (h.toList.map UInt16.toNat).length = 1024 := by simp
  have hlength := hspec.length
  have hwait := hspec.waiting
  have hemitted := hspec.emitted
  rw [hcount] at hlength
  rw [devModqEncode]
  generalize (h.toList.map UInt16.toUInt32).foldl (packStep 14) (0, 0, []) = s at *
  obtain ⟨acc, accLen, buf⟩ := s
  dsimp only at hlength hwait hemitted
  obtain ⟨hbuf, rfl⟩ : buf.length = 1792 ∧ accLen = 0 := by omega
  refine ⟨buf, rfl, ?_⟩
  rw [Emitted, List.length_map, hbuf, pow_zero, Nat.div_one] at hemitted
  exact hemitted

/-! ### The decoder, byte by byte -/

/-- The state of the decoder of a buffer, with some bytes to go: `total` is the number that all
bytes denote. -/
structure Decoded (total togo : ℕ) (s : UInt32 × ℕ × List UInt16) : Prop where
  acc : s.1.toNat = total / (2 ^ 8) ^ togo % 2 ^ 32
  waiting : s.2.1 < 14
  length : 14 * s.2.2.length + s.2.1 + 8 * togo = 14 * 1024
  emitted : s.2.2.map UInt16.toNat = (digitsBE (2 ^ 14) 1024 total).take s.2.2.length
  in_range : ∀ x ∈ s.2.2, x.toNat < 12289

variable {total togo : ℕ} {s : UInt32 × ℕ × List UInt16}

/-- A byte enters the accumulator. -/
theorem Decoded.toNat_acc (h : Decoded total (togo + 1) s) {b : UInt8}
    (hb : b.toNat = total / (2 ^ 8) ^ togo % 2 ^ 8) :
    (s.1 <<< 8 ||| b.toUInt32).toNat = total / (2 ^ 8) ^ togo % 2 ^ 32 := by
  have hlt : b.toUInt32.toNat < 2 ^ 8 := by
    rw [UInt8.toNat_toUInt32]
    exact b.toNat_lt
  have hor := UInt32.toNat_shiftLeft_or s.1 (k := 8) (by norm_num) hlt
  rw [h.acc, UInt8.toNat_toUInt32, hb, Nat.add_mod, Nat.mod_mul_mod, ← Nat.add_mod, pow_succ,
    ← Nat.div_div_eq_div_mul, Nat.div_add_mod'] at hor
  exact hor

/-- The value that leaves the accumulator is the next digit. -/
theorem Decoded.toNat_value (h : Decoded total (togo + 1) s) {b : UInt8}
    (hb : b.toNat = total / (2 ^ 8) ^ togo % 2 ^ 8) (hge : 14 ≤ s.2.1 + 8) :
    ∃ d ∈ digitsBE (2 ^ 14) 1024 total,
      (((s.1 <<< 8 ||| b.toUInt32) >>> (s.2.1 + 8 - 14).toUInt32) &&& 0x3FFF).toNat = d ∧
        (digitsBE (2 ^ 14) 1024 total).take (s.2.2.length + 1) =
          (digitsBE (2 ^ 14) 1024 total).take s.2.2.length ++ [d] := by
  have hwait := h.waiting
  have hlength := h.length
  have hlt : s.2.2.length < (digitsBE (2 ^ 14) 1024 total).length := by
    rw [length_digitsBE]
    omega
  have hexp : (2 ^ 14) ^ (1024 - 1 - s.2.2.length) =
      (2 ^ 8) ^ togo * 2 ^ (s.2.1 + 8 - 14) := by
    rw [← pow_mul, ← pow_mul, ← pow_add]
    congr 1
    omega
  refine ⟨_, List.getElem_mem hlt, ?_, (List.take_concat_get' _ _ hlt).symm⟩
  rw [UInt32.toNat_and_mask _ _ (k := 14) (by decide),
    toNat_shiftRight_mod (h.toNat_acc hb) (by omega) (by omega), getElem_digitsBE, hexp,
    Nat.div_div_eq_div_mul]

/-- **One byte**: the next value, if there is one, is checked and stored. -/
theorem Decoded.step (h : Decoded total (togo + 1) s) {b : UInt8}
    (hb : b.toNat = total / (2 ^ 8) ^ togo % 2 ^ 8) :
    (∀ s', modqDecodeStep s b = some s' → Decoded total togo s') ∧
      ((∀ d ∈ digitsBE (2 ^ 14) 1024 total, d < 12289) → (modqDecodeStep s b).isSome) := by
  have hwait := h.waiting
  have hlength := h.length
  have hacc := h.toNat_acc hb
  by_cases hge : 14 ≤ s.2.1 + 8
  · obtain ⟨d, hd, hvalue, htake⟩ := h.toNat_value hb hge
    have hdigit := lt_of_mem_digitsBE (by norm_num) hd
    set w := ((s.1 <<< 8 ||| b.toUInt32) >>> (s.2.1 + 8 - 14).toUInt32) &&& 0x3FFF with hw
    have hstep : modqDecodeStep s b = if w ≥ 12289 then none
        else some (s.1 <<< 8 ||| b.toUInt32, s.2.1 + 8 - 14, s.2.2 ++ [w.toUInt16]) := by
      rw [modqDecodeStep]
      simp only [ge_iff_le, if_pos hge]
      rfl
    have hle : w ≥ 12289 ↔ 12289 ≤ w.toNat := by simp [UInt32.le_iff_toNat_le]
    have hstored : w.toUInt16.toNat = d := by
      rw [UInt32.toNat_toUInt16, hvalue, Nat.mod_eq_of_lt (by omega)]
    rw [hstep]
    refine ⟨fun s' hs' => ?_, fun hall => ?_⟩
    · split at hs'
      case isTrue => cases hs'
      case isFalse hlow =>
        cases hs'
        rw [hle] at hlow
        refine ⟨hacc, by dsimp only; omega, ?_, ?_, ?_⟩
        · rw [List.length_append, List.length_singleton]
          dsimp only
          omega
        · rw [List.map_append, List.map_singleton, h.emitted, hstored, List.length_append,
            List.length_singleton, htake]
        · intro x hx
          rcases List.mem_append.mp hx with hx | hx
          · exact h.in_range x hx
          · rw [List.mem_singleton.mp hx, hstored, ← hvalue]
            omega
    · rw [if_neg (by rw [hle, hvalue]; exact Nat.not_le.mpr (hall d hd))]
      rfl
  · have hstep : modqDecodeStep s b =
        some (s.1 <<< 8 ||| b.toUInt32, s.2.1 + 8, s.2.2) := by
      rw [modqDecodeStep]
      simp only [ge_iff_le, if_neg hge]
    rw [hstep]
    refine ⟨fun s' hs' => ?_, fun _ => rfl⟩
    cases hs'
    exact ⟨hacc, by dsimp only; omega, by dsimp only; omega, h.emitted, h.in_range⟩

/-- **The decoder**, to the end of the buffer. -/
theorem modqDecodeLoop_spec {buf : List UInt8} (h : Decoded total buf.length s)
    (hbuf : buf.map UInt8.toNat = digitsBE (2 ^ 8) buf.length total) :
    (∀ s', modqDecodeLoop 1024 buf s = some s' → Decoded total 0 s') ∧
      ((∀ d ∈ digitsBE (2 ^ 14) 1024 total, d < 12289) →
        (modqDecodeLoop 1024 buf s).isSome) := by
  induction buf generalizing s with
  | nil =>
      have hwait := h.waiting
      have hlength := h.length
      rw [List.length_nil] at hlength
      have hdone : ¬ s.2.2.length < 1024 := by omega
      rw [modqDecodeLoop, if_neg hdone]
      refine ⟨fun s' hs' => ?_, fun _ => rfl⟩
      cases hs'
      exact h
  | cons b buf ih =>
      have hlength := h.length
      rw [List.length_cons] at hlength
      have hmore : s.2.2.length < 1024 := by omega
      rw [List.length_cons, Nat.add_comm, digitsBE_add, List.map_cons] at hbuf
      obtain ⟨hb, hrest⟩ := List.cons.inj hbuf
      obtain ⟨hkeep, hsome⟩ := Decoded.step h hb
      rw [modqDecodeLoop, if_pos hmore]
      refine ⟨fun s' hs' => ?_, fun hall => ?_⟩
      · obtain ⟨s₁, hs₁, hs'⟩ := Option.bind_eq_some_iff.mp hs'
        exact (ih (hkeep s₁ hs₁) hrest).1 s' hs'
      · obtain ⟨s₁, hs₁⟩ := Option.isSome_iff_exists.mp (hsome hall)
        rw [hs₁, Option.bind_some]
        exact (ih (hkeep s₁ hs₁) hrest).2 hall

/-- The digits of the number that the bytes of a buffer denote are the bytes. -/
theorem digitsBE_bytes (buf : List UInt8) :
    digitsBE (2 ^ 8) buf.length (ofDigitsBE (2 ^ 8) (buf.map UInt8.toNat)) =
      buf.map UInt8.toNat := by
  have hinv := digitsBE_ofDigitsBE (by norm_num) (Words.lt_of_mem_bytes buf)
  rwa [List.length_map] at hinv

/-- A number of `n` bytes is below `256 ^ n`. -/
theorem ofDigitsBE_bytes_lt (buf : List UInt8) :
    ofDigitsBE (2 ^ 8) (buf.map UInt8.toNat) < (2 ^ 8) ^ buf.length := by
  have hlt := ofDigitsBE_lt (by norm_num) (Words.lt_of_mem_bytes buf)
  rwa [List.length_map] at hlt

/-- Before the first byte. -/
theorem decoded_start {buf : List UInt8} (hlen : buf.length = 1792) :
    Decoded (ofDigitsBE (2 ^ 8) (buf.map UInt8.toNat)) buf.length (0, 0, []) where
  acc := by
    rw [Nat.div_eq_of_lt (ofDigitsBE_bytes_lt buf)]
    rfl
  waiting := by norm_num
  length := by
    rw [hlen]
    rfl
  emitted := rfl
  in_range := by simp

/-- **After the last byte** every value is stored, and no bit waits. -/
theorem Decoded.done (h : Decoded total 0 s) :
    s.2.1 = 0 ∧ s.2.2.length = 1024 ∧
      s.2.2.map UInt16.toNat = digitsBE (2 ^ 14) 1024 total := by
  have hwait := h.waiting
  have hlength := h.length
  have hx : s.2.2.length = 1024 := by omega
  refine ⟨by omega, hx, ?_⟩
  rw [h.emitted, hx, List.take_of_length_le (by rw [length_digitsBE])]

/-- The decoder of a buffer of 1792 bytes, by its loop. -/
theorem modqDecode_eq_bind (buf : List UInt8) :
    modqDecode buf 1792 = (modqDecodeLoop 1024 buf (0, 0, [])).bind
      fun (acc, accLen, x) =>
        if (acc &&& ((1 : UInt32) <<< accLen.toUInt32 - 1)) ≠ 0 then none
        else some (1792, Vector.ofFn fun i => x.getD i 0) := rfl

/-- The check of the bits that wait passes when there are none. -/
theorem modqDecode_of_loop {buf : List UInt8}
    (hs : modqDecodeLoop 1024 buf (0, 0, []) = some s) (hwait : s.2.1 = 0) :
    modqDecode buf 1792 = some (1792, Vector.ofFn fun i => s.2.2.getD i 0) := by
  obtain ⟨acc, accLen, x⟩ := s
  obtain rfl : accLen = 0 := hwait
  have hmask : (acc &&& ((1 : UInt32) <<< (0 : ℕ).toUInt32 - 1)) = 0 := by
    have hzero : (1 : UInt32) <<< (0 : ℕ).toUInt32 - 1 = 0 := by decide
    rw [hzero, UInt32.and_zero]
  rw [modqDecode_eq_bind, hs, Option.bind_some]
  simp only [hmask]
  rfl

/-- **The decoder of a buffer** of 1792 bytes: it returns the digits of the number that the
bytes denote, if they are all residues. -/
theorem modqDecode_spec {buf : List UInt8} (hlen : buf.length = 1792) :
    (∀ v h, modqDecode buf 1792 = some (v, h) → v = 1792 ∧
      h.toList.map UInt16.toNat =
        digitsBE (2 ^ 14) 1024 (ofDigitsBE (2 ^ 8) (buf.map UInt8.toNat)) ∧
      ∀ i < 1024, h[i]!.toNat < 12289) ∧
    ((∀ d ∈ digitsBE (2 ^ 14) 1024 (ofDigitsBE (2 ^ 8) (buf.map UInt8.toNat)), d < 12289) →
      ∃ h, modqDecode buf 1792 = some (1792, h)) := by
  obtain ⟨hkeep, hsome⟩ := modqDecodeLoop_spec (decoded_start hlen) (digitsBE_bytes buf).symm
  refine ⟨fun v h hdec => ?_, fun hall => ?_⟩
  · obtain ⟨s, hs, -⟩ := Option.bind_eq_some_iff.mp ((modqDecode_eq_bind buf).symm.trans hdec)
    have hend := hkeep s hs
    obtain ⟨hwait, hx, hdigits⟩ := hend.done
    have hlist := Words.toList_ofFn_getD hx 0
    rw [modqDecode_of_loop hs hwait] at hdec
    cases hdec
    refine ⟨rfl, by rw [hlist, hdigits], fun i hi => hend.in_range _ ?_⟩
    have hmem := Words.getElem!_mem_toList (Vector.ofFn fun i : Fin 1024 => s.2.2.getD i 0) hi
    rwa [hlist] at hmem
  · obtain ⟨s, hs⟩ := Option.isSome_iff_exists.mp (hsome hall)
    exact ⟨_, modqDecode_of_loop hs (hkeep s hs).done.1⟩

/-! ### Round trips -/

/-- The number of 1024 coefficients has 1792 bytes. -/
theorem ofDigitsBE_coeffs_lt {xs : List ℕ} (hxs : ∀ x ∈ xs, x < 2 ^ 14)
    (hlen : xs.length = 1024) : ofDigitsBE (2 ^ 14) xs < (2 ^ 8) ^ 1792 := by
  have hbits : 14 * 1024 = 8 * 1792 := rfl
  have hlt := ofDigitsBE_lt (by norm_num) hxs
  rwa [hlen, ← pow_mul, hbits, pow_mul] at hlt

/-- A polynomial is determined by its coefficients as numbers. -/
theorem toList_map_toNat_injective {h h' : Poly16}
    (heq : h.toList.map UInt16.toNat = h'.toList.map UInt16.toNat) : h = h' :=
  Vector.toList_inj.mp (List.map_injective_iff.mpr (fun _ _ => UInt16.toNat_inj.mp) heq)

/-- **Decoding what the device wrote.** -/
theorem modqDecode_devModqEncode {h : Poly16} (hh : ∀ i < 1024, h[i]!.toNat < 12289) :
    modqDecode ((devModqEncode h).drop 1) 1792 = some (1792, h) := by
  have hcoeffs := toNat_lt_of_coeff hh
  have hcount : (h.toList.map UInt16.toNat).length = 1024 := by simp
  obtain ⟨buf, hbuf, hdigits⟩ := devModqEncode_spec hcoeffs
  have hlen : buf.length = 1792 := by
    have hmap := congrArg List.length hdigits
    rwa [List.length_map, length_digitsBE] at hmap
  have hvalue : ofDigitsBE (2 ^ 8) (buf.map UInt8.toNat) =
      ofDigitsBE (2 ^ 14) (h.toList.map UInt16.toNat) := by
    rw [hdigits, ofDigitsBE_digitsBE, Nat.mod_eq_of_lt (ofDigitsBE_coeffs_lt hcoeffs hcount)]
  have hback : digitsBE (2 ^ 14) 1024 (ofDigitsBE (2 ^ 8) (buf.map UInt8.toNat)) =
      h.toList.map UInt16.toNat := by
    have hinv := digitsBE_ofDigitsBE (by norm_num) hcoeffs
    rw [hcount] at hinv
    rw [hvalue, hinv]
  obtain ⟨hdec, hsome⟩ := modqDecode_spec hlen
  rw [hback] at hdec hsome
  rw [hbuf, List.drop_succ_cons, List.drop_zero]
  obtain ⟨h', hh'⟩ := hsome fun d hd => by
    obtain ⟨c, hc, rfl⟩ := List.mem_map.mp hd
    obtain ⟨i, hi, rfl⟩ := List.mem_iff_getElem.mp hc
    rw [Vector.length_toList] at hi
    have hlt := hh i hi
    rwa [getElem!_pos h i hi] at hlt
  rw [hh', toList_map_toNat_injective (hdec _ _ hh').2.1]

/-- **Encoding what was decoded.** -/
theorem devModqEncode_of_modqDecode {buf : List UInt8} (hlen : buf.length = 1792) {v : ℕ}
    {h : Poly16} (hdec : modqDecode buf 1792 = some (v, h)) :
    devModqEncode h = 0x0A :: buf ∧ ∀ i < 1024, h[i]!.toNat < 12289 := by
  obtain ⟨-, hdigits, hrange⟩ := (modqDecode_spec hlen).1 v h hdec
  have hlt : ofDigitsBE (2 ^ 8) (buf.map UInt8.toNat) < (2 ^ 14) ^ 1024 := by
    have hbits : 8 * 1792 = 14 * 1024 := rfl
    have hlt := ofDigitsBE_bytes_lt buf
    rwa [hlen, ← pow_mul, hbits, pow_mul] at hlt
  obtain ⟨buf', hbuf', hencoded⟩ := devModqEncode_spec (toNat_lt_of_coeff hrange)
  rw [hdigits, ofDigitsBE_digitsBE, Nat.mod_eq_of_lt hlt] at hencoded
  have hinv := digitsBE_bytes buf
  rw [hlen] at hinv
  rw [hinv] at hencoded
  have hsame : buf' = buf :=
    List.map_injective_iff.mpr (fun _ _ => UInt8.toNat_inj.mp) hencoded
  exact ⟨by rw [hbuf', hsame], hrange⟩

/-- The accumulator while `waiting` bits of a number wait: it holds the low 32 bits of the
number, the bits that wait among them, and what it lost is part of what was written. -/
structure Retains (value waiting : ℕ) (acc : UInt32) (buf : List UInt8) : Prop where
  acc : acc.toNat = value % 2 ^ 32
  fits : waiting ≤ 32
  emitted : Emitted 8 value waiting (buf.map UInt8.toNat)

/-- **A coefficient enters the accumulator** of the encoder. -/
theorem Encoded.retains {xs : List ℕ} {s : UInt32 × ℕ × List UInt8} (h : Encoded xs s)
    {w : UInt32} (hw : w.toNat < 2 ^ 14) :
    Retains (ofDigitsBE (2 ^ 14) (xs ++ [w.toNat])) (s.2.1 + 14) (s.1 <<< 14 ||| w) s.2.2 := by
  have hwait := h.waiting
  have hor := UInt32.toNat_shiftLeft_or s.1 (k := 14) (by norm_num) hw
  rw [h.acc, Nat.add_mod, Nat.mod_mul_mod, ← Nat.add_mod] at hor
  rw [ofDigitsBE_concat]
  exact ⟨hor, by omega, h.emitted.read hw⟩

/-- The decoder of public keys reports the coefficients that `modq_decode` returns. -/
theorem pubkeyCoeffs_eq_ok_iff {pk : Vector UInt8 pubkeySize} {h : Poly16} :
    pubkeyCoeffs pk = .ok h ↔ modqDecode (pk.toList.drop 1) 1792 = some (1792, h) := by
  rw [pubkeyCoeffs]
  constructor
  · intro hpk
    split at hpk
    case h_1 => cases hpk
    case h_2 v h' hsome =>
      split at hpk
      case isTrue => cases hpk
      case isFalse hv =>
        cases hpk
        obtain rfl : v = 1792 := not_not.mp hv
        exact hsome
  · intro hdec
    split
    case h_1 hnone => cases hdec.symm.trans hnone
    case h_2 v h' hsome =>
      cases hdec.symm.trans hsome
      rfl

/-- **Public keys round-trip.** What the device writes for coefficients in range has the length
and the header of a public key, and the reference decodes it to the coefficients; what the
reference decodes under this header is what the device writes. Whenever a coefficient enters
the accumulator of the device, this loses only bits that were written. -/
theorem pubkey_round_trip :
    (∀ h : Poly16, (∀ i < 1024, h[i]!.toNat < 12289) →
      (devModqEncode h).length = 1793 ∧ (devModqEncode h).head? = some 0x0A ∧
        modqDecode ((devModqEncode h).drop 1) 1792 = some (1792, h) ∧
        ∀ pk : Vector UInt8 pubkeySize, pk.toList = devModqEncode h → pubkeyCoeffs pk = .ok h) ∧
    (∀ pk : Vector UInt8 pubkeySize, pk.toList.head? = some 0x0A → ∀ h : Poly16,
      pubkeyCoeffs pk = .ok h → devModqEncode h = pk.toList) ∧
    (∀ h : Poly16, (∀ i < 1024, h[i]!.toNat < 12289) → ∀ k < 1024,
      let s := ((h.toList.map UInt16.toUInt32).take k).foldl (packStep 14) (0, 0, [])
      Retains (ofDigitsBE (2 ^ 14) ((h.toList.map UInt16.toNat).take (k + 1))) (s.2.1 + 14)
        (s.1 <<< 14 ||| h[k]!.toUInt32) s.2.2) := by
  refine ⟨fun h hh => ?_, fun pk hhead h hpk => ?_, fun h hh k hk => ?_⟩
  · obtain ⟨buf, hbuf, hdigits⟩ := devModqEncode_spec (toNat_lt_of_coeff hh)
    have hlen : buf.length = 1792 := by
      have hmap := congrArg List.length hdigits
      rwa [List.length_map, length_digitsBE] at hmap
    refine ⟨by rw [hbuf, List.length_cons, hlen], by rw [hbuf]; rfl,
      modqDecode_devModqEncode hh, fun pk hpk => ?_⟩
    rw [pubkeyCoeffs_eq_ok_iff, hpk]
    exact modqDecode_devModqEncode hh
  · have hdec := pubkeyCoeffs_eq_ok_iff.mp hpk
    rw [(devModqEncode_of_modqDecode (by simp) hdec).1, List.drop_one]
    exact List.cons_head?_tail hhead
  · have hwords : ((h.toList.map UInt16.toUInt32).take k).map UInt32.toNat =
        (h.toList.map UInt16.toNat).take k := by
      rw [← List.map_take, ← List.map_take, List.map_map]
      exact List.map_congr_left fun c _ => UInt16.toNat_toUInt32 c
    have hlt : k < (h.toList.map UInt16.toNat).length := by simpa using hk
    have hget : (h.toList.map UInt16.toNat)[k] = h[k]!.toUInt32.toNat := by
      rw [List.getElem_map, Vector.getElem_toList, UInt16.toNat_toUInt32, getElem!_pos h k hk]
    have hcoeff : h[k]!.toUInt32.toNat < 2 ^ 14 := by
      rw [UInt16.toNat_toUInt32]
      exact (hh k hk).trans (by norm_num)
    have hws : ∀ w ∈ (h.toList.map UInt16.toUInt32).take k, w.toNat < 2 ^ 14 := fun w hw =>
      toNat_lt_of_coeff hh w.toNat
        (List.mem_of_mem_take (hwords ▸ List.mem_map_of_mem hw))
    have hspec := foldl_packStep_spec _ hws
    rw [hwords] at hspec
    rw [← List.take_concat_get' _ _ hlt, hget]
    exact hspec.retains hcoeff

/-- The polynomial whose coefficients are all `q - 1`. -/
theorem pubkey_round_trip_replicate :
    (devModqEncode (Vector.replicate 1024 12288)).length = 1793 ∧
      modqDecode ((devModqEncode (Vector.replicate 1024 12288)).drop 1) 1792 =
        some (1792, Vector.replicate 1024 12288) := by
  obtain ⟨hlen, -, hdec, -⟩ := pubkey_round_trip.1 (Vector.replicate 1024 12288) fun i hi => by
    rw [getElem!_pos _ i hi, Vector.getElem_replicate]
    decide
  exact ⟨hlen, hdec⟩

end FalconVanity
