import FalconVanity.PublicKey

/-!
# The Encodings of Keys

A public key is a header byte and the coefficients of `h` in 14 bits each; a private key is a
header byte and the coefficients of `f`, `g` and `F` in the smallest width that holds them.
Both encoders check the range of their input first, and write the bits most significant
first through a 32-bit accumulator.

## Main results

* `toList_writeBytes`: what is written to a buffer.
* `length_packBits`: the encoders write the length that they return.
* `encodePrivkey_isSome`, `encodePubkey_isSome`: in range, no encoder fails.
-/

namespace FalconVanity

/-- `max_fg_bits`: the bits of a coefficient of `f` or `g`, by the degree. -/
def maxFgBits : List ℕ := [0, 8, 8, 8, 8, 8, 7, 7, 6, 6, 5]

/-- `max_FG_bits`: the bits of a coefficient of `F` or `G`, by the degree. -/
def maxFGBits : List ℕ := [0, 8, 8, 8, 8, 8, 8, 8, 8, 8, 8]

/-- `FALCON_PRIVKEY_SIZE(10)` -/
abbrev privkeySize : ℕ := 2305

/-- `FALCON_PUBKEY_SIZE(10)` -/
abbrev pubkeySize : ℕ := 1793

/-! ### Packing bits -/

/-- The inner loop of the encoders: whole bytes leave the accumulator. -/
def flushBytes (acc : UInt32) (accLen : ℕ) (buf : List UInt8) : ℕ × List UInt8 :=
  if 8 ≤ accLen then
    flushBytes acc (accLen - 8) (buf ++ [(acc >>> (accLen - 8).toUInt32).toUInt8])
  else (accLen, buf)
termination_by accLen

/-- The body of the loop of the encoders: a value of `bits` bits enters the accumulator. -/
def packStep (bits : ℕ) (s : UInt32 × ℕ × List UInt8) (w : UInt32) :
    UInt32 × ℕ × List UInt8 :=
  let (acc, accLen, buf) := s
  let acc := acc <<< bits.toUInt32 ||| w
  let (accLen, buf) := flushBytes acc (accLen + bits) buf
  (acc, accLen, buf)

/-- The bytes that the encoders write. -/
def packBits (bits : ℕ) (ws : List UInt32) : List UInt8 :=
  let (acc, accLen, buf) := ws.foldl (packStep bits) (0, 0, [])
  if accLen > 0 then buf ++ [(acc <<< (8 - accLen).toUInt32).toUInt8] else buf

/-- `modq_encode`: the number of bytes written, and the bytes. -/
def modqEncode (maxOutLen : ℕ) (x : Poly16) : Option (ℕ × List UInt8) :=
  if x.toList.any (fun c => decide (c ≥ 12289)) then none
  else
    let outLen := (1024 * 14 + 7) >>> 3
    if outLen > maxOutLen then none
    else some (outLen, packBits 14 (x.toList.map UInt16.toUInt32))

/-- `trim_i8_encode`: the number of bytes written, and the bytes. -/
def trimI8Encode (maxOutLen : ℕ) (x : SmallPoly) (bits : ℕ) : Option (ℕ × List UInt8) :=
  let maxv : ℤ := 2 ^ (bits - 1) - 1
  let minv : ℤ := -maxv
  if x.toList.any (fun c => decide (c.toInt < minv ∨ c.toInt > maxv)) then none
  else
    let outLen := (1024 * bits + 7) >>> 3
    if outLen > maxOutLen then none
    else
      let mask : UInt32 := (1 : UInt32) <<< bits.toUInt32 - 1
      some (outLen, packBits bits (x.toList.map fun c => c.toUInt8.toUInt32 &&& mask))

/-- Bytes written to a buffer from an offset on. -/
def writeBytes {n : ℕ} (buf : Vector UInt8 n) (off : ℕ) : List UInt8 → Vector UInt8 n
  | [] => buf
  | b :: bs => writeBytes (buf.set! off b) (off + 1) bs

/-- The private key, as `falcon_keygen_make` and `pqv_complete_from_fg` write it. -/
def encodePrivkey (f g F : SmallPoly) : Option (Vector UInt8 privkeySize) := do
  let sk : Vector UInt8 privkeySize := (Vector.replicate privkeySize 0).set 0 (0x50 + 10)
  let u := 1
  let (v, bytes) ← trimI8Encode (privkeySize - u) f (maxFgBits.getD 10 0)
  let sk := writeBytes sk u bytes
  let u := u + v
  let (v, bytes) ← trimI8Encode (privkeySize - u) g (maxFgBits.getD 10 0)
  let sk := writeBytes sk u bytes
  let u := u + v
  let (v, bytes) ← trimI8Encode (privkeySize - u) F (maxFGBits.getD 10 0)
  let sk := writeBytes sk u bytes
  let u := u + v
  if u = privkeySize then some sk else none

/-- The public key, as `falcon_keygen_make`, `pqv_complete_from_fg` and `pqv_pubkey_from_fg`
write it. -/
def encodePubkey (h : Poly16) : Option (Vector UInt8 pubkeySize) := do
  let pk : Vector UInt8 pubkeySize := (Vector.replicate pubkeySize 0).set 0 (0x00 + 10)
  let (v, bytes) ← modqEncode (pubkeySize - 1) h
  if v = pubkeySize - 1 then some (writeBytes pk 1 bytes) else none

/-! ### Buffers -/

/-- What is written to a buffer. -/
theorem toList_writeBytes {n : ℕ} {buf : Vector UInt8 n} {pre suf bytes : List UInt8}
    (hbuf : buf.toList = pre ++ suf) (hlen : bytes.length ≤ suf.length) :
    (writeBytes buf pre.length bytes).toList = pre ++ bytes ++ suf.drop bytes.length := by
  induction bytes generalizing buf pre suf with
  | nil => rw [writeBytes, hbuf, List.append_nil, List.length_nil, List.drop_zero]
  | cons b bytes ih =>
      rcases suf with _ | ⟨c, suf⟩
      · simp at hlen
      · have hset : (buf.set! pre.length b).toList = (pre ++ [b]) ++ suf := by
          rw [Vector.set!_eq_setIfInBounds, Vector.toList_setIfInBounds, hbuf,
            List.set_append_right _ _ le_rfl, Nat.sub_self, List.set_cons_zero,
            List.append_assoc, List.singleton_append]
        have hrec := ih hset (by simpa using hlen)
        rw [List.length_append, List.length_singleton] at hrec
        rw [writeBytes, hrec, List.length_cons, List.drop_succ_cons, List.append_cons pre b bytes]

/-- The bytes of a buffer up to the end of those that were written. -/
theorem take_toList_writeBytes {n : ℕ} (buf : Vector UInt8 n) {off : ℕ} (bytes : List UInt8)
    (hfit : off + bytes.length ≤ n) :
    (writeBytes buf off bytes).toList.take (off + bytes.length) =
      buf.toList.take off ++ bytes := by
  have hoff : (buf.toList.take off).length = off := by
    rw [List.length_take, Vector.length_toList]
    omega
  have hwrite := toList_writeBytes (List.take_append_drop off buf.toList).symm
    (by rw [List.length_drop, Vector.length_toList]; omega : bytes.length ≤ _)
  rw [hoff] at hwrite
  have hlen : (buf.toList.take off ++ bytes).length = off + bytes.length := by
    rw [List.length_append, hoff]
  rw [hwrite, ← hlen, List.take_left]

/-! ### Lengths -/

/-- Flushing moves whole bytes to the output, and leaves fewer than eight bits. -/
theorem flushBytes_length (acc : UInt32) (accLen : ℕ) (buf : List UInt8) :
    8 * (flushBytes acc accLen buf).2.length + (flushBytes acc accLen buf).1 =
        8 * buf.length + accLen ∧
      (flushBytes acc accLen buf).1 < 8 := by
  induction accLen using Nat.strong_induction_on generalizing buf with
  | _ accLen ih =>
      rw [flushBytes]
      by_cases h : 8 ≤ accLen
      · rw [if_pos h]
        obtain ⟨hlen, hlt⟩ := ih (accLen - 8) (by omega)
          (buf ++ [(acc >>> (accLen - 8).toUInt32).toUInt8])
        rw [List.length_append, List.length_singleton] at hlen
        exact ⟨by omega, hlt⟩
      · rw [if_neg h]
        exact ⟨rfl, by omega⟩

/-- A step of the packer adds its bits to what is written and what is left. -/
theorem packStep_length (bits : ℕ) (s : UInt32 × ℕ × List UInt8) (w : UInt32) :
    8 * (packStep bits s w).2.2.length + (packStep bits s w).2.1 =
        8 * s.2.2.length + s.2.1 + bits ∧
      (packStep bits s w).2.1 < 8 := by
  obtain ⟨acc, accLen, buf⟩ := s
  obtain ⟨hlen, hlt⟩ := flushBytes_length (acc <<< bits.toUInt32 ||| w) (accLen + bits) buf
  exact ⟨by rw [Nat.add_assoc]; exact hlen, hlt⟩

/-- The length of what the packer has written after all words. -/
theorem foldl_packStep_length (bits : ℕ) (ws : List UInt32) (s : UInt32 × ℕ × List UInt8)
    (hs : s.2.1 < 8) :
    8 * (ws.foldl (packStep bits) s).2.2.length + (ws.foldl (packStep bits) s).2.1 =
        8 * s.2.2.length + s.2.1 + ws.length * bits ∧
      (ws.foldl (packStep bits) s).2.1 < 8 := by
  induction ws generalizing s with
  | nil => exact ⟨by simp, hs⟩
  | cons w ws ih =>
      obtain ⟨hlen, hlt⟩ := packStep_length bits s w
      obtain ⟨hrec, hrlt⟩ := ih (packStep bits s w) hlt
      have hmul : (ws.length + 1) * bits = ws.length * bits + bits := Nat.succ_mul _ _
      rw [List.foldl_cons, List.length_cons, hmul]
      exact ⟨by omega, hrlt⟩

/-- **The encoders write the length that they return.** -/
theorem length_packBits (bits : ℕ) (ws : List UInt32) :
    (packBits bits ws).length = (ws.length * bits + 7) / 8 := by
  obtain ⟨hlen, hlt⟩ := foldl_packStep_length bits ws (0, 0, []) (by norm_num)
  rw [packBits]
  generalize ws.foldl (packStep bits) (0, 0, []) = s at hlen hlt
  obtain ⟨acc, accLen, buf⟩ := s
  simp only [List.length_nil] at hlen hlt ⊢
  split
  · rw [List.length_append, List.length_singleton]
    omega
  · omega

/-! ### Success -/

/-- Small coefficients can be encoded if there is room. -/
theorem trimI8Encode_of_le {m w : ℕ} {x : SmallPoly}
    (hx : ∀ i < 1024, |x[i]!.toInt| ≤ 2 ^ (w - 1) - 1)
    (hlen : (1024 * w + 7) / 8 ≤ m) :
    ∃ bytes, trimI8Encode m x w = some ((1024 * w + 7) / 8, bytes) ∧
      bytes.length = (1024 * w + 7) / 8 := by
  have hrange : ¬ x.toList.any (fun c =>
      decide (c.toInt < -(2 ^ (w - 1) - 1) ∨ c.toInt > 2 ^ (w - 1) - 1)) = true := by
    intro hany
    obtain ⟨c, hc, hbad⟩ := List.any_eq_true.mp hany
    obtain ⟨i, hi, rfl⟩ := List.mem_iff_getElem.mp hc
    rw [Vector.length_toList] at hi
    have hle := abs_le.mp (hx i hi)
    rw [getElem!_pos x i hi] at hle
    rw [Vector.getElem_toList] at hbad
    have := of_decide_eq_true hbad
    omega
  rw [trimI8Encode]
  simp only [Nat.shiftRight_eq_div_pow]
  rw [if_neg hrange, if_neg (by norm_num; omega)]
  refine ⟨_, rfl, ?_⟩
  rw [length_packBits, List.length_map, Vector.length_toList]

/-- Residues below `q` can be encoded if there is room. -/
theorem modqEncode_of_lt {m : ℕ} {x : Poly16} (hx : ∀ i < 1024, x[i]!.toNat < 12289)
    (hlen : 1792 ≤ m) :
    ∃ bytes, modqEncode m x = some (1792, bytes) ∧ bytes.length = 1792 := by
  have hrange : ¬ x.toList.any (fun c => decide (c ≥ 12289)) = true := by
    intro hany
    obtain ⟨c, hc, hbad⟩ := List.any_eq_true.mp hany
    obtain ⟨i, hi, rfl⟩ := List.mem_iff_getElem.mp hc
    rw [Vector.length_toList] at hi
    have hlt := hx i hi
    rw [getElem!_pos x i hi] at hlt
    rw [Vector.getElem_toList] at hbad
    have hge : 12289 ≤ x[i].toNat := UInt16.le_iff_toNat_le.mp (of_decide_eq_true hbad)
    omega
  rw [modqEncode, if_neg hrange]
  simp only [Nat.shiftRight_eq_div_pow]
  rw [if_neg (by norm_num; omega)]
  refine ⟨_, rfl, ?_⟩
  rw [length_packBits, List.length_map, Vector.length_toList]

/-- **No encoder of the private key fails** within the bounds that key generation checks. -/
theorem encodePrivkey_isSome {f g F : SmallPoly} (hf : ∀ i < 1024, |f[i]!.toInt| ≤ 15)
    (hg : ∀ i < 1024, |g[i]!.toInt| ≤ 15) (hF : ∀ i < 1024, |F[i]!.toInt| ≤ 127) :
    (encodePrivkey f g F).isSome := by
  -- The sizes are 640, 640 and 1024 bytes, after the header byte.
  let vf := (1024 * maxFgBits.getD 10 0 + 7) / 8
  let vF := (1024 * maxFGBits.getD 10 0 + 7) / 8
  obtain ⟨fb, hfb, -⟩ := trimI8Encode_of_le (m := privkeySize - 1)
    (w := maxFgBits.getD 10 0) hf (by decide)
  obtain ⟨gb, hgb, -⟩ := trimI8Encode_of_le (m := privkeySize - (1 + vf))
    (w := maxFgBits.getD 10 0) hg (by decide)
  obtain ⟨Fb, hFb, -⟩ := trimI8Encode_of_le (m := privkeySize - (1 + vf + vf))
    (w := maxFGBits.getD 10 0) hF (by decide)
  have hsize : 1 + vf + vf + vF = privkeySize := by decide
  simp only [encodePrivkey, Option.bind_eq_bind, hfb, Option.bind_some]
  rw [hgb, Option.bind_some]
  simp only
  rw [hFb, Option.bind_some]
  simp only
  rw [if_pos hsize]
  rfl

/-- **The encoder of the public key does not fail** on residues. -/
theorem encodePubkey_isSome {h : Poly16} (hh : ∀ i < 1024, h[i]!.toNat < 12289) :
    (encodePubkey h).isSome := by
  obtain ⟨bytes, hbytes, -⟩ := modqEncode_of_lt (m := 1792) hh le_rfl
  simp [encodePubkey, hbytes]

end FalconVanity
