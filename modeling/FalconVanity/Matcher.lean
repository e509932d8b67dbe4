import FalconVanity.Targets

/-!
# The Device Matcher

On the device a target is four 64-bit words: a mask and a value for the first eight bytes
of an address, and a mask and a value for its last four bytes followed by the checksum. The
matchers of the two kernels compare these words in a loop over the targets and hash the
address at most once, when a target with a trailing pattern first needs it.

The proof works with the numbers the words denote. The 36 bytes of an address and its
checksum are one number below `2 ^ 288`; the leading characters of the display string are a
quotient of it and the trailing ones a remainder, and so are the two masked words.

## Main results

* `Target.deviceWords_exact`: no shift amount reaches 64 and no bit of a pattern is lost.
* `matchTargets_eq_any`: the lazily computed word never changes the result.
* `PqTarget.matches_iff`: one target's comparison against the display string.
-/

namespace FalconVanity

open Positional

/-- `PqTarget`, `EdTarget`: a target in the constant memory of the device. -/
structure PqTarget where
  pmask : UInt64
  pval : UInt64
  smask : UInt64
  sval : UInt64
  deriving DecidableEq

/-! ### The device table -/

/-- The closure `bits` of `Target::device_words`: the digits of a pattern in a `u128`. -/
def patternBits (s : Str) : BitVec 128 :=
  s.foldl (fun acc c => acc <<< 5 ||| BitVec.ofNat 128 (base32Index c)) 0

/-- `Target::device_words`: the bits of the prefix and the suffix, with their masks. -/
def Target.deviceWords (t : Target) : PqTarget :=
  let p := t.pfx.length
  let s := t.sfx.length
  { pmask := if 0 < p then 0xffffffffffffffff <<< (64 - 5 * p).toUInt64 else 0
    pval := if 0 < p then
        UInt64.ofBitVec ((patternBits t.pfx).setWidth 64) <<< (64 - 5 * p).toUInt64
      else 0
    smask := if 0 < s then 1 <<< (5 * s - 2).toUInt64 - 1 else 0
    sval := if 0 < s then UInt64.ofBitVec ((patternBits t.sfx >>> 2).setWidth 64) else 0 }

/-- `TargetSet::device_table`: the device words of the active targets. -/
def TargetSet.deviceTable (S : TargetSet) (active : Active) : List PqTarget :=
  (List.range S.list.length).filterMap fun i =>
    if active i then (S.list[i]?).map Target.deviceWords else none

/-! ### The matchers -/

/-- `pq_be64`, `ed_be64`: eight bytes as a big-endian word. -/
def be64 (p : List UInt8) : UInt64 :=
  (p.take 8).foldl (fun v b => v <<< 8 ||| b.toUInt64) 0

/-- The loop over the targets, which the two kernels share. `loWord` is the word they
compute when they first need it, `lo` and `haveLo` what they have of it. -/
def matchTargets (hi loWord : UInt64) : List PqTarget → UInt64 → Bool → Bool
  | [], _, _ => false
  | T :: ts, lo, haveLo =>
    if hi &&& T.pmask ≠ T.pval then matchTargets hi loWord ts lo haveLo
    else if T.smask = 0 then true
    else
      let lo := if haveLo then lo else loWord
      if lo &&& T.smask = T.sval then true else matchTargets hi loWord ts lo true

variable (P : Primitives)

/-- The word `lo` of `pq_match_targets`. -/
def pqLoWord (addr32 : Address) : UInt64 :=
  let sum := (P.sha512_256 addr32.toList).toList
  (be64 (addr32.toList.drop 24)).toUInt32.toUInt64 <<< 32 |||
    (be64 (sum.drop 24)).toUInt32.toUInt64

/-- `pq_match_targets`: the first active target whose bits agree, in the kernel for Falcon keys. -/
def pqMatchTargets (addr32 : Address) (targets : List PqTarget) : Bool :=
  matchTargets (be64 addr32.toList) (pqLoWord P addr32) targets 0 false

/-- `ed_checksum32`: the checksum as a big-endian word. -/
def edChecksum32 (addr32 : Address) : UInt32 :=
  let out := P.sha512_256 addr32.toList
  out[28].toUInt32 <<< 24 ||| out[29].toUInt32 <<< 16 ||| out[30].toUInt32 <<< 8 |||
    out[31].toUInt32

/-- The word `lo` of `ed_match_targets`. -/
def edLoWord (addr32 : Address) : UInt64 :=
  (be64 (addr32.toList.drop 24)).toUInt32.toUInt64 <<< 32 |||
    (edChecksum32 P addr32).toUInt64

/-- `ed_match_targets`: the first active target whose bits agree, in the kernel for Ed25519 keys.
-/
def edMatchTargets (addr32 : Address) (targets : List PqTarget) : Bool :=
  matchTargets (be64 addr32.toList) (edLoWord P addr32) targets 0 false

/-- The comparison the loop makes for one target, with the word `lo` at hand. -/
def PqTarget.Accepts (T : PqTarget) (hi lo : UInt64) : Prop :=
  hi &&& T.pmask = T.pval ∧ (T.smask = 0 ∨ lo &&& T.smask = T.sval)

/-- **The lazy word never matters**: the loop finds a match exactly when some target
accepts the two words. -/
theorem matchTargets_iff {hi loWord lo : UInt64} {haveLo : Bool} {ts : List PqTarget}
    (hlo : haveLo = true → lo = loWord) :
    matchTargets hi loWord ts lo haveLo = true ↔ ∃ T ∈ ts, T.Accepts hi loWord := by
  induction ts generalizing lo haveLo with
  | nil => simp [matchTargets]
  | cons T ts ih =>
      have hword : (if haveLo then lo else loWord) = loWord := by
        cases haveLo with
        | true => exact hlo rfl
        | false => rfl
      rw [matchTargets, List.exists_mem_cons_iff, PqTarget.Accepts]
      by_cases hp : hi &&& T.pmask = T.pval
      · by_cases hs : T.smask = 0
        · simp [hp, hs]
        · by_cases hl : loWord &&& T.smask = T.sval
          · simp [hp, hs, hword, hl]
          · simp [hp, hs, hword, hl, ih]
      · simp [hp, ih hlo]

/-! ### The words as numbers -/

/-- A byte list as a number, most significant byte first. -/
def bytesValue (bytes : List UInt8) : ℕ := ofDigitsBE 256 (bytes.map UInt8.toNat)

/-- The bytes in front weigh more. -/
theorem bytesValue_append (xs ys : List UInt8) :
    bytesValue (xs ++ ys) = bytesValue xs * 256 ^ ys.length + bytesValue ys := by
  rw [bytesValue, List.map_append, ofDigitsBE_append, List.length_map]
  rfl

/-- A number of `n` bytes is below `256 ^ n`. -/
theorem bytesValue_lt (bytes : List UInt8) : bytesValue bytes < 256 ^ bytes.length := by
  have h := ofDigitsBE_lt (by norm_num) (Words.lt_of_mem_bytes bytes)
  rwa [List.length_map] at h

/-- The accumulation of `be64` is exact for up to eight bytes. -/
theorem toNat_foldl_be64 {bytes : List UInt8} (hlen : bytes.length ≤ 8) :
    (bytes.foldl (fun (v : UInt64) b => v <<< 8 ||| b.toUInt64) 0).toNat =
      bytesValue bytes := by
  induction bytes using List.reverseRecOn with
  | nil => rfl
  | append_singleton bytes b ih =>
      rw [List.length_append, List.length_singleton] at hlen
      have ih := ih (by omega)
      have hlt : bytesValue bytes * 2 ^ 8 < 2 ^ 64 := by
        have hb := bytesValue_lt bytes
        have hpow : 256 ^ bytes.length ≤ 256 ^ 7 := Nat.pow_le_pow_right (by norm_num) (by omega)
        omega
      rw [List.foldl_append, List.foldl_cons, List.foldl_nil]
      refine (Words.UInt64.toNat_shiftLeft_or (k := 8) (by norm_num) (by rwa [ih])
        (by simpa using b.toNat_lt)).trans ?_
      rw [ih, bytesValue_append]
      simp [bytesValue, ofDigitsBE]

/-- A 64-bit word reads the first eight bytes, the most significant one first. -/
theorem toNat_be64 {p : List UInt8} : (be64 p).toNat = bytesValue (p.take 8) :=
  toNat_foldl_be64 (List.length_take_le 8 p)

/-- The low half of eight bytes read big-endian is the number of the last four. -/
theorem toNat_be64_low {p : List UInt8} (hlen : p.length = 8) :
    (be64 p).toUInt32.toNat = bytesValue (p.drop 4) := by
  have hlt := bytesValue_lt (p.drop 4)
  have hdrop : (p.drop 4).length = 4 := by simp [hlen]
  rw [hdrop] at hlt
  rw [UInt64.toNat_toUInt32, toNat_be64, List.take_of_length_le (by omega)]
  conv_lhs => rw [← List.take_append_drop 4 p, bytesValue_append, hdrop]
  norm_num at hlt ⊢
  omega

/-- Accumulating up to 25 digits in a `u128` is exact. -/
theorem toNat_patternBits {s : Str} (hs : ∀ c ∈ s, c ∈ base32Alphabet)
    (hlen : s.length ≤ 25) : (patternBits s).toNat = base32Value s := by
  induction s using List.reverseRecOn with
  | nil => rfl
  | append_singleton s c ih =>
      rw [List.length_append, List.length_singleton] at hlen
      have hs' : ∀ c ∈ s, c ∈ base32Alphabet := fun x hx => hs x (by simp [hx])
      have ih := ih hs' (by omega)
      have hc := base32Index_lt (hs c (by simp))
      have hlt : base32Value s * 2 ^ 5 < 2 ^ 128 := by
        have hb := ofDigitsBE_lt (by norm_num) (base32Digits_lt hs')
        have hpow : 32 ^ (base32Digits s).length ≤ 32 ^ 24 :=
          Nat.pow_le_pow_right (by norm_num) (by rw [length_base32Digits]; omega)
        rw [base32Value]
        omega
      have hdigit : (BitVec.ofNat 128 (base32Index c)).toNat = base32Index c :=
        (BitVec.toNat_ofNat _ _).trans (Nat.mod_eq_of_lt (by omega))
      rw [patternBits, List.foldl_append, List.foldl_cons, List.foldl_nil]
      refine (Words.BitVec.toNat_shiftLeft_or (k := 5) (ih.symm ▸ hlt)
        (by rw [hdigit]; exact hc)).trans ?_
      rw [hdigit, base32Value, base32Digits, List.map_append, List.map_singleton,
        ofDigitsBE_concat]
      exact congrArg (· * 32 + _) ih

/-- Five bits for each character. -/
theorem pow_thirtyTwo (n : ℕ) : 32 ^ n = 2 ^ (5 * n) := by
  rw [pow_mul]
  norm_num

/-- A text of `n` characters stands for a number with `5 * n` bits. -/
theorem base32Value_lt {s : Str} (hs : ∀ c ∈ s, c ∈ base32Alphabet) :
    base32Value s < 2 ^ (5 * s.length) := by
  have h := ofDigitsBE_lt (by norm_num) (base32Digits_lt hs)
  rwa [length_base32Digits, pow_thirtyTwo] at h

/-- The last character of a trailing pattern leaves the two padding bits zero. -/
theorem four_dvd_base32Value {s : Str} (hlast : ∀ c ∈ s.getLast?, c ∈ lastChars) :
    4 ∣ base32Value s := by
  induction s using List.reverseRecOn with
  | nil => exact dvd_zero 4
  | append_singleton s c _ =>
      have hall : lastChars.all (fun x => decide (4 ∣ base32Index x)) = true := by decide
      have h4 : 4 ∣ base32Index c :=
        of_decide_eq_true (List.all_eq_true.mp hall c (hlast c (by simp)))
      rw [base32Value, base32Digits, List.map_append, List.map_singleton, ofDigitsBE_concat]
      exact dvd_add (Dvd.dvd.mul_left (by norm_num) _) h4

/-! ### One target -/

/-- What the device limits and the validation give for one target. Its prefix and its suffix fit
into the masks of the device. -/
structure Target.Fits (t : Target) : Prop extends t.Valid where
  pfx_le : t.pfx.length ≤ gpuMaxPrefix
  sfx_le : t.sfx.length ≤ gpuMaxSuffix

/-- A leading pattern within the device limits fits a word. -/
theorem Target.Fits.toNat_pfxBits {t : Target} (h : t.Fits) :
    (UInt64.ofBitVec ((patternBits t.pfx).setWidth 64)).toNat = base32Value t.pfx := by
  have hp : t.pfx.length ≤ 12 := h.pfx_le
  have h64 : base32Value t.pfx < 2 ^ 64 :=
    (base32Value_lt h.pfx_chars).trans_le (Nat.pow_le_pow_right (by norm_num) (by omega))
  rw [UInt64.toNat_ofBitVec, BitVec.toNat_setWidth, toNat_patternBits h.pfx_chars (by omega),
    Nat.mod_eq_of_lt h64]

/-- Shifted to the top of the word, a leading pattern still fits. -/
theorem Target.Fits.shift_lt {t : Target} (h : t.Fits) :
    base32Value t.pfx * 2 ^ (64 - 5 * t.pfx.length) < 2 ^ 64 := by
  have hp : t.pfx.length ≤ 12 := h.pfx_le
  calc base32Value t.pfx * 2 ^ (64 - 5 * t.pfx.length)
      < 2 ^ (5 * t.pfx.length) * 2 ^ (64 - 5 * t.pfx.length) :=
        Nat.mul_lt_mul_of_pos_right (base32Value_lt h.pfx_chars) (by positivity)
    _ = 2 ^ 64 := by rw [← pow_add]; congr 1; omega

/-- The value word of a leading pattern holds all its bits. -/
theorem Target.Fits.toNat_pval {t : Target} (h : t.Fits) (hne : 0 < t.pfx.length) :
    t.deviceWords.pval.toNat = base32Value t.pfx * 2 ^ (64 - 5 * t.pfx.length) := by
  simp only [Target.deviceWords, if_pos hne]
  rw [Words.UInt64.toNat_shiftLeft_of_lt (by omega) (by rw [h.toNat_pfxBits]; exact h.shift_lt),
    h.toNat_pfxBits]

/-- The value word of a trailing pattern holds all its bits but the padding. -/
theorem Target.Fits.toNat_sval {t : Target} (h : t.Fits) (hne : 0 < t.sfx.length) :
    4 * t.deviceWords.sval.toNat = base32Value t.sfx := by
  have hs : t.sfx.length ≤ 13 := h.sfx_le
  have h66 : base32Value t.sfx < 2 ^ 66 :=
    (base32Value_lt h.sfx_chars).trans_le (Nat.pow_le_pow_right (by norm_num) (by omega))
  have hdvd := four_dvd_base32Value h.last
  simp only [Target.deviceWords, if_pos hne]
  rw [UInt64.toNat_ofBitVec, BitVec.toNat_setWidth, BitVec.toNat_ushiftRight,
    toNat_patternBits h.sfx_chars (by omega), Nat.shiftRight_eq_div_pow]
  omega

/-- A leading pattern is accepted exactly when it is the leading bits of `hi`. -/
theorem Target.Fits.and_pmask_iff {t : Target} (h : t.Fits) (hi : UInt64) :
    hi &&& t.deviceWords.pmask = t.deviceWords.pval ↔
      hi.toNat / 2 ^ (64 - 5 * t.pfx.length) = base32Value t.pfx := by
  by_cases hne : 0 < t.pfx.length
  · simp only [Target.deviceWords, if_pos hne]
    rw [Words.UInt64.and_high_eq_iff (by omega) (by rw [h.toNat_pfxBits]; exact h.shift_lt),
      h.toNat_pfxBits]
  · have hnil : t.pfx = [] := List.eq_nil_of_length_eq_zero (by omega)
    have hlt := hi.toNat_lt
    simp only [Target.deviceWords, hnil, List.length_nil, lt_irrefl, if_false]
    refine iff_of_true (by simp) ?_
    rw [Nat.mul_zero, Nat.sub_zero, Nat.div_eq_of_lt hlt]
    rfl

/-- The mask of a trailing pattern is zero exactly when there is none. -/
theorem Target.Fits.smask_eq_zero_iff {t : Target} (h : t.Fits) :
    t.deviceWords.smask = 0 ↔ t.sfx = [] := by
  have hs : t.sfx.length ≤ 13 := h.sfx_le
  by_cases hne : 0 < t.sfx.length
  · have hnil : t.sfx ≠ [] := List.ne_nil_of_length_pos hne
    simp only [Target.deviceWords, if_pos hne]
    refine iff_of_false (fun hz => ?_) hnil
    -- All bits of the mask below `5 * s - 2` are ones, so masking ones gives no zero.
    have hmask := Words.UInt64.toNat_and_low (a := 1) (k := 5 * t.sfx.length - 2) (by omega)
    rw [hz, Nat.mod_eq_of_lt (by simpa using by omega)] at hmask
    simp at hmask
  · have hnil : t.sfx = [] := List.eq_nil_of_length_eq_zero (by omega)
    simp [Target.deviceWords, hnil]

/-- A trailing pattern is accepted exactly when it is the trailing bits of `lo`. -/
theorem Target.Fits.and_smask_iff {t : Target} (h : t.Fits) (hne : 0 < t.sfx.length)
    (lo : UInt64) : lo &&& t.deviceWords.smask = t.deviceWords.sval ↔
      4 * (lo.toNat % 2 ^ (5 * t.sfx.length - 2)) = base32Value t.sfx := by
  have hs : t.sfx.length ≤ 13 := h.sfx_le
  have hmask : (lo &&& t.deviceWords.smask).toNat =
      lo.toNat % 2 ^ (5 * t.sfx.length - 2) := by
    simp only [Target.deviceWords, if_pos hne]
    exact Words.UInt64.toNat_and_low (by omega)
  rw [← h.toNat_sval hne, ← UInt64.toNat_inj, hmask]
  omega

/-! ### The display string -/

/-- The 36 bytes of the display string. -/
def displayBytes (addr : Address) : List UInt8 := addr.toList ++ Address.checksum P addr

@[simp] theorem length_displayBytes (addr : Address) : (displayBytes P addr).length = 36 := by
  simp [displayBytes]

/-- The display string encodes these bytes, followed by two zero bits. -/
theorem base32Padded_displayBytes (addr : Address) :
    base32Padded (displayBytes P addr) = bytesValue (displayBytes P addr) * 4 := by
  rw [base32Padded, length_displayBytes]
  rfl

/-- The words `hi` and `lo` hold the first and the last eight of the 36 bytes. -/
theorem bytesValue_displayBytes_high (addr : Address) :
    bytesValue (displayBytes P addr) / 2 ^ 224 = (be64 addr.toList).toNat := by
  have hsplit : displayBytes P addr = addr.toList.take 8 ++
      (addr.toList.drop 8 ++ Address.checksum P addr) := by
    rw [← List.append_assoc, List.take_append_drop, displayBytes]
  have hlen : (addr.toList.drop 8 ++ Address.checksum P addr).length = 28 := by simp
  have hlt := bytesValue_lt (addr.toList.drop 8 ++ Address.checksum P addr)
  rw [hsplit, bytesValue_append, toNat_be64, hlen]
  rw [hlen] at hlt
  norm_num at hlt ⊢
  omega

/-- The last eight bytes of what is displayed are the end of the address and its checksum. -/
theorem bytesValue_displayBytes_low (addr : Address) :
    bytesValue (displayBytes P addr) % 2 ^ 64 =
      bytesValue (addr.toList.drop 28 ++ Address.checksum P addr) := by
  have hsplit : displayBytes P addr = addr.toList.take 28 ++
      (addr.toList.drop 28 ++ Address.checksum P addr) := by
    rw [← List.append_assoc, List.take_append_drop, displayBytes]
  have hlen : (addr.toList.drop 28 ++ Address.checksum P addr).length = 8 := by simp
  have hlt := bytesValue_lt (addr.toList.drop 28 ++ Address.checksum P addr)
  rw [hsplit, bytesValue_append, hlen]
  rw [hlen] at hlt
  norm_num at hlt ⊢
  omega

/-- Four bytes of the address above a 32-bit word. -/
theorem toNat_loWord {addr : Address} {low : UInt64} {bytes : List UInt8}
    (hlen : bytes.length = 4) (hlow : low.toNat = bytesValue bytes) :
    ((be64 (addr.toList.drop 24)).toUInt32.toUInt64 <<< 32 ||| low).toNat =
      bytesValue (addr.toList.drop 28 ++ bytes) := by
  have hhigh : (be64 (addr.toList.drop 24)).toUInt32.toUInt64.toNat =
      bytesValue (addr.toList.drop 28) := by
    rw [UInt32.toNat_toUInt64, toNat_be64_low (by simp), List.drop_drop]
  have hlt := bytesValue_lt (addr.toList.drop 28)
  have hlt' := bytesValue_lt bytes
  have h4 : (addr.toList.drop 28).length = 4 := by simp
  rw [h4] at hlt
  rw [hlen] at hlt'
  refine (Words.UInt64.toNat_shiftLeft_or (k := 32) (by norm_num) (by rw [hhigh]; omega)
    (by rw [hlow]; omega)).trans ?_
  rw [hhigh, hlow, bytesValue_append, hlen]
  rfl

/-- The low word of the kernel for Falcon keys. -/
theorem toNat_pqLoWord (addr : Address) : (pqLoWord P addr).toNat =
    bytesValue (addr.toList.drop 28 ++ Address.checksum P addr) := by
  refine toNat_loWord (Address.length_checksum P addr) ?_
  rw [UInt32.toNat_toUInt64, toNat_be64_low (by simp), List.drop_drop]
  rfl

/-- The checksum, byte by byte. -/
theorem checksum_eq (addr : Address) : Address.checksum P addr =
    let out := P.sha512_256 addr.toList
    [out[28], out[29], out[30], out[31]] := by
  refine List.ext_getElem (by simp) fun i hi _ => ?_
  rw [Address.length_checksum] at hi
  simp only [Address.checksum, List.getElem_drop, Vector.getElem_toList]
  interval_cases i <;> rfl

/-- The checksum as a word, in the kernel for Ed25519 keys. -/
theorem toNat_edChecksum32 (addr : Address) :
    (edChecksum32 P addr).toNat = bytesValue (Address.checksum P addr) := by
  rw [checksum_eq, edChecksum32]
  set out := P.sha512_256 addr.toList
  have h₀ := out[28].toNat_lt
  have h₁ := out[29].toNat_lt
  have h₂ := out[30].toNat_lt
  have h₃ := out[31].toNat_lt
  have hshift : ∀ (b : UInt8) {k : ℕ}, k ≤ 24 →
      (b.toNat <<< k) % 2 ^ 32 = b.toNat * 2 ^ k := by
    intro b k hk
    rw [Nat.shiftLeft_eq, Nat.mod_eq_of_lt]
    calc b.toNat * 2 ^ k < 2 ^ 8 * 2 ^ k := Nat.mul_lt_mul_of_pos_right b.toNat_lt (by positivity)
      _ ≤ 2 ^ 8 * 2 ^ 24 := Nat.mul_le_mul_left _ (Nat.pow_le_pow_right (by norm_num) hk)
  simp only [UInt32.toNat_or, UInt32.toNat_shiftLeft, UInt8.toNat_toUInt32]
  have h24 : (24 : UInt32).toNat % 32 = 24 := rfl
  have h16 : (16 : UInt32).toNat % 32 = 16 := rfl
  have h8 : (8 : UInt32).toNat % 32 = 8 := rfl
  rw [h24, h16, h8, hshift _ le_rfl, hshift _ (by norm_num), hshift _ (by norm_num),
    Words.Nat.or_eq_add_of_dvd (u := out[28].toNat * 2 ^ 24) (k := 24) (by omega) (by omega),
    Words.Nat.or_eq_add_of_dvd (w := out[30].toNat * 2 ^ 8) (k := 16) (by omega) (by omega),
    Words.Nat.or_eq_add_of_dvd (w := out[31].toNat) (k := 8) (by omega) (by omega)]
  simp only [bytesValue, ofDigitsBE, List.map_cons, List.map_nil, List.foldl_cons,
    List.foldl_nil]
  omega

/-- The low word of the kernel for Ed25519 keys is the same number. -/
theorem toNat_edLoWord (addr : Address) : (edLoWord P addr).toNat =
    bytesValue (addr.toList.drop 28 ++ Address.checksum P addr) := by
  refine toNat_loWord (Address.length_checksum P addr) ?_
  rw [UInt32.toNat_toUInt64, toNat_edChecksum32]

/-- The two kernels compute the same word. -/
theorem edLoWord_eq_pqLoWord (addr : Address) : edLoWord P addr = pqLoWord P addr := by
  rw [← UInt64.toNat_inj, toNat_edLoWord, toNat_pqLoWord]

/-- **One target.** The device words of a target accept the two words of an address exactly
when the target occurs in the display string. -/
theorem Target.Fits.accepts_iff {t : Target} (h : t.Fits) (addr : Address) :
    t.deviceWords.Accepts (be64 addr.toList) (pqLoWord P addr) ↔
      t.pfx <+: Address.toAddressString P addr ∧
        t.sfx <:+ Address.toAddressString P addr := by
  have hp : t.pfx.length ≤ 12 := h.pfx_le
  have hs : t.sfx.length ≤ 13 := h.sfx_le
  have hlen : (8 * (displayBytes P addr).length + 4) / 5 = 58 := by simp
  have hfour : (4 : ℕ) = 2 ^ 2 := rfl
  have hN := bytesValue_displayBytes_high P addr
  have hL := bytesValue_displayBytes_low P addr
  rw [← toNat_pqLoWord] at hL
  rw [PqTarget.Accepts, h.and_pmask_iff, h.smask_eq_zero_iff]
  set N := bytesValue (displayBytes P addr) with hNdef
  refine and_congr ?_ ?_
  · -- The leading characters are a quotient of the 290 padded bits.
    have hpow : (2 : ℕ) ^ 224 * 2 ^ (64 - 5 * t.pfx.length) * 4 = 32 ^ (58 - t.pfx.length) := by
      rw [hfour, pow_thirtyTwo, ← pow_add, ← pow_add]
      congr 1
      omega
    have hquot : N * 4 / 32 ^ (58 - t.pfx.length) =
        (be64 addr.toList).toNat / 2 ^ (64 - 5 * t.pfx.length) := by
      rw [← hpow, Nat.mul_div_mul_right _ _ (by norm_num), ← Nat.div_div_eq_div_mul, hN]
    have hlt : (be64 addr.toList).toNat / 2 ^ (64 - 5 * t.pfx.length) <
        32 ^ t.pfx.length := by
      have hsplit : (2 : ℕ) ^ (64 - 5 * t.pfx.length) * 32 ^ t.pfx.length = 2 ^ 64 := by
        rw [pow_thirtyTwo, ← pow_add]
        congr 1
        omega
      exact Nat.div_lt_of_lt_mul (hsplit ▸ (be64 addr.toList).toNat_lt)
    rw [Address.toAddressString, ← displayBytes,
      startsWith_base32Nopad h.pfx_chars (r := 58 - t.pfx.length) (by rw [hlen]; omega),
      base32Padded_displayBytes, ← hNdef, hquot, Nat.mod_eq_of_lt hlt]
  · by_cases hnil : t.sfx = []
    · simp [hnil]
    · -- The trailing characters are a remainder of them, two bits of which are padding.
      have hne : 0 < t.sfx.length := List.length_pos_of_ne_nil hnil
      have hpow : (32 : ℕ) ^ t.sfx.length = 2 ^ (5 * t.sfx.length - 2) * 4 := by
        rw [hfour, pow_thirtyTwo, ← pow_add]
        congr 1
        omega
      have hmod : N * 4 % 32 ^ t.sfx.length =
          4 * ((pqLoWord P addr).toNat % 2 ^ (5 * t.sfx.length - 2)) := by
        rw [hpow, Nat.mul_mod_mul_right, ← hL,
          Nat.mod_mod_of_dvd _ (Nat.pow_dvd_pow 2 (by omega)), Nat.mul_comm]
      rw [or_iff_right hnil, h.and_smask_iff hne, Address.toAddressString, ← displayBytes,
        endsWith_base32Nopad h.sfx_chars (r := 58 - t.sfx.length) (by rw [hlen]; omega),
        base32Padded_displayBytes, ← hNdef, hmod]

/-! ### All targets -/

/-- The entries of the device table are the device words of the active targets. -/
theorem mem_deviceTable_iff {S : TargetSet} {active : Active} {T : PqTarget} :
    T ∈ S.deviceTable active ↔
      ∃ i t, active i = true ∧ S.list[i]? = some t ∧ t.deviceWords = T := by
  rw [TargetSet.deviceTable, List.mem_filterMap]
  constructor
  · rintro ⟨i, -, hi⟩
    by_cases ha : active i = true
    · rw [if_pos ha, Option.map_eq_some_iff] at hi
      obtain ⟨t, ht, rfl⟩ := hi
      exact ⟨i, t, ha, ht, rfl⟩
    · rw [if_neg ha] at hi
      cases hi
  · rintro ⟨i, t, ha, ht, rfl⟩
    refine ⟨i, List.mem_range.mpr (List.getElem?_eq_some_iff.mp ht).1, ?_⟩
    rw [if_pos ha, ht]
    rfl

/-- The targets of a search that the check for the device accepts fit into the masks. -/
theorem TargetSet.fits {S : TargetSet} (hgpu : S.checkGpu = .ok ()) {t : Target}
    (ht : t ∈ S.list) : t.Fits :=
  have hlim := S.checkGpu_eq_ok_iff.mp hgpu t ht
  { toValid := S.valid t ht, pfx_le := hlim.1, sfx_le := hlim.2 }

/-- Some entry of the table accepts the words of an address exactly when some active target
occurs in its display string. -/
theorem exists_accepts_iff {S : TargetSet} (hgpu : S.checkGpu = .ok ()) (active : Active)
    (addr : Address) :
    (∃ T ∈ S.deviceTable active, T.Accepts (be64 addr.toList) (pqLoWord P addr)) ↔
      ∃ i, S.Matches active (Address.toAddressString P addr) i := by
  constructor
  · rintro ⟨T, hT, hacc⟩
    obtain ⟨i, t, ha, ht, rfl⟩ := mem_deviceTable_iff.mp hT
    have hfits := TargetSet.fits hgpu (List.mem_of_getElem? ht)
    exact ⟨i, ha, t, ht, (hfits.accepts_iff P addr).mp hacc⟩
  · rintro ⟨i, ha, t, ht, hocc⟩
    have hfits := TargetSet.fits hgpu (List.mem_of_getElem? ht)
    exact ⟨_, mem_deviceTable_iff.mpr ⟨i, t, ha, ht, rfl⟩, (hfits.accepts_iff P addr).mpr hocc⟩

/-- The matcher of the `f1` kernel, on the table of the active targets. -/
theorem pqMatchTargets_iff {S : TargetSet} (hgpu : S.checkGpu = .ok ()) (active : Active)
    (addr : Address) : pqMatchTargets P addr (S.deviceTable active) = true ↔
      ∃ i, S.Matches active (Address.toAddressString P addr) i := by
  rw [pqMatchTargets, matchTargets_iff (by simp), exists_accepts_iff P hgpu]

/-- **The device matchers are display-string matching.** On the table of the active targets
both matchers report a match exactly when some active target occurs in the display string,
and so exactly when some entry accepts the two words, computed lazily or not. For each
target no shift amount reaches 64, no bit of a pattern is lost, and the trailing mask is
zero exactly when there is no trailing pattern. -/
theorem device_matcher_eq_display (S : TargetSet) (hgpu : S.checkGpu = .ok ()) :
    (∀ (active : Active) (addr : Address),
      (pqMatchTargets P addr (S.deviceTable active) = true ↔
        ∃ i, S.Matches active (Address.toAddressString P addr) i) ∧
      (edMatchTargets P addr (S.deviceTable active) = true ↔
        ∃ i, S.Matches active (Address.toAddressString P addr) i) ∧
      (pqMatchTargets P addr (S.deviceTable active) = true ↔
        ∃ T ∈ S.deviceTable active, T.Accepts (be64 addr.toList) (pqLoWord P addr)) ∧
      (edMatchTargets P addr (S.deviceTable active) = true ↔
        ∃ T ∈ S.deviceTable active, T.Accepts (be64 addr.toList) (edLoWord P addr))) ∧
    ∀ t ∈ S.list,
      (0 < t.pfx.length → 5 * t.pfx.length ≤ 64 ∧ 64 - 5 * t.pfx.length < 64 ∧
        t.deviceWords.pval.toNat = base32Value t.pfx * 2 ^ (64 - 5 * t.pfx.length)) ∧
      (0 < t.sfx.length → 2 ≤ 5 * t.sfx.length ∧ 5 * t.sfx.length - 2 < 64 ∧
        4 * t.deviceWords.sval.toNat = base32Value t.sfx) ∧
      (t.deviceWords.smask = 0 ↔ t.sfx = []) := by
  constructor
  · intro active addr
    have hed : edMatchTargets P addr (S.deviceTable active) =
        pqMatchTargets P addr (S.deviceTable active) := by
      rw [edMatchTargets, edLoWord_eq_pqLoWord, pqMatchTargets]
    have hpq := pqMatchTargets_iff P hgpu active addr
    have hacc := exists_accepts_iff P hgpu active addr
    refine ⟨hpq, hed ▸ hpq, hpq.trans hacc.symm, ?_⟩
    rw [hed, edLoWord_eq_pqLoWord]
    exact hpq.trans hacc.symm
  · intro t ht
    have hfits := TargetSet.fits hgpu ht
    have hp : t.pfx.length ≤ 12 := hfits.pfx_le
    have hs : t.sfx.length ≤ 13 := hfits.sfx_le
    exact ⟨fun hne => ⟨by omega, by omega, hfits.toNat_pval hne⟩,
      fun hne => ⟨by omega, by omega, hfits.toNat_sval hne⟩, hfits.smask_eq_zero_iff⟩

/-- The set of one target with both patterns meets the device limits. -/
theorem device_matcher_eq_display_single :
    let P : Primitives := ⟨fun _ => Vector.replicate 32 0, fun _ => false⟩
    let S := TargetSet.single ⟨"ALGO".toList, "4".toList⟩ (checkTarget_eq_ok_iff.mp rfl)
    pqMatchTargets P (Vector.replicate 32 0) (S.deviceTable fun _ => true) = true ↔
      ∃ i, S.Matches (fun _ => true) (Address.toAddressString P (Vector.replicate 32 0)) i :=
  ((device_matcher_eq_display _ (TargetSet.single _ _) rfl).1 _ _).1

end FalconVanity
