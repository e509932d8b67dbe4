import FalconVanity.Foundation.Scan
import FalconVanity.Mnemonic

/-!
# Addresses

The derivation of a native post-quantum (`f1`) address from a public key, and the display
string of an address. SHA-512/256 and the test for Edwards25519 points are parameters,
bundled in `Primitives`: nothing here depends on which functions they are.

Base32 without padding is the numeral, in base 32, of the bytes read as one number and
shifted left to a whole number of characters. The lemmas on `base32Nopad` say when such a
string starts, or ends, with a given pattern, as equations between numbers.

## Main results

* `startsWith_base32Nopad`, `endsWith_base32Nopad`: the leading and trailing characters of
  an encoding, as a quotient and a remainder of its value.
* `canonicalPqSalt_eq_some_iff`: the canonical salt is the least compliant one.
-/

namespace FalconVanity

open Positional

/-- The functions of other libraries that the address derivation rests on. They are parameters
throughout, and nothing is asked of them. -/
structure Primitives where
  /-- SHA-512/256. -/
  sha512_256 : List UInt8 → Bytes32
  /-- Whether 32 bytes decompress to an Edwards25519 point. -/
  isEdwards25519Point : Bytes32 → Bool

/-! ### Base32 -/

/-- `BASE32_ALPHABET`: the upper case letters and the digits from 2 to 7. -/
def base32Alphabet : Str := "ABCDEFGHIJKLMNOPQRSTUVWXYZ234567".toList

/-- The character of a base 32 digit. -/
def base32Char (d : ℕ) : Char := base32Alphabet.getD d 'A'

/-- `BASE32_ALPHABET.find`: the digit of a character of the alphabet. -/
def base32Index (c : Char) : ℕ := base32Alphabet.idxOf c

/-- `BASE32_NOPAD.encode`: the bits of the bytes, most significant first, in groups of five,
the last group filled up with zero bits. -/
def base32Nopad (bytes : List UInt8) : Str :=
  let len := (8 * bytes.length + 4) / 5
  let value := ofDigitsBE 256 (bytes.map UInt8.toNat)
  (digitsBE 32 len (value * 2 ^ (5 * len - 8 * bytes.length))).map base32Char

/-- A digit of base 32 is below 32. -/
theorem base32Index_lt {c : Char} (hc : c ∈ base32Alphabet) : base32Index c < 32 :=
  List.idxOf_lt_length_iff.mpr hc

/-- The character of the digit of a character is the character. -/
theorem base32Char_index {c : Char} (hc : c ∈ base32Alphabet) :
    base32Char (base32Index c) = c := by
  have hall : base32Alphabet.all (fun c => decide (base32Char (base32Index c) = c)) = true := by
    decide
  exact of_decide_eq_true (List.all_eq_true.mp hall c hc)

/-- The digit of the character of a digit is the digit. -/
theorem base32Index_char {d : ℕ} (hd : d < 32) : base32Index (base32Char d) = d := by
  revert d
  decide

/-- The digits of a pattern. -/
def base32Digits (s : Str) : List ℕ := s.map base32Index

/-- The number a pattern denotes. -/
def base32Value (s : Str) : ℕ := ofDigitsBE 32 (base32Digits s)

@[simp] theorem length_base32Digits (s : Str) : (base32Digits s).length = s.length := by
  simp [base32Digits]

/-- The digits of a text over the alphabet are below 32. -/
theorem base32Digits_lt {s : Str} (hs : ∀ c ∈ s, c ∈ base32Alphabet) :
    ∀ d ∈ base32Digits s, d < 32 := by
  intro d hd
  obtain ⟨c, hc, rfl⟩ := List.mem_map.mp hd
  exact base32Index_lt (hs c hc)

/-- Digits print as a pattern exactly when they are the digits of the pattern. -/
theorem map_base32Char_eq_iff {ds : List ℕ} {s : Str} (hds : ∀ d ∈ ds, d < 32)
    (hs : ∀ c ∈ s, c ∈ base32Alphabet) :
    ds.map base32Char = s ↔ ds = base32Digits s := by
  constructor
  · rintro rfl
    rw [base32Digits, List.map_map]
    exact (List.map_id'' (fun d => rfl) ds).symm.trans
      (List.map_congr_left fun d hd => (base32Index_char (hds d hd)).symm)
  · rintro rfl
    rw [base32Digits, List.map_map]
    exact (List.map_congr_left fun c hc => base32Char_index (hs c hc)).trans (List.map_id s)

@[simp] theorem length_base32Nopad (bytes : List UInt8) :
    (base32Nopad bytes).length = (8 * bytes.length + 4) / 5 := by
  simp [base32Nopad]

/-- The value of an encoding: the bytes as one number, shifted left by the padding. -/
def base32Padded (bytes : List UInt8) : ℕ :=
  ofDigitsBE 256 (bytes.map UInt8.toNat) *
    2 ^ (5 * ((8 * bytes.length + 4) / 5) - 8 * bytes.length)

/-- An encoding of `p + s` characters, split. -/
theorem base32Nopad_split {bytes : List UInt8} {p s : ℕ}
    (hlen : (8 * bytes.length + 4) / 5 = p + s) :
    base32Nopad bytes =
      (digitsBE 32 p (base32Padded bytes / 32 ^ s)).map base32Char ++
        (digitsBE 32 s (base32Padded bytes)).map base32Char := by
  rw [base32Nopad, ← base32Padded, hlen, digitsBE_add, List.map_append]

/-- The digits of an encoding, printed, are a pattern exactly when the numbers agree. -/
theorem map_base32Char_digitsBE_eq_iff {s : Str} (hs : ∀ c ∈ s, c ∈ base32Alphabet) (n : ℕ) :
    (digitsBE 32 s.length n).map base32Char = s ↔ n % 32 ^ s.length = base32Value s := by
  rw [map_base32Char_eq_iff (fun d hd => lt_of_mem_digitsBE (by norm_num) hd) hs,
    digitsBE_eq_iff (by norm_num) (length_base32Digits s) (base32Digits_lt hs), base32Value]

/-- **The leading characters of an encoding.** A pattern starts an encoding with `r` more
characters exactly when it denotes the value of the encoding without its low `r` digits. -/
theorem startsWith_base32Nopad {s : Str} (hs : ∀ c ∈ s, c ∈ base32Alphabet)
    {bytes : List UInt8} {r : ℕ} (hlen : (8 * bytes.length + 4) / 5 = s.length + r) :
    s <+: base32Nopad bytes ↔
      base32Padded bytes / 32 ^ r % 32 ^ s.length = base32Value s := by
  rw [← map_base32Char_digitsBE_eq_iff hs, List.prefix_iff_eq_take, base32Nopad_split hlen,
    List.take_left' (by simp)]
  exact eq_comm

/-- **The trailing characters of an encoding.** A pattern ends an encoding exactly when it
denotes the low digits of the value. -/
theorem endsWith_base32Nopad {s : Str} (hs : ∀ c ∈ s, c ∈ base32Alphabet)
    {bytes : List UInt8} {r : ℕ} (hlen : (8 * bytes.length + 4) / 5 = r + s.length) :
    s <:+ base32Nopad bytes ↔ base32Padded bytes % 32 ^ s.length = base32Value s := by
  rw [← map_base32Char_digitsBE_eq_iff hs, List.suffix_iff_eq_drop, length_base32Nopad,
    hlen, Nat.add_sub_cancel, base32Nopad_split hlen, List.drop_left' (by simp)]
  exact eq_comm

/-! ### Addresses -/

/-- An address before checksum and base32 display. -/
abbrev Address := Bytes32

variable (P : Primitives)

/-- `Address::checksum`: the last 4 bytes of the hash of the address. -/
def Address.checksum (addr : Address) : List UInt8 :=
  (P.sha512_256 addr.toList).toList.drop 28

/-- `Address::to_address_string`: `base32_nopad(addr32 || checksum4)`. -/
def Address.toAddressString (addr : Address) : Str :=
  base32Nopad (addr.toList ++ Address.checksum P addr)

/-- `Address::is_pq_compliant`: the bytes are not an Edwards25519 point. -/
def Address.isPqCompliant (addr : Address) : Bool :=
  !P.isEdwards25519Point addr

@[simp] theorem Address.length_checksum (addr : Address) :
    (Address.checksum P addr).length = 4 := by
  simp [Address.checksum]

/-- The display string has 58 characters. -/
@[simp] theorem Address.length_toAddressString (addr : Address) :
    (Address.toAddressString P addr).length = 58 := by
  simp [Address.toAddressString]

/-! ### Derivation -/

/-- `protocol.PostQuantumAddress` -/
def hashidPqAddress : List UInt8 := [0x50, 0x51, 0x41]

/-- `protocol.PostQuantumKey` -/
def hashidPqKey : List UInt8 := [0x50, 0x51, 0x4b]

/-- `protocol.PQSchemeFalcon1024` -/
def schemeF1 : List UInt8 := [0x66, 0x31]

/-- `keygen_seed_from_entropy`: the hash of the tagged entropy. -/
def keygenSeedFromEntropy (entropy : Bytes32) : Bytes32 :=
  P.sha512_256 (hashidPqKey ++ schemeF1 ++ entropy.toList)

/-- `pq_address`: the hash of the tag, the scheme, the salt and the public key. -/
def pqAddress (salt : UInt8) (pk : List UInt8) : Address :=
  P.sha512_256 (hashidPqAddress ++ schemeF1 ++ [salt] ++ pk)

/-- `canonical_pq_salt`: the lowest salt whose address is compliant, with that address. -/
def canonicalPqSalt (pk : List UInt8) : Option (UInt8 × Address) :=
  (List.range 256).findSome? fun salt =>
    let salt := UInt8.ofNat salt
    let a := pqAddress P salt pk
    if Address.isPqCompliant P a then some (salt, a) else none

/-- **The canonical salt** is the least one whose address is compliant. -/
theorem canonicalPqSalt_eq_some_iff {pk : List UInt8} {salt : UInt8} {addr : Address} :
    canonicalPqSalt P pk = some (salt, addr) ↔
      addr = pqAddress P salt pk ∧ Address.isPqCompliant P addr = true ∧
        ∀ s < salt, Address.isPqCompliant P (pqAddress P s pk) = false := by
  rw [canonicalPqSalt, Scan.findSome?_range_eq_some_iff]
  constructor
  · rintro ⟨i, hi, hsome, hnone⟩
    simp only [Option.ite_none_right_eq_some, Option.some.injEq, Prod.mk.injEq] at hsome
    obtain ⟨hc, rfl, rfl⟩ := hsome
    refine ⟨rfl, hc, fun s hs => ?_⟩
    have hsi : s.toNat < i := by
      have := UInt8.lt_iff_toNat_lt.mp hs
      rwa [UInt8.toNat_ofNat_of_lt' (by simpa using hi)] at this
    simpa using hnone s.toNat hsi
  · rintro ⟨rfl, hc, hlt⟩
    refine ⟨salt.toNat, salt.toNat_lt, by simp [hc], fun j hj => ?_⟩
    have hjs : UInt8.ofNat j < salt := by
      rw [UInt8.lt_iff_toNat_lt, UInt8.toNat_ofNat_of_lt' (hj.trans salt.toNat_lt)]
      exact hj
    simp [hlt _ hjs]

end FalconVanity
