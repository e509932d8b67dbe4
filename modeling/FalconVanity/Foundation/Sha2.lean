import FalconVanity.Foundation.BlockHash
import FalconVanity.Foundation.Positional
import FalconVanity.Foundation.Words
import Mathlib.Analysis.SpecialFunctions.Pow.NthRootLemmas
import Mathlib.Data.List.GetD
import Mathlib.Data.Nat.Prime.Basic

/-!
# SHA-512 and SHA-512/256

Hash functions of the Secure Hash Standard (FIPS 180-4), for messages of bytes. The
constants are those that the standard describes: bits of the roots of the first primes, and an
initial value that SHA-512 itself generates.

## Main results

* `mem_firstPrimes_iff`: the primes that the constants stem from.
* `rootBits_eq`: the constant of a prime, from an approximation of its root.
* `word_spec`: the recurrence of the message schedule.
* `zeros_isLeast`: the padding is the shortest one.
-/

namespace Sha2

open Positional

/-! ### Constants -/

/-- The first eighty primes. -/
def firstPrimes : List ℕ :=
  [2, 3, 5, 7, 11, 13, 17, 19, 23, 29, 31, 37, 41, 43, 47, 53, 59, 61, 67, 71, 73, 79, 83, 89,
    97, 101, 103, 107, 109, 113, 127, 131, 137, 139, 149, 151, 157, 163, 167, 173, 179, 181, 191,
    193, 197, 199, 211, 223, 227, 229, 233, 239, 241, 251, 257, 263, 269, 271, 277, 281, 283,
    293, 307, 311, 313, 317, 331, 337, 347, 349, 353, 359, 367, 373, 379, 383, 389, 397, 401, 409]

/-- The first 64 bits of the fractional part of a `k`-th root. -/
def rootBits (k p : ℕ) : UInt64 := (Nat.nthRoot k (p * 2 ^ (64 * k))).toUInt64

/-- `K`: the constant of a round. -/
def roundConstant (t : ℕ) : UInt64 := rootBits 3 firstPrimes[t]!

/-- The initial value of SHA-512. -/
def sha512Initial : Vector UInt64 8 := Vector.ofFn fun i => rootBits 2 firstPrimes[i.val]!

/-! ### Functions -/

/-- `ROTR`: the rotation to the right. -/
def rotr (n x : UInt64) : UInt64 := (x >>> n) ||| (x <<< (64 - n))

/-- `Ch`: the bits of `y` or of `z`, as those of `x` choose. -/
def ch (x y z : UInt64) : UInt64 := (x &&& y) ^^^ (~~~x &&& z)

/-- `Maj`: the bits that at least two of the words have. -/
def maj (x y z : UInt64) : UInt64 := (x &&& y) ^^^ (x &&& z) ^^^ (y &&& z)

/-- `Σ₀` -/
def bigSigma0 (x : UInt64) : UInt64 := rotr 28 x ^^^ rotr 34 x ^^^ rotr 39 x

/-- `Σ₁` -/
def bigSigma1 (x : UInt64) : UInt64 := rotr 14 x ^^^ rotr 18 x ^^^ rotr 41 x

/-- `σ₀` -/
def smallSigma0 (x : UInt64) : UInt64 := rotr 1 x ^^^ rotr 8 x ^^^ (x >>> 7)

/-- `σ₁` -/
def smallSigma1 (x : UInt64) : UInt64 := rotr 19 x ^^^ rotr 61 x ^^^ (x >>> 6)

/-! ### One block -/

/-- A number in `w` bytes, most significant first. -/
def beBytes (w n : ℕ) : List UInt8 := (digitsBE 256 w n).map Nat.toUInt8

/-- A word from its bytes, most significant first. -/
def beWord (bytes : List UInt8) : UInt64 := (ofDigitsBE 256 (bytes.map UInt8.toNat)).toUInt64

/-- The sixteen words of a block. -/
def blockWords (block : List UInt8) : List UInt64 :=
  (List.range 16).map fun i => beWord ((block.drop (8 * i)).take 8)

/-- The word of the message schedule that follows the given ones. -/
def nextWord (W : List UInt64) : UInt64 :=
  let t := W.length
  smallSigma1 (W.getD (t - 2) 0) + W.getD (t - 7) 0 + smallSigma0 (W.getD (t - 15) 0) +
    W.getD (t - 16) 0

/-- The words of a block, and `n` more words of its message schedule. -/
def extended (M : List UInt64) : ℕ → List UInt64
  | 0 => M
  | n + 1 => extended M n ++ [nextWord (extended M n)]

/-- The message schedule of a block, of 80 words. -/
def schedule (M : List UInt64) : List UInt64 := extended M 64

/-- `W`: a word of the message schedule. -/
def word (M : List UInt64) (t : ℕ) : UInt64 := (schedule M).getD t 0

/-- The eight working variables. -/
structure Vars where
  a : UInt64
  b : UInt64
  c : UInt64
  d : UInt64
  e : UInt64
  f : UInt64
  g : UInt64
  h : UInt64

/-- One round. -/
def round (k w : UInt64) (v : Vars) : Vars :=
  let t₁ := v.h + bigSigma1 v.e + ch v.e v.f v.g + k + w
  let t₂ := bigSigma0 v.a + maj v.a v.b v.c
  { a := t₁ + t₂, b := v.a, c := v.b, d := v.c, e := v.d + t₁, f := v.e, g := v.f, h := v.g }

/-- The working variables after the first `n` rounds for a block. -/
def rounds (v : Vars) (M : List UInt64) (n : ℕ) : Vars :=
  (List.range n).foldl (fun v t => round (roundConstant t) (word M t) v) v

/-- The working variables before the first round. -/
def Vars.ofHash (H : Vector UInt64 8) : Vars := ⟨H[0], H[1], H[2], H[3], H[4], H[5], H[6], H[7]⟩

/-- The next hash value: the one before plus the working variables after 80 rounds. -/
def compress (H : Vector UInt64 8) (block : List UInt8) : Vector UInt64 8 :=
  let v := rounds (.ofHash H) (blockWords block) 80
  #v[v.a + H[0], v.b + H[1], v.c + H[2], v.d + H[3], v.e + H[4], v.f + H[5], v.g + H[6],
    v.h + H[7]]

/-! ### Messages -/

/-- The number of zero bytes of the padding. -/
def zeros (len : ℕ) : ℕ := (239 - len % 128) % 128

/-- A message with its padding: a bit, zeros, and the number of its bits in 128 bits. -/
def pad (m : List UInt8) : List UInt8 :=
  m ++ 0x80 :: List.replicate (zeros m.length) 0 ++ beBytes 16 (8 * m.length)

/-- The last hash value for an initial value. -/
def hash (initial : Vector UInt64 8) (m : List UInt8) : Vector UInt64 8 :=
  BlockHash.absorb 128 compress initial (pad m)

/-- SHA-512: the last hash value in its bytes. -/
def sha512 (m : List UInt8) : Vector UInt8 64 :=
  let H := hash sha512Initial m
  Vector.ofFn fun i => (beBytes 8 H[i.val / 8]!.toNat)[i.val % 8]!

/-- The initial value of SHA-512/256: the hash of the ASCII name `SHA-512/256`, from the
initial value of SHA-512 with every byte changed by `a5`. -/
def sha512_256Initial : Vector UInt64 8 :=
  hash (sha512Initial.map (· ^^^ 0xa5a5a5a5a5a5a5a5))
    [0x53, 0x48, 0x41, 0x2d, 0x35, 0x31, 0x32, 0x2f, 0x32, 0x35, 0x36]

/-- SHA-512/256: the leftmost 256 bits of the last hash value. -/
def sha512_256 (m : List UInt8) : Vector UInt8 32 :=
  let H := hash sha512_256Initial m
  Vector.ofFn fun i => (beBytes 8 H[i.val / 8].toNat)[i.val % 8]!

/-! ### The constants of the standard -/

/-- **The primes of the constants.** -/
theorem mem_firstPrimes_iff {n : ℕ} : n ∈ firstPrimes ↔ n < 410 ∧ n.Prime := by
  -- a composite number below 410 has a divisor below 21
  have hprime : ∀ n < 410, n.Prime ↔
      (2 ≤ n && (List.range 21).all fun d => d < 2 || n ≤ d || n % d != 0) = true := by
    intro n hn
    have h21 : n.sqrt < 21 := Nat.sqrt_lt.mpr (by omega)
    rw [Nat.prime_def_lt', Bool.and_eq_true, decide_eq_true_iff, List.all_eq_true]
    refine and_congr_right fun h2 => ⟨fun h d _ => ?_, fun h => ?_⟩
    · by_cases hd : 2 ≤ d ∧ d < n
      · have hmod : n % d ≠ 0 := fun hmod => h d hd.1 hd.2 (Nat.dvd_of_mod_eq_zero hmod)
        simp [hmod]
      · have hsmall : d < 2 ∨ n ≤ d := by omega
        rcases hsmall with hsmall | hsmall <;> simp [hsmall]
    · refine (Nat.prime_def_lt'.mp (Nat.prime_def_le_sqrt.mpr ⟨h2, fun d hd hsqrt hdvd => ?_⟩)).2
      have hlt : d < n := hsqrt.trans_lt (Nat.sqrt_lt_self h2)
      have hnot := h d (List.mem_range.mpr (by omega))
      simp [Nat.not_lt.mpr hd, Nat.not_le.mpr hlt, Nat.mod_eq_zero_of_dvd hdvd] at hnot
  have hlist : firstPrimes = (List.range 410).filter fun n =>
      2 ≤ n && (List.range 21).all fun d => d < 2 || n ≤ d || n % d != 0 := by decide +kernel
  rw [hlist, List.mem_filter, List.mem_range]
  exact and_congr_right fun hn => (hprime n hn).symm

/-- They are listed in order. -/
theorem firstPrimes_sorted : firstPrimes.Pairwise (· < ·) := by decide +kernel

/-- **The constant of a prime**: its root with 64 fractional bits is known up to the whole
part. -/
theorem rootBits_eq {k p i : ℕ} {c : UInt64} (hle : (i * 2 ^ 64 + c.toNat) ^ k ≤ p * 2 ^ (64 * k))
    (hlt : p * 2 ^ (64 * k) < (i * 2 ^ 64 + c.toNat + 1) ^ k) : rootBits k p = c := by
  rw [rootBits, Nat.nthRoot_eq_of_le_of_lt hle hlt]
  apply UInt64.toNat_inj.mp
  have hc := c.toNat_lt
  rw [Nat.toUInt64_eq, UInt64.toNat_ofNat']
  omega

/-- The words that the standard lists as the initial value of SHA-512. -/
def initialWords : Vector UInt64 8 :=
  #v[0x6a09e667f3bcc908, 0xbb67ae8584caa73b, 0x3c6ef372fe94f82b, 0xa54ff53a5f1d36f1,
    0x510e527fade682d1, 0x9b05688c2b3e6c1f, 0x1f83d9abfb41bd6b, 0x5be0cd19137e2179]

/-- **The initial value** of SHA-512: the words of the standard are the bits of the square roots.
-/
theorem sha512Initial_eq : sha512Initial = initialWords := by
  have hroot : ∀ t < 8, ∃ i < 8,
      (i * 2 ^ 64 + initialWords[t]!.toNat) ^ 2 ≤ firstPrimes[t]! * 2 ^ (64 * 2) ∧
        firstPrimes[t]! * 2 ^ (64 * 2) < (i * 2 ^ 64 + initialWords[t]!.toNat + 1) ^ 2 := by
    decide +kernel
  refine Vector.ext fun t ht => ?_
  obtain ⟨i, -, hle, hlt⟩ := hroot t ht
  rw [sha512Initial, Vector.getElem_ofFn, rootBits_eq hle hlt, getElem!_pos initialWords t ht]

/-! ### The message schedule -/

/-- One more round. -/
theorem rounds_succ (v : Vars) (M : List UInt64) (n : ℕ) :
    rounds v M (n + 1) = round (roundConstant n) (word M n) (rounds v M n) := by
  rw [rounds, List.range_succ, List.foldl_append, List.foldl_cons, List.foldl_nil, ← rounds]

/-- Each step adds a word. -/
theorem length_extended (M : List UInt64) (n : ℕ) : (extended M n).length = M.length + n := by
  induction n with
  | zero => rfl
  | succ n ih => rw [extended, List.length_append, ih, List.length_singleton, Nat.add_assoc]

/-- Words that are there are not changed. -/
theorem getD_extended_add (M : List UInt64) (n k : ℕ) {t : ℕ} (ht : t < M.length + n) :
    (extended M (n + k)).getD t 0 = (extended M n).getD t 0 := by
  induction k with
  | zero => rfl
  | succ k ih =>
      rw [← ih, ← Nat.add_assoc, extended,
        List.getD_append _ _ _ _ (by rw [length_extended]; omega)]

/-- **The recurrence of the message schedule.** -/
theorem word_spec {M : List UInt64} (hM : M.length = 16) :
    (∀ t < 16, word M t = M.getD t 0) ∧
      ∀ t, 16 ≤ t → t < 80 → word M t =
        smallSigma1 (word M (t - 2)) + word M (t - 7) + smallSigma0 (word M (t - 15)) +
          word M (t - 16) := by
  refine ⟨fun t ht => getD_extended_add M 0 64 (by omega), fun t hlo hhi => ?_⟩
  have hlen : (extended M (t - 16)).length = t := by rw [length_extended]; omega
  have hold : ∀ i < t, word M i = (extended M (t - 16)).getD i 0 := by
    intro i hi
    have hsteps : t - 16 + (64 - (t - 16)) = 64 := by omega
    have h := getD_extended_add M (t - 16) (64 - (t - 16)) (t := i) (by omega)
    rwa [hsteps] at h
  have hnew : word M t = nextWord (extended M (t - 16)) := by
    have hsteps : t - 16 + 1 + (64 - (t - 16 + 1)) = 64 := by omega
    have h := getD_extended_add M (t - 16 + 1) (64 - (t - 16 + 1)) (t := t) (by omega)
    rw [hsteps] at h
    rw [word, schedule, h, extended, List.getD_append_right _ _ _ _ hlen.le, hlen, Nat.sub_self]
    rfl
  rw [hnew, nextWord, hlen, hold _ (by omega), hold _ (by omega), hold _ (by omega),
    hold _ (by omega)]

/-- A block has sixteen words. -/
@[simp]
theorem length_blockWords (block : List UInt8) : (blockWords block).length = 16 := by
  rw [blockWords, List.length_map, List.length_range]

/-! ### The padding -/

/-- A number in `w` bytes has `w` bytes. -/
@[simp]
theorem length_beBytes (w n : ℕ) : (beBytes w n).length = w := by
  rw [beBytes, List.length_map, length_digitsBE]

/-- The upper bytes of a number. -/
theorem beBytes_add (p s n : ℕ) : beBytes (p + s) n = beBytes p (n / 256 ^ s) ++ beBytes s n := by
  rw [beBytes, digitsBE_add, List.map_append, ← beBytes, ← beBytes]

/-- The bytes of a word, by shifts. -/
theorem beBytes_eq_map (x : UInt64) : beBytes 8 x.toNat =
    (List.range 8).map fun i => (x >>> (56 - 8 * i).toUInt64).toUInt8 := by
  refine List.ext_getElem (by simp) fun i hi hi' => ?_
  have hi8 : i < 8 := by simpa using hi'
  apply UInt8.toNat_inj.mp
  rw [List.getElem_map, List.getElem_range, Words.UInt64.toNat_byte _ (by omega)]
  simp only [beBytes, List.getElem_map, getElem_digitsBE, Nat.toUInt8_eq, UInt8.toNat_ofNat']
  have hpow : 256 ^ (8 - 1 - i) = 2 ^ (56 - 8 * i) := by
    have hbase : 256 = 2 ^ 8 := rfl
    rw [hbase, ← pow_mul]
    congr 1
    omega
  rw [hpow]
  omega

/-- **The shortest padding** that leaves room for the length in the last block. -/
theorem zeros_isLeast (len : ℕ) : IsLeast {z | (len + 1 + z) % 128 = 112} (zeros len) := by
  constructor
  · rw [Set.mem_ofPred_eq, zeros]
    omega
  · intro z hz
    rw [Set.mem_ofPred_eq] at hz
    rw [zeros]
    omega

/-- A message with its padding consists of whole blocks. -/
theorem dvd_length_pad (m : List UInt8) : 128 ∣ (pad m).length := by
  rw [pad, List.length_append, List.length_append, List.length_cons, List.length_replicate,
    length_beBytes, zeros]
  omega

end Sha2
