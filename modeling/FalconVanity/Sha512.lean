import FalconVanity.Codec
import FalconVanity.Foundation.Sha2

/-!
# The Hash of the Device

The device reads the message of SHA-512/256 in parts. Between two parts it keeps a chaining
value, the bytes after the last whole block in a buffer, and the number of bytes; the message
schedule of a block is kept in 16 words, of which each new word replaces the oldest one.

## Main results

* `sha512K_eq`, `sha512_256Init_h`: the tables of the device are the constants of the standard.
* `sha512Word_eq`: the words of the rolling schedule.
* `sha512Compress_eq`: one block.
* `Streams.update`, `Streams.final`: the invariant of the parts.
* `sha512_256_streaming`: a message in parts.
-/

namespace FalconVanity

open BlockHash

/-! ### One block -/

/-- `SHA512_K`: the constants of the rounds. -/
def sha512K : Vector UInt64 80 :=
  #v[0x428a2f98d728ae22, 0x7137449123ef65cd, 0xb5c0fbcfec4d3b2f, 0xe9b5dba58189dbbc,
    0x3956c25bf348b538, 0x59f111f1b605d019, 0x923f82a4af194f9b, 0xab1c5ed5da6d8118,
    0xd807aa98a3030242, 0x12835b0145706fbe, 0x243185be4ee4b28c, 0x550c7dc3d5ffb4e2,
    0x72be5d74f27b896f, 0x80deb1fe3b1696b1, 0x9bdc06a725c71235, 0xc19bf174cf692694,
    0xe49b69c19ef14ad2, 0xefbe4786384f25e3, 0x0fc19dc68b8cd5b5, 0x240ca1cc77ac9c65,
    0x2de92c6f592b0275, 0x4a7484aa6ea6e483, 0x5cb0a9dcbd41fbd4, 0x76f988da831153b5,
    0x983e5152ee66dfab, 0xa831c66d2db43210, 0xb00327c898fb213f, 0xbf597fc7beef0ee4,
    0xc6e00bf33da88fc2, 0xd5a79147930aa725, 0x06ca6351e003826f, 0x142929670a0e6e70,
    0x27b70a8546d22ffc, 0x2e1b21385c26c926, 0x4d2c6dfc5ac42aed, 0x53380d139d95b3df,
    0x650a73548baf63de, 0x766a0abb3c77b2a8, 0x81c2c92e47edaee6, 0x92722c851482353b,
    0xa2bfe8a14cf10364, 0xa81a664bbc423001, 0xc24b8b70d0f89791, 0xc76c51a30654be30,
    0xd192e819d6ef5218, 0xd69906245565a910, 0xf40e35855771202a, 0x106aa07032bbd1b8,
    0x19a4c116b8d2d0c8, 0x1e376c085141ab53, 0x2748774cdf8eeb99, 0x34b0bcb5e19b48a8,
    0x391c0cb3c5c95a63, 0x4ed8aa4ae3418acb, 0x5b9cca4f7763e373, 0x682e6ff3d6b2b8a3,
    0x748f82ee5defb2fc, 0x78a5636f43172f60, 0x84c87814a1f0ab72, 0x8cc702081a6439ec,
    0x90befffa23631e28, 0xa4506cebde82bde9, 0xbef9a3f7b2c67915, 0xc67178f2e372532b,
    0xca273eceea26619c, 0xd186b8c721c0c207, 0xeada7dd6cde0eb1e, 0xf57d4f7fee6ed178,
    0x06f067aa72176fba, 0x0a637dc5a2c898a6, 0x113f9804bef90dae, 0x1b710b35131c471b,
    0x28db77f523047d84, 0x32caab7b40c72493, 0x3c9ebe0a15c9bebc, 0x431d67c49c100d4c,
    0x4cc5d4becb3e42b6, 0x597f299cfc657e2a, 0x5fcb6fab3ad6faec, 0x6c44198c4a475817]

/-- `rotr64`: the rotation to the right, by an amount from 1 to 63. -/
def rotr64 (x n : UInt64) : UInt64 := (x >>> n) ||| (x <<< (64 - n))

/-- The words of a block, as `sha512_compress` loads them. -/
def sha512Load (p : List UInt8) : Vector UInt64 16 :=
  Vector.ofFn fun i =>
    let b := i.val * 8
    p[b]!.toUInt64 <<< 56 ||| p[b + 1]!.toUInt64 <<< 48 ||| p[b + 2]!.toUInt64 <<< 40 |||
      p[b + 3]!.toUInt64 <<< 32 ||| p[b + 4]!.toUInt64 <<< 24 ||| p[b + 5]!.toUInt64 <<< 16 |||
      p[b + 6]!.toUInt64 <<< 8 ||| p[b + 7]!.toUInt64

/-- The word `wi` of a round, and the schedule after it. -/
def sha512Word (w : Vector UInt64 16) (i : ℕ) : UInt64 × Vector UInt64 16 :=
  if i < 16 then (w[i]!, w)
  else
    let w15 := w[(i - 15) &&& 15]!
    let w2 := w[(i - 2) &&& 15]!
    let s0 := rotr64 w15 1 ^^^ rotr64 w15 8 ^^^ (w15 >>> 7)
    let s1 := rotr64 w2 19 ^^^ rotr64 w2 61 ^^^ (w2 >>> 6)
    let wi := w[i &&& 15]! + s0 + w[(i - 7) &&& 15]! + s1
    (wi, w.set! (i &&& 15) wi)

/-- The variables after a round with the word `wi`. -/
def sha512Round (i : ℕ) (wi : UInt64) (v : Sha2.Vars) : Sha2.Vars :=
  let S1 := rotr64 v.e 14 ^^^ rotr64 v.e 18 ^^^ rotr64 v.e 41
  let ch := (v.e &&& v.f) ^^^ (~~~v.e &&& v.g)
  let t1 := v.h + S1 + ch + sha512K[i]! + wi
  let S0 := rotr64 v.a 28 ^^^ rotr64 v.a 34 ^^^ rotr64 v.a 39
  let maj := (v.a &&& v.b) ^^^ (v.a &&& v.c) ^^^ (v.b &&& v.c)
  let t2 := S0 + maj
  { h := v.g, g := v.f, f := v.e, e := v.d + t1, d := v.c, c := v.b, b := v.a, a := t1 + t2 }

/-- The body of the loop over the rounds. -/
def sha512Step (s : Vector UInt64 16 × Sha2.Vars) (i : ℕ) : Vector UInt64 16 × Sha2.Vars :=
  let (wi, w) := sha512Word s.1 i
  (w, sha512Round i wi s.2)

/-- The schedule and the variables after the first `n` rounds. -/
def sha512Rounds (h : Vector UInt64 8) (p : List UInt8) (n : ℕ) : Vector UInt64 16 × Sha2.Vars :=
  (List.range n).foldl sha512Step
    (sha512Load p, ⟨h[0]!, h[1]!, h[2]!, h[3]!, h[4]!, h[5]!, h[6]!, h[7]!⟩)

/-- `sha512_compress`: of the bytes at `p`, the first 128 are read. -/
def sha512Compress (h : Vector UInt64 8) (p : List UInt8) : Vector UInt64 8 :=
  let v := (sha512Rounds h p 80).2
  #v[h[0]! + v.a, h[1]! + v.b, h[2]! + v.c, h[3]! + v.d, h[4]! + v.e, h[5]! + v.f, h[6]! + v.g,
    h[7]! + v.h]

/-! ### The tables -/

/-- **The round constants** of the device. -/
theorem sha512K_eq {t : ℕ} (ht : t < 80) : sha512K[t]! = Sha2.roundConstant t := by
  have hroot : ∀ t < 80, ∃ i < 8,
      (i * 2 ^ 64 + sha512K[t]!.toNat) ^ 3 ≤ Sha2.firstPrimes[t]! * 2 ^ (64 * 3) ∧
        Sha2.firstPrimes[t]! * 2 ^ (64 * 3) < (i * 2 ^ 64 + sha512K[t]!.toNat + 1) ^ 3 := by
    decide +kernel
  obtain ⟨i, -, hle, hlt⟩ := hroot t ht
  exact (Sha2.rootBits_eq hle hlt).symm

/-! ### Rounds -/

/-- **A word of the rolling schedule**, and the buffer after it. -/
theorem sha512Word_spec {M : List UInt64} (hM : M.length = 16) {w : Vector UInt64 16} {t : ℕ}
    (hw : Rolls (Sha2.word M) (max 16 t) w) (ht : t < 80) :
    (sha512Word w t).1 = Sha2.word M t ∧
      Rolls (Sha2.word M) (max 16 (t + 1)) (sha512Word w t).2 := by
  rw [sha512Word]
  by_cases hlt : t < 16
  · rw [if_pos hlt]
    rw [max_eq_left hlt.le] at hw
    rw [max_eq_left (Nat.succ_le_of_lt hlt)]
    have hread := hw t hlt (by omega)
    rw [Nat.mod_eq_of_lt hlt] at hread
    dsimp only
    exact ⟨hread, hw⟩
  · rw [if_neg hlt]
    rw [max_eq_right (by omega)] at hw
    rw [max_eq_right (by omega)]
    have hmask : ∀ n, n &&& 15 = n % 16 := fun n => Nat.and_two_pow_sub_one_eq_mod n 4
    have h15 : w[(t - 15) % 16]! = Sha2.word M (t - 15) :=
      hw.getElem!_sub (by norm_num) (by norm_num) (by omega)
    have h7 : w[(t - 7) % 16]! = Sha2.word M (t - 7) :=
      hw.getElem!_sub (by norm_num) (by norm_num) (by omega)
    have h2 : w[(t - 2) % 16]! = Sha2.word M (t - 2) :=
      hw.getElem!_sub (by norm_num) (by norm_num) (by omega)
    have h16 : w[t % 16]! = Sha2.word M (t - 16) :=
      hw.getElem!_oldest (by norm_num) (by omega)
    have hword : Sha2.word M (t - 16) + Sha2.smallSigma0 (Sha2.word M (t - 15)) +
        Sha2.word M (t - 7) + Sha2.smallSigma1 (Sha2.word M (t - 2)) = Sha2.word M t := by
      have hreverse : ∀ a b c d : UInt64, a + b + c + d = d + c + b + a := by
        intros
        ac_rfl
      rw [(Sha2.word_spec hM).2 t (by omega) ht, hreverse]
    have hnext := hw.set (by norm_num)
    rw [← hword] at hnext ⊢
    simp only [hmask, h15, h7, h2, h16]
    exact ⟨rfl, hnext⟩

theorem sha512Round_eq {t : ℕ} (ht : t < 80) (wi : UInt64) (v : Sha2.Vars) :
    sha512Round t wi v = Sha2.round (Sha2.roundConstant t) wi v := by
  rw [← sha512K_eq ht]
  rfl

/-- Eight bytes of a list. -/
theorem take_eight_drop {l : List UInt8} {n : ℕ} (h : n + 8 ≤ l.length) :
    (l.drop n).take 8 = [l[n]!, l[n + 1]!, l[n + 2]!, l[n + 3]!, l[n + 4]!, l[n + 5]!, l[n + 6]!,
      l[n + 7]!] := by
  have hget : ∀ k < 8, l.drop (n + k) = l[n + k]! :: l.drop (n + k + 1) := by
    intro k hk
    rw [List.drop_eq_getElem_cons (by omega), getElem!_pos l (n + k) (by omega)]
  rw [← Nat.add_zero n, hget 0 (by norm_num), Nat.add_zero, hget 1 (by norm_num),
    hget 2 (by norm_num), hget 3 (by norm_num), hget 4 (by norm_num), hget 5 (by norm_num),
    hget 6 (by norm_num), hget 7 (by norm_num)]
  rfl

/-- A word in its bytes. -/
theorem beWord_eight (b₀ b₁ b₂ b₃ b₄ b₅ b₆ b₇ : UInt8) :
    Sha2.beWord [b₀, b₁, b₂, b₃, b₄, b₅, b₆, b₇] =
      b₀.toUInt64 <<< 56 ||| b₁.toUInt64 <<< 48 ||| b₂.toUInt64 <<< 40 ||| b₃.toUInt64 <<< 32 |||
        b₄.toUInt64 <<< 24 ||| b₅.toUInt64 <<< 16 ||| b₆.toUInt64 <<< 8 ||| b₇.toUInt64 := by
  have h₀ := b₀.toNat_lt
  have h₁ := b₁.toNat_lt
  have h₂ := b₂.toNat_lt
  have h₃ := b₃.toNat_lt
  have h₄ := b₄.toNat_lt
  have h₅ := b₅.toNat_lt
  have h₆ := b₆.toNat_lt
  have h₇ := b₇.toNat_lt
  apply UInt64.toNat_inj.mp
  rw [Words.UInt64.toNat_ofBytesBE, Sha2.beWord, Nat.toUInt64_eq, UInt64.toNat_ofNat']
  simp only [List.map_cons, List.map_nil, Positional.ofDigitsBE, List.foldl_cons, List.foldl_nil]
  omega

/-- The words that are loaded are those of the block. -/
theorem sha512Load_rolls {p : List UInt8} (hp : 128 ≤ p.length) :
    Rolls (Sha2.word (Sha2.blockWords (p.take 128))) 16 (sha512Load p) := by
  intro t ht _
  have hbytes : ((p.take 128).drop (8 * t)).take 8 = (p.drop (t * 8)).take 8 := by
    rw [List.drop_take, List.take_take, Nat.mul_comm 8 t, min_eq_left (by omega)]
  rw [Nat.mod_eq_of_lt ht, (Sha2.word_spec (Sha2.length_blockWords _)).1 t ht, Sha2.blockWords,
    List.getD_eq_getElem _ _ (by simpa using ht), List.getElem_map, List.getElem_range, hbytes,
    take_eight_drop (by omega), beWord_eight, getElem!_pos (sha512Load p) t ht, sha512Load,
    Vector.getElem_ofFn]

/-- The loop over the rounds. -/
theorem sha512Rounds_spec (h : Vector UInt64 8) {p : List UInt8} (hp : 128 ≤ p.length) {n : ℕ}
    (hn : n ≤ 80) :
    Rolls (Sha2.word (Sha2.blockWords (p.take 128))) (max 16 n) (sha512Rounds h p n).1 ∧
      (sha512Rounds h p n).2 = Sha2.rounds (.ofHash h) (Sha2.blockWords (p.take 128)) n := by
  induction n with
  | zero => exact ⟨sha512Load_rolls hp, rfl⟩
  | succ n ih =>
      obtain ⟨hrolls, hvars⟩ := ih (by omega)
      obtain ⟨hword, hnext⟩ := sha512Word_spec (Sha2.length_blockWords _) hrolls (by omega)
      rw [sha512Rounds, Sha2.rounds_succ, List.range_succ, List.foldl_append, List.foldl_cons,
        List.foldl_nil, ← sha512Rounds, ← hvars, ← hword]
      exact ⟨hnext, sha512Round_eq (by omega) _ _⟩

/-- **The words of the rounds** are those of the message schedule. -/
theorem sha512Word_eq (h : Vector UInt64 8) {p : List UInt8} (hp : 128 ≤ p.length) {t : ℕ}
    (ht : t < 80) :
    (sha512Word (sha512Rounds h p t).1 t).1 = Sha2.word (Sha2.blockWords (p.take 128)) t :=
  (sha512Word_spec (Sha2.length_blockWords _) (sha512Rounds_spec h hp ht.le).1 ht).1

/-- **One block.** -/
theorem sha512Compress_eq (h : Vector UInt64 8) {p : List UInt8} (hp : 128 ≤ p.length) :
    sha512Compress h p = Sha2.compress h (p.take 128) := by
  have hcomm : ∀ v : Sha2.Vars,
      #v[h[0] + v.a, h[1] + v.b, h[2] + v.c, h[3] + v.d, h[4] + v.e, h[5] + v.f, h[6] + v.g,
          h[7] + v.h] =
        #v[v.a + h[0], v.b + h[1], v.c + h[2], v.d + h[3], v.e + h[4], v.f + h[5], v.g + h[6],
          v.h + h[7]] := by
    intro v
    rw [UInt64.add_comm h[0], UInt64.add_comm h[1], UInt64.add_comm h[2], UInt64.add_comm h[3],
      UInt64.add_comm h[4], UInt64.add_comm h[5], UInt64.add_comm h[6], UInt64.add_comm h[7]]
  exact (hcomm _).trans (congrArg
    (fun v : Sha2.Vars => #v[v.a + h[0], v.b + h[1], v.c + h[2], v.d + h[3], v.e + h[4],
      v.f + h[5], v.g + h[6], v.h + h[7]]) (sha512Rounds_spec h hp (Nat.le_refl 80)).2)

/-! ### Messages in parts -/

/-- `Sha512`: the hash of the whole blocks so far, and what follows them. The number of bytes in
the buffer is an `int`. -/
structure Sha512 where
  h : Vector UInt64 8
  /-- bytes absorbed -/
  total : UInt64
  buf : Vector UInt8 128
  buflen : Int32

/-- `sha512_256_init`. The buffer is not initialized. -/
def sha512_256Init (garbage : Vector UInt8 128) : Sha512 where
  h := #v[0x22312194FC2BF72C, 0x9F555FA3C84C64C2, 0x2393B86B6F53B151, 0x963877195940EABD,
    0x96283EE2A88EFFE3, 0xBE5E1E2553863992, 0x2B0199FC2C85B8AA, 0x0EB72DDC81C52CA2]
  total := 0
  buf := garbage
  buflen := 0

/-- The loop over the whole blocks at `data`: the hash after it, the bytes that remain, and the
value of `len`. -/
def sha512Blocks (h : Vector UInt64 8) (data : List UInt8) (len : Int32) :
    Vector UInt64 8 × List UInt8 × Int32 :=
  if 128 ≤ len then sha512Blocks (sha512Compress h data) (data.drop 128) (len - 128)
  else (h, data, len)
termination_by len.toNatClampNeg
decreasing_by
  rename_i hle
  have hpos : 0 < len.toNatClampNeg :=
    (Int32.toNatClampNeg_pos_iff len).mpr (Int32.lt_of_lt_of_le (by decide) hle)
  rw [Int32.toNatClampNeg_sub_of_le (by decide) hle]
  exact Nat.sub_lt hpos (by decide)

/-- The end of `sha512_update`: the whole blocks, and a copy of the rest. -/
def sha512Tail (s : Sha512) (data : List UInt8) (len : Int32) : Sha512 :=
  let (h, data, len) := sha512Blocks s.h data len
  { s with h := h, buf := writeBytes s.buf 0 (data.take len.toNatClampNeg), buflen := len }

/-- `sha512_update`, with the bytes from `data` on. A loop over an `int` that is negative does
nothing, and its conversion to 64 bits extends the sign. -/
def sha512Update (s : Sha512) (data : List UInt8) (len : Int32) : Sha512 :=
  let s := { s with total := s.total + len.toInt64.toUInt64 }
  if s.buflen > 0 then
    let need := 128 - s.buflen
    let take := if len < need then len else need
    let s := { s with
      buf := writeBytes s.buf s.buflen.toNatClampNeg (data.take take.toNatClampNeg)
      buflen := s.buflen + take }
    let data := data.drop take.toNatClampNeg
    let len := len - take
    let s :=
      if s.buflen = 128 then { s with h := sha512Compress s.h s.buf.toList, buflen := 0 } else s
    if len = 0 then s else sha512Tail s data len
  else sha512Tail s data len

/-- A call of `sha512_update` for a part of a message, the length of which is converted to
`int`. -/
def sha512Part (s : Sha512) (data : List UInt8) : Sha512 :=
  sha512Update s data (Int32.ofNat data.length)

/-- The first part of `sha512_256_final`: the byte `0x80`, and the end of a block without room
for the length. -/
def sha512Mark (s : Sha512) : Sha512 :=
  let s : Sha512 :=
    { s with buf := s.buf.set! s.buflen.toNatClampNeg 0x80, buflen := s.buflen + 1 }
  if s.buflen > 112 then
    let buf := writeBytes s.buf s.buflen.toNatClampNeg
      (List.replicate (128 - s.buflen).toNatClampNeg 0)
    { s with h := sha512Compress s.h buf.toList, buf := buf, buflen := 0 }
  else s

/-- `sha512_256_final`: the padding, the last block and the first 32 bytes of the hash. -/
def sha512_256Final (s : Sha512) : Vector UInt8 32 :=
  let bitlen := s.total * 8
  let s := sha512Mark s
  let buf := writeBytes s.buf s.buflen.toNatClampNeg
    (List.replicate (112 - s.buflen).toNatClampNeg 0)
  let buf := writeBytes buf 112 (List.replicate 8 0)
  let buf := writeBytes buf 120
    ((List.range 8).map fun i => (bitlen >>> (56 - 8 * i).toUInt64).toUInt8)
  let h := sha512Compress s.h buf.toList
  Vector.ofFn fun k =>
    let v := h[k.val / 8]!
    (v >>> (56 - 8 * (k.val % 8)).toUInt64).toUInt8

/-! ### Messages of one block -/

/-- The hash of a message that is one block with its padding. -/
theorem hash_of_block (H : Vector UInt64 8) {m : List UInt8} (hlen : (Sha2.pad m).length = 128) :
    Sha2.hash H m = sha512Compress H (Sha2.pad m) := by
  rw [Sha2.hash, ← List.nil_append (Sha2.pad m),
    absorb_append_block (by norm_num) (Nat.dvd_zero _) hlen, absorb_nil, List.nil_append,
    sha512Compress_eq H hlen.ge, List.take_of_length_le hlen.le]

set_option maxRecDepth 100000 in
/-- The block of 32 zero bytes. -/
theorem sha512Compress_zeros :
    sha512Compress Sha2.initialWords (Sha2.pad (List.replicate 32 0)) =
      #v[0x5046adc1dba83886, 0x7b2bbbfdd0c3423e, 0x58b57970b5267a90, 0xf57960924a87f196,
        0x0a6a85eaa642dac8, 0x35424b5d7c8d637c, 0x00408c7a73da672b, 0x7f498521420b6dd3] := by
  decide +kernel

set_option maxRecDepth 100000 in
/-- The SHA-512 hash of 32 zero bytes. -/
theorem sha512_zeros : Sha2.sha512 (List.replicate 32 0) =
    #v[0x50, 0x46, 0xad, 0xc1, 0xdb, 0xa8, 0x38, 0x86, 0x7b, 0x2b, 0xbb, 0xfd, 0xd0, 0xc3,
      0x42, 0x3e, 0x58, 0xb5, 0x79, 0x70, 0xb5, 0x26, 0x7a, 0x90, 0xf5, 0x79, 0x60, 0x92,
      0x4a, 0x87, 0xf1, 0x96, 0x0a, 0x6a, 0x85, 0xea, 0xa6, 0x42, 0xda, 0xc8, 0x35, 0x42,
      0x4b, 0x5d, 0x7c, 0x8d, 0x63, 0x7c, 0x00, 0x40, 0x8c, 0x7a, 0x73, 0xda, 0x67, 0x2b,
      0x7f, 0x49, 0x85, 0x21, 0x42, 0x0b, 0x6d, 0xd3] := by
  have hlen : (Sha2.pad (List.replicate 32 0)).length = 128 := by decide +kernel
  rw [Sha2.sha512, Sha2.sha512Initial_eq, hash_of_block _ hlen, sha512Compress_zeros]
  decide +kernel

set_option maxRecDepth 100000 in
/-- The block that the initial value stems from. -/
theorem sha512Compress_name : sha512Compress (Sha2.initialWords.map (· ^^^ 0xa5a5a5a5a5a5a5a5))
    (Sha2.pad [0x53, 0x48, 0x41, 0x2d, 0x35, 0x31, 0x32, 0x2f, 0x32, 0x35, 0x36]) =
      #v[0x22312194FC2BF72C, 0x9F555FA3C84C64C2, 0x2393B86B6F53B151, 0x963877195940EABD,
        0x96283EE2A88EFFE3, 0xBE5E1E2553863992, 0x2B0199FC2C85B8AA, 0x0EB72DDC81C52CA2] := by
  decide +kernel

/-- **The initial value** of the device. -/
theorem sha512_256Init_h (garbage : Vector UInt8 128) :
    (sha512_256Init garbage).h = Sha2.sha512_256Initial := by
  have hlen : (Sha2.pad [0x53, 0x48, 0x41, 0x2d, 0x35, 0x31, 0x32, 0x2f, 0x32, 0x35, 0x36]).length =
      128 := by decide +kernel
  rw [Sha2.sha512_256Initial, Sha2.sha512Initial_eq, hash_of_block _ hlen, sha512Compress_name]
  rfl

/-! ### What is kept between two parts -/

/-- What the device has kept of a message: the hash of its whole blocks, the `k` bytes after
them in the buffer, and its length. -/
structure Streams (m : List UInt8) (k : ℕ) (s : Sha512) : Prop where
  lt : k < 128
  buflen : s.buflen = Int32.ofNat k
  total : s.total = m.length.toUInt64
  absorbed : Absorbed 128 Sha2.compress Sha2.sha512_256Initial m s.h (s.buf.toList.take k)

theorem Streams.init (garbage : Vector UInt8 128) : Streams [] 0 (sha512_256Init garbage) where
  lt := by norm_num
  buflen := rfl
  total := rfl
  absorbed := by
    rw [sha512_256Init_h]
    exact .nil 128 Sha2.compress Sha2.sha512_256Initial

/-- The bounds of the number of bytes in the buffer. -/
theorem Streams.bounds {m : List UInt8} {k : ℕ} {s : Sha512} (hs : Streams m k s) :
    0 ≤ s.buflen ∧ s.buflen < 128 := by
  have hlt := hs.lt
  rw [hs.buflen]
  exact ⟨(Int32.ofNat_le_iff_le (by norm_num) (by omega)).mpr (Nat.zero_le k),
    (Int32.ofNat_lt_iff_lt (by omega) (by norm_num)).mpr hlt⟩

theorem Streams.length_take {m : List UInt8} {k : ℕ} {s : Sha512} (hs : Streams m k s) :
    (s.buf.toList.take k).length = k := by
  have hlt := hs.lt
  rw [List.length_take, Vector.length_toList]
  omega

section Parts

variable {m : List UInt8}

/-- A block at the beginning of the bytes that are left. -/
theorem absorbed_compress {h : Vector UInt64 8} {data : List UInt8} (hlen : 128 ≤ data.length)
    (ha : Absorbed 128 Sha2.compress Sha2.sha512_256Initial m h data) :
    Absorbed 128 Sha2.compress Sha2.sha512_256Initial m (sha512Compress h data)
      (data.drop 128) := by
  rw [sha512Compress_eq h hlen]
  exact ha.take_block (by norm_num) hlen

/-- Bytes that are copied to the end of the buffer. -/
theorem absorbed_write {h₀ h : Vector UInt64 8} {buf : Vector UInt8 128} {k : ℕ}
    (ha : Absorbed 128 Sha2.compress h₀ m h (buf.toList.take k))
    (bytes : List UInt8) (hfit : k + bytes.length ≤ 128) :
    Absorbed 128 Sha2.compress h₀ (m ++ bytes) h
      ((writeBytes buf k bytes).toList.take (k + bytes.length)) := by
  rw [take_toList_writeBytes buf bytes hfit]
  exact ha.append bytes

/-- A full buffer. -/
theorem absorbed_buffer {h : Vector UInt64 8} {buf : Vector UInt8 128} {k : ℕ} (hk : k = 128)
    (ha : Absorbed 128 Sha2.compress Sha2.sha512_256Initial m h (buf.toList.take k)) :
    Absorbed 128 Sha2.compress Sha2.sha512_256Initial m (sha512Compress h buf.toList) [] := by
  have hlen : buf.toList.length = 128 := Vector.length_toList
  rw [hk, List.take_of_length_le hlen.le] at ha
  have hblock := absorbed_compress hlen.ge ha
  rwa [List.drop_of_length_le hlen.le] at hblock

/-- The number of bytes that a loop over an `int` reads. -/
theorem toNatClampNeg_length {n : ℕ} (hn : n < 2 ^ 31) : (Int32.ofNat n).toNatClampNeg = n :=
  Int32.toNatClampNeg_ofNat_of_lt hn

/-- The loop over whole blocks, of fewer than `2 ^ 31` bytes. -/
theorem sha512Blocks_spec (n : ℕ) {h : Vector UInt64 8} {data : List UInt8}
    (hn : data.length = n) (hlen : n < 2 ^ 31)
    (ha : Absorbed 128 Sha2.compress Sha2.sha512_256Initial m h data) :
    ∃ h' rest, sha512Blocks h data (Int32.ofNat n) = (h', rest, Int32.ofNat rest.length) ∧
      rest.length < 128 ∧ Absorbed 128 Sha2.compress Sha2.sha512_256Initial m h' rest := by
  induction n using Nat.strong_induction_on generalizing h data with
  | _ n ih =>
      have hcmp : (128 : Int32) ≤ Int32.ofNat n ↔ 128 ≤ n :=
        Int32.ofNat_le_iff_le (by norm_num) hlen
      rw [sha512Blocks]
      by_cases hle : 128 ≤ n
      · have hsub : Int32.ofNat n - 128 = Int32.ofNat (n - 128) := (Int32.ofNat_sub n 128 hle).symm
        rw [if_pos (hcmp.mpr hle), hsub]
        exact ih (n - 128) (by omega) (by rw [List.length_drop, hn]) (by omega)
          (absorbed_compress (by omega) ha)
      · rw [if_neg (mt hcmp.mp hle)]
        exact ⟨h, data, by rw [hn], by omega, ha⟩

/-- The end of `sha512_update`. -/
theorem sha512Tail_spec {s : Sha512} {data : List UInt8} (hlen : data.length < 2 ^ 31)
    (htotal : s.total = m.length.toUInt64)
    (ha : Absorbed 128 Sha2.compress Sha2.sha512_256Initial m s.h data) :
    ∃ k, Streams m k (sha512Tail s data (Int32.ofNat data.length)) := by
  obtain ⟨h, rest, heq, hlt, hrest⟩ := sha512Blocks_spec data.length rfl hlen ha
  have htake := take_toList_writeBytes s.buf rest (by rw [Nat.zero_add]; exact hlt.le : 0 + _ ≤ 128)
  rw [Nat.zero_add, List.take_zero, List.nil_append] at htake
  refine ⟨rest.length, hlt, ?_, ?_, ?_⟩
  · rw [sha512Tail, heq]
  · rw [sha512Tail]
    exact htotal
  · rw [sha512Tail, heq]
    dsimp only
    rw [toNatClampNeg_length (by omega), List.take_length, htake]
    exact hrest

/-- A length below `2 ^ 31` keeps its value in 64 bits. -/
theorem toUInt64_length {n : ℕ} (hn : n < 2 ^ 31) :
    (Int32.ofNat n).toInt64.toUInt64 = n.toUInt64 := by
  have hmax : (n : ℤ) ≤ Int32.maxValue.toInt := by
    rw [Int32.toInt_maxValue]
    omega
  rw [Int32.toInt64_ofNat' hmax]
  rfl

/-- Lengths below `2 ^ 31` are equal if they are as an `int`. -/
theorem ofNat_eq_iff {a b : ℕ} (ha : a < 2 ^ 31) (hb : b < 2 ^ 31) :
    Int32.ofNat a = Int32.ofNat b ↔ a = b := by
  refine ⟨fun h => ?_, congrArg Int32.ofNat⟩
  have hclamp := congrArg Int32.toNatClampNeg h
  rwa [toNatClampNeg_length ha, toNatClampNeg_length hb] at hclamp

/-- How much of a part is copied to the buffer: all of it, or what fills the buffer. -/
theorem take_eq_min {n k : ℕ} (hn : n < 2 ^ 31) (hk : k < 128) :
    (if Int32.ofNat n < (128 : Int32) - Int32.ofNat k then Int32.ofNat n
      else 128 - Int32.ofNat k) = Int32.ofNat (min n (128 - k)) := by
  have hneed : (128 : Int32) - Int32.ofNat k = Int32.ofNat (128 - k) :=
    (Int32.ofNat_sub 128 k hk.le).symm
  have hcmp : Int32.ofNat n < Int32.ofNat (128 - k) ↔ n < 128 - k :=
    Int32.ofNat_lt_iff_lt hn (by omega)
  rw [hneed]
  by_cases hfew : n < 128 - k
  · rw [if_pos (hcmp.mpr hfew), min_eq_left hfew.le]
  · rw [if_neg (mt hcmp.mp hfew), min_eq_right (Nat.not_lt.mp hfew)]

/-- **One more part** of the message, of fewer than `2 ^ 31` bytes. -/
theorem Streams.update {k : ℕ} {s : Sha512} (hs : Streams m k s) {data : List UInt8}
    (hlen : data.length < 2 ^ 31) : ∃ k', Streams (m ++ data) k' (sha512Part s data) := by
  have hlt := hs.lt
  have htotal : s.total + (Int32.ofNat data.length).toInt64.toUInt64 =
      (m ++ data).length.toUInt64 := by
    rw [hs.total, toUInt64_length hlen, List.length_append, Nat.toUInt64_eq, Nat.toUInt64_eq,
      Nat.toUInt64_eq, UInt64.ofNat_add]
  have hpos : s.buflen > 0 ↔ 0 < k := by
    rw [hs.buflen]
    exact Int32.ofNat_lt_iff_lt (by norm_num) (by omega)
  rw [sha512Part, sha512Update]
  dsimp only
  by_cases hk : 0 < k
  · rw [if_pos (hpos.mpr hk), hs.buflen]
    -- the buffer is filled up as far as the part goes
    rw [take_eq_min hlen hlt]
    obtain ⟨take, htake⟩ : ∃ take, take = min data.length (128 - k) := ⟨_, rfl⟩
    rw [← htake, toNatClampNeg_length (by omega), toNatClampNeg_length (by omega),
      ← Int32.ofNat_add, ← Int32.ofNat_sub _ _ (by omega)]
    have hfilled : Absorbed 128 Sha2.compress Sha2.sha512_256Initial (m ++ data.take take) s.h
        ((writeBytes s.buf k (data.take take)).toList.take (k + take)) := by
      have hwrite := absorbed_write hs.absorbed (data.take take)
        (by rw [List.length_take]; omega)
      rwa [List.length_take, min_eq_left (by omega)] at hwrite
    have hdata : m ++ data.take take ++ data.drop take = m ++ data := by
      rw [List.append_assoc, List.take_append_drop]
    have hrest : (data.drop take).length = data.length - take := List.length_drop
    have hfull : Int32.ofNat (k + take) = 128 ↔ k + take = 128 :=
      ofNat_eq_iff (by omega) (by norm_num)
    have hend : Int32.ofNat (data.length - take) = 0 ↔ data.length - take = 0 :=
      ofNat_eq_iff (by omega) (by norm_num)
    generalize writeBytes s.buf k (data.take take) = buf at hfilled ⊢
    by_cases hk128 : k + take = 128
    · have hnext := (absorbed_buffer (by omega) hfilled).append (data.drop take)
      rw [List.nil_append, hdata] at hnext
      rw [if_pos (hfull.mpr hk128)]
      by_cases hdrop : data.length - take = 0
      · rw [if_pos (hend.mpr hdrop)]
        rw [List.eq_nil_of_length_eq_zero (hrest.trans hdrop)] at hnext
        exact ⟨0, by norm_num, rfl, htotal, hnext⟩
      · rw [if_neg (mt hend.mp hdrop), ← hrest]
        exact sha512Tail_spec (by omega) htotal hnext
    · have hdrop : data.length - take = 0 := by omega
      rw [List.eq_nil_of_length_eq_zero (hrest.trans hdrop), List.append_nil] at hdata
      rw [if_neg (mt hfull.mp hk128), if_pos (hend.mpr hdrop)]
      refine ⟨k + take, by omega, rfl, htotal, ?_⟩
      rw [← hdata]
      exact hfilled
  · rw [if_neg (mt hpos.mp hk)]
    have hall := hs.absorbed.append data
    rw [Nat.eq_zero_of_not_pos hk, List.take_zero, List.nil_append] at hall
    exact sha512Tail_spec hlen htotal hall

/-- The byte `0x80`, and the zeros that complete a block without room for the length. -/
theorem Streams.mark {k : ℕ} {s : Sha512} (hs : Streams m k s) :
    ∃ k' z : ℕ, (sha512Mark s).buflen = Int32.ofNat k' ∧ k' ≤ 112 ∧
      z + (112 - k') = Sha2.zeros m.length ∧
      Absorbed 128 Sha2.compress Sha2.sha512_256Initial (m ++ 0x80 :: List.replicate z 0)
        (sha512Mark s).h ((sha512Mark s).buf.toList.take k') := by
  have hlt := hs.lt
  have hlen := hs.length_take
  have hmod : m.length % 128 = k := by
    have h := hs.absorbed.length_mod (by omega)
    rwa [hlen] at h
  have hmark := absorbed_write hs.absorbed [0x80] (by rw [List.length_singleton]; omega)
  rw [List.length_singleton] at hmark
  have hnext : Int32.ofNat k + 1 = Int32.ofNat (k + 1) := (Int32.ofNat_add k 1).symm
  have hcmp : Int32.ofNat (k + 1) > 112 ↔ k + 1 > 112 :=
    Int32.ofNat_lt_iff_lt (by norm_num) (by omega)
  rw [sha512Mark]
  dsimp only
  rw [hs.buflen, hnext, toNatClampNeg_length (by omega)]
  by_cases hfull : k + 1 > 112
  · have hroom : (128 : Int32) - Int32.ofNat (k + 1) = Int32.ofNat (127 - k) := by
      rw [show 127 - k = 128 - (k + 1) by omega]
      exact (Int32.ofNat_sub 128 (k + 1) (by omega)).symm
    rw [if_pos (hcmp.mpr hfull), hroom]
    refine ⟨0, 127 - k, rfl, Nat.zero_le _, by rw [Sha2.zeros]; omega, ?_⟩
    dsimp only
    rw [toNatClampNeg_length (by omega), toNatClampNeg_length (by omega), List.take_zero]
    have hfill := absorbed_write hmark (List.replicate (127 - k) 0)
      (by rw [List.length_replicate]; omega)
    rw [List.append_assoc, List.singleton_append] at hfill
    exact absorbed_buffer (by rw [List.length_replicate]; omega) hfill
  · rw [if_neg (mt hcmp.mp hfull)]
    exact ⟨k + 1, 0, rfl, by omega, by rw [Sha2.zeros]; omega, hmark⟩

/-- **The end of the message**: the hash is that of the message with its padding. -/
theorem Streams.final {k : ℕ} {s : Sha512} (hs : Streams m k s) (hm : m.length < 2 ^ 61) :
    sha512_256Final s = Sha2.sha512_256 m := by
  obtain ⟨k, z, hk, hle, hz, hmark⟩ := hs.mark
  set bits := (List.range 8).map fun i => ((s.total * 8) >>> (56 - 8 * i).toUInt64).toUInt8
  have hbits : Sha2.beBytes 16 (8 * m.length) = List.replicate 8 (0 : UInt8) ++ bits := by
    have htotal : (s.total * 8).toNat = 8 * m.length := by
      rw [hs.total, UInt64.toNat_mul, Nat.toUInt64_eq, UInt64.toNat_ofNat']
      change _ * 8 % _ = _
      omega
    have hhigh : 8 * m.length / 256 ^ 8 = 0 := Nat.div_eq_of_lt (by omega)
    rw [Sha2.beBytes_add 8 8, hhigh, ← htotal, Sha2.beBytes_eq_map]
    rfl
  have hpad : m ++ 0x80 :: List.replicate z 0 ++ List.replicate (112 - k) 0 ++
      List.replicate 8 0 ++ bits = Sha2.pad m := by
    rw [Sha2.pad, hbits, ← hz, List.replicate_add, List.append_assoc, List.append_assoc,
      List.append_assoc, List.append_assoc, List.cons_append, List.cons_append, List.append_assoc]
  have hfill := absorbed_write hmark (List.replicate (112 - k) 0)
    (by rw [List.length_replicate]; omega)
  rw [List.length_replicate, Nat.add_sub_cancel' hle] at hfill
  have hhigh := absorbed_write hfill (List.replicate 8 0) (by simp)
  rw [List.length_replicate] at hhigh
  have hlow := absorbed_write hhigh bits (by simp [bits])
  rw [List.length_map, List.length_range, hpad] at hlow
  have hhash := (absorbed_buffer rfl hlow).eq_absorb
  have hroom : (112 : Int32) - Int32.ofNat k = Int32.ofNat (112 - k) :=
    (Int32.ofNat_sub 112 k hle).symm
  rw [sha512_256Final, Sha2.sha512_256, Sha2.hash, ← hhash]
  dsimp only
  rw [hk, hroom, toNatClampNeg_length (by omega), toNatClampNeg_length (by omega)]
  generalize sha512Compress (sha512Mark s).h _ = H
  refine Vector.ext fun i hi => ?_
  have hword : H[i / 8]! = H[i / 8] := getElem!_pos H (i / 8) (by omega)
  rw [Vector.getElem_ofFn, Vector.getElem_ofFn, Sha2.beBytes_eq_map]
  dsimp only
  rw [hword, getElem!_pos _ _ (by simp; omega), List.getElem_map, List.getElem_range]

end Parts

/-- The calls of `sha512_update` for the parts of a message. -/
theorem Streams.foldl (garbage : Vector UInt8 128) {chunks : List (List UInt8)}
    (hchunks : ∀ data ∈ chunks, data.length < 2 ^ 31) :
    ∃ k, Streams chunks.flatten k (chunks.foldl sha512Part (sha512_256Init garbage)) := by
  induction chunks using List.reverseRecOn with
  | nil => exact ⟨0, .init garbage⟩
  | append_singleton chunks data ih =>
      obtain ⟨k, hs⟩ := ih fun d hd => hchunks d (List.mem_append_left _ hd)
      rw [List.foldl_append, List.foldl_cons, List.foldl_nil, List.flatten_append,
        List.flatten_singleton]
      exact hs.update (hchunks data (List.mem_append_right _ (List.mem_singleton.mpr rfl)))

/-- **SHA-512/256 in parts.** For every buffer before `sha512_256_init` and every list of parts
of fewer than `2 ^ 31` bytes each, the number of bytes in the buffer stays below 128, and the
result is the hash of the parts put together, if they have less than `2 ^ 61` bytes; and in
every block, the words of the rounds are those of the message schedule. -/
theorem sha512_256_streaming (garbage : Vector UInt8 128) (chunks : List (List UInt8))
    (hchunks : ∀ data ∈ chunks, data.length < 2 ^ 31) :
    (0 ≤ (chunks.foldl sha512Part (sha512_256Init garbage)).buflen ∧
      (chunks.foldl sha512Part (sha512_256Init garbage)).buflen < 128) ∧
    (chunks.flatten.length < 2 ^ 61 →
      sha512_256Final (chunks.foldl sha512Part (sha512_256Init garbage)) =
        Sha2.sha512_256 chunks.flatten) ∧
    ∀ (h : Vector UInt64 8) (p : List UInt8), 128 ≤ p.length → ∀ t < 80,
      (sha512Word (sha512Rounds h p t).1 t).1 = Sha2.word (Sha2.blockWords (p.take 128)) t := by
  obtain ⟨k, hs⟩ := Streams.foldl garbage hchunks
  exact ⟨hs.bounds, hs.final, fun h _ hp _ ht => sha512Word_eq h hp ht⟩

/-- The message `abc`, with an empty part in the middle. -/
theorem sha512_256_streaming_abc :
    sha512_256Final ([[0x61], [], [0x62, 0x63]].foldl sha512Part
        (sha512_256Init (Vector.replicate 128 0))) = Sha2.sha512_256 [0x61, 0x62, 0x63] ∧
      (sha512Word (sha512Rounds Sha2.initialWords (List.replicate 128 0x61) 79).1 79).1 =
        Sha2.word (Sha2.blockWords ((List.replicate 128 0x61).take 128)) 79 :=
  have h := sha512_256_streaming (Vector.replicate 128 0) [[0x61], [], [0x62, 0x63]] (by decide)
  ⟨h.2.1 (by decide), h.2.2 Sha2.initialWords (List.replicate 128 0x61) (by simp) 79 (by decide)⟩

/-- A part of `2 ^ 31` bytes has a negative length for `sha512_update`, which leaves the number
of bytes in the buffer negative. -/
theorem sha512_256_negative_length :
    ¬ ∀ (garbage : Vector UInt8 128) (chunks : List (List UInt8)),
      chunks.flatten.length < 2 ^ 61 →
        0 ≤ (chunks.foldl sha512Part (sha512_256Init garbage)).buflen := by
  intro h
  have hlen : (List.replicate (2 ^ 31) (0 : UInt8)).length = 2 ^ 31 := List.length_replicate
  have hneg := h (Vector.replicate 128 0) [List.replicate (2 ^ 31) 0] (by
    rw [List.flatten_singleton, hlen]
    norm_num)
  rw [List.foldl_cons, List.foldl_nil, sha512Part, hlen] at hneg
  have hzero : ¬ (sha512_256Init (Vector.replicate 128 0)).buflen > 0 := by decide
  rw [sha512Update] at hneg
  dsimp only at hneg
  rw [if_neg hzero, sha512Tail, sha512Blocks, if_neg (by decide)] at hneg
  exact absurd hneg (by decide)

end FalconVanity
