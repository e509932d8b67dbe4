import FalconVanity.Sha512
import FalconVanity.FieldBytes

/-!
# The Hash of the Seeds

The SHA-512 that the reference for Ed25519 has of its own. It keeps the message schedule of a
block as a whole, does not move the working variables but renames the registers that hold
them, and updates its hash in a loop over the bytes that are left.

## Main results

* `vars_rnd`: a round, with registers under any of their names.
* `compress_eq`: one block.
* `Holds.update`, `Holds.final`: the invariant of the loop, and the padding.
* `sha512_streaming`: a message in parts.
* `edPubkeysBatch_ed25519`: the keys of seeds, with all of the vendored code.
-/

namespace FalconVanity

namespace SeedHash

open BlockHash

/-! ### One block -/

/-- `ROR64c`: the rotation to the right, by an amount below 64. -/
def ror64c (x y : UInt64) : UInt64 :=
  ((x &&& 0xFFFFFFFFFFFFFFFF) >>> (y &&& 63) ||| x <<< (64 - (y &&& 63))) &&& 0xFFFFFFFFFFFFFFFF

/-- `STORE64H`: the eight bytes of a word, the most significant one first. -/
def store64h (x : UInt64) : List UInt8 :=
  [((x >>> 56) &&& 255).toUInt8, ((x >>> 48) &&& 255).toUInt8, ((x >>> 40) &&& 255).toUInt8,
    ((x >>> 32) &&& 255).toUInt8, ((x >>> 24) &&& 255).toUInt8, ((x >>> 16) &&& 255).toUInt8,
    ((x >>> 8) &&& 255).toUInt8, (x &&& 255).toUInt8]

/-- `LOAD64H`, at an offset. -/
def load64h (y : List UInt8) (n : ℕ) : UInt64 :=
  (y[n]! &&& 255).toUInt64 <<< 56 ||| (y[n + 1]! &&& 255).toUInt64 <<< 48 |||
    (y[n + 2]! &&& 255).toUInt64 <<< 40 ||| (y[n + 3]! &&& 255).toUInt64 <<< 32 |||
    (y[n + 4]! &&& 255).toUInt64 <<< 24 ||| (y[n + 5]! &&& 255).toUInt64 <<< 16 |||
    (y[n + 6]! &&& 255).toUInt64 <<< 8 ||| (y[n + 7]! &&& 255).toUInt64

/-- `Ch`: the bits of `y` or of `z`, as those of `x` choose. -/
def ch (x y z : UInt64) : UInt64 := z ^^^ (x &&& (y ^^^ z))

/-- `Maj`: the bits that at least two of the words have. -/
def maj (x y z : UInt64) : UInt64 := ((x ||| y) &&& z) ||| (x &&& y)

/-- `Sigma0` -/
def sigma0 (x : UInt64) : UInt64 := ror64c x 28 ^^^ ror64c x 34 ^^^ ror64c x 39

/-- `Sigma1` -/
def sigma1 (x : UInt64) : UInt64 := ror64c x 14 ^^^ ror64c x 18 ^^^ ror64c x 41

/-- `Gamma0` -/
def gamma0 (x : UInt64) : UInt64 :=
  ror64c x 1 ^^^ ror64c x 8 ^^^ ((x &&& 0xFFFFFFFFFFFFFFFF) >>> 7)

/-- `Gamma1` -/
def gamma1 (x : UInt64) : UInt64 :=
  ror64c x 19 ^^^ ror64c x 61 ^^^ ((x &&& 0xFFFFFFFFFFFFFFFF) >>> 6)

/-- The body of the loop that fills `W`, as far as it is filled. -/
def fillStep (W : List UInt64) (i : ℕ) : List UInt64 :=
  W ++ [gamma1 W[i - 2]! + W[i - 7]! + gamma0 W[i - 15]! + W[i - 16]!]

/-- The array `W` in `sha512_compress`. -/
def schedule (buf : List UInt8) : List UInt64 :=
  (List.range' 16 64).foldl fillStep ((List.range 16).map fun i => load64h buf (8 * i))

/-- `RND`, with the places of its registers in `S`. The constants `K` are `SHA512_K`. -/
def rnd (W : List UInt64) (S : Vector UInt64 8) (a b c d e f g h i : ℕ) : Vector UInt64 8 :=
  let t0 := S[h]! + sigma1 S[e]! + ch S[e]! S[f]! S[g]! + sha512K[i]! + W[i]!
  let t1 := sigma0 S[a]! + maj S[a]! S[b]! S[c]!
  (S.set! d (S[d]! + t0)).set! h (t0 + t1)

/-- The body of the loop over the rounds. -/
def eightRounds (W : List UInt64) (S : Vector UInt64 8) (i : ℕ) : Vector UInt64 8 :=
  let S := rnd W S 0 1 2 3 4 5 6 7 (i + 0)
  let S := rnd W S 7 0 1 2 3 4 5 6 (i + 1)
  let S := rnd W S 6 7 0 1 2 3 4 5 (i + 2)
  let S := rnd W S 5 6 7 0 1 2 3 4 (i + 3)
  let S := rnd W S 4 5 6 7 0 1 2 3 (i + 4)
  let S := rnd W S 3 4 5 6 7 0 1 2 (i + 5)
  let S := rnd W S 2 3 4 5 6 7 0 1 (i + 6)
  rnd W S 1 2 3 4 5 6 7 0 (i + 7)

/-- `sha512_compress`: the state after it. -/
def compress (state : Vector UInt64 8) (buf : List UInt8) : Vector UInt64 8 :=
  let S := (List.range 10).foldl (fun S n => eightRounds (schedule buf) S (8 * n)) state
  Vector.ofFn fun i => state[i.val]! + S[i.val]!

/-! ### Messages -/

/-- `sha512_context`. `sha512_update` rejects a context with more bytes than its buffer has. -/
structure Context where
  length : UInt64
  state : Vector UInt64 8
  curlen : ℕ
  buf : Vector UInt8 128
  curlen_le : curlen ≤ 128

/-- An empty buffer is not too full. -/
theorem empty_fits : 0 ≤ 128 := Nat.zero_le 128

/-- `sha512_init`. The buffer is not initialized. -/
def init (garbage : Vector UInt8 128) : Context where
  length := 0
  state := Vector.ofFn fun i =>
    [0x6a09e667f3bcc908, 0xbb67ae8584caa73b, 0x3c6ef372fe94f82b, 0xa54ff53a5f1d36f1,
      0x510e527fade682d1, 0x9b05688c2b3e6c1f, 0x1f83d9abfb41bd6b, 0x5be0cd19137e2179][i.val]!
  curlen := 0
  buf := garbage
  curlen_le := empty_fits

/-- The buffer is hashed when it is full. -/
def flush (md : Context) : Context :=
  if md.curlen = 128 then
    { md with
      state := compress md.state md.buf.toList
      length := md.length + 8 * 128
      curlen := 0
      curlen_le := empty_fits }
  else md

/-- Bytes are copied to the end of the buffer. -/
def fill (md : Context) (bytes : List UInt8) (hfit : md.curlen + bytes.length ≤ 128) : Context :=
  { md with
    buf := writeBytes md.buf md.curlen bytes
    curlen := md.curlen + bytes.length
    curlen_le := hfit }

/-- The bytes that are copied fit into what is free of the buffer. -/
theorem take_fits (md : Context) (data : List UInt8) :
    md.curlen + (data.take (128 - md.curlen)).length ≤ 128 := by
  have hle := md.curlen_le
  rw [List.length_take]
  omega

/-- A buffer that is flushed when it is full is never full. -/
theorem flush_curlen_lt (md : Context) : (flush md).curlen < 128 := by
  have hle := md.curlen_le
  rw [flush]
  split
  · exact Nat.zero_lt_succ 127
  · omega

/-- `sha512_update`: the loop over the bytes that are left. -/
def update (md : Context) (data : List UInt8) : Context :=
  if data.length = 0 then md
  else if md.curlen = 0 ∧ 128 ≤ data.length then
    update { md with state := compress md.state data, length := md.length + 128 * 8 }
      (data.drop 128)
  else
    update (flush (fill md (data.take (128 - md.curlen)) (take_fits md data)))
      (data.drop (128 - md.curlen))
termination_by (data.length, md.curlen)
decreasing_by
  · rw [List.length_drop]
    exact Prod.Lex.left _ _ (by omega)
  · have hle := md.curlen_le
    by_cases hroom : md.curlen < 128
    · rw [List.length_drop]
      exact Prod.Lex.left _ _ (by omega)
    · -- a full buffer takes no byte, and is emptied
      have hfull : md.curlen = 128 := by omega
      have hlt := flush_curlen_lt (fill md (data.take (128 - md.curlen)) (take_fits md data))
      have hdrop : data.drop (128 - md.curlen) = data := by rw [hfull]; rfl
      rw [hdrop]
      exact Prod.Lex.right _ (by omega)

/-- The first part of `sha512_final`: the byte `0x80`, and the end of a block without room for
the length. The state, the buffer and the number of bytes in it. -/
def mark (md : Context) : Vector UInt64 8 × Vector UInt8 128 × ℕ :=
  let buf := md.buf.set! md.curlen 0x80
  let curlen := md.curlen + 1
  if curlen > 112 then
    let buf := writeBytes buf curlen (List.replicate (128 - curlen) 0)
    (compress md.state buf.toList, buf, 0)
  else (md.state, buf, curlen)

/-- `sha512_final`: `none` for the return value 1. -/
def final (md : Context) : Option (Vector UInt8 64) :=
  if md.curlen ≥ 128 then none
  else
    let length := md.length + md.curlen.toUInt64 * 8
    let (state, buf, curlen) := mark md
    let buf := writeBytes buf curlen (List.replicate (120 - curlen) 0)
    let buf := writeBytes buf 120 (store64h length)
    let state := compress state buf.toList
    some (Vector.ofFn fun k => (store64h state[k.val / 8]!)[k.val % 8]!)

/-- `sha512`: `none` for a return value other than 0. -/
def sha512 (garbage : Vector UInt8 128) (message : List UInt8) : Option (Vector UInt8 64) :=
  final (update (init garbage) message)

/-! ### The functions of the standard -/

/-- The rotation is the one of the standard, for amounts below 64. -/
theorem ror64c_eq {n : UInt64} (hn : n &&& 63 = n) (x : UInt64) : ror64c x n = Sha2.rotr n x := by
  have hones : ∀ y : UInt64, y &&& 0xFFFFFFFFFFFFFFFF = y := fun y => UInt64.and_neg_one
  rw [ror64c, hn, hones, hones, Sha2.rotr]

/-- `Sigma0` is the function `Σ₀` of the standard. -/
theorem sigma0_eq (x : UInt64) : sigma0 x = Sha2.bigSigma0 x := by
  rw [sigma0, ror64c_eq rfl, ror64c_eq rfl, ror64c_eq rfl, Sha2.bigSigma0]

/-- `Sigma1` is the function `Σ₁` of the standard. -/
theorem sigma1_eq (x : UInt64) : sigma1 x = Sha2.bigSigma1 x := by
  rw [sigma1, ror64c_eq rfl, ror64c_eq rfl, ror64c_eq rfl, Sha2.bigSigma1]

/-- `Gamma0` is the function `σ₀` of the standard. -/
theorem gamma0_eq (x : UInt64) : gamma0 x = Sha2.smallSigma0 x := by
  have hones : x &&& 0xFFFFFFFFFFFFFFFF = x := UInt64.and_neg_one
  rw [gamma0, ror64c_eq rfl, ror64c_eq rfl, hones, Sha2.smallSigma0]

/-- `Gamma1` is the function `σ₁` of the standard. -/
theorem gamma1_eq (x : UInt64) : gamma1 x = Sha2.smallSigma1 x := by
  have hones : x &&& 0xFFFFFFFFFFFFFFFF = x := UInt64.and_neg_one
  rw [gamma1, ror64c_eq rfl, ror64c_eq rfl, hones, Sha2.smallSigma1]

/-- The choice, bit by bit. -/
theorem ch_eq (x y z : UInt64) : ch x y z = Sha2.ch x y z := by
  have hbit : ∀ a b c : Bool, (c ^^ (a && (b ^^ c))) = ((a && b) ^^ (!a && c)) := by decide
  apply UInt64.eq_of_toBitVec_eq
  refine BitVec.eq_of_getLsbD_eq fun i hi => ?_
  simpa [ch, Sha2.ch, hi] using hbit _ _ _

/-- The majority, bit by bit. -/
theorem maj_eq (x y z : UInt64) : maj x y z = Sha2.maj x y z := by
  have hbit : ∀ a b c : Bool,
      ((a || b) && c || a && b) = ((a && b) ^^ (a && c) ^^ (b && c)) := by decide
  apply UInt64.eq_of_toBitVec_eq
  refine BitVec.eq_of_getLsbD_eq fun i hi => ?_
  simpa [maj, Sha2.maj] using hbit _ _ _

/-- A word is read with its most significant byte first. -/
theorem load64h_eq {p : List UInt8} {n : ℕ} (hp : n + 8 ≤ p.length) :
    load64h p n = Sha2.beWord ((p.drop n).take 8) := by
  have hones : ∀ b : UInt8, b &&& 255 = b := fun b => UInt8.and_neg_one
  rw [take_eight_drop hp, beWord_eight, load64h]
  simp only [hones]

/-- A word is written with its most significant byte first. -/
theorem store64h_eq (x : UInt64) : store64h x = Sha2.beBytes 8 x.toNat := by
  have hlow : ∀ y : UInt64, (y &&& 255).toUInt8 = y.toUInt8 := by
    intro y
    rw [UInt64.toUInt8_and]
    exact UInt8.and_neg_one
  have hzero : x >>> 0 = x := UInt64.shiftRight_zero
  rw [Sha2.beBytes_eq_map]
  simp only [store64h, hlow]
  conv_lhs => rw [← hzero]
  rfl

/-! ### The message schedule -/

/-- **The words of a block**, each appended to those before it. -/
theorem foldl_fillStep {M : List UInt64} (hM : M.length = 16) (n : ℕ) :
    (List.range' 16 n).foldl fillStep M = Sha2.extended M n := by
  induction n with
  | zero => rfl
  | succ n ih =>
      rw [List.range'_1_concat, List.foldl_append, ih, List.foldl_cons, List.foldl_nil, fillStep,
        Sha2.extended, Sha2.nextWord, Sha2.length_extended, hM]
      simp only [gamma0_eq, gamma1_eq, List.getElem!_eq_getElem?_getD, List.getD_eq_getElem?_getD]
      rfl

/-- The array `W` is the message schedule of the standard. -/
theorem schedule_eq {p : List UInt8} (hp : 128 ≤ p.length) :
    schedule p = Sha2.schedule (Sha2.blockWords (p.take 128)) := by
  have hload : (List.range 16).map (fun i => load64h p (8 * i)) =
      Sha2.blockWords (p.take 128) := by
    rw [Sha2.blockWords]
    refine List.map_congr_left fun i hi => ?_
    have hi16 := List.mem_range.mp hi
    rw [load64h_eq (by omega), List.drop_take, List.take_take, min_eq_left (by omega)]
  rw [schedule, hload, foldl_fillStep (Sha2.length_blockWords _), Sha2.schedule]

/-! ### Rounds -/

/-- The working variables in the registers, after `j` rounds since they had their own names. -/
def vars (S : Vector UInt64 8) (j : ℕ) : Sha2.Vars where
  a := S[(8 - j) % 8]!
  b := S[(9 - j) % 8]!
  c := S[(10 - j) % 8]!
  d := S[(11 - j) % 8]!
  e := S[(12 - j) % 8]!
  f := S[(13 - j) % 8]!
  g := S[(14 - j) % 8]!
  h := S[(15 - j) % 8]!

section Rounds

variable (W : List UInt64) (S : Vector UInt64 8)

/-- **A round**: two registers are written, and all are renamed. -/
theorem vars_rnd {j : ℕ} (hj : j < 8) (i : ℕ) :
    vars (rnd W S ((8 - j) % 8) ((9 - j) % 8) ((10 - j) % 8) ((11 - j) % 8) ((12 - j) % 8)
        ((13 - j) % 8) ((14 - j) % 8) ((15 - j) % 8) i) (j + 1) =
      Sha2.round sha512K[i]! W[i]! (vars S j) := by
  interval_cases j <;> simp [vars, rnd, Sha2.round, sigma0_eq, sigma1_eq, ch_eq, maj_eq]

/-- **Eight rounds**: the registers have their own names again. -/
theorem vars_eightRounds {M : List UInt64} (hW : ∀ t < 80, W[t]! = Sha2.word M t)
    (v : Sha2.Vars) {n : ℕ} (hn : n + 8 ≤ 80) (hS : vars S 0 = Sha2.rounds v M n) :
    vars (eightRounds W S n) 0 = Sha2.rounds v M (n + 8) := by
  have hround : ∀ (T : Vector UInt64 8) (j : ℕ), j < 8 → vars T j = Sha2.rounds v M (n + j) →
      vars (rnd W T ((8 - j) % 8) ((9 - j) % 8) ((10 - j) % 8) ((11 - j) % 8) ((12 - j) % 8)
        ((13 - j) % 8) ((14 - j) % 8) ((15 - j) % 8) (n + j)) (j + 1) =
          Sha2.rounds v M (n + (j + 1)) := by
    intro T j hj hT
    rw [vars_rnd W T hj, hT, sha512K_eq (by omega), hW _ (by omega), ← Sha2.rounds_succ,
      Nat.add_assoc]
  have h0 := hround _ 0 (by norm_num) hS
  have h1 := hround _ 1 (by norm_num) h0
  have h2 := hround _ 2 (by norm_num) h1
  have h3 := hround _ 3 (by norm_num) h2
  have h4 := hround _ 4 (by norm_num) h3
  have h5 := hround _ 5 (by norm_num) h4
  have h6 := hround _ 6 (by norm_num) h5
  exact hround _ 7 (by norm_num) h6

/-- The loop over the rounds. -/
theorem vars_foldl {M : List UInt64} (hW : ∀ t < 80, W[t]! = Sha2.word M t) {n : ℕ}
    (hn : n ≤ 10) : vars ((List.range n).foldl (fun S n => eightRounds W S (8 * n)) S) 0 =
      Sha2.rounds (.ofHash S) M (8 * n) := by
  induction n with
  | zero => rfl
  | succ n ih =>
      rw [List.range_succ, List.foldl_append, List.foldl_cons, List.foldl_nil]
      exact vars_eightRounds _ _ hW _ (by omega) (ih (by omega))

end Rounds

/-- **One block.** -/
theorem compress_eq (h : Vector UInt64 8) {p : List UInt8} (hp : 128 ≤ p.length) :
    compress h p = Sha2.compress h (p.take 128) := by
  set M := Sha2.blockWords (p.take 128)
  have hW : ∀ t < 80, (schedule p)[t]! = Sha2.word M t := by
    intro t _
    rw [schedule_eq hp, Sha2.word, List.getElem!_eq_getElem?_getD, List.getD_eq_getElem?_getD]
    rfl
  have hsum : ∀ S : Vector UInt64 8, vars S 0 = Sha2.rounds (.ofHash h) M 80 →
      (Vector.ofFn fun i => h[i.val]! + S[i.val]!) = Sha2.compress h (p.take 128) := by
    intro S hS
    refine Eq.trans ?_ (congrArg (fun v : Sha2.Vars => #v[v.a + h[0], v.b + h[1], v.c + h[2],
      v.d + h[3], v.e + h[4], v.f + h[5], v.g + h[6], v.h + h[7]]) hS)
    refine Vector.ext fun i hi => ?_
    rw [Vector.getElem_ofFn]
    interval_cases i <;> exact UInt64.add_comm _ _
  exact hsum _ (vars_foldl _ _ hW le_rfl)

/-! ### The loop over the bytes -/

/-- What a context holds of a message: the hash of its whole blocks, the bytes after them in
the buffer, and the number of bits of the blocks. -/
structure Holds (m : List UInt8) (md : Context) : Prop where
  length : md.length + md.curlen.toUInt64 * 8 = (8 * m.length).toUInt64
  absorbed : Absorbed 128 Sha2.compress Sha2.sha512Initial m md.state
    (md.buf.toList.take md.curlen)

/-- Nothing is absorbed at first, whatever the buffer holds. -/
theorem Holds.init (garbage : Vector UInt8 128) : Holds [] (init garbage) where
  length := rfl
  absorbed := by
    have hstate : (SeedHash.init garbage).state = Sha2.sha512Initial := by
      rw [Sha2.sha512Initial_eq]
      refine Vector.ext fun i hi => ?_
      rw [SeedHash.init, Vector.getElem_ofFn]
      interval_cases i <;> rfl
    rw [hstate]
    exact .nil 128 Sha2.compress Sha2.sha512Initial

section Loop

variable {m : List UInt8} {md : Context}

/-- The bits of one more piece of the message. -/
theorem bits_append (bytes : List UInt8) : (8 * (m ++ bytes).length).toUInt64 =
    (8 * m.length).toUInt64 + bytes.length.toUInt64 * 8 := by
  rw [List.length_append, Nat.mul_add, Nat.mul_comm 8 bytes.length]
  simp only [Nat.toUInt64_eq, UInt64.ofNat_add, UInt64.ofNat_mul]
  rfl

/-- Bytes are copied to the end of the buffer. -/
theorem Holds.fill (hm : Holds m md) (bytes : List UInt8)
    (hfit : md.curlen + bytes.length ≤ 128) : Holds (m ++ bytes) (fill md bytes hfit) where
  length := by
    have hlen : (md.curlen + bytes.length).toUInt64 =
        md.curlen.toUInt64 + bytes.length.toUInt64 := by
      simp only [Nat.toUInt64_eq, UInt64.ofNat_add]
    rw [bits_append, ← hm.length, SeedHash.fill]
    dsimp only
    rw [hlen, UInt64.add_mul, UInt64.add_assoc]
  absorbed := absorbed_write hm.absorbed bytes hfit

/-- A full buffer. -/
theorem absorbed_full {state : Vector UInt64 8} {buf : Vector UInt8 128} {k : ℕ} (hk : k = 128)
    (ha : Absorbed 128 Sha2.compress Sha2.sha512Initial m state (buf.toList.take k)) :
    Absorbed 128 Sha2.compress Sha2.sha512Initial m (compress state buf.toList) [] := by
  have hlen : buf.toList.length = 128 := Vector.length_toList
  rw [hk, List.take_of_length_le hlen.le] at ha
  have hblock := ha.take_block (by norm_num) hlen.ge
  rwa [← compress_eq _ hlen.ge, List.drop_of_length_le hlen.le] at hblock

/-- A full buffer is hashed, and is empty then. -/
theorem Holds.flush (hm : Holds m md) : Holds m (flush md) := by
  rw [SeedHash.flush]
  by_cases hfull : md.curlen = 128
  · rw [if_pos hfull]
    refine ⟨?_, absorbed_full hfull hm.absorbed⟩
    rw [← hm.length, hfull]
    exact UInt64.add_zero _
  · rw [if_neg hfull]
    exact hm

/-- A block of the message that is not copied. -/
theorem Holds.block (hm : Holds m md) (hzero : md.curlen = 0) {data : List UInt8}
    (hlen : 128 ≤ data.length) :
    Holds (m ++ data.take 128)
      { md with state := compress md.state data, length := md.length + 128 * 8 } := by
  have htake : (data.take 128).length = 128 := by
    rw [List.length_take]
    omega
  have hbits : md.length = (8 * m.length).toUInt64 := by
    rw [← hm.length, hzero]
    exact (UInt64.add_zero _).symm
  have hblock := hm.absorbed.append (data.take 128)
  rw [hzero, List.take_zero, List.nil_append] at hblock
  have hnext := hblock.take_block (by norm_num) htake.ge
  rw [List.take_of_length_le htake.le, List.drop_of_length_le htake.le,
    ← compress_eq _ hlen] at hnext
  constructor
  · change md.length + 128 * 8 + md.curlen.toUInt64 * 8 = _
    rw [bits_append, htake, ← hbits, hzero]
    exact UInt64.add_zero _
  · dsimp only
    rw [hzero]
    exact hnext

/-- **The loop** of `sha512_update`. -/
theorem Holds.update (hm : Holds m md) (data : List UInt8) :
    Holds (m ++ data) (update md data) := by
  induction md, data using update.induct generalizing m with
  | case1 md data hnil =>
      rw [SeedHash.update, if_pos hnil, List.eq_nil_of_length_eq_zero hnil, List.append_nil]
      exact hm
  | case2 md data hnil hblock ih =>
      have hnext := ih (hm.block hblock.1 hblock.2)
      rw [List.append_assoc, List.take_append_drop] at hnext
      rw [SeedHash.update, if_neg hnil, if_pos hblock]
      exact hnext
  | case3 md data hnil hblock ih =>
      have hnext := ih (hm.fill _ (take_fits md data)).flush
      rw [List.append_assoc, List.take_append_drop] at hnext
      rw [SeedHash.update, if_neg hnil, if_neg hblock]
      exact hnext

/-- The buffer is never left full. -/
theorem update_curlen_lt (hlt : md.curlen < 128) (data : List UInt8) :
    (update md data).curlen < 128 := by
  induction md, data using update.induct with
  | case1 md data hnil =>
      rw [update, if_pos hnil]
      exact hlt
  | case2 md data hnil hblock ih =>
      rw [update, if_neg hnil, if_pos hblock]
      exact ih hlt
  | case3 md data hnil hblock ih =>
      rw [update, if_neg hnil, if_neg hblock]
      exact ih (flush_curlen_lt _)

/-- The byte `0x80`, and the zeros that complete a block without room for the length. -/
theorem Holds.mark (hm : Holds m md) (hlt : md.curlen < 128) :
    ∃ z : ℕ, (mark md).2.2 ≤ 112 ∧ z + (112 - (mark md).2.2) = Sha2.zeros m.length ∧
      Absorbed 128 Sha2.compress Sha2.sha512Initial (m ++ 0x80 :: List.replicate z 0)
        (mark md).1 ((mark md).2.1.toList.take (mark md).2.2) := by
  have hrest : (md.buf.toList.take md.curlen).length = md.curlen := by
    rw [List.length_take, Vector.length_toList]
    omega
  have hmod : m.length % 128 = md.curlen := by
    have h := hm.absorbed.length_mod (by omega)
    rwa [hrest] at h
  have hmark := absorbed_write hm.absorbed [0x80] (by rw [List.length_singleton]; omega)
  rw [List.length_singleton] at hmark
  rw [SeedHash.mark]
  dsimp only
  by_cases hfull : md.curlen + 1 > 112
  · rw [if_pos hfull]
    dsimp only
    refine ⟨128 - (md.curlen + 1), Nat.zero_le _, by rw [Sha2.zeros]; omega, ?_⟩
    have hfill := absorbed_write hmark (List.replicate (128 - (md.curlen + 1)) 0)
      (by rw [List.length_replicate]; omega)
    rw [List.append_assoc, List.singleton_append] at hfill
    exact absorbed_full (by rw [List.length_replicate]; omega) hfill
  · rw [if_neg hfull]
    dsimp only
    exact ⟨0, by omega, by rw [Sha2.zeros]; omega, hmark⟩

/-- **The end of the message**: the result is the hash of the message with its padding. -/
theorem Holds.final (hm : Holds m md) (hlt : md.curlen < 128) (hlen : m.length < 2 ^ 61) :
    final md = some (Sha2.sha512 m) := by
  obtain ⟨z, hk, hz, hmark⟩ := hm.mark hlt
  rw [SeedHash.final, if_neg (Nat.not_le.mpr hlt)]
  dsimp only
  generalize SeedHash.mark md = r at hk hz hmark ⊢
  obtain ⟨state, buf, k⟩ := r
  dsimp only at hk hz hmark ⊢
  have hbits : Sha2.beBytes 16 (8 * m.length) =
      List.replicate 8 (0 : UInt8) ++ store64h (md.length + md.curlen.toUInt64 * 8) := by
    have hlow : (8 * m.length).toUInt64.toNat = 8 * m.length := by
      rw [Nat.toUInt64_eq, UInt64.toNat_ofNat']
      omega
    have hhigh : 8 * m.length / 256 ^ 8 = 0 := Nat.div_eq_of_lt (by omega)
    rw [hm.length, store64h_eq, hlow, Sha2.beBytes_add 8 8, hhigh]
    rfl
  have hzeros : 120 - k = 112 - k + 8 := by omega
  have hpad : m ++ 0x80 :: List.replicate z 0 ++ List.replicate (120 - k) 0 ++
      store64h (md.length + md.curlen.toUInt64 * 8) = Sha2.pad m := by
    rw [Sha2.pad, hbits, ← hz, hzeros, List.replicate_add, List.replicate_add, List.append_assoc,
      List.append_assoc, List.append_assoc, List.append_assoc, List.cons_append, List.cons_append,
      List.append_assoc]
  have hfill := absorbed_write hmark (List.replicate (120 - k) 0)
    (by rw [List.length_replicate]; omega)
  rw [List.length_replicate, Nat.add_sub_cancel' (by omega)] at hfill
  have hlast := absorbed_write hfill (store64h (md.length + md.curlen.toUInt64 * 8))
    (by simp [store64h])
  rw [hpad] at hlast
  have hhash := (absorbed_full rfl hlast).eq_absorb
  rw [Sha2.sha512, Sha2.hash, ← hhash]
  generalize compress state _ = H
  refine congrArg some (Vector.ext fun i hi => ?_)
  rw [Vector.getElem_ofFn, Vector.getElem_ofFn, store64h_eq]

end Loop

/-- The calls of `sha512_update` for the parts of a message. -/
theorem Holds.foldl (garbage : Vector UInt8 128) (chunks : List (List UInt8)) :
    Holds chunks.flatten (chunks.foldl SeedHash.update (SeedHash.init garbage)) ∧
      (chunks.foldl SeedHash.update (SeedHash.init garbage)).curlen < 128 := by
  induction chunks using List.reverseRecOn with
  | nil => exact ⟨.init garbage, Nat.zero_lt_succ 127⟩
  | append_singleton chunks data ih =>
      rw [List.foldl_append, List.foldl_cons, List.foldl_nil, List.flatten_append,
        List.flatten_singleton]
      exact ⟨ih.1.update data, update_curlen_lt ih.2 data⟩

/-- **The vendored hash is SHA-512** of the parts put together, for every content of the buffer
before the first call, if they have less than `2 ^ 61` bytes. -/
theorem sha512_streaming (garbage : Vector UInt8 128) (chunks : List (List UInt8))
    (hlen : chunks.flatten.length < 2 ^ 61) :
    final (chunks.foldl update (init garbage)) = some (Sha2.sha512 chunks.flatten) :=
  (Holds.foldl garbage chunks).1.final (Holds.foldl garbage chunks).2 hlen

/-- The message `abc`, with an empty part in the middle. -/
theorem sha512_streaming_abc :
    final ([[0x61], [], [0x62, 0x63]].foldl update (init (Vector.replicate 128 0))) =
      some (Sha2.sha512 [0x61, 0x62, 0x63]) :=
  sha512_streaming (Vector.replicate 128 0) [[0x61], [], [0x62, 0x63]] (by decide)

/-- A message in one part. -/
theorem sha512_eq (garbage : Vector UInt8 128) {m : List UInt8} (hlen : m.length < 2 ^ 61) :
    sha512 garbage m = some (Sha2.sha512 m) :=
  ((Holds.init garbage).update m).final (update_curlen_lt (Nat.zero_lt_succ 127) m) hlen

end SeedHash

/-! ### Keys of seeds -/

open Field25519 Finset

/-- A number with its three lowest bits and those from bit 255 on cleared, and with bit 254
set. -/
def clamp (n : ℕ) : ℕ := 2 ^ 254 + 8 * (n / 8 % 2 ^ 251)

/-- The number that the first half of the hash of a seed stands for. -/
def seedNumber (seed : Bytes32) : ℕ :=
  ∑ i ∈ range 32, (Sha2.sha512 seed.toList)[i]!.toNat * 256 ^ i

/-- The vendored code, for a table of points. What a call of `sha512` finds in its buffer and,
if it failed, would leave in `out` is arbitrary. -/
def vendored (buf : Vector UInt8 128) (out : Vector UInt8 64) (base : ℕ → ℕ → GePrecomp) :
    Vendored where
  toFieldCode := vendoredField
  base := base
  sha512 m := (SeedHash.sha512 buf m).getD out

/-- The vendored hash of a seed is that of the standard: its length does not overflow. -/
theorem vendored_sha512 (buf : Vector UInt8 128) (out : Vector UInt8 64)
    (base : ℕ → ℕ → GePrecomp) (seed : Bytes32) :
    (vendored buf out base).sha512 seed.toList = Sha2.sha512 seed.toList := by
  have hlen : seed.toList.length < 2 ^ 61 := by
    rw [Vector.length_toList]
    norm_num
  change (SeedHash.sha512 buf seed.toList).getD out = _
  rw [SeedHash.sha512_eq buf hlen]
  rfl

/-- A number of `n` bytes. -/
theorem sum_bytes_lt (b : ℕ → UInt8) (n : ℕ) :
    ∑ i ∈ range n, (b i).toNat * 256 ^ i < 256 ^ n := by
  induction n with
  | zero => exact Nat.one_pos
  | succ n ih =>
      have hb := (b n).toNat_lt
      rw [sum_range_succ, pow_succ]
      nlinarith [Nat.mul_le_mul_right (256 ^ n) (Nat.le_of_lt_succ hb)]

/-- The lowest byte, those in the middle and the highest one. -/
theorem sum_bytes_split (b : ℕ → UInt8) : ∑ i ∈ range 32, (b i).toNat * 256 ^ i =
    (b 0).toNat + 256 * ∑ i ∈ range 30, (b (i + 1)).toNat * 256 ^ i +
      (b 31).toNat * 256 ^ 31 := by
  have hmid : ∑ i ∈ range 30, (b (i + 1)).toNat * 256 ^ (i + 1) =
      256 * ∑ i ∈ range 30, (b (i + 1)).toNat * 256 ^ i := by
    rw [mul_sum]
    exact sum_congr rfl fun i _ => by rw [pow_succ]; ring
  rw [sum_range_succ, sum_range_succ', hmid, pow_zero, mul_one, Nat.add_comm (b 0).toNat]

/-- The bytes of a scalar: those of the hash, except for the first and the last one. -/
theorem edSeedToScalar_getElem (V : Vendored) (seed : Bytes32) {i : ℕ} (hi : i < 32) :
    (edSeedToScalar V seed)[i]! =
      if i = 31 then (V.sha512 seed.toList)[31]! &&& 63 ||| 64
      else if i = 0 then (V.sha512 seed.toList)[0]! &&& 248
      else (V.sha512 seed.toList)[i]! := by
  set H := V.sha512 seed.toList with hH
  have hcopy : ∀ j < 32, (Vector.ofFn fun i : Fin 32 => H[i.val]!)[j]! = H[j]! := by
    intro j hj
    rw [getElem!_pos _ j hj, Vector.getElem_ofFn]
  have h31 : 31 < 32 := by norm_num
  simp only [edSeedToScalar, ← hH, Words.getElem!_set! _ hi, Words.getElem!_set! _ h31, hcopy i hi,
    hcopy 31 h31, hcopy 0 (by norm_num)]
  by_cases hlast : i = 31
  · rw [if_pos hlast.symm, if_pos hlast]
    rfl
  · rw [if_neg (Ne.symm hlast), if_neg (Ne.symm hlast), if_neg hlast]
    simp only [eq_comm]

/-- **The scalar of a seed** is the clamped half of its hash. -/
theorem scalar_edSeedToScalar {V : Vendored} {seed : Bytes32}
    (hV : V.sha512 seed.toList = Sha2.sha512 seed.toList) :
    scalar (edSeedToScalar V seed) = clamp (seedNumber seed) := by
  have hlow : ∀ u : UInt8, (u &&& 248).toNat = 8 * (u.toNat / 8) :=
    Words.forall_byte (by decide +kernel)
  have hhigh : ∀ u : UInt8, (u &&& 63 ||| 64).toNat = u.toNat % 64 + 64 :=
    Words.forall_byte (by decide +kernel)
  have hbyte := fun i => edSeedToScalar_getElem V seed (i := i)
  rw [hV] at hbyte
  rw [seedNumber]
  generalize Sha2.sha512 seed.toList = H at hbyte ⊢
  have hmid : ∑ i ∈ range 30, ((edSeedToScalar V seed)[i + 1]!).toNat * 256 ^ i =
      ∑ i ∈ range 30, (H[i + 1]!).toNat * 256 ^ i := by
    refine sum_congr rfl fun i hi => ?_
    have hi30 := mem_range.mp hi
    rw [hbyte (i + 1) (by omega), if_neg (by omega), if_neg (by omega)]
  have hlt := sum_bytes_lt (fun i => H[i + 1]!) 30
  have hfirst := H[0]!.toNat_lt
  rw [scalar, sum_bytes_split (fun i => (edSeedToScalar V seed)[i]!), hmid, hbyte 0 (by norm_num),
    hbyte 31 (by norm_num), sum_bytes_split (fun i => H[i]!), clamp, if_pos rfl,
    if_neg (by norm_num), if_pos rfl, hlow, hhigh]
  -- what is left is about the middle and the two bytes
  generalize ∑ i ∈ range 30, (H[i + 1]!).toNat * 256 ^ i = mid at hlt ⊢
  generalize H[0]!.toNat = first at hfirst ⊢
  generalize H[31]!.toNat = last
  norm_num at hlt hfirst ⊢
  omega

section Keys

variable {G : Type*} [AddCommGroup G] {d : ZMod q}

/-- **The keys of seeds.** With a table of the multiples of the base point, the key of each seed
of a batch is the multiple by the clamped half of its SHA-512 hash, encoded. -/
theorem edPubkeysBatch_ed25519 (E : EdwardsGroup (ZMod q) G d) (B : G) (buf : Vector UInt8 128)
    (out : Vector UInt8 64) {base : ℕ → ℕ → GePrecomp}
    (hbase : ∀ pos < 32, ∀ j < 8, DuifForm E (base pos j) (((j + 1) * 256 ^ pos) • B))
    (garbage : BatchArrays) (seeds pks : Vector Bytes32 8) {nk : ℕ} (hlo : 1 ≤ nk)
    (hhi : nk ≤ 8) :
    ∀ k < nk,
      let g := clamp (seedNumber seeds[k]!) • B
      (edPubkeysBatch (vendored buf out base) garbage seeds nk pks)[k]! =
        Vector.ofFn fun j : Fin 32 => byteAt ((E.y g).val + 2 ^ 255 * ((E.x g).val % 2)) j := by
  intro k hk g
  have hkey := edPubkeysBatch_encodes (V := vendored buf out base) E B rfl hbase garbage seeds pks
    hlo hhi k hk
  rwa [scalar_edSeedToScalar (vendored_sha512 buf out base _)] at hkey

/-- A batch of three seeds, in a group of three points. The key of the first seed encodes the
inverse of the base point. -/
theorem edPubkeysBatch_ed25519_threes :
    let E := EdwardsGroup.threes (EdwardsGroup.orderThree_quarters thirty_ne_zero_of_field)
    let base : ℕ → ℕ → GePrecomp := (exactVendored E 1).base
    let V := vendored (Vector.replicate 128 0) (Vector.replicate 64 0) base
    let seeds : Vector Bytes32 8 := Vector.ofFn fun i => Vector.replicate 32 i.val.toUInt8
    let pks : Vector Bytes32 8 := Vector.replicate 8 (Vector.replicate 32 0)
    let garbage : BatchArrays := { P := Vector.replicate 8 geP30, acc := Vector.replicate 8 fe0 }
    clamp (seedNumber seeds[0]!) • (1 : ZMod 3) = -1 ∧
      ∀ k < 3,
        let g := clamp (seedNumber seeds[k]!) • (1 : ZMod 3)
        (edPubkeysBatch V garbage seeds 3 pks)[k]! =
          Vector.ofFn fun j : Fin 32 =>
            byteAt ((E.y g).val + 2 ^ 255 * ((E.x g).val % 2)) j := by
  intro E base V seeds pks garbage
  refine ⟨?_, edPubkeysBatch_ed25519 E 1 _ _ (fun pos _ j _ => duifOf_duifForm E _) garbage seeds
    pks (by norm_num) (by norm_num)⟩
  have hseed : seeds[0]!.toList = List.replicate 32 0 := by decide
  have hclamp : clamp (seedNumber seeds[0]!) % 3 = 2 := by
    rw [seedNumber, hseed, sha512_zeros]
    decide +kernel
  rw [nsmul_eq_mul, mul_one, ← ZMod.natCast_mod, hclamp]
  rfl

end Keys

end FalconVanity
