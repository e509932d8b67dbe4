import Mathlib.Tactic

/-!
# Two Keccak Permutations

The device permutation `keccakf` is the textbook one: 24 times theta, rho, pi, chi, iota.
The reference permutation `processBlock` keeps six lanes complemented, which saves
complementations in chi, and leaves the lanes in place in pi, so that two rounds with
different lane numbers make up one iteration; the lanes move once at its end.

The connection is a data representation: `laidOut` takes the state of the device to the
state of the reference, by a layout and a set of complemented lanes. Each stage of the
reference is the stage of the device under the representation it starts and ends in.

## Main results

* `blockRound₁_laidOut`, `blockRound₂_laidOut`: one round of the reference is one round of
  the device.
* `processBlock_eq_keccakf`: the two permutations are equal.
-/

namespace FalconVanity

/-- The 25 lanes of a Keccak state. -/
abbrev Lanes := Vector UInt64 25

/-- The numbers of the lanes. -/
def laneIndices : Vector ℕ 25 :=
  #v[0, 1, 2, 3, 4, 5, 6, 7, 8, 9, 10, 11, 12, 13, 14, 15, 16, 17, 18, 19, 20, 21, 22, 23, 24]

/-- `rotl64`: left rotation by `n` bits, for `n` between 1 and 63. -/
def rotl64 (x n : UInt64) : UInt64 :=
  x <<< n ||| x >>> (64 - n)

/-- `KECCAK_RC` and `RC`: the round constants, which are the same in both sources. -/
def keccakRC : Vector UInt64 24 :=
  #v[0x0000000000000001, 0x0000000000008082, 0x800000000000808A, 0x8000000080008000,
    0x000000000000808B, 0x0000000080000001, 0x8000000080008081, 0x8000000000008009,
    0x000000000000008A, 0x0000000000000088, 0x0000000080008009, 0x000000008000000A,
    0x000000008000808B, 0x800000000000008B, 0x8000000000008089, 0x8000000000008003,
    0x8000000000008002, 0x8000000000000080, 0x000000000000800A, 0x800000008000000A,
    0x8000000080008081, 0x8000000000008080, 0x0000000080000001, 0x8000000080008008]

/-! ### The device permutation -/

/-- The word `bc[i]` of the theta step: the parity of a column. -/
def keccakParity (st : Lanes) (i : ℕ) : UInt64 :=
  st[i]! ^^^ st[i + 5]! ^^^ st[i + 10]! ^^^ st[i + 15]! ^^^ st[i + 20]!

/-- The theta step of `keccakf`: the word `t` of a column is added to its lanes. -/
def keccakTheta (st : Lanes) : Lanes :=
  laneIndices.map fun k =>
    let i := k % 5
    st[k]! ^^^ (keccakParity st ((i + 4) % 5) ^^^ rotl64 (keccakParity st ((i + 1) % 5)) 1)

/-- `ROTC`: the amounts of the rotations, in the order of the walk over the lanes. -/
def rotc : List UInt64 :=
  [1, 3, 6, 10, 15, 21, 28, 36, 45, 55, 2, 14, 27, 41, 56, 8, 25, 43, 62, 18, 39, 61, 20, 44]

/-- `PILN`: the lanes in the order of that walk. -/
def piln : List ℕ :=
  [10, 7, 11, 17, 18, 3, 5, 16, 8, 21, 24, 4, 15, 23, 19, 13, 12, 2, 20, 14, 22, 9, 6, 1]

/-- The rho and pi steps of `keccakf`, which push one lane out after the other. -/
def keccakRhoPi (st : Lanes) : Lanes :=
  ((piln.zip rotc).foldl
    (fun (st, t) (p, r) => (st.set! p (rotl64 t r), st[p]!)) (st, st[1])).1

/-- The chi step of `keccakf`, row by row. -/
def keccakChi (st : Lanes) : Lanes :=
  laneIndices.map fun k =>
    let j := 5 * (k / 5)
    st[k]! ^^^ (~~~st[j + (k + 1) % 5]! &&& st[j + (k + 2) % 5]!)

/-- The iota step, in both permutations. -/
def keccakIota (st : Lanes) (rc : UInt64) : Lanes :=
  st.set 0 (st[0] ^^^ rc)

/-- One round of `keccakf`. -/
def keccakRound (st : Lanes) (rc : UInt64) : Lanes :=
  keccakIota (keccakChi (keccakRhoPi (keccakTheta st))) rc

/-- `keccakf`: the permutation, by the loop over its 24 rounds. -/
def keccakf (st : Lanes) : Lanes :=
  keccakRC.toList.foldl keccakRound st

/-! ### The reference permutation

The statements of `process_block` assign to each lane once in each of the stages below, so
a stage is the list of what it assigns, lane by lane. -/

/-- The words `t0` to `t4` of `process_block`: the rotated parity of one column, with the
parity of another. -/
def thetaWord (a b c d e a' b' c' d' e' : UInt64) : UInt64 :=
  rotl64 (a ^^^ b ^^^ (e ^^^ (c ^^^ d))) 1 ^^^ e' ^^^ (a' ^^^ b' ^^^ (c' ^^^ d'))

/-- The words `t0` to `t4` of the first round of an iteration, added to their columns. -/
def blockTheta₁ (A : Lanes) : Lanes :=
  let t0 := thetaWord A[1] A[6] A[11] A[16] A[21] A[4] A[9] A[14] A[19] A[24]
  let t1 := thetaWord A[2] A[7] A[12] A[17] A[22] A[0] A[5] A[10] A[15] A[20]
  let t2 := thetaWord A[3] A[8] A[13] A[18] A[23] A[1] A[6] A[11] A[16] A[21]
  let t3 := thetaWord A[4] A[9] A[14] A[19] A[24] A[2] A[7] A[12] A[17] A[22]
  let t4 := thetaWord A[0] A[5] A[10] A[15] A[20] A[3] A[8] A[13] A[18] A[23]
  #v[A[0] ^^^ t0, A[1] ^^^ t1, A[2] ^^^ t2, A[3] ^^^ t3, A[4] ^^^ t4, A[5] ^^^ t0,
    A[6] ^^^ t1, A[7] ^^^ t2, A[8] ^^^ t3, A[9] ^^^ t4, A[10] ^^^ t0, A[11] ^^^ t1,
    A[12] ^^^ t2, A[13] ^^^ t3, A[14] ^^^ t4, A[15] ^^^ t0, A[16] ^^^ t1, A[17] ^^^ t2,
    A[18] ^^^ t3, A[19] ^^^ t4, A[20] ^^^ t0, A[21] ^^^ t1, A[22] ^^^ t2, A[23] ^^^ t3,
    A[24] ^^^ t4]

/-- The rotations of the first round, which leave every lane in its place. -/
def blockRotate₁ (A : Lanes) : Lanes :=
  #v[A[0], rotl64 A[1] 1, rotl64 A[2] 62, rotl64 A[3] 28, rotl64 A[4] 27, rotl64 A[5] 36,
    rotl64 A[6] 44, rotl64 A[7] 6, rotl64 A[8] 55, rotl64 A[9] 20, rotl64 A[10] 3,
    rotl64 A[11] 10, rotl64 A[12] 43, rotl64 A[13] 25, rotl64 A[14] 39, rotl64 A[15] 41,
    rotl64 A[16] 45, rotl64 A[17] 15, rotl64 A[18] 21, rotl64 A[19] 8, rotl64 A[20] 18,
    rotl64 A[21] 2, rotl64 A[22] 61, rotl64 A[23] 56, rotl64 A[24] 14]

/-- The five groups `c0` to `c4` of the first round. -/
def blockChi₁ (A : Lanes) : Lanes :=
  #v[A[0] ^^^ (A[6] ||| A[12]), A[1] ^^^ (A[7] ||| A[13]), A[2] ^^^ (~~~A[8] &&& A[14]),
    A[3] ^^^ (A[9] ||| A[10]), A[4] ^^^ (A[5] &&& A[11]), A[5] ^^^ (A[11] ||| A[17]),
    A[6] ^^^ (~~~A[12] ||| A[18]), A[7] ^^^ (A[13] &&& A[19]),
    ~~~A[8] ^^^ (A[14] ||| A[15]), A[9] ^^^ (A[10] &&& A[16]),
    A[10] ^^^ (A[16] ||| ~~~A[22]), A[11] ^^^ (~~~A[17] ||| A[23]),
    A[12] ^^^ (A[18] &&& A[24]), A[13] ^^^ (~~~A[19] &&& A[20]),
    A[14] ^^^ (A[15] &&& A[21]), A[15] ^^^ (A[21] ||| A[2]), A[16] ^^^ (A[22] ||| A[3]),
    ~~~A[17] ^^^ (A[23] &&& A[4]), A[18] ^^^ (A[24] ||| A[0]),
    ~~~A[19] ^^^ (A[20] ||| A[1]), A[20] ^^^ (A[1] &&& A[7]), A[21] ^^^ (A[2] &&& A[8]),
    A[22] ^^^ (A[3] &&& A[9]), A[23] ^^^ (A[4] ||| A[5]), A[24] ^^^ (A[0] &&& A[6])]

/-- The words `t0` to `t4` of the second round of an iteration, added to their columns. -/
def blockTheta₂ (A : Lanes) : Lanes :=
  let t0 := thetaWord A[6] A[9] A[7] A[5] A[8] A[24] A[22] A[20] A[23] A[21]
  let t1 := thetaWord A[12] A[10] A[13] A[11] A[14] A[0] A[3] A[1] A[4] A[2]
  let t2 := thetaWord A[18] A[16] A[19] A[17] A[15] A[6] A[9] A[7] A[5] A[8]
  let t3 := thetaWord A[24] A[22] A[20] A[23] A[21] A[12] A[10] A[13] A[11] A[14]
  let t4 := thetaWord A[0] A[3] A[1] A[4] A[2] A[18] A[16] A[19] A[17] A[15]
  #v[A[0] ^^^ t0, A[1] ^^^ t0, A[2] ^^^ t0, A[3] ^^^ t0, A[4] ^^^ t0, A[5] ^^^ t1,
    A[6] ^^^ t1, A[7] ^^^ t1, A[8] ^^^ t1, A[9] ^^^ t1, A[10] ^^^ t2, A[11] ^^^ t2,
    A[12] ^^^ t2, A[13] ^^^ t2, A[14] ^^^ t2, A[15] ^^^ t3, A[16] ^^^ t3, A[17] ^^^ t3,
    A[18] ^^^ t3, A[19] ^^^ t3, A[20] ^^^ t4, A[21] ^^^ t4, A[22] ^^^ t4, A[23] ^^^ t4,
    A[24] ^^^ t4]

/-- The rotations of the second round. -/
def blockRotate₂ (A : Lanes) : Lanes :=
  #v[A[0], rotl64 A[1] 3, rotl64 A[2] 18, rotl64 A[3] 36, rotl64 A[4] 41, rotl64 A[5] 45,
    rotl64 A[6] 1, rotl64 A[7] 10, rotl64 A[8] 2, rotl64 A[9] 44, rotl64 A[10] 6,
    rotl64 A[11] 15, rotl64 A[12] 62, rotl64 A[13] 43, rotl64 A[14] 61, rotl64 A[15] 56,
    rotl64 A[16] 55, rotl64 A[17] 21, rotl64 A[18] 28, rotl64 A[19] 25, rotl64 A[20] 39,
    rotl64 A[21] 14, rotl64 A[22] 20, rotl64 A[23] 8, rotl64 A[24] 27]

/-- The five groups `c0` to `c4` of the second round. -/
def blockChi₂ (A : Lanes) : Lanes :=
  #v[A[0] ^^^ (A[9] ||| A[13]), A[1] ^^^ (A[5] ||| ~~~A[14]), A[2] ^^^ (A[6] &&& A[10]),
    A[3] ^^^ (A[7] ||| A[11]), A[4] ^^^ (A[8] ||| A[12]), A[5] ^^^ (A[14] ||| A[18]),
    A[6] ^^^ (A[10] ||| A[19]), A[7] ^^^ (~~~A[11] ||| A[15]), A[8] ^^^ (A[12] &&& A[16]),
    A[9] ^^^ (~~~A[13] ||| A[17]), A[10] ^^^ (A[19] &&& A[23]),
    ~~~A[11] ^^^ (A[15] &&& A[24]), A[12] ^^^ (~~~A[16] &&& A[20]),
    A[13] ^^^ (A[17] &&& A[21]), A[14] ^^^ (A[18] &&& A[22]), A[15] ^^^ (A[24] ||| A[3]),
    ~~~A[16] ^^^ (A[20] ||| A[4]), A[17] ^^^ (A[21] ||| A[0]), A[18] ^^^ (A[22] ||| A[1]),
    A[19] ^^^ (~~~A[23] &&& A[2]), A[20] ^^^ (A[4] &&& A[8]), A[21] ^^^ (A[0] &&& A[9]),
    A[22] ^^^ (A[1] &&& A[5]), ~~~A[23] ^^^ (A[2] ||| A[6]), A[24] ^^^ (A[3] &&& A[7])]

/-- The two cycles of moves that end an iteration. -/
def blockMove (A : Lanes) : Lanes :=
  #v[A[0], A[9], A[13], A[17], A[21], A[18], A[22], A[1], A[5], A[14], A[6], A[10], A[19],
    A[23], A[2], A[24], A[3], A[7], A[11], A[15], A[12], A[16], A[20], A[4], A[8]]

/-- The complementations before the first and after the last iteration. -/
def blockInvert (A : Lanes) : Lanes :=
  #v[A[0], ~~~A[1], ~~~A[2], A[3], A[4], A[5], A[6], A[7], ~~~A[8], A[9], A[10], A[11],
    ~~~A[12], A[13], A[14], A[15], A[16], ~~~A[17], A[18], A[19], ~~~A[20], A[21], A[22],
    A[23], A[24]]

/-- The first round of an iteration. -/
def blockRound₁ (A : Lanes) (rc : UInt64) : Lanes :=
  keccakIota (blockChi₁ (blockRotate₁ (blockTheta₁ A))) rc

/-- The second round of an iteration. -/
def blockRound₂ (A : Lanes) (rc : UInt64) : Lanes :=
  keccakIota (blockChi₂ (blockRotate₂ (blockTheta₂ A))) rc

/-- The iterations of `process_block`, two rounds each. -/
def blockRounds (A : Lanes) : List UInt64 → Lanes
  | rc₀ :: rc₁ :: rcs => blockRounds (blockMove (blockRound₂ (blockRound₁ A rc₀) rc₁)) rcs
  | _ => A

/-- `process_block`: the permutation of the vendored code, which unrolls two rounds and keeps some
lanes complemented. -/
def processBlock (A : Lanes) : Lanes :=
  blockInvert (blockRounds (blockInvert A) keccakRC.toList)

/-! ### The representation -/

/-- The reference state that represents `D`: position `i` holds lane `src[i]`, complemented
if that lane is one of `inv`. -/
def laidOut (src : Vector ℕ 25) (inv : List ℕ) (D : Lanes) : Lanes :=
  src.map fun d => if d ∈ inv then ~~~D[d]! else D[d]!

/-- The layout before an iteration, after its first round, and after its second one. -/
def layout₀ : Vector ℕ 25 := laneIndices

@[inherit_doc layout₀]
def layout₁ : Vector ℕ 25 :=
  #v[0, 10, 20, 5, 15, 16, 1, 11, 21, 6, 7, 17, 2, 12, 22, 23, 8, 18, 3, 13, 14, 24, 9, 19, 4]

@[inherit_doc layout₀]
def layout₂ : Vector ℕ 25 :=
  #v[0, 7, 14, 16, 23, 8, 10, 17, 24, 1, 11, 18, 20, 2, 9, 19, 21, 3, 5, 12, 22, 4, 6, 13, 15]

/-- The complemented lanes between rounds, after theta, and after rho and pi. -/
def inverted : List ℕ := [1, 2, 8, 12, 17, 20]

@[inherit_doc inverted]
def invertedTheta : List ℕ := [0, 1, 2, 3, 5, 10, 12, 13, 15, 17, 18, 23]

@[inherit_doc inverted]
def invertedRhoPi : List ℕ := [0, 2, 3, 5, 7, 10, 12, 16, 18, 19, 20, 23]

/-- A state is the list of its lanes. -/
theorem exists_lanes (D : Lanes) : ∃ d₀ d₁ d₂ d₃ d₄ d₅ d₆ d₇ d₈ d₉ d₁₀ d₁₁ d₁₂ d₁₃ d₁₄ d₁₅ d₁₆
    d₁₇ d₁₈ d₁₉ d₂₀ d₂₁ d₂₂ d₂₃ d₂₄, D = #v[d₀, d₁, d₂, d₃, d₄, d₅, d₆, d₇, d₈, d₉, d₁₀, d₁₁,
      d₁₂, d₁₃, d₁₄, d₁₅, d₁₆, d₁₇, d₁₈, d₁₉, d₂₀, d₂₁, d₂₂, d₂₃, d₂₄] := by
  refine ⟨D[0], D[1], D[2], D[3], D[4], D[5], D[6], D[7], D[8], D[9], D[10], D[11], D[12],
    D[13], D[14], D[15], D[16], D[17], D[18], D[19], D[20], D[21], D[22], D[23], D[24],
    Vector.ext fun i hi => ?_⟩
  interval_cases i <;> rfl

/-- The bits of a rotated word. -/
theorem getLsbD_rotl64 (x n : UInt64) (hn : 0 < n.toNat) (hn' : n.toNat < 64) {i : ℕ}
    (hi : i < 64) :
    (rotl64 x n).toBitVec.getLsbD i = x.toBitVec.getLsbD ((i + 64 - n.toNat) % 64) := by
  have hsub : (64 - n).toNat = 64 - n.toNat := by
    rw [UInt64.toNat_sub_of_le]
    · rfl
    · rw [UInt64.le_iff_toNat_le]; exact hn'.le
  have hn₁ : (n.toBitVec % 64).toNat = n.toNat := by
    rw [BitVec.toNat_umod]
    exact Nat.mod_eq_of_lt hn'
  have hn₂ : ((64 - n).toBitVec % 64).toNat = 64 - n.toNat := by
    rw [BitVec.toNat_umod]
    refine (Nat.mod_eq_of_lt ?_).trans hsub
    exact hsub.trans_lt (by simp; omega)
  rw [rotl64]
  simp only [UInt64.toBitVec_or, UInt64.toBitVec_shiftLeft, UInt64.toBitVec_shiftRight,
    BitVec.getLsbD_or, BitVec.shiftLeft_eq', BitVec.ushiftRight_eq', hn₁, hn₂,
    BitVec.getLsbD_shiftLeft, BitVec.getLsbD_ushiftRight]
  by_cases h : i < n.toNat
  · have hi' : (i + 64 - n.toNat) % 64 = 64 - n.toNat + i := by omega
    simp [h, hi']
  · have hi' : (i + 64 - n.toNat) % 64 = i - n.toNat := by omega
    have hge : x.toBitVec.getLsbD (64 - n.toNat + i) = false :=
      BitVec.getLsbD_of_ge _ _ (by omega)
    simp [h, hi, hi', hge]

/-- Complementing a word complements its rotation. -/
theorem rotl64_not (x n : UInt64) (hn : 0 < n.toNat) (hn' : n.toNat < 64) :
    rotl64 (~~~x) n = ~~~rotl64 x n := by
  apply UInt64.toBitVec_inj.mp
  refine BitVec.eq_of_getLsbD_eq fun i hi => ?_
  rw [getLsbD_rotl64 _ _ hn hn' hi, UInt64.toBitVec_not, UInt64.toBitVec_not,
    BitVec.getLsbD_not, BitVec.getLsbD_not, getLsbD_rotl64 _ _ hn hn' hi]
  simp [hi, Nat.mod_lt]

/-- The word of `process_block` is the word of the textbook theta step. -/
theorem thetaWord_eq (a b c d e a' b' c' d' e' : UInt64) :
    thetaWord a b c d e a' b' c' d' e' =
      a' ^^^ b' ^^^ c' ^^^ d' ^^^ e' ^^^ rotl64 (a ^^^ b ^^^ c ^^^ d ^^^ e) 1 := by
  have h : a ^^^ b ^^^ (e ^^^ (c ^^^ d)) = a ^^^ b ^^^ c ^^^ d ^^^ e := by ac_rfl
  rw [thetaWord, h]
  ac_rfl

/-- A disjunction, by the complements of both sides. -/
theorem or_eq_not (a b : UInt64) : a ||| b = ~~~(~~~a &&& ~~~b) := by
  apply UInt64.toBitVec_inj.mp
  ext i hi
  simp

/-! ### Stage by stage -/

/-- The theta stage of the first round. -/
theorem blockTheta₁_laidOut (D : Lanes) : blockTheta₁ (laidOut layout₀ inverted D) =
    laidOut layout₀ invertedTheta (keccakTheta D) := by
  obtain ⟨d₀, d₁, d₂, d₃, d₄, d₅, d₆, d₇, d₈, d₉, d₁₀, d₁₁, d₁₂, d₁₃, d₁₄, d₁₅, d₁₆,
    d₁₇, d₁₈, d₁₉, d₂₀, d₂₁, d₂₂, d₂₃, d₂₄, rfl⟩ := exists_lanes D
  simp [laidOut, layout₀, laneIndices, inverted, invertedTheta, blockTheta₁, keccakTheta,
    keccakParity, thetaWord_eq, UInt64.not_xor, UInt64.xor_not, rotl64_not]

/-- The rotations of the first round, and rho and pi: the lanes move in the layout only. -/
theorem blockRotate₁_laidOut (D : Lanes) : blockRotate₁ (laidOut layout₀ invertedTheta D) =
    laidOut layout₁ invertedRhoPi (keccakRhoPi D) := by
  obtain ⟨d₀, d₁, d₂, d₃, d₄, d₅, d₆, d₇, d₈, d₉, d₁₀, d₁₁, d₁₂, d₁₃, d₁₄, d₁₅, d₁₆,
    d₁₇, d₁₈, d₁₉, d₂₀, d₂₁, d₂₂, d₂₃, d₂₄, rfl⟩ := exists_lanes D
  simp [laidOut, layout₀, layout₁, laneIndices, invertedTheta, invertedRhoPi, blockRotate₁,
    keccakRhoPi, piln, rotc, rotl64_not]

/-- The chi stage of the first round. -/
theorem blockChi₁_laidOut (D : Lanes) : blockChi₁ (laidOut layout₁ invertedRhoPi D) =
    laidOut layout₁ inverted (keccakChi D) := by
  obtain ⟨d₀, d₁, d₂, d₃, d₄, d₅, d₆, d₇, d₈, d₉, d₁₀, d₁₁, d₁₂, d₁₃, d₁₄, d₁₅, d₁₆,
    d₁₇, d₁₈, d₁₉, d₂₀, d₂₁, d₂₂, d₂₃, d₂₄, rfl⟩ := exists_lanes D
  simp [laidOut, layout₁, laneIndices, inverted, invertedRhoPi, blockChi₁, keccakChi,
    or_eq_not, UInt64.not_xor, UInt64.xor_not]

/-- The theta stage of the second round. -/
theorem blockTheta₂_laidOut (D : Lanes) : blockTheta₂ (laidOut layout₁ inverted D) =
    laidOut layout₁ invertedTheta (keccakTheta D) := by
  obtain ⟨d₀, d₁, d₂, d₃, d₄, d₅, d₆, d₇, d₈, d₉, d₁₀, d₁₁, d₁₂, d₁₃, d₁₄, d₁₅, d₁₆,
    d₁₇, d₁₈, d₁₉, d₂₀, d₂₁, d₂₂, d₂₃, d₂₄, rfl⟩ := exists_lanes D
  simp [laidOut, layout₁, laneIndices, inverted, invertedTheta, blockTheta₂, keccakTheta,
    keccakParity, thetaWord_eq, UInt64.not_xor, UInt64.xor_not, rotl64_not]

/-- The rotations of the second round. -/
theorem blockRotate₂_laidOut (D : Lanes) : blockRotate₂ (laidOut layout₁ invertedTheta D) =
    laidOut layout₂ invertedRhoPi (keccakRhoPi D) := by
  obtain ⟨d₀, d₁, d₂, d₃, d₄, d₅, d₆, d₇, d₈, d₉, d₁₀, d₁₁, d₁₂, d₁₃, d₁₄, d₁₅, d₁₆,
    d₁₇, d₁₈, d₁₉, d₂₀, d₂₁, d₂₂, d₂₃, d₂₄, rfl⟩ := exists_lanes D
  simp [laidOut, layout₁, layout₂, invertedTheta, invertedRhoPi, blockRotate₂, keccakRhoPi,
    piln, rotc, rotl64_not]

/-- The chi stage of the second round. -/
theorem blockChi₂_laidOut (D : Lanes) : blockChi₂ (laidOut layout₂ invertedRhoPi D) =
    laidOut layout₂ inverted (keccakChi D) := by
  obtain ⟨d₀, d₁, d₂, d₃, d₄, d₅, d₆, d₇, d₈, d₉, d₁₀, d₁₁, d₁₂, d₁₃, d₁₄, d₁₅, d₁₆,
    d₁₇, d₁₈, d₁₉, d₂₀, d₂₁, d₂₂, d₂₃, d₂₄, rfl⟩ := exists_lanes D
  simp [laidOut, layout₂, laneIndices, inverted, invertedRhoPi, blockChi₂, keccakChi,
    or_eq_not, UInt64.not_xor, UInt64.xor_not]

/-- The round constant goes to lane 0, which every layout keeps in its place. -/
theorem keccakIota_laidOut {src : Vector ℕ 25} (h0 : src = layout₁ ∨ src = layout₂) (D : Lanes)
    (rc : UInt64) : keccakIota (laidOut src inverted D) rc =
      laidOut src inverted (keccakIota D rc) := by
  obtain ⟨d₀, d₁, d₂, d₃, d₄, d₅, d₆, d₇, d₈, d₉, d₁₀, d₁₁, d₁₂, d₁₃, d₁₄, d₁₅, d₁₆,
    d₁₇, d₁₈, d₁₉, d₂₀, d₂₁, d₂₂, d₂₃, d₂₄, rfl⟩ := exists_lanes D
  rcases h0 with rfl | rfl <;>
    simp [keccakIota, laidOut, layout₁, layout₂, inverted]

/-- **One round of the reference is one round of the device.** -/
theorem blockRound₁_laidOut (D : Lanes) (rc : UInt64) :
    blockRound₁ (laidOut layout₀ inverted D) rc =
      laidOut layout₁ inverted (keccakRound D rc) := by
  rw [blockRound₁, blockTheta₁_laidOut, blockRotate₁_laidOut, blockChi₁_laidOut,
    keccakIota_laidOut (.inl rfl), keccakRound]

@[inherit_doc blockRound₁_laidOut]
theorem blockRound₂_laidOut (D : Lanes) (rc : UInt64) :
    blockRound₂ (laidOut layout₁ inverted D) rc =
      laidOut layout₂ inverted (keccakRound D rc) := by
  rw [blockRound₂, blockTheta₂_laidOut, blockRotate₂_laidOut, blockChi₂_laidOut,
    keccakIota_laidOut (.inr rfl), keccakRound]

/-- The moves that end an iteration restore the natural layout. -/
theorem blockMove_laidOut (D : Lanes) :
    blockMove (laidOut layout₂ inverted D) = laidOut layout₀ inverted D := by
  obtain ⟨d₀, d₁, d₂, d₃, d₄, d₅, d₆, d₇, d₈, d₉, d₁₀, d₁₁, d₁₂, d₁₃, d₁₄, d₁₅, d₁₆,
    d₁₇, d₁₈, d₁₉, d₂₀, d₂₁, d₂₂, d₂₃, d₂₄, rfl⟩ := exists_lanes D
  simp [blockMove, laidOut, layout₀, layout₂, laneIndices, inverted]

/-- The complementations take a state to its representation and back. -/
theorem blockInvert_eq_laidOut (D : Lanes) : blockInvert D = laidOut layout₀ inverted D := by
  obtain ⟨d₀, d₁, d₂, d₃, d₄, d₅, d₆, d₇, d₈, d₉, d₁₀, d₁₁, d₁₂, d₁₃, d₁₄, d₁₅, d₁₆,
    d₁₇, d₁₈, d₁₉, d₂₀, d₂₁, d₂₂, d₂₃, d₂₄, rfl⟩ := exists_lanes D
  simp [blockInvert, laidOut, layout₀, laneIndices, inverted]

/-- Complementing the lanes again gives the state itself. -/
theorem blockInvert_laidOut (D : Lanes) : blockInvert (laidOut layout₀ inverted D) = D := by
  obtain ⟨d₀, d₁, d₂, d₃, d₄, d₅, d₆, d₇, d₈, d₉, d₁₀, d₁₁, d₁₂, d₁₃, d₁₄, d₁₅, d₁₆,
    d₁₇, d₁₈, d₁₉, d₂₀, d₂₁, d₂₂, d₂₃, d₂₄, rfl⟩ := exists_lanes D
  simp [blockInvert, laidOut, layout₀, laneIndices, inverted]

/-- The iterations of the reference are the rounds of the device, two at a time. -/
theorem blockRounds_laidOut (D : Lanes) : ∀ {rcs : List UInt64}, Even rcs.length →
    blockRounds (laidOut layout₀ inverted D) rcs =
      laidOut layout₀ inverted (rcs.foldl keccakRound D)
  | [], _ => rfl
  | [_], h => by simp at h
  | rc₀ :: rc₁ :: rcs, h => by
      have hrcs : Even rcs.length := by
        simpa [Nat.even_add_one] using h
      rw [blockRounds, blockRound₁_laidOut, blockRound₂_laidOut, blockMove_laidOut,
        blockRounds_laidOut _ hrcs, List.foldl_cons, List.foldl_cons]

/-- **The two permutations are equal.** -/
theorem processBlock_eq_keccakf (A : Lanes) : processBlock A = keccakf A := by
  rw [processBlock, blockInvert_eq_laidOut A, blockRounds_laidOut A ⟨12, rfl⟩,
    blockInvert_laidOut, keccakf]

end FalconVanity
