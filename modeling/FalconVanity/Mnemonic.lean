import FalconVanity.Foundation.Positional
import FalconVanity.Foundation.Words
import FalconVanity.Text

/-!
# The 25-Word Mnemonic

A 32-byte entropy is printed as 24 words of 11 bits each and a checksum word, and read back
from them. The encoder packs bytes into 11-bit items through a 32-bit buffer, the decoder
packs 11-bit items into bytes; both loops keep the invariant `Positional.Packs`, so both
sides are numerals of one number and the round trip is uniqueness of numerals.

Indexing a slice out of range and copying between slices of different lengths panic. A
function that does either returns `Option`, and `none` is the panic.

## Main results

* `packs_toUint11Array`, `packs_toByteArray`: what the two packing loops compute.
* `keyToMnemonic_eq`: the encoder never panics, and what it prints.
* `mnemonicToKey_eq_ok_iff`: the decoder accepts exactly the words the encoder prints.
-/

namespace FalconVanity

open Positional

/-- A 32-byte array. -/
abbrev Bytes32 := Vector UInt8 32

/-- The embedded word list: the words of the raw text, which are 2048 and distinct. The
length is what `wordlist` asserts. -/
structure WordList where
  /-- The embedded file. -/
  raw : Str
  length_eq : (splitWhitespace raw).length = 2048
  nodup : (splitWhitespace raw).Nodup

/-- `wordlist`: the words of the embedded file. -/
def WordList.words (W : WordList) : List Str :=
  splitWhitespace W.raw

@[simp] theorem WordList.length_words (W : WordList) : W.words.length = 2048 :=
  W.length_eq

/-- The fields of a word list are satisfiable: the words of `1` to `2048` letters. -/
instance : Inhabited WordList :=
  let word (i : ℕ) : Str := List.replicate (i + 1) 'a'
  have hword (i : ℕ) : IsWord (word i) :=
    ⟨by simp [word], fun c hc => by rw [List.eq_of_mem_replicate hc]; rfl⟩
  have hsplit : splitWhitespace
      (((List.range 2047).map word).flatMap (· ++ [' ']) ++ word 2047) =
        (List.range 2048).map word := by
    rw [splitWhitespace_join (fun w hw => ?_) (hword 2047)]
    · rw [← List.map_singleton (f := word), ← List.map_append, ← List.range_succ]
    · obtain ⟨i, -, rfl⟩ := List.mem_map.mp hw
      exact hword i
  ⟨{ raw := _
     length_eq := by rw [hsplit, List.length_map, List.length_range]
     nodup := by
       rw [hsplit]
       refine List.nodup_range.map fun i j hij => ?_
       simpa [word] using congrArg List.length hij }⟩

/-! ### The packing loops -/

/-- The state of a packing loop: the items written and the bit buffer. Both directions are such
loops, with words of 11 bits and bytes. -/
structure BitBuffer (α : Type) where
  out : List α
  buffer : UInt32
  bits : ℕ

/-- The body of the loop of `toUint11Array`. -/
def toUint11Step (s : BitBuffer UInt32) (b : UInt8) : BitBuffer UInt32 :=
  let buffer := s.buffer ||| b.toUInt32 <<< s.bits.toUInt32
  let bits := s.bits + 8
  if 11 ≤ bits then
    { out := s.out ++ [buffer &&& 0x7ff], buffer := buffer >>> 11, bits := bits - 11 }
  else
    { s with buffer := buffer, bits := bits }

/-- `to_uint11_array`: little-endian bit packing of bytes into 11-bit values. -/
def toUint11Array (bytes : List UInt8) : List UInt32 :=
  let s := bytes.foldl toUint11Step { out := [], buffer := 0, bits := 0 }
  if s.bits ≠ 0 then s.out ++ [s.buffer &&& 0x7ff] else s.out

/-- The inner loop of `toByteArray`: a byte is written while eight bits are buffered. -/
def drainBytes (out : List UInt8) (buffer : UInt32) : ℕ → BitBuffer UInt8
  | bits + 8 => drainBytes (out ++ [(buffer &&& 0xff).toUInt8]) (buffer >>> 8) bits
  | bits => { out := out, buffer := buffer, bits := bits }

/-- The body of the loop of `toByteArray`. -/
def toByteStep (s : BitBuffer UInt8) (v : UInt32) : BitBuffer UInt8 :=
  drainBytes s.out (s.buffer ||| v <<< s.bits.toUInt32) (s.bits + 11)

/-- `to_byte_array`: inverse packing (may emit one trailing padding byte). -/
def toByteArray (vals : List UInt32) : List UInt8 :=
  let s := vals.foldl toByteStep { out := [], buffer := 0, bits := 0 }
  if s.bits ≠ 0 then s.out ++ [s.buffer.toUInt8] else s.out

/-! ### What the packing loops compute -/

/-- The packing state after the bytes `read`: fewer than eleven bits stay buffered. -/
def BitBuffer.Encodes (s : BitBuffer UInt32) (read : List UInt8) : Prop :=
  Packs 8 11 (read.map UInt8.toNat) (s.out.map UInt32.toNat) s.buffer.toNat s.bits ∧
    s.bits < 11

/-- One byte keeps the packing invariant of the encoder. -/
theorem toUint11Step_encodes {s : BitBuffer UInt32} {read : List UInt8}
    (h : s.Encodes read) (b : UInt8) : (toUint11Step s b).Encodes (read ++ [b]) := by
  obtain ⟨hp, hbits⟩ := h
  have hb : b.toUInt32.toNat < 2 ^ 8 := by simpa using b.toNat_lt
  have hor := Words.UInt32.toNat_or_shiftLeft hp.buffer_lt hb (by omega) (by omega)
  have hread := hp.read (x := b.toNat) (by simpa using b.toNat_lt)
  rw [UInt8.toNat_toUInt32] at hor
  rw [← hor, ← List.map_singleton, ← List.map_append] at hread
  unfold toUint11Step
  by_cases h11 : 11 ≤ s.bits + 8
  · -- Eleven bits are there: one item is written.
    simp only [h11, if_true]
    refine ⟨?_, by simp only; omega⟩
    have hbits' : s.bits + 8 - 11 + 11 = s.bits + 8 := by omega
    rw [← hbits'] at hread
    have hwrite := hread.write
    rw [← Words.UInt32.toNat_and_mask _ 0x7ff rfl, ← Words.UInt32.toNat_shiftRight_of_lt _ 11
      (k := 11) rfl (by norm_num), ← List.map_singleton, ← List.map_append] at hwrite
    exact hwrite
  · simp only [h11, if_false]
    exact ⟨hread, by simp only; omega⟩

/-- The packing loop of the encoder, over all its bytes. -/
theorem foldl_toUint11Step_encodes (bytes : List UInt8) :
    (bytes.foldl toUint11Step { out := [], buffer := 0, bits := 0 }).Encodes bytes := by
  induction bytes using List.reverseRecOn with
  | nil => exact ⟨Packs.nil 8 11, by decide⟩
  | append_singleton bytes b ih =>
      rw [List.foldl_append, List.foldl_cons, List.foldl_nil]
      exact toUint11Step_encodes ih b

/-- **The encoder's packing.** The items denote the number the bytes denote, each is below
`2048`, and their number is the number of bits divided by eleven, rounded up. -/
theorem packs_toUint11Array (bytes : List UInt8) :
    Nat.ofDigits 2048 ((toUint11Array bytes).map UInt32.toNat) =
        Nat.ofDigits 256 (bytes.map UInt8.toNat) ∧
      (∀ v ∈ toUint11Array bytes, v.toNat < 2048) ∧
      (toUint11Array bytes).length = (8 * bytes.length + 10) / 11 := by
  obtain ⟨hp, hbits⟩ := foldl_toUint11Step_encodes bytes
  set s := bytes.foldl toUint11Step { out := [], buffer := 0, bits := 0 } with hs
  have hlen := hp.length
  rw [List.length_map, List.length_map] at hlen
  unfold toUint11Array
  rw [← hs]
  by_cases h0 : s.bits = 0
  · -- Nothing is left in the buffer.
    simp only [h0, ne_eq, not_true_eq_false, if_false]
    rw [h0] at hp hlen
    refine ⟨hp.done, fun v hv => hp.out_lt _ (List.mem_map_of_mem hv), by omega⟩
  · -- The last item takes the bits that are left, and the mask keeps all of them.
    simp only [ne_eq, h0, not_false_eq_true, if_true]
    have hmask : (s.buffer &&& 0x7ff).toNat = s.buffer.toNat := by
      rw [Words.UInt32.toNat_and_mask _ 0x7ff (k := 11) rfl]
      exact Nat.mod_eq_of_lt
        (hp.buffer_lt.trans_le (Nat.pow_le_pow_right (by norm_num) hbits.le))
    obtain ⟨hval, hlt⟩ := hp.flush hbits.le
    rw [← hmask, ← List.map_singleton, ← List.map_append] at hval hlt
    refine ⟨hval, fun v hv => hlt _ (List.mem_map_of_mem hv), ?_⟩
    rw [List.length_append, List.length_singleton]
    omega

/-- The unpacking state after the items `read`. -/
def BitBuffer.Decodes (s : BitBuffer UInt8) (read : List UInt32) : Prop :=
  Packs 11 8 (read.map UInt32.toNat) (s.out.map UInt8.toNat) s.buffer.toNat s.bits

/-- Draining keeps the unpacking invariant and leaves fewer than eight bits. -/
theorem drainBytes_decodes {read : List UInt32} (bits : ℕ) :
    ∀ {out : List UInt8} {buffer : UInt32},
      (BitBuffer.mk out buffer bits).Decodes read →
      (drainBytes out buffer bits).Decodes read ∧ (drainBytes out buffer bits).bits < 8 := by
  induction bits using Nat.strong_induction_on with
  | _ bits ih =>
      intro out buffer h
      by_cases h8 : bits < 8
      · rw [drainBytes.eq_2 _ _ _ (by omega)]
        exact ⟨h, h8⟩
      · obtain ⟨n, rfl⟩ := Nat.exists_eq_add_of_le' (Nat.le_of_not_lt h8)
        rw [drainBytes]
        have hwrite := h.write
        have hbyte : (buffer &&& 0xff).toUInt8.toNat = buffer.toNat % 2 ^ 8 := by
          rw [UInt32.toNat_toUInt8, Words.UInt32.toNat_and_mask _ 0xff (k := 8) rfl,
            Nat.mod_mod]
        rw [← hbyte, ← Words.UInt32.toNat_shiftRight_of_lt _ 8 (k := 8) rfl (by norm_num),
          ← List.map_singleton, ← List.map_append] at hwrite
        exact ih n (by omega) hwrite

/-- The unpacking loop, over all its items. -/
theorem foldl_toByteStep_decodes {vals : List UInt32} (hvals : ∀ v ∈ vals, v.toNat < 2048) :
    let s := vals.foldl toByteStep { out := [], buffer := 0, bits := 0 }
    s.Decodes vals ∧ s.bits < 8 := by
  induction vals using List.reverseRecOn with
  | nil => exact ⟨Packs.nil 11 8, by decide⟩
  | append_singleton vals v ih =>
      simp only [List.foldl_append, List.foldl_cons, List.foldl_nil]
      obtain ⟨hp, hbits⟩ := ih fun x hx => hvals x (by simp [hx])
      have hv : v.toNat < 2 ^ 11 := hvals v (by simp)
      have hor := Words.UInt32.toNat_or_shiftLeft hp.buffer_lt hv (by omega) (by omega)
      have hread := hp.read hv
      rw [← hor, ← List.map_singleton, ← List.map_append] at hread
      exact drainBytes_decodes _ hread

/-- **The decoder's packing.** The bytes denote the number the items denote, and their
number is the number of bits divided by eight, rounded up. -/
theorem packs_toByteArray {vals : List UInt32} (hvals : ∀ v ∈ vals, v.toNat < 2048) :
    Nat.ofDigits 256 ((toByteArray vals).map UInt8.toNat) =
        Nat.ofDigits 2048 (vals.map UInt32.toNat) ∧
      (toByteArray vals).length = (11 * vals.length + 7) / 8 := by
  obtain ⟨hp, hbits⟩ := foldl_toByteStep_decodes hvals
  unfold toByteArray
  set s := vals.foldl toByteStep { out := [], buffer := 0, bits := 0 } with hs
  have hlen := hp.length
  rw [List.length_map, List.length_map] at hlen
  by_cases h0 : s.bits = 0
  · simp only [h0, ne_eq, not_true_eq_false, if_false]
    simp only [BitBuffer.Decodes, h0] at hp
    exact ⟨hp.done, by omega⟩
  · simp only [ne_eq, h0, not_false_eq_true, if_true]
    have hbyte : s.buffer.toUInt8.toNat = s.buffer.toNat := by
      rw [UInt32.toNat_toUInt8]
      exact Nat.mod_eq_of_lt
        (hp.buffer_lt.trans_le (Nat.pow_le_pow_right (by norm_num) hbits.le))
    obtain ⟨hval, -⟩ := hp.flush hbits.le
    rw [← hbyte, ← List.map_singleton, ← List.map_append] at hval
    refine ⟨hval, ?_⟩
    rw [List.length_append, List.length_singleton]
    omega

/-! ### The codec -/

/-- The errors of `mnemonicToKey`. The comments are the texts that are displayed. -/
inductive MnemonicError where
  /-- `expected 25 words, got {n}` -/
  | wordCount (n : ℕ)
  /-- `{w:?} is not in the words list` -/
  | notInWordsList (w : Str)
  /-- `wrong checksum` -/
  | wrongChecksum
  deriving DecidableEq

variable (W : WordList) (sha512_256 : List UInt8 → Bytes32)

/-- `checksum_word`: the first 11 bits of the hash, as a word. -/
def checksumWord (data : List UInt8) : Option Str := do
  let h := sha512_256 data
  let v ← (toUint11Array (h.toList.take 2))[0]?
  W.words[v.toNat]?

/-- `key_to_mnemonic`: 32-byte entropy to 25-word mnemonic. -/
def keyToMnemonic (key : Bytes32) : Option Str := do
  let s ← (toUint11Array key.toList).foldlM
    (fun s v => do return s ++ (← W.words[v.toNat]?) ++ [' ']) []
  return s ++ (← checksumWord W sha512_256 key.toList)

/-- The index loop of `mnemonicToKey`: it stops at the first unknown word. -/
def wordIndices : List Str → Except MnemonicError (List UInt32)
  | [] => .ok []
  | w :: ws =>
    match W.words.idxOf? w with
    | none => .error (.notInWordsList w)
    | some i => (wordIndices ws).map (UInt32.ofNat i :: ·)

/-- `copy_from_slice` into a 32-byte array: it panics when the lengths differ. -/
def copyFromSlice32 (src : List UInt8) : Option Bytes32 :=
  if h : src.length = 32 then some ⟨src.toArray, by simpa using h⟩ else none

/-- `mnemonic_to_key`: 25-word mnemonic to 32-byte entropy. -/
def mnemonicToKey (mnemonic : Str) : Option (Except MnemonicError Bytes32) :=
  let words := splitWhitespace mnemonic
  if words.length ≠ 25 then
    some (.error (.wordCount words.length))
  else
    match wordIndices W (words.take 24) with
    | .error e => some (.error e)
    | .ok indices =>
      let bytes := toByteArray indices
      if bytes.length ≠ 33 ∨ bytes[32]? ≠ some 0 then
        some (.error .wrongChecksum)
      else do
        let key ← copyFromSlice32 (bytes.take 32)
        let check ← checksumWord W sha512_256 key.toList
        let last ← words[24]?
        if check ≠ last then
          return .error .wrongChecksum
        return .ok key

/-! ### The word list as a bijection -/

/-- The word at an index, total for an index in range. -/
def WordList.word (v : UInt32) : Str :=
  W.words.getD v.toNat []

/-- The word of an index below 2048. -/
theorem WordList.getElem?_words {v : UInt32} (hv : v.toNat < 2048) :
    W.words[v.toNat]? = some (W.word v) := by
  have hlt : v.toNat < W.words.length := by rw [W.length_words]; exact hv
  rw [WordList.word, List.getD_eq_getElem?_getD, List.getElem?_eq_getElem hlt,
    Option.getD_some]

/-- The word of an index is in the list. -/
theorem WordList.word_mem {v : UInt32} (hv : v.toNat < 2048) : W.word v ∈ W.words :=
  List.mem_of_getElem? (W.getElem?_words hv)

/-- What is in the list is a word without white space. -/
theorem WordList.isWord {w : Str} (hw : w ∈ W.words) : IsWord w :=
  splitWhitespace_words hw

/-- The search of `wordIndices` inverts indexing, since the words are distinct. -/
theorem WordList.idxOf?_eq_some_iff {w : Str} {i : ℕ} :
    W.words.idxOf? w = some i ↔ W.words[i]? = some w := by
  rw [List.idxOf?_eq_some_iff, List.getElem?_eq_some_iff]
  constructor
  · rintro ⟨hi, hw, -⟩
    exact ⟨hi, hw⟩
  · rintro ⟨hi, hw⟩
    refine ⟨hi, hw, fun j hj hjw => ?_⟩
    have hji : j = i := (List.Nodup.getElem_inj_iff W.nodup).mp (hjw.trans hw.symm)
    omega

/-- Distinct indices name distinct words. -/
theorem WordList.word_inj {u v : UInt32} (hu : u.toNat < 2048) (hv : v.toNat < 2048)
    (h : W.word u = W.word v) : u = v := by
  have hu' := W.idxOf?_eq_some_iff.mpr (W.getElem?_words hu)
  have hv' := W.idxOf?_eq_some_iff.mpr (W.getElem?_words hv)
  rw [h, hv'] at hu'
  exact UInt32.toNat_inj.mp (Option.some.inj hu').symm

/-- **The index loop.** It succeeds exactly on the words of a list of indices in range. -/
theorem wordIndices_eq_ok_iff {ws : List Str} {vs : List UInt32} :
    wordIndices W ws = .ok vs ↔ vs.map W.word = ws ∧ ∀ v ∈ vs, v.toNat < 2048 := by
  induction ws generalizing vs with
  | nil =>
      rw [wordIndices, Except.ok.injEq, List.map_eq_nil_iff]
      exact ⟨fun h => ⟨h.symm, by simp [← h]⟩, fun h => h.1.symm⟩
  | cons w ws ih =>
      rw [wordIndices]
      cases hw : W.words.idxOf? w with
      | none =>
          have hw' : w ∉ W.words := List.idxOf?_eq_none_iff.mp hw
          refine ⟨(fun h => nomatch h), fun ⟨hmap, hlt⟩ => ?_⟩
          obtain ⟨v, vs, rfl, hv, -⟩ := List.map_eq_cons_iff.mp hmap
          exact absurd (hv ▸ W.word_mem (hlt v (by simp))) hw'
      | some i =>
          have hi := W.idxOf?_eq_some_iff.mp hw
          have hlt : i < 2048 := by
            rw [← W.length_words]
            exact (List.getElem?_eq_some_iff.mp hi).1
          have hval : (UInt32.ofNat i).toNat = i := by
            rw [UInt32.toNat_ofNat']
            omega
          have hword : W.word (UInt32.ofNat i) = w := by
            have := W.getElem?_words (v := UInt32.ofNat i) (by omega)
            rw [hval, hi] at this
            exact (Option.some.inj this).symm
          dsimp only
          constructor
          · intro h
            cases hrec : wordIndices W ws with
            | error e => rw [hrec] at h; cases h
            | ok us =>
                rw [hrec] at h
                cases h
                obtain ⟨hmap, hus⟩ := ih.mp hrec
                refine ⟨by rw [List.map_cons, hword, hmap], fun v hv => ?_⟩
                rcases List.mem_cons.mp hv with rfl | hv
                · omega
                · exact hus v hv
          · rintro ⟨hmap, hvs⟩
            obtain ⟨v, us, rfl, hv, hmap'⟩ := List.map_eq_cons_iff.mp hmap
            rw [ih.mpr ⟨hmap', fun x hx => hvs x (by simp [hx])⟩]
            have : UInt32.ofNat i = v :=
              W.word_inj (by omega) (hvs v (by simp)) (hword.trans hv.symm)
            rw [this]
            rfl

/-- The index loop fails at a word that is not in the list. -/
theorem wordIndices_error {ws : List Str} (h : ∃ w ∈ ws, w ∉ W.words) :
    ∃ w ∈ ws, w ∉ W.words ∧ wordIndices W ws = .error (.notInWordsList w) := by
  induction ws with
  | nil => simp at h
  | cons x ws ih =>
      by_cases hx : x ∈ W.words
      · obtain ⟨i, hi⟩ := Option.isSome_iff_exists.mp (List.isSome_idxOf?.mpr hx)
        have hws : ∃ w ∈ ws, w ∉ W.words := by
          obtain ⟨w, hw, hnot⟩ := h
          rcases List.mem_cons.mp hw with rfl | hw
          · exact absurd hx hnot
          · exact ⟨w, hw, hnot⟩
        obtain ⟨w, hw, hnot, herr⟩ := ih hws
        refine ⟨w, List.mem_cons_of_mem _ hw, hnot, ?_⟩
        rw [wordIndices, hi]
        dsimp only
        rw [herr]
        rfl
      · refine ⟨x, List.mem_cons_self, hx, ?_⟩
        rw [wordIndices, List.idxOf?_eq_none_iff.mpr hx]

/-! ### The encoder -/

/-- The checksum word is a word of the list: indexing never panics. -/
theorem checksumWord_eq_some (data : List UInt8) :
    ∃ w ∈ W.words, checksumWord W sha512_256 data = some w := by
  obtain ⟨-, hlt, hlen⟩ := packs_toUint11Array ((sha512_256 data).toList.take 2)
  cases hs : toUint11Array ((sha512_256 data).toList.take 2) with
  | nil => rw [hs] at hlen; simp at hlen
  | cons v vs =>
      have hv : v.toNat < 2048 := hlt v (by rw [hs]; simp)
      refine ⟨W.word v, W.word_mem hv, ?_⟩
      simp [checksumWord, hs, W.getElem?_words hv]

/-- The 24 data words of a key. -/
def dataWords (key : Bytes32) : List Str :=
  (toUint11Array key.toList).map W.word

@[simp] theorem length_dataWords (key : Bytes32) : (dataWords W key).length = 24 := by
  rw [dataWords, List.length_map, (packs_toUint11Array _).2.2]
  simp

/-- Writing words with a space after each. -/
theorem foldlM_pushWord {vs : List UInt32} (hvs : ∀ v ∈ vs, v.toNat < 2048) (s : Str) :
    vs.foldlM (fun s v => do return s ++ (← W.words[v.toNat]?) ++ [' ']) s =
      some (s ++ (vs.map W.word).flatMap (· ++ [' '])) := by
  induction vs generalizing s with
  | nil => simp
  | cons v vs ih =>
      rw [List.foldlM_cons, W.getElem?_words (hvs v (by simp))]
      refine (ih (fun x hx => hvs x (by simp [hx])) _).trans ?_
      simp

/-- **The encoder never panics.** It prints the data words of the key and a checksum word
of the list. -/
theorem keyToMnemonic_eq (key : Bytes32) :
    ∃ s check, checksumWord W sha512_256 key.toList = some check ∧
      keyToMnemonic W sha512_256 key = some s ∧
      splitWhitespace s = dataWords W key ++ [check] := by
  obtain ⟨check, hmem, hcheck⟩ := checksumWord_eq_some W sha512_256 key.toList
  obtain ⟨-, hlt, -⟩ := packs_toUint11Array key.toList
  refine ⟨_, check, hcheck, ?_, splitWhitespace_join (fun w hw => ?_) (W.isWord hmem)⟩
  · rw [keyToMnemonic, foldlM_pushWord W hlt, hcheck]
    rfl
  · obtain ⟨v, hv, rfl⟩ := List.mem_map.mp hw
    exact W.isWord (W.word_mem (hlt v hv))

/-! ### The decoder -/

/-- 32 bytes fit into an array of 32 bytes. -/
theorem copyFromSlice32_toList (key : Bytes32) : copyFromSlice32 key.toList = some key := by
  rw [copyFromSlice32, dif_pos (by simp)]
  rfl

/-- The bytes of a list of 24 indices are the bytes of `key` and a zero padding byte
exactly when the indices are those of `key`. -/
theorem toByteArray_eq_iff {vs : List UInt32} (hvs : ∀ v ∈ vs, v.toNat < 2048)
    (hlen : vs.length = 24) (key : Bytes32) :
    toByteArray vs = key.toList ++ [0] ↔ vs = toUint11Array key.toList := by
  obtain ⟨hval, hblen⟩ := packs_toByteArray hvs
  obtain ⟨hkval, hklt, hklen⟩ := packs_toUint11Array key.toList
  have hzero : Nat.ofDigits 256 ((key.toList ++ [0]).map UInt8.toNat) =
      Nat.ofDigits 256 (key.toList.map UInt8.toNat) := by
    rw [List.map_append, List.map_singleton, ofDigits_concat]
    simp
  constructor
  · intro h
    rw [h, hzero, ← hkval] at hval
    refine List.map_injective_iff.mpr (fun _ _ => UInt32.toNat_inj.mp)
      (Nat.ofDigits_inj_of_len_eq (b := 2048) (by norm_num) (by simp [hklen, hlen]) ?_ ?_
        hval.symm)
    · intro d hd
      obtain ⟨v, hv, rfl⟩ := List.mem_map.mp hd
      exact hvs v hv
    · intro d hd
      obtain ⟨v, hv, rfl⟩ := List.mem_map.mp hd
      exact hklt v hv
  · rintro rfl
    refine List.map_injective_iff.mpr (fun _ _ => UInt8.toNat_inj.mp)
      (Nat.ofDigits_inj_of_len_eq (b := 256) (by norm_num) (by simp [hblen, hlen]) ?_ ?_ ?_)
    · intro d hd
      obtain ⟨v, -, rfl⟩ := List.mem_map.mp hd
      exact v.toNat_lt
    · intro d hd
      obtain ⟨v, -, rfl⟩ := List.mem_map.mp hd
      exact v.toNat_lt
    · rw [hval, hkval, hzero]

/-- A list of 24 items fills 32 bytes and a padding byte: the last three of the eleven bits
of the last item end the key, the other eight are the padding. -/
theorem toByteArray_eq {us : List UInt32} {v : UInt32} (hus : ∀ u ∈ us, u.toNat < 2048)
    (hv : v.toNat < 2048) (hlen : us.length = 23) :
    ∃ key : Bytes32, ∃ b : UInt8,
      toByteArray (us ++ [v]) = key.toList ++ [b] ∧ b.toNat = v.toNat / 8 := by
  have hvs : ∀ u ∈ us ++ [v], u.toNat < 2048 := by
    intro u hu
    rcases List.mem_append.mp hu with hu | hu
    · exact hus u hu
    · rwa [List.mem_singleton.mp hu]
  obtain ⟨hval, hblen⟩ := packs_toByteArray hvs
  obtain ⟨ks, b, hb⟩ : ∃ ks b, toByteArray (us ++ [v]) = ks ++ [b] := by
    refine (List.eq_nil_or_concat' _).resolve_left fun h => ?_
    rw [h] at hblen
    simp [hlen] at hblen
  have hks : ks.length = 32 := by
    rw [hb] at hblen
    simp [hlen] at hblen
    exact hblen
  refine ⟨⟨ks.toArray, by simpa using hks⟩, b, hb, ?_⟩
  have hlow := Nat.ofDigits_lt_base_pow_length (b := 256) (l := ks.map UInt8.toNat)
    (by norm_num) (by
      intro d hd
      obtain ⟨k, -, rfl⟩ := List.mem_map.mp hd
      exact k.toNat_lt)
  have hlow' := Nat.ofDigits_lt_base_pow_length (b := 2048) (l := us.map UInt32.toNat)
    (by norm_num) (by
      intro d hd
      obtain ⟨u, hu, rfl⟩ := List.mem_map.mp hd
      exact hus u hu)
  rw [hb, List.map_append, List.map_append, List.map_singleton, List.map_singleton,
    ofDigits_concat, ofDigits_concat] at hval
  rw [List.length_map, hks] at hval hlow
  rw [List.length_map, hlen] at hval hlow'
  norm_num at hval hlow hlow'
  omega

/-- **What the decoder does** with 25 words whose first 24 are those of indices in range:
it compares the padding byte with zero, then the checksum word. -/
theorem mnemonicToKey_of_indices {m : Str} {vs : List UInt32} {key : Bytes32} {b : UInt8}
    (hlen : (splitWhitespace m).length = 25)
    (hvs : wordIndices W ((splitWhitespace m).take 24) = .ok vs)
    (hbytes : toByteArray vs = key.toList ++ [b]) :
    mnemonicToKey W sha512_256 m =
      if b = 0 ∧ checksumWord W sha512_256 key.toList = (splitWhitespace m)[24]? then
        some (.ok key)
      else some (.error .wrongChecksum) := by
  have hkey : key.toList.length = 32 := by simp
  have hlast : (key.toList ++ [b])[32]? = some b := by
    rw [List.getElem?_append_right (by omega), hkey]
    rfl
  have htake : (key.toList ++ [b]).take 32 = key.toList :=
    List.take_left' hkey
  have h25 : (key.toList ++ [b]).length = 33 := by simp
  obtain ⟨check, -, hcheck⟩ := checksumWord_eq_some W sha512_256 key.toList
  obtain ⟨last, hl⟩ : ∃ last, (splitWhitespace m)[24]? = some last :=
    ⟨_, List.getElem?_eq_getElem (by omega)⟩
  rw [mnemonicToKey]
  simp only [hlen, ne_eq, not_true_eq_false, if_false, hvs, hbytes, hlast, htake, h25,
    false_or, copyFromSlice32_toList, hcheck, hl, Option.some.injEq, Option.bind_eq_bind,
    Option.bind_some]
  by_cases hb : b = 0
  · by_cases hcl : check = last <;> simp [hb, hcl]
  · simp [hb]

/-- The decoder never panics: past the two early errors, `mnemonicToKey_of_indices` says
what it returns. -/
theorem mnemonicToKey_cases (m : Str) :
    ((splitWhitespace m).length ≠ 25 ∧ mnemonicToKey W sha512_256 m =
        some (.error (.wordCount (splitWhitespace m).length))) ∨
      (∃ e, wordIndices W ((splitWhitespace m).take 24) = .error e ∧
        mnemonicToKey W sha512_256 m = some (.error e)) ∨
      ∃ us v key b, (splitWhitespace m).length = 25 ∧ us.length = 23 ∧
        wordIndices W ((splitWhitespace m).take 24) = .ok (us ++ [v]) ∧
        toByteArray (us ++ [v]) = Vector.toList (n := 32) key ++ [b] ∧
        b.toNat = v.toNat / 8 := by
  by_cases hlen : (splitWhitespace m).length = 25
  · cases hvs : wordIndices W ((splitWhitespace m).take 24) with
    | error e =>
        refine .inr (.inl ⟨e, rfl, ?_⟩)
        simp [mnemonicToKey, hlen, hvs]
    | ok vs =>
        obtain ⟨hmap, hlt⟩ := (wordIndices_eq_ok_iff W).mp hvs
        have hvlen : vs.length = 24 := by
          rw [← List.length_map (f := W.word), hmap, List.length_take, hlen]
          rfl
        rcases List.eq_nil_or_concat' vs with rfl | ⟨us, v, rfl⟩
        · simp at hvlen
        · have hus : us.length = 23 := by simpa using hvlen
          obtain ⟨key, b, hbytes, hb⟩ := toByteArray_eq (fun u hu => hlt u (by simp [hu]))
            (hlt v (by simp)) hus
          exact .inr (.inr ⟨us, v, key, b, hlen, hus, rfl, hbytes, hb⟩)
  · exact .inl ⟨hlen, by simp [mnemonicToKey, hlen]⟩

/-- **The decoder accepts exactly what the encoder prints.** -/
theorem mnemonicToKey_eq_ok {m : Str} {key : Bytes32} :
    mnemonicToKey W sha512_256 m = some (.ok key) ↔
      ∃ check, checksumWord W sha512_256 key.toList = some check ∧
        splitWhitespace m = dataWords W key ++ [check] := by
  constructor
  · intro h
    rcases mnemonicToKey_cases W sha512_256 m with
      ⟨-, herr⟩ | ⟨e, -, herr⟩ | ⟨us, v, key', b, hlen, hus, hvs, hbytes, -⟩
    · rw [herr] at h
      cases h
    · rw [herr] at h
      cases h
    · rw [mnemonicToKey_of_indices W sha512_256 hlen hvs hbytes] at h
      by_cases hc : b = 0 ∧
          checksumWord W sha512_256 key'.toList = (splitWhitespace m)[24]?
      · rw [if_pos hc] at h
        obtain ⟨rfl, hcheck⟩ := hc
        obtain rfl : key' = key := by simpa using h
        obtain ⟨hmap, hlt⟩ := (wordIndices_eq_ok_iff W).mp hvs
        obtain ⟨check, -, hcheck'⟩ := checksumWord_eq_some W sha512_256 key'.toList
        have hkey := (toByteArray_eq_iff hlt (by simp [hus]) key').mp hbytes
        refine ⟨check, hcheck', ?_⟩
        have hdrop : (splitWhitespace m).drop 24 = [check] := by
          rw [hcheck'] at hcheck
          obtain ⟨hlt24, hget⟩ := List.getElem?_eq_some_iff.mp hcheck.symm
          rw [List.drop_eq_getElem_cons hlt24, hget, List.drop_of_length_le (by omega)]
        calc splitWhitespace m
            = (splitWhitespace m).take 24 ++ (splitWhitespace m).drop 24 :=
              (List.take_append_drop 24 _).symm
          _ = dataWords W key' ++ [check] := by rw [hdrop, ← hmap, hkey]; rfl
      · rw [if_neg hc] at h
        cases h
  · rintro ⟨check, hcheck, hwords⟩
    obtain ⟨-, hklt, hklen⟩ := packs_toUint11Array key.toList
    have htake : (splitWhitespace m).take 24 = dataWords W key := by
      rw [hwords]
      exact List.take_left' (length_dataWords W key)
    have hvs : wordIndices W ((splitWhitespace m).take 24) = .ok (toUint11Array key.toList) :=
      (wordIndices_eq_ok_iff W).mpr ⟨htake.symm, hklt⟩
    have hbytes := (toByteArray_eq_iff hklt (by simpa using hklen) key).mpr rfl
    rw [mnemonicToKey_of_indices W sha512_256 (by simp [hwords]) hvs hbytes, if_pos]
    refine ⟨rfl, ?_⟩
    rw [hcheck, hwords, List.getElem?_append_right (by simp)]
    simp

/-- **Round trip.** Encoding never panics, and what it prints decodes to the key, as do
exactly the texts with the same words. -/
theorem mnemonicToKey_keyToMnemonic (key : Bytes32) :
    ∃ s, keyToMnemonic W sha512_256 key = some s ∧ (splitWhitespace s).length = 25 ∧
      ∀ m, mnemonicToKey W sha512_256 m = some (.ok key) ↔
        splitWhitespace m = splitWhitespace s := by
  obtain ⟨s, check, hcheck, hs, hwords⟩ := keyToMnemonic_eq W sha512_256 key
  refine ⟨s, hs, by simp [hwords], fun m => ?_⟩
  rw [mnemonicToKey_eq_ok, hwords, hcheck]
  simp

/-- **The mnemonic codec is a bijection onto what the decoder accepts.** Encoding never
panics and prints 25 words, which decode to the key; a text decodes to the key exactly when
its words are these; so no two word sequences decode to one key. Decoding never panics, and
among the texts of 25 words it rejects those with an unknown data word, those with non-zero
padding bits in the 24th word, and those with a wrong checksum word. -/
theorem mnemonic_bijection :
    (∀ key, ∃ s, keyToMnemonic W sha512_256 key = some s ∧
      (splitWhitespace s).length = 25 ∧
      mnemonicToKey W sha512_256 s = some (.ok key) ∧
      ∀ m, mnemonicToKey W sha512_256 m = some (.ok key) ↔
        splitWhitespace m = splitWhitespace s) ∧
    (∀ m₁ m₂ key, mnemonicToKey W sha512_256 m₁ = some (.ok key) →
      mnemonicToKey W sha512_256 m₂ = some (.ok key) →
      splitWhitespace m₁ = splitWhitespace m₂) ∧
    (∀ m, mnemonicToKey W sha512_256 m ≠ none) ∧
    (∀ m, (splitWhitespace m).length = 25 →
      ((∃ w ∈ (splitWhitespace m).take 24, w ∉ W.words) →
        ∃ w ∈ (splitWhitespace m).take 24, w ∉ W.words ∧
          mnemonicToKey W sha512_256 m = some (.error (.notInWordsList w))) ∧
      (∀ us v, us.length = 23 → (∀ u ∈ us ++ [v], u.toNat < 2048) →
        (splitWhitespace m).take 24 = (us ++ [v]).map W.word → 8 ≤ v.toNat →
        mnemonicToKey W sha512_256 m = some (.error .wrongChecksum)) ∧
      (∀ key, (splitWhitespace m).take 24 = dataWords W key →
        (splitWhitespace m)[24]? ≠ checksumWord W sha512_256 key.toList →
        mnemonicToKey W sha512_256 m = some (.error .wrongChecksum))) := by
  refine ⟨fun key => ?_, fun m₁ m₂ key h₁ h₂ => ?_, fun m => ?_, fun m hlen =>
    ⟨fun h => ?_, fun us v hus hlt htake hpad => ?_, fun key htake hcheck => ?_⟩⟩
  · obtain ⟨s, hs, hlen, hiff⟩ := mnemonicToKey_keyToMnemonic W sha512_256 key
    exact ⟨s, hs, hlen, (hiff s).mpr rfl, hiff⟩
  · obtain ⟨c₁, hc₁, hw₁⟩ := (mnemonicToKey_eq_ok W sha512_256).mp h₁
    obtain ⟨c₂, hc₂, hw₂⟩ := (mnemonicToKey_eq_ok W sha512_256).mp h₂
    rw [hw₁, hw₂, Option.some.inj (hc₁.symm.trans hc₂)]
  · rcases mnemonicToKey_cases W sha512_256 m with
      ⟨-, herr⟩ | ⟨e, -, herr⟩ | ⟨us, v, key, b, hlen, -, hvs, hbytes, -⟩
    · rw [herr]
      exact Option.some_ne_none _
    · rw [herr]
      exact Option.some_ne_none _
    · rw [mnemonicToKey_of_indices W sha512_256 hlen hvs hbytes]
      split <;> exact Option.some_ne_none _
  · obtain ⟨w, hw, hnot, herr⟩ := wordIndices_error W h
    exact ⟨w, hw, hnot, by simp [mnemonicToKey, hlen, herr]⟩
  · obtain ⟨key, b, hbytes, hb⟩ :=
      toByteArray_eq (fun u hu => hlt u (by simp [hu])) (hlt v (by simp)) hus
    have hvs := (wordIndices_eq_ok_iff W).mpr ⟨htake.symm, hlt⟩
    rw [mnemonicToKey_of_indices W sha512_256 hlen hvs hbytes, if_neg]
    rintro ⟨rfl, -⟩
    have hzero : (0 : UInt8).toNat = 0 := rfl
    omega
  · obtain ⟨-, hklt, hklen⟩ := packs_toUint11Array key.toList
    have hvs := (wordIndices_eq_ok_iff W).mpr ⟨htake.symm, hklt⟩
    have hbytes := (toByteArray_eq_iff hklt (by simpa using hklen) key).mpr rfl
    rw [mnemonicToKey_of_indices W sha512_256 hlen hvs hbytes, if_neg]
    exact fun h => hcheck h.2.symm

end FalconVanity
