import Mathlib.Data.List.Basic

/-!
# Text

The string operations of the standard library that the command line and the mnemonic
codec use. A string is the list of its characters.

## Main results

* `splitWhitespace_words`: every piece is non-empty and free of white space.
* `splitWhitespace_join`: words joined by single spaces are split back into themselves.
* `splitOnce_append`: the first occurrence of a separator.
* `splitAtByte_append`: splitting at a byte index that is a boundary between characters.
-/

namespace FalconVanity

/-- A string, as the list of its characters. -/
abbrev Str := List Char

/-- `char::is_whitespace`: the Unicode `White_Space` property. -/
def isWhitespace (c : Char) : Bool :=
  let n := c.toNat
  (9 ≤ n && n ≤ 13) || n == 0x20 || n == 0x85 || n == 0xA0 || n == 0x1680 ||
    (0x2000 ≤ n && n ≤ 0x200A) || n == 0x2028 || n == 0x2029 || n == 0x202F ||
    n == 0x205F || n == 0x3000

/-- `str::split_whitespace`: the non-empty pieces between white space characters. -/
def splitWhitespace (s : Str) : List Str :=
  (s.splitOnP isWhitespace).filter (· ≠ [])

/-- `str::trim`: without white space at either end. -/
def trim (s : Str) : Str :=
  ((s.dropWhile isWhitespace).reverse.dropWhile isWhitespace).reverse

/-- `str::split_once`: the text before and after the first occurrence of `sep`. -/
def splitOnce : Str → Str → Option (Str × Str)
  | [], sep => if sep = [] then some ([], []) else none
  | c :: cs, sep =>
    if sep.isPrefixOf (c :: cs) then some ([], (c :: cs).drop sep.length)
    else (splitOnce cs sep).map fun (before, rest) => (c :: before, rest)

/-- `str::len`: the number of bytes in UTF-8. -/
def byteLen : Str → ℕ
  | [] => 0
  | c :: s => c.utf8Size + byteLen s

/-- `str::split_at`. It panics at an index that is not a boundary between characters. -/
def splitAtByte : Str → ℕ → Option (Str × Str)
  | s, 0 => some ([], s)
  | [], _ + 1 => none
  | c :: s, n + 1 =>
    if c.utf8Size ≤ n + 1 then
      (splitAtByte s (n + 1 - c.utf8Size)).map fun (before, rest) => (c :: before, rest)
    else none

/-- `&s[i..j]`, which panics unless both indices are boundaries between characters. -/
def sliceBytes (s : Str) (i j : ℕ) : Option Str :=
  if i ≤ j then
    (splitAtByte s i).bind fun (_, rest) => (splitAtByte rest (j - i)).map Prod.fst
  else none

/-- A byte string literal: the bytes of ASCII characters. -/
def byteString (s : Str) : List UInt8 := s.map fun c => c.toNat.toUInt8

/-- A word of a text: not empty, and without white space. -/
def IsWord (w : Str) : Prop :=
  w ≠ [] ∧ ∀ c ∈ w, isWhitespace c = false

/-- No piece of a split at `p` contains a character of `p`. -/
theorem not_mem_of_mem_splitOnP {p : Char → Bool} {s w : Str} (hw : w ∈ s.splitOnP p) :
    ∀ c ∈ w, p c = false := by
  induction s generalizing w with
  | nil => simp_all
  | cons x s ih =>
      rw [List.splitOnP_cons_eq_if_modifyHead] at hw
      by_cases hx : p x
      · rw [if_pos hx, List.mem_cons] at hw
        rcases hw with rfl | hw
        · simp
        · exact ih hw
      · rw [if_neg hx] at hw
        cases hs : s.splitOnP p with
        | nil => exact absurd hs (List.splitOnP_ne_nil p s)
        | cons y ys =>
            rw [hs, List.modifyHead_cons, List.mem_cons] at hw
            rcases hw with rfl | hw
            · intro c hc
              rcases List.mem_cons.mp hc with rfl | hc
              · simpa using hx
              · exact ih (by rw [hs]; exact List.mem_cons_self) c hc
            · exact ih (by rw [hs]; exact List.mem_cons_of_mem _ hw)

/-- Every piece of `splitWhitespace` is a word. -/
theorem splitWhitespace_words {s w : Str} (hw : w ∈ splitWhitespace s) : IsWord w := by
  rw [splitWhitespace, List.mem_filter] at hw
  exact ⟨by simpa using hw.2, not_mem_of_mem_splitOnP hw.1⟩

/-- A single word, in front of a text that begins after a white space character. -/
theorem splitWhitespace_word_cons {w : Str} (hw : IsWord w) {c : Char}
    (hc : isWhitespace c = true) (s : Str) :
    splitWhitespace (w ++ c :: s) = w :: splitWhitespace s := by
  rw [splitWhitespace, List.splitOnP_append_cons_of_forall_mem hw.2 c hc,
    List.filter_cons_of_pos (by simpa using hw.1)]
  rfl

/-- A text that is one word. -/
theorem splitWhitespace_word {w : Str} (hw : IsWord w) : splitWhitespace w = [w] := by
  rw [splitWhitespace, List.splitOnP_eq_singleton hw.2,
    List.filter_cons_of_pos (by simpa using hw.1)]
  rfl

/-- **Joining and splitting.** Words, each followed by a space, and a last word are split
into exactly these words. -/
theorem splitWhitespace_join {ws : List Str} (hws : ∀ w ∈ ws, IsWord w) {last : Str}
    (hlast : IsWord last) :
    splitWhitespace (ws.flatMap (· ++ [' ']) ++ last) = ws ++ [last] := by
  induction ws with
  | nil => simpa using splitWhitespace_word hlast
  | cons w ws ih =>
      have hsp : isWhitespace ' ' = true := by decide
      rw [List.flatMap_cons, List.append_assoc, List.append_assoc, List.singleton_append,
        splitWhitespace_word_cons (hws w (by simp)) hsp,
        ih fun v hv => hws v (List.mem_cons_of_mem _ hv), List.cons_append]

/-- What `splitOnce` returns, put back together. -/
theorem splitOnce_eq_some {s sep before rest : Str} (h : splitOnce s sep = some (before, rest)) :
    s = before ++ sep ++ rest := by
  induction s generalizing before with
  | nil =>
      rw [splitOnce] at h
      split at h
      case isTrue hsep =>
        cases h
        rw [hsep]
        rfl
      case isFalse => cases h
  | cons c cs ih =>
      rw [splitOnce] at h
      split at h
      case isTrue hpre =>
        cases h
        exact (List.prefix_iff_eq_append.mp (List.isPrefixOf_iff_prefix.mp hpre)).symm
      case isFalse =>
        obtain ⟨⟨before', rest'⟩, hrec, heq⟩ := Option.map_eq_some_iff.mp h
        cases heq
        rw [ih hrec]
        rfl

/-- A separator does not occur in a text without its first character. -/
theorem splitOnce_eq_none {s sep : Str} {c : Char} (hc : c ∉ s) :
    splitOnce s (c :: sep) = none := by
  cases h : splitOnce s (c :: sep) with
  | none => rfl
  | some pair =>
      have hs := splitOnce_eq_some h
      exact absurd (by rw [hs]; simp) hc

/-- The first occurrence of a separator, after a text without its first character. -/
theorem splitOnce_append {before sep : Str} {c : Char} (hc : c ∉ before) (rest : Str) :
    splitOnce (before ++ c :: sep ++ rest) (c :: sep) = some (before, rest) := by
  induction before with
  | nil =>
      have hpre : (c :: sep).isPrefixOf (c :: (sep ++ rest)) = true :=
        List.isPrefixOf_iff_prefix.mpr (List.prefix_append (c :: sep) rest)
      rw [List.nil_append, List.cons_append, splitOnce, if_pos hpre, ← List.cons_append,
        List.drop_left]
  | cons b before ih =>
      have hpre : ¬ (c :: sep).isPrefixOf (b :: (before ++ c :: sep ++ rest)) = true := by
        rw [List.isPrefixOf_iff_prefix, List.cons_prefix_cons]
        rintro ⟨rfl, -⟩
        exact hc List.mem_cons_self
      rw [List.cons_append, List.cons_append, splitOnce, if_neg hpre,
        ih fun h => hc (List.mem_cons_of_mem b h)]
      rfl

/-- A text without white space is already trimmed. -/
theorem trim_eq_self {s : Str} (hs : ∀ c ∈ s, isWhitespace c = false) : trim s = s := by
  have hdrop : ∀ l : Str, (∀ c ∈ l, isWhitespace c = false) → l.dropWhile isWhitespace = l := by
    intro l hl
    cases l with
    | nil => rfl
    | cons c l => rw [List.dropWhile_cons_of_neg (by simp [hl c])]
  rw [trim, hdrop s hs, hdrop s.reverse fun c hc => hs c (List.mem_reverse.mp hc),
    List.reverse_reverse]

/-! ### Byte indices -/

@[simp] theorem byteLen_nil : byteLen [] = 0 := rfl

@[simp] theorem byteLen_cons (c : Char) (s : Str) : byteLen (c :: s) = c.utf8Size + byteLen s := rfl

@[simp] theorem byteLen_append (s t : Str) : byteLen (s ++ t) = byteLen s + byteLen t := by
  induction s with
  | nil => rw [List.nil_append, byteLen_nil, Nat.zero_add]
  | cons c s ih => rw [List.cons_append, byteLen_cons, ih, byteLen_cons, Nat.add_assoc]

theorem splitAtByte_zero (s : Str) : splitAtByte s 0 = some ([], s) := by
  cases s <;> rfl

/-- One character before the index. -/
theorem splitAtByte_cons (c : Char) (s : Str) (n : ℕ) :
    splitAtByte (c :: s) (c.utf8Size + n) =
      (splitAtByte s n).map fun (before, rest) => (c :: before, rest) := by
  obtain ⟨k, hk⟩ : ∃ k, c.utf8Size = k + 1 := ⟨c.utf8Size - 1, by
    have hpos := c.utf8Size_pos
    omega⟩
  have hsum : c.utf8Size + n = k + n + 1 := by omega
  have hsub : k + n + 1 - c.utf8Size = n := by omega
  rw [hsum, splitAtByte, if_pos (by omega), hsub]

/-- An index inside a character is no boundary. -/
theorem splitAtByte_eq_none {c : Char} {s : Str} {n : ℕ} (hpos : 0 < n) (hlt : n < c.utf8Size) :
    splitAtByte (c :: s) n = none := by
  obtain ⟨k, rfl⟩ : ∃ k, n = k + 1 := ⟨n - 1, by omega⟩
  rw [splitAtByte, if_neg (Nat.not_le.mpr hlt)]

/-- **A boundary between characters**, and an index behind it. -/
theorem splitAtByte_append (s t : Str) (n : ℕ) :
    splitAtByte (s ++ t) (byteLen s + n) =
      (splitAtByte t n).map fun (before, rest) => (s ++ before, rest) := by
  induction s with
  | nil =>
      rw [byteLen_nil, Nat.zero_add]
      cases h : splitAtByte t n with
      | none => simp [h]
      | some pair => simp [h]
  | cons c s ih =>
      rw [List.cons_append, byteLen_cons, Nat.add_assoc, splitAtByte_cons, ih, Option.map_map]
      rfl

/-- A slice that starts at a boundary between characters. -/
theorem sliceBytes_append (s t : Str) (n : ℕ) :
    sliceBytes (s ++ t) (byteLen s) (byteLen s + n) = (splitAtByte t n).map Prod.fst := by
  have hsplit := splitAtByte_append s t 0
  rw [Nat.add_zero, splitAtByte_zero] at hsplit
  rw [sliceBytes, if_pos (Nat.le_add_right _ _), hsplit, Nat.add_sub_cancel_left]
  rfl

end FalconVanity
