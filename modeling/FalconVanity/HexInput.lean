import FalconVanity.Mnemonic

/-!
# Hex Input

An entropy can be given as hex digits. The parser slices the trimmed string at every second
byte and leaves each slice to `u8::from_str_radix`. Both choices show for strings that are not
digits: `from_str_radix` takes a sign in front of a digit, and a slice that ends inside a
character panics.

A function that may panic returns `Option`, and `none` is the panic.

## Main results

* `parsePairs_eq_ok_iff`, `parsePairs_eq_none_iff`: what the parser accepts, and where it
  panics.
* `hexLower_spec`: the printer never panics, and prints digits.
* `hex_parsed_exactly_iff`: the strings on which the parser accepts exactly the digits.
-/

namespace FalconVanity

/-! ### Digits -/

/-- `char::to_digit`, for the radix 16. -/
def toHexDigit (c : Char) : Option ℕ :=
  let n := c.toNat
  if '0'.toNat ≤ n ∧ n ≤ '9'.toNat then some (n - '0'.toNat)
  else if 'a'.toNat ≤ n ∧ n ≤ 'f'.toNat then some (n - 'a'.toNat + 10)
  else if 'A'.toNat ≤ n ∧ n ≤ 'F'.toNat then some (n - 'A'.toNat + 10)
  else none

/-- `char::from_digit`, for the radix 16. -/
def fromHexDigit (n : ℕ) : Option Char := "0123456789abcdef".toList[n]?

/-- `IntErrorKind`, as far as `u8::from_str_radix` returns it. The comments are the texts that are
displayed. -/
inductive IntErrorKind where
  /-- `cannot parse integer from empty string` -/
  | empty
  /-- `invalid digit found in string` -/
  | invalidDigit
  /-- `number too large to fit in target type` -/
  | posOverflow
  deriving DecidableEq

/-- The loop over the digits of `u8::from_str_radix`, after some of them. -/
def digitsValue : Str → ℕ → Except IntErrorKind UInt8
  | [], result => .ok result.toUInt8
  | c :: digits, result =>
    match toHexDigit c with
    | none => .error .invalidDigit
    | some x =>
      if result * 16 + x ≤ 255 then digitsValue digits (result * 16 + x)
      else .error .posOverflow

/-- `u8::from_str_radix`, for the radix 16. A plus sign is skipped. -/
def fromStrRadix16 (src : Str) : Except IntErrorKind UInt8 :=
  match src with
  | [] => .error .empty
  | [c] => if c = '+' ∨ c = '-' then .error .invalidDigit else digitsValue [c] 0
  | c :: digits => if c = '+' then digitsValue digits 0 else digitsValue (c :: digits) 0

/-! ### The parser and the printer -/

/-- The errors of `parse_hex`. The comments are the texts that are displayed. -/
inductive HexError where
  /-- `hex string must have even length` -/
  | oddLength
  /-- `bad hex: {e}` -/
  | badHex (e : IntErrorKind)
  deriving DecidableEq

/-- The pairs that start at the given byte indices. The first error ends the iteration. -/
def parsePairs (s : Str) : List ℕ → Option (Except HexError (List UInt8))
  | [] => some (.ok [])
  | i :: is =>
    (sliceBytes s i (i + 2)).bind fun pair =>
      match fromStrRadix16 pair with
      | .error e => some (.error (.badHex e))
      | .ok b => (parsePairs s is).map (Except.map (b :: ·))

/-- `parse_hex`: the trimmed text is read in pairs of bytes, each as a number in base 16. `none` is
a panic. -/
def parseHex (s : Str) : Option (Except HexError (List UInt8)) :=
  let s := trim s
  if byteLen s % 2 = 0 then parsePairs s (List.range' 0 (byteLen s / 2) 2)
  else some (.error .oddLength)

/-- `hex_lower`: two digits for each byte, in lower case. -/
def hexLower : List UInt8 → Option Str
  | [] => some []
  | b :: bytes =>
    (fromHexDigit (b >>> 4).toNat).bind fun hi =>
      (fromHexDigit (b &&& 0xf).toNat).bind fun lo =>
        (hexLower bytes).map fun s => hi :: lo :: s

/-! ### Pairs of characters -/

/-- An ASCII hex digit, in either case. -/
def IsHexDigit (c : Char) : Prop := (toHexDigit c).isSome

/-- The text of a list of pairs. -/
def pairsText (ps : List (Char × Char)) : Str := ps.flatMap fun p => [p.1, p.2]

/-- The value of two digits. -/
def pairValue (p : Char × Char) : UInt8 :=
  ((toHexDigit p.1).getD 0 * 16 + (toHexDigit p.2).getD 0).toUInt8

/-- An even number of hex digits, with the values of its pairs. -/
def HexText (t : Str) (bytes : List UInt8) : Prop :=
  ∃ ps, t = pairsText ps ∧ (∀ p ∈ ps, IsHexDigit p.1 ∧ IsHexDigit p.2) ∧
    bytes = ps.map pairValue

/-- A pair that the parser takes: two digits, or a plus sign and a digit. -/
def IsPair (p : Char × Char) : Prop := (p.1 = '+' ∨ IsHexDigit p.1) ∧ IsHexDigit p.2

/-- The second byte of the text is inside a character: the first character has three bytes or
more, or it has one and the second one has more. -/
def CutsChar : Str → Prop
  | [] => False
  | c :: s => 3 ≤ c.utf8Size ∨ c.utf8Size = 1 ∧ ∃ d ∈ s.head?, 1 < d.utf8Size

@[simp] theorem pairsText_nil : pairsText [] = [] := rfl

@[simp] theorem pairsText_cons (p : Char × Char) (ps : List (Char × Char)) :
    pairsText (p :: ps) = p.1 :: p.2 :: pairsText ps := rfl

/-- A text determines the pairs that it is written in. -/
theorem pairsText_injective : Function.Injective pairsText := by
  intro ps ps' h
  induction ps generalizing ps' with
  | nil =>
      cases ps' with
      | nil => rfl
      | cons p' ps' => cases h
  | cons p ps ih =>
      cases ps' with
      | nil => cases h
      | cons p' ps' =>
          rw [pairsText_cons, pairsText_cons] at h
          obtain ⟨h₁, h⟩ := List.cons.inj h
          obtain ⟨h₂, h⟩ := List.cons.inj h
          rw [ih h, Prod.ext h₁ h₂]

/-- A digit is an ASCII character between `0` and `f`, and its value is below 16. -/
theorem toHexDigit_eq_some {c : Char} {x : ℕ} (h : toHexDigit c = some x) :
    48 ≤ c.toNat ∧ c.toNat ≤ 102 ∧ x < 16 := by
  have h0 : '0'.toNat = 48 := rfl
  have h9 : '9'.toNat = 57 := rfl
  have ha : 'a'.toNat = 97 := rfl
  have hf : 'f'.toNat = 102 := rfl
  have hA : 'A'.toNat = 65 := rfl
  have hF : 'F'.toNat = 70 := rfl
  simp only [toHexDigit] at h
  split_ifs at h <;> cases h <;> omega

/-- A digit is one byte. -/
theorem IsHexDigit.utf8Size {c : Char} (h : IsHexDigit c) : c.utf8Size = 1 := by
  obtain ⟨x, hx⟩ := Option.isSome_iff_exists.mp h
  obtain ⟨-, hle, -⟩ := toHexDigit_eq_some hx
  exact Char.utf8Size_eq_one_iff.mpr (UInt32.le_iff_toNat_le.mpr (hle.trans (by decide)))

/-- Digits are not trimmed. -/
theorem IsHexDigit.isWhitespace {c : Char} (h : IsHexDigit c) : isWhitespace c = false := by
  obtain ⟨x, hx⟩ := Option.isSome_iff_exists.mp h
  obtain ⟨hge, hle, -⟩ := toHexDigit_eq_some hx
  simp only [FalconVanity.isWhitespace, Bool.or_eq_false_iff, Bool.and_eq_false_iff,
    decide_eq_false_iff_not, beq_eq_false_iff_ne]
  omega

/-- A plus sign is no digit, although the parser of numbers accepts one in front. -/
theorem not_isHexDigit_plus : ¬ IsHexDigit '+' := by
  simp [IsHexDigit, toHexDigit]

/-- Each half of a pair is one byte. -/
theorem IsPair.utf8Size {p : Char × Char} (h : IsPair p) : p.1.utf8Size = 1 ∧ p.2.utf8Size = 1 := by
  refine ⟨?_, h.2.utf8Size⟩
  rcases h.1 with hplus | hdigit
  · rw [hplus]
    rfl
  · exact hdigit.utf8Size

/-! ### One slice -/

/-- One digit in front of the rest. -/
theorem digitsValue_cons {c : Char} {x result : ℕ} (hx : toHexDigit c = some x)
    (hle : result ≤ 15) (digits : Str) :
    digitsValue (c :: digits) result = digitsValue digits (result * 16 + x) := by
  have hlt := (toHexDigit_eq_some hx).2.2
  rw [digitsValue, hx]
  dsimp only
  rw [if_pos (by omega)]

/-- The first character that is no digit ends the parser with an error. -/
theorem digitsValue_error {c : Char} (hc : ¬ IsHexDigit c) (digits : Str) (result : ℕ) :
    digitsValue (c :: digits) result = .error .invalidDigit := by
  have hnone : toHexDigit c = none := Option.not_isSome_iff_eq_none.mp hc
  rw [digitsValue, hnone]

/-- **A slice of two characters** is taken if it is a pair, with its value. -/
theorem fromStrRadix16_pair (p : Char × Char) :
    (IsPair p → fromStrRadix16 [p.1, p.2] = .ok (pairValue p)) ∧
      (¬ IsPair p → fromStrRadix16 [p.1, p.2] = .error .invalidDigit) := by
  obtain ⟨c, d⟩ := p
  have hdef : fromStrRadix16 [c, d] =
    if c = '+' then digitsValue [d] 0 else digitsValue [c, d] 0 := rfl
  rw [hdef]
  constructor
  · rintro ⟨hc, hd⟩
    obtain ⟨y, hy⟩ := Option.isSome_iff_exists.mp hd
    by_cases hplus : c = '+'
    · have hnone : toHexDigit '+' = none := Option.not_isSome_iff_eq_none.mp not_isHexDigit_plus
      rw [if_pos hplus, digitsValue_cons hy (by norm_num), hplus, pairValue, hnone, hy]
      rfl
    · obtain ⟨x, hx⟩ := Option.isSome_iff_exists.mp (hc.resolve_left hplus)
      have hlt := (toHexDigit_eq_some hx).2.2
      rw [if_neg hplus, digitsValue_cons hx (by norm_num), digitsValue_cons hy (by omega),
        pairValue, hx, hy, Nat.zero_mul, Nat.zero_add]
      rfl
  · intro hpair
    by_cases hplus : c = '+'
    · rw [if_pos hplus]
      exact digitsValue_error (fun hd => hpair ⟨.inl hplus, hd⟩) _ _
    · rw [if_neg hplus]
      by_cases hc : IsHexDigit c
      · obtain ⟨x, hx⟩ := Option.isSome_iff_exists.mp hc
        rw [digitsValue_cons hx (by norm_num)]
        exact digitsValue_error (fun hd => hpair ⟨.inr hc, hd⟩) _ _
      · exact digitsValue_error hc _ _

/-- A slice of one character that takes two bytes is no number. -/
theorem fromStrRadix16_singleton {c : Char} (hc : c.utf8Size = 2) :
    fromStrRadix16 [c] = .error .invalidDigit := by
  have hdigit : ¬ IsHexDigit c := fun h => absurd (h.utf8Size.symm.trans hc) (by norm_num)
  rw [fromStrRadix16, digitsValue_error hdigit, ite_self]

/-- A slice that ends inside a character panics. -/
theorem splitAtByte_of_cutsChar {t : Str} (ht : CutsChar t) :
    splitAtByte t 2 = none ∧ 3 ≤ byteLen t := by
  cases t with
  | nil => cases ht
  | cons c s =>
      rcases ht with hthree | ⟨hone, d, hd, hlt⟩
      · exact ⟨splitAtByte_eq_none two_pos hthree, by rw [byteLen_cons]; omega⟩
      · obtain ⟨s, rfl⟩ := List.head?_eq_some_iff.mp hd
        have hsplit := splitAtByte_cons c (d :: s) 1
        rw [hone, splitAtByte_eq_none one_pos hlt] at hsplit
        refine ⟨hsplit, ?_⟩
        rw [byteLen_cons, byteLen_cons]
        omega

/-- **The slice at the front of a text**: two characters of one byte, or one of two bytes,
unless it ends inside a character. -/
theorem splitAtByte_two_cases {t : Str} (ht : t ≠ []) (heven : byteLen t % 2 = 0)
    (hcut : ¬ CutsChar t) :
    (∃ p : Char × Char, ∃ rest, t = p.1 :: p.2 :: rest ∧
      splitAtByte t 2 = some ([p.1, p.2], rest)) ∨
    ∃ c rest, t = c :: rest ∧ c.utf8Size = 2 ∧ splitAtByte t 2 = some ([c], rest) := by
  obtain ⟨c, s, rfl⟩ := List.exists_cons_of_ne_nil ht
  have hle : c.utf8Size ≤ 2 := by
    by_contra hgt
    exact hcut (.inl (by omega))
  have hpos := c.utf8Size_pos
  by_cases htwo : c.utf8Size = 2
  · have hsplit := splitAtByte_cons c s 0
    rw [htwo, splitAtByte_zero] at hsplit
    exact .inr ⟨c, s, rfl, htwo, hsplit⟩
  have hone : c.utf8Size = 1 := by omega
  cases s with
  | nil =>
      rw [byteLen_cons, hone, byteLen_nil] at heven
      cases heven
  | cons d s =>
      have hdpos := d.utf8Size_pos
      have hd : d.utf8Size = 1 := by
        by_contra hne
        exact hcut (.inr ⟨hone, d, rfl, by omega⟩)
      have hsplit := splitAtByte_cons c (d :: s) 1
      have hsplit' := splitAtByte_cons d s 0
      rw [hd, splitAtByte_zero] at hsplit'
      rw [hone, hsplit'] at hsplit
      exact .inl ⟨(c, d), s, rfl, hsplit⟩

/-! ### All slices -/

/-- The rest of the iteration, in front of a text. -/
def parseRest (before t : Str) : Option (Except HexError (List UInt8)) :=
  parsePairs (before ++ t) (List.range' (byteLen before) (byteLen t / 2) 2)

/-- The slice at the front decides. -/
theorem parseRest_eq {before t : Str} (ht : 2 ≤ byteLen t) :
    parseRest before t =
      ((splitAtByte t 2).map Prod.fst).bind fun pair =>
        match fromStrRadix16 pair with
        | .error e => some (.error (.badHex e))
        | .ok b => (parsePairs (before ++ t)
            (List.range' (byteLen before + 2) (byteLen t / 2 - 1) 2)).map
              (Except.map (b :: ·)) := by
  obtain ⟨n, hn⟩ : ∃ n, byteLen t / 2 = n + 1 := ⟨byteLen t / 2 - 1, by omega⟩
  rw [parseRest, hn, List.range'_succ, parsePairs, sliceBytes_append, Nat.add_sub_cancel]

/-- A text whose first pair of bytes ends within a character makes the parser panic. -/
theorem parseRest_cutsChar {before t : Str} (ht : CutsChar t) : parseRest before t = none := by
  obtain ⟨hsplit, hlen⟩ := splitAtByte_of_cutsChar ht
  rw [parseRest_eq (by omega), hsplit]
  rfl

/-- **A pair** at the front. -/
theorem parseRest_pair {p : Char × Char} (hp : IsPair p) (before t : Str) :
    parseRest before (p.1 :: p.2 :: t) =
      (parseRest (before ++ [p.1, p.2]) t).map (Except.map (pairValue p :: ·)) := by
  obtain ⟨h₁, h₂⟩ := hp.utf8Size
  have hlen : byteLen (p.1 :: p.2 :: t) = 2 + byteLen t := by
    rw [byteLen_cons, byteLen_cons, h₁, h₂]
    omega
  have hbytes : byteLen [p.1, p.2] = 2 := by
    rw [byteLen_cons, byteLen_cons, byteLen_nil, h₁, h₂]
  have hhalf : (2 + byteLen t) / 2 - 1 = byteLen t / 2 := by omega
  have hsplit := splitAtByte_append [p.1, p.2] t 0
  rw [hbytes, splitAtByte_zero] at hsplit
  have hfront : splitAtByte (p.1 :: p.2 :: t) 2 = some ([p.1, p.2], t) := hsplit
  rw [parseRest_eq (by omega), hfront, Option.map_some, Option.bind_some,
    (fromStrRadix16_pair p).1 hp, parseRest, byteLen_append, hbytes, List.append_assoc, hlen,
    hhalf]
  rfl

/-- **Pairs at the front**, with their values. -/
theorem parseRest_pairs {ps : List (Char × Char)} (hps : ∀ p ∈ ps, IsPair p) (before t : Str) :
    parseRest before (pairsText ps ++ t) =
      (parseRest (before ++ pairsText ps) t).map (Except.map (ps.map pairValue ++ ·)) := by
  induction ps generalizing before with
  | nil =>
      have hid : Except.map (ε := HexError) (fun bytes : List UInt8 => [] ++ bytes) = id := by
        funext x
        cases x <;> rfl
      rw [pairsText_nil, List.nil_append, List.append_nil, List.map_nil, hid, Option.map_id_apply]
  | cons p ps ih =>
      have hcomp : Except.map (ε := HexError) ((p :: ps).map pairValue ++ ·) =
          Except.map (pairValue p :: ·) ∘ Except.map (ps.map pairValue ++ ·) := by
        funext x
        cases x <;> rfl
      rw [pairsText_cons, List.cons_append, List.cons_append,
        parseRest_pair (hps p List.mem_cons_self),
        ih (fun q hq => hps q (List.mem_cons_of_mem _ hq)), Option.map_map, hcomp,
        List.append_assoc]
      rfl

/-- A text that goes on with neither a pair nor a cut is an error. -/
theorem parseRest_error {before t : Str} (ht : t ≠ []) (heven : byteLen t % 2 = 0)
    (hcut : ¬ CutsChar t) (hpair : ∀ p rest, t = p.1 :: p.2 :: rest → ¬ IsPair p) :
    parseRest before t = some (.error (.badHex .invalidDigit)) := by
  have hlen : 2 ≤ byteLen t := by
    obtain ⟨c, s, rfl⟩ := List.exists_cons_of_ne_nil ht
    have hpos := c.utf8Size_pos
    rw [byteLen_cons] at heven ⊢
    omega
  rw [parseRest_eq hlen]
  rcases splitAtByte_two_cases ht heven hcut with
    ⟨p, rest, rfl, hsplit⟩ | ⟨c, rest, rfl, htwo, hsplit⟩
  · rw [hsplit, Option.map_some, Option.bind_some,
      (fromStrRadix16_pair p).2 (hpair p rest rfl)]
  · rw [hsplit, Option.map_some, Option.bind_some, fromStrRadix16_singleton htwo]

/-- The pairs at the front of a text, up to a place where none starts. -/
theorem exists_pairs : ∀ t : Str, ∃ ps rest, t = pairsText ps ++ rest ∧
    (∀ p ∈ ps, IsPair p) ∧ ∀ (p : Char × Char) s, rest = p.1 :: p.2 :: s → ¬ IsPair p
  | [] => ⟨[], [], rfl, by simp, fun p s h => by cases h⟩
  | [c] => ⟨[], [c], rfl, by simp, fun p s h => by cases h⟩
  | c :: d :: t => by
      by_cases hp : IsPair (c, d)
      · obtain ⟨ps, rest, rfl, hps, hrest⟩ := exists_pairs t
        exact ⟨(c, d) :: ps, rest, rfl, List.forall_mem_cons.mpr ⟨hp, hps⟩, hrest⟩
      · refine ⟨[], c :: d :: t, rfl, by simp, fun p s h => ?_⟩
        obtain ⟨c', d'⟩ := p
        cases h
        exact hp

/-- The text of `n` pairs has `2 * n` bytes. -/
theorem byteLen_pairsText {ps : List (Char × Char)} (hps : ∀ p ∈ ps, IsPair p) :
    byteLen (pairsText ps) = 2 * ps.length := by
  induction ps with
  | nil => rfl
  | cons p ps ih =>
      obtain ⟨h₁, h₂⟩ := (hps p List.mem_cons_self).utf8Size
      rw [pairsText_cons, byteLen_cons, byteLen_cons, h₁, h₂,
        ih fun q hq => hps q (List.mem_cons_of_mem _ hq), List.length_cons]
      omega

/-- **What the iteration returns** on a text of even length, in terms of the pairs at its
front. -/
theorem parseRest_cases (before : Str) {t : Str} (heven : byteLen t % 2 = 0) :
    (∃ ps, t = pairsText ps ∧ (∀ p ∈ ps, IsPair p) ∧
      parseRest before t = some (.ok (ps.map pairValue))) ∨
    (∃ ps rest, t = pairsText ps ++ rest ∧ (∀ p ∈ ps, IsPair p) ∧ CutsChar rest ∧
      parseRest before t = none) ∨
    parseRest before t = some (.error (.badHex .invalidDigit)) := by
  obtain ⟨ps, rest, rfl, hps, hpair⟩ := exists_pairs t
  have heven' : byteLen rest % 2 = 0 := by
    rw [byteLen_append, byteLen_pairsText hps] at heven
    omega
  rw [parseRest_pairs hps]
  by_cases hnil : rest = []
  · subst hnil
    refine .inl ⟨ps, List.append_nil _, hps, ?_⟩
    have hdone : parseRest (before ++ pairsText ps) [] = some (.ok []) := rfl
    rw [hdone, Option.map_some, Except.map, List.append_nil]
  by_cases hcut : CutsChar rest
  · exact .inr (.inl ⟨ps, rest, rfl, hps, hcut, by rw [parseRest_cutsChar hcut]; rfl⟩)
  · rw [parseRest_error hnil heven' hcut hpair]
    exact .inr (.inr rfl)

/-! ### The parser -/

/-- The parser on a text of even length is the iteration from its start. -/
theorem parseHex_of_even {s : Str} (h : byteLen (trim s) % 2 = 0) :
    parseHex s = parseRest [] (trim s) := by
  rw [parseHex, if_pos h]
  rfl

/-- A text with an odd number of bytes is rejected before anything is sliced. -/
theorem parseHex_of_odd {s : Str} (h : byteLen (trim s) % 2 ≠ 0) :
    parseHex s = some (.error .oddLength) := by
  rw [parseHex, if_neg h]

/-- **What the parser accepts**: pairs, after trimming. -/
theorem parseHex_eq_ok_iff {s : Str} {bytes : List UInt8} :
    parseHex s = some (.ok bytes) ↔
      ∃ ps, trim s = pairsText ps ∧ (∀ p ∈ ps, IsPair p) ∧ bytes = ps.map pairValue := by
  constructor
  · intro h
    by_cases heven : byteLen (trim s) % 2 = 0
    · rw [parseHex_of_even heven] at h
      rcases parseRest_cases [] heven with
        ⟨ps, ht, hps, hok⟩ | ⟨-, -, -, -, -, hnone⟩ | herror
      · rw [hok] at h
        cases h
        exact ⟨ps, ht, hps, rfl⟩
      · rw [hnone] at h
        cases h
      · rw [herror] at h
        cases h
    · rw [parseHex_of_odd heven] at h
      cases h
  · rintro ⟨ps, ht, hps, rfl⟩
    have heven : byteLen (trim s) % 2 = 0 := by
      rw [ht, byteLen_pairsText hps]
      omega
    have hdone : parseRest ([] ++ pairsText ps) [] = some (.ok []) := rfl
    rw [parseHex_of_even heven, ht, ← List.append_nil (pairsText ps), parseRest_pairs hps, hdone,
      Option.map_some, Except.map, List.append_nil]

/-- **Where the parser panics**: behind pairs, at a slice that ends inside a character. -/
theorem parseHex_eq_none_iff {s : Str} :
    parseHex s = none ↔ byteLen (trim s) % 2 = 0 ∧
      ∃ ps rest, trim s = pairsText ps ++ rest ∧ (∀ p ∈ ps, IsPair p) ∧ CutsChar rest := by
  constructor
  · intro h
    by_cases heven : byteLen (trim s) % 2 = 0
    · rw [parseHex_of_even heven] at h
      rcases parseRest_cases [] heven with
        ⟨ps, -, -, hok⟩ | ⟨ps, rest, ht, hps, hcut, -⟩ | herror
      · rw [hok] at h
        cases h
      · exact ⟨heven, ps, rest, ht, hps, hcut⟩
      · rw [herror] at h
        cases h
    · rw [parseHex_of_odd heven] at h
      cases h
  · rintro ⟨heven, ps, rest, ht, hps, hcut⟩
    rw [parseHex_of_even heven, ht, parseRest_pairs hps, parseRest_cutsChar hcut]
    rfl

/-! ### The printer -/

/-- A digit that is printed is read as its value. -/
theorem toHexDigit_of_fromHexDigit {n : ℕ} (hn : n < 16) :
    ∃ c, fromHexDigit n = some c ∧ toHexDigit c = some n := by
  have hall : ∀ n < 16, ((fromHexDigit n).bind toHexDigit) = some n := by decide
  exact Option.bind_eq_some_iff.mp (hall n hn)

/-- **The printer never panics**, and prints the digits of the bytes. -/
theorem hexLower_spec (bytes : List UInt8) : ∃ s, hexLower bytes = some s ∧ HexText s bytes := by
  induction bytes with
  | nil => exact ⟨[], rfl, [], rfl, by simp, rfl⟩
  | cons b bytes ih =>
      obtain ⟨s, hs, ps, rfl, hps, rfl⟩ := ih
      have hb := b.toNat_lt
      have hhi : (b >>> 4).toNat = b.toNat / 16 := by
        rw [UInt8.toNat_shiftRight]
        exact Nat.shiftRight_eq_div_pow _ _
      have hlo : (b &&& 0xf).toNat = b.toNat % 16 := by
        rw [UInt8.toNat_and]
        exact Nat.and_two_pow_sub_one_eq_mod _ 4
      obtain ⟨c, hc, hcv⟩ := toHexDigit_of_fromHexDigit (n := b.toNat / 16) (by omega)
      obtain ⟨d, hd, hdv⟩ := toHexDigit_of_fromHexDigit (n := b.toNat % 16) (by omega)
      refine ⟨c :: d :: pairsText ps, ?_, (c, d) :: ps, rfl, ?_, ?_⟩
      · rw [hexLower, hhi, hlo, hc, hd, hs]
        rfl
      · refine List.forall_mem_cons.mpr ⟨⟨?_, ?_⟩, hps⟩
        · rw [IsHexDigit, hcv]
          rfl
        · rw [IsHexDigit, hdv]
          rfl
      · have hvalue : b.toNat / 16 * 16 + b.toNat % 16 = b.toNat := by omega
        rw [List.map_cons, pairValue, hcv, hdv, Option.getD_some, Option.getD_some, hvalue]
        congr 1
        exact UInt8.ofNat_toNat.symm

/-- A text of pairs begins and ends with no white space. -/
theorem HexText.trim {t : Str} {bytes : List UInt8} (h : HexText t bytes) :
    FalconVanity.trim t = t := by
  obtain ⟨ps, rfl, hps, -⟩ := h
  refine trim_eq_self fun c hc => ?_
  obtain ⟨p, hp, hcp⟩ := List.mem_flatMap.mp hc
  rcases List.mem_cons.mp hcp with rfl | hcp
  · exact (hps p hp).1.isWhitespace
  · rw [List.mem_singleton.mp hcp]
    exact (hps p hp).2.isWhitespace

/-! ### Exactness -/

/-- The parser is exact on a string: it returns, and it accepts the digits and nothing else,
with their values. -/
structure ParsedExactly (s : Str) : Prop where
  returns : parseHex s ≠ none
  ok_iff : ∀ bytes, parseHex s = some (.ok bytes) ↔ HexText (trim s) bytes

/-- The trimmed texts on which the parser is not exact: of even length, and behind pairs a slice
ends inside a character, or there are only pairs and one of them starts with a plus sign. -/
def Misread (t : Str) : Prop :=
  byteLen t % 2 = 0 ∧ ∃ ps rest, t = pairsText ps ++ rest ∧ (∀ p ∈ ps, IsPair p) ∧
    (CutsChar rest ∨ rest = [] ∧ ∃ p ∈ ps, p.1 = '+')

/-- **When hex input is parsed exactly.** What the printer prints is always read back. The
parser is exact on a string unless the string, after trimming, has an even number of bytes and
either holds a character that a slice behind pairs cuts, which is a panic, or holds pairs only,
one of them with a plus sign, which is accepted. -/
theorem hex_parsed_exactly_iff (bytes : List UInt8) (s : Str) :
    (∃ t, hexLower bytes = some t ∧ parseHex t = some (.ok bytes)) ∧
      (ParsedExactly s ↔ ¬ Misread (trim s)) := by
  constructor
  · obtain ⟨s, hs, htext⟩ := hexLower_spec bytes
    have htrim := htext.trim
    obtain ⟨ps, ht, hps, hbytes⟩ := htext
    refine ⟨s, hs, parseHex_eq_ok_iff.mpr ⟨ps, by rw [htrim, ht], fun p hp => ?_, hbytes⟩⟩
    exact ⟨.inr (hps p hp).1, (hps p hp).2⟩
  constructor
  · rintro ⟨hreturns, hok⟩ ⟨heven, ps, rest, ht, hps, hcut | ⟨rfl, p, hp, hplus⟩⟩
    · exact hreturns (parseHex_eq_none_iff.mpr ⟨heven, ps, rest, ht, hps, hcut⟩)
    · rw [List.append_nil] at ht
      obtain ⟨ps', ht', hps', -⟩ := (hok _).mp (parseHex_eq_ok_iff.mpr ⟨ps, ht, hps, rfl⟩)
      obtain rfl := pairsText_injective (ht.symm.trans ht')
      exact not_isHexDigit_plus (hplus ▸ (hps' p hp).1)
  · intro hread
    refine ⟨fun hnone => ?_, fun bytes => ⟨fun h => ?_, ?_⟩⟩
    · obtain ⟨heven, ps, rest, ht, hps, hcut⟩ := parseHex_eq_none_iff.mp hnone
      exact hread ⟨heven, ps, rest, ht, hps, .inl hcut⟩
    · obtain ⟨ps, ht, hps, hbytes⟩ := parseHex_eq_ok_iff.mp h
      have heven : byteLen (trim s) % 2 = 0 := by
        rw [ht, byteLen_pairsText hps]
        omega
      refine ⟨ps, ht, fun p hp => ⟨?_, (hps p hp).2⟩, hbytes⟩
      refine (hps p hp).1.resolve_left fun hplus => hread ⟨heven, ps, [], ?_, hps, ?_⟩
      · rw [ht, List.append_nil]
      · exact .inr ⟨rfl, p, hp, hplus⟩
    · rintro ⟨ps, ht, hps, hbytes⟩
      refine parseHex_eq_ok_iff.mpr ⟨ps, ht, fun p hp => ?_, hbytes⟩
      exact ⟨.inr (hps p hp).1, (hps p hp).2⟩

/-- A plus sign is accepted, and a character of two bytes can be cut. -/
theorem hex_sign_accepted_and_char_cut :
    (parseHex ['+', 'f'] = some (.ok [15]) ∧ ¬ ParsedExactly ['+', 'f']) ∧
      parseHex ['a', 'é', 'a'] = none ∧ ¬ ParsedExactly ['a', 'é', 'a'] := by
  have hsign : parseHex ['+', 'f'] = some (.ok [15]) := by decide
  have hcut : parseHex ['a', 'é', 'a'] = none := by decide
  refine ⟨⟨hsign, fun h => ?_⟩, hcut, fun h => h.returns hcut⟩
  obtain ⟨ps, ht, hps, -⟩ := (h.ok_iff _).mp hsign
  have htrim : trim ['+', 'f'] = pairsText [('+', 'f')] := by decide
  obtain rfl := pairsText_injective (htrim.symm.trans ht)
  exact not_isHexDigit_plus (hps _ List.mem_cons_self).1

end FalconVanity
