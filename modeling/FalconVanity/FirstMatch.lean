import FalconVanity.Targets

/-!
# The Matcher of the Search Loops

The CPU searches look for a target in every address they derive. Most of the time they
encode only the leading bytes of it: a leading pattern of at most 51 characters is decided by
the address alone, so it is compared with the encoding of as many bytes as the longest such
pattern needs, and the display string with its checksum is built only when a target needs it.

The flags of the targets are read one at a time, while other threads may clear them. So the
comparison for one target, `matchesAt`, is a definition of its own, and `firstMatch` is the
matcher for flags that do not change meanwhile.

## Main results

* `startsWith_base32Nopad_append`: leading characters need only the leading bytes.
* `TargetSet.matchesAt_iff`: the comparison for one target, on the display string.
* `TargetSet.firstMatch_eq_firstMatchDisplay`: the two matchers of the source agree.
-/

namespace FalconVanity

open Positional

/-! ### Leading characters of an encoding -/

/-- The characters of an encoding that a number of bits determines. -/
theorem base32Padded_div {bytes : List UInt8} {n r : ℕ}
    (hlen : (8 * bytes.length + 4) / 5 = n + r) (hn : 5 * n ≤ 8 * bytes.length) :
    base32Padded bytes / 32 ^ r =
      ofDigitsBE 256 (bytes.map UInt8.toNat) / 2 ^ (8 * bytes.length - 5 * n) := by
  have hpow : 32 ^ r = 2 ^ (5 * r) := by rw [pow_mul]; norm_num
  have hsplit : 2 ^ (5 * r) = 2 ^ (8 * bytes.length - 5 * n) *
      2 ^ (5 * ((8 * bytes.length + 4) / 5) - 8 * bytes.length) := by
    rw [← pow_add]
    congr 1
    omega
  rw [base32Padded, hpow, hsplit, Nat.mul_div_mul_right _ _ (by positivity)]

/-- **Leading characters need only the leading bytes.** -/
theorem startsWith_base32Nopad_append {s : Str} (hs : ∀ c ∈ s, c ∈ base32Alphabet)
    {a b : List UInt8} (h : 5 * s.length ≤ 8 * a.length) :
    s <+: base32Nopad a ↔ s <+: base32Nopad (a ++ b) := by
  obtain ⟨r, hr⟩ : ∃ r, (8 * a.length + 4) / 5 = s.length + r :=
    Nat.exists_eq_add_of_le (by omega)
  obtain ⟨r', hr'⟩ : ∃ r, (8 * (a ++ b).length + 4) / 5 = s.length + r :=
    Nat.exists_eq_add_of_le (by rw [List.length_append]; omega)
  have hvalue : ofDigitsBE 256 ((a ++ b).map UInt8.toNat) /
      2 ^ (8 * (a ++ b).length - 5 * s.length) =
      ofDigitsBE 256 (a.map UInt8.toNat) / 2 ^ (8 * a.length - 5 * s.length) := by
    have hexp : 8 * (a ++ b).length - 5 * s.length =
        8 * b.length + (8 * a.length - 5 * s.length) := by
      rw [List.length_append]
      omega
    have hb := ofDigitsBE_lt (by norm_num) (Words.lt_of_mem_bytes b)
    rw [List.length_map] at hb
    have hpow : 256 ^ b.length = 2 ^ (8 * b.length) := by rw [pow_mul]; norm_num
    rw [hexp, pow_add, ← Nat.div_div_eq_div_mul, List.map_append, ofDigitsBE_append,
      List.length_map, ← hpow, add_comm, Nat.add_mul_div_right _ _ (by positivity),
      Nat.div_eq_of_lt hb, zero_add]
  rw [startsWith_base32Nopad hs hr, startsWith_base32Nopad hs hr',
    base32Padded_div hr h, base32Padded_div hr' (by rw [List.length_append]; omega), hvalue]

/-! ### The matcher -/

namespace TargetSet

variable (S : TargetSet) (P : Primitives) (active : Active)

/-- The leading bytes that `first_match` encodes. -/
def headBytes : ℕ := (min S.maxPrefix addrOnlyChars * 5 + 7) / 8

/-- The comparison of `first_match` for the target with an index, after its flag was read.
The display string is built when it is first needed; its value is the same every time. -/
def matchesAt (addr : Address) (i : ℕ) : Bool :=
  S.list[i]?.any fun t =>
    let head := base32Nopad (addr.toList.take S.headBytes)
    let prefixOk :=
      if t.pfx.length ≤ addrOnlyChars then t.pfx.isPrefixOf head
      else t.pfx.isPrefixOf (Address.toAddressString P addr)
    prefixOk && (t.sfx.isEmpty || t.sfx.isSuffixOf (Address.toAddressString P addr))

/-- `TargetSet::first_match`: the hot-path matcher. -/
def firstMatch (addr : Address) : Option ℕ :=
  (List.range S.list.length).find? fun i => active i && S.matchesAt P addr i

variable {S}

/-- The slice of the leading bytes is within the address. -/
theorem headBytes_le : S.headBytes ≤ 32 := by
  have hchars : addrOnlyChars = 51 := rfl
  rw [headBytes]
  omega

/-- A leading pattern of a target is decided by the bytes that are encoded for it. -/
theorem startsWith_head_iff {t : Target} (ht : t ∈ S.list)
    (hlen : t.pfx.length ≤ addrOnlyChars) (addr : Address) :
    t.pfx <+: base32Nopad (addr.toList.take S.headBytes) ↔
      t.pfx <+: Address.toAddressString P addr := by
  have hmax : t.pfx.length ≤ S.maxPrefix := S.maxPrefix_eq ▸ le_longest ht
  have hchars : addrOnlyChars = 51 := rfl
  have hhead : 5 * t.pfx.length ≤ 8 * S.headBytes := by
    rw [headBytes]
    omega
  have hbytes : Address.toAddressString P addr = base32Nopad
      (addr.toList.take S.headBytes ++
        (addr.toList.drop S.headBytes ++ Address.checksum P addr)) := by
    rw [← List.append_assoc, List.take_append_drop]
    rfl
  rw [hbytes]
  refine startsWith_base32Nopad_append (S.valid t ht).pfx_chars ?_
  rwa [List.length_take, Vector.length_toList, min_eq_left headBytes_le]

/-- **The comparison for one target**, on the display string. -/
theorem matchesAt_iff {addr : Address} {i : ℕ} :
    S.matchesAt P addr i = true ↔
      ∃ t, S.list[i]? = some t ∧ t.pfx <+: Address.toAddressString P addr ∧
        t.sfx <:+ Address.toAddressString P addr := by
  rw [matchesAt, Option.any_eq_true]
  refine exists_congr fun t => and_congr_right fun ht => ?_
  have hmem : t ∈ S.list := List.mem_of_getElem? ht
  rw [Bool.and_eq_true, Bool.or_eq_true, List.isEmpty_iff, List.isSuffixOf_iff_suffix]
  refine and_congr ?_ ⟨?_, .inr⟩
  · by_cases hlen : t.pfx.length ≤ addrOnlyChars
    · rw [if_pos hlen, List.isPrefixOf_iff_prefix, startsWith_head_iff P hmem hlen]
    · rw [if_neg hlen, List.isPrefixOf_iff_prefix]
  · rintro (h | h)
    · rw [h]
      exact List.nil_suffix
    · exact h

/-- **The two matchers of the source agree.** -/
theorem firstMatch_eq_firstMatchDisplay (addr : Address) :
    S.firstMatch P active addr =
      S.firstMatchDisplay active (Address.toAddressString P addr) := by
  rw [firstMatch, firstMatchDisplay]
  refine congrArg (List.find? · _) (funext fun i => congrArg (active i && ·) ?_)
  rw [Bool.eq_iff_iff, matchesAt_iff, Option.any_eq_true]
  simp only [Target.matchesDisplay_iff]

/-- **The lazy matcher is the display matcher.** For every validated set and all flags, the
slice of the leading bytes is within the address, and the lazy matcher returns what the display
matcher returns for the display string: the least active target that occurs in it, if any. -/
theorem lazy_matcher_agrees_with_display (S : TargetSet) (P : Primitives) (active : Active)
    (addr : Address) :
    S.headBytes ≤ addr.toList.length ∧
      S.firstMatch P active addr =
        S.firstMatchDisplay active (Address.toAddressString P addr) ∧
      ∀ i, S.firstMatch P active addr = some i ↔
        S.Matches active (Address.toAddressString P addr) i ∧
          ∀ j < i, ¬ S.Matches active (Address.toAddressString P addr) j := by
  have heq := firstMatch_eq_firstMatchDisplay (S := S) P active addr
  refine ⟨?_, heq, fun i => ?_⟩
  · rw [Vector.length_toList]
    exact headBytes_le
  · rw [heq]
    exact S.firstMatchDisplay_eq_some_iff active

end TargetSet

end FalconVanity
