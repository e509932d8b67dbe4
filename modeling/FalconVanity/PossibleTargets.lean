import FalconVanity.Matcher
import FalconVanity.TargetParse

/-!
# Targets That Can Occur

The display string of an address encodes 36 bytes in 58 characters, of which the last one
carries three bits of data. The encodings are exactly the strings of 58 characters of the
alphabet that end in one of eight of them, so a target can occur unless one of its sides
reaches the last position with another character.

The validation of a target looks at the last character of the trailing side only. A leading
side of 58 characters reaches the last position too, and is not checked there.

## Main results

* `exists_base32Nopad_eq_iff`: the image of the encoding.
* `Target.occurs_iff`: which targets can occur.
* `parse_rejects_impossible_iff`: when the options of a single target are accepted exactly if
  the target can occur.
-/

namespace FalconVanity

open Positional

/-- A target can occur: some 36 bytes, an address and a checksum, have an encoding that starts
and ends with its sides. -/
def Target.Occurs (t : Target) : Prop :=
  ∃ bytes : List UInt8, bytes.length = 36 ∧
    t.pfx <+: base32Nopad bytes ∧ t.sfx <:+ base32Nopad bytes

/-! ### The image of the encoding -/

theorem base32Char_mem (d : ℕ) : base32Char d ∈ base32Alphabet := by
  rw [base32Char, List.getD_eq_getElem?_getD]
  cases hc : base32Alphabet[d]? with
  | none => decide
  | some c => exact List.mem_of_getElem? hc

/-- A digit that ends in two zero bits is printed as one of the last characters. -/
theorem base32Char_mem_lastChars (n : ℕ) : base32Char (n * 4 % 32) ∈ lastChars := by
  have hall : ∀ k < 8, base32Char (k * 4) ∈ lastChars := by decide
  have hmod : n * 4 % 32 = n % 8 * 4 := by omega
  rw [hmod]
  exact hall (n % 8) (Nat.mod_lt n (by norm_num))

/-- **The image of the encoding** of 36 bytes. -/
theorem exists_base32Nopad_eq_iff {d : Str} :
    (∃ bytes : List UInt8, bytes.length = 36 ∧ base32Nopad bytes = d) ↔
      d.length = displayLen ∧ (∀ c ∈ d, c ∈ base32Alphabet) ∧
        ∀ c ∈ d.getLast?, c ∈ lastChars := by
  constructor
  · rintro ⟨bytes, hbytes, rfl⟩
    have hsplit : base32Nopad bytes =
        (digitsBE 32 57 (base32Padded bytes / 32 ^ 1)).map base32Char ++
          (digitsBE 32 1 (base32Padded bytes)).map base32Char :=
      base32Nopad_split (by rw [hbytes])
    refine ⟨by rw [length_base32Nopad, hbytes]; rfl, ?_, ?_⟩
    · intro c hc
      rw [base32Nopad] at hc
      obtain ⟨x, -, rfl⟩ := List.mem_map.mp hc
      exact base32Char_mem x
    · have hone : digitsBE 32 1 (base32Padded bytes) = [base32Padded bytes % 32] := rfl
      have hpadded : base32Padded bytes = ofDigitsBE 256 (bytes.map UInt8.toNat) * 4 := by
        rw [base32Padded, hbytes]
        rfl
      intro c hc
      rw [hsplit, hone, List.map_singleton, List.getLast?_concat, Option.mem_some_iff] at hc
      rw [← hc, hpadded]
      exact base32Char_mem_lastChars _
  · rintro ⟨hlen, hd, hlast⟩
    obtain ⟨v, hv⟩ := four_dvd_base32Value hlast
    have hbase : (32 : ℕ) ^ d.length = 256 ^ 36 * 4 := by
      rw [hlen]
      rfl
    have hlt : base32Value d < 256 ^ 36 * 4 := by
      rw [← hbase]
      exact (base32Value_lt hd).trans_eq (by rw [pow_mul]; norm_num)
    have hbytes : (digitsBE 256 36 v).map (UInt8.toNat ∘ UInt8.ofNat) = digitsBE 256 36 v := by
      refine (List.map_congr_left fun x hx => ?_).trans (List.map_id _)
      exact UInt8.toNat_ofNat_of_lt' (lt_of_mem_digitsBE (by norm_num) hx)
    have hvlt : v < 256 ^ 36 := by omega
    refine ⟨(digitsBE 256 36 v).map UInt8.ofNat, by simp, ?_⟩
    have hvalue : ofDigitsBE 256 (((digitsBE 256 36 v).map UInt8.ofNat).map UInt8.toNat) = v := by
      rw [List.map_map, hbytes, ofDigitsBE_digitsBE, Nat.mod_eq_of_lt hvlt]
    have hmod : v * 4 % 32 ^ d.length = base32Value d := by
      rw [hbase, hv, Nat.mul_comm 4, Nat.mod_eq_of_lt (by omega)]
    have hdigits := (map_base32Char_digitsBE_eq_iff hd (v * 4)).mpr hmod
    rw [hlen] at hdigits
    rw [base32Nopad, hvalue, List.length_map, length_digitsBE]
    exact hdigits

/-! ### Targets -/

/-- **Which targets can occur**, among those over the alphabet that are not too long. -/
theorem Target.occurs_iff {t : Target} (hp : ∀ c ∈ t.pfx, c ∈ base32Alphabet)
    (hs : ∀ c ∈ t.sfx, c ∈ base32Alphabet)
    (hlen : t.pfx.length + t.sfx.length ≤ displayLen) :
    t.Occurs ↔ (∀ c ∈ t.sfx.getLast?, c ∈ lastChars) ∧
      (t.pfx.length = displayLen → ∀ c ∈ t.pfx.getLast?, c ∈ lastChars) := by
  constructor
  · rintro ⟨bytes, hbytes, hpfx, hsfx⟩
    obtain ⟨hdisplay, -, hlast⟩ := exists_base32Nopad_eq_iff.mp ⟨bytes, hbytes, rfl⟩
    refine ⟨fun c hc => hlast c ?_, fun hfull => ?_⟩
    · obtain ⟨front, hfront⟩ := hsfx
      rw [← hfront, List.getLast?_append, Option.mem_def.mp hc]
      rfl
    · rwa [hpfx.eq_of_length (hfull.trans hdisplay.symm)]
  · rintro ⟨hsfx, hfull⟩
    -- The gap between the sides is filled with a character that may also stand last.
    let gap := List.replicate (displayLen - (t.pfx.length + t.sfx.length)) 'A'
    have hgap : ∀ c ∈ gap, c = 'A' := fun c hc => List.eq_of_mem_replicate hc
    obtain ⟨bytes, hbytes, hd⟩ :
        ∃ bytes : List UInt8, bytes.length = 36 ∧ base32Nopad bytes = t.pfx ++ gap ++ t.sfx := by
      refine exists_base32Nopad_eq_iff.mpr ⟨?_, ?_, ?_⟩
      · simp only [gap, List.length_append, List.length_replicate]
        omega
      · intro c hc
        rcases List.mem_append.mp hc with hc | hc
        · rcases List.mem_append.mp hc with hc | hc
          · exact hp c hc
          · rw [hgap c hc]
            decide
        · exact hs c hc
      · intro c hc
        rw [List.getLast?_append, Option.mem_def, Option.or_eq_some_iff] at hc
        rcases hc with hc | ⟨hnil, hc⟩
        · exact hsfx c hc
        · rw [List.getLast?_append, Option.or_eq_some_iff] at hc
          rcases hc with hc | ⟨hempty, hc⟩
          · rw [hgap c (List.mem_of_getLast? hc)]
            decide
          · rw [List.getLast?_eq_none_iff] at hnil hempty
            have hzero : displayLen - (t.pfx.length + t.sfx.length) = 0 := by
              simpa [gap] using congrArg List.length hempty
            rw [hnil, List.length_nil] at hzero hlen
            exact hfull (by omega) c hc
    refine ⟨bytes, hbytes, ?_, ?_⟩
    · rw [hd, List.append_assoc]
      exact List.prefix_append _ _
    · rw [hd]
      exact List.suffix_append _ _

/-- **The options for a single target** over the alphabet: its label is a pattern list. -/
theorem expandTargets_label {t : Target} (hp : ∀ c ∈ t.pfx, c ∈ base32Alphabet)
    (hs : ∀ c ∈ t.sfx, c ∈ base32Alphabet) :
    expandTargets none none (some t.label) = .ok [t] := by
  have hentry := t.isEntry_label
  have hentries : entries t.label = [t.label] := by
    have hjoined := entries_intercalate (List.cons_ne_nil t.label []) fun e he => by
      rw [List.mem_singleton.mp he]
      exact hentry.mem_entryChars hp hs
    rwa [List.intercalate_singleton] at hjoined
  rw [expandTargets_some_eq_ok_iff, hentries]
  refine .cons ⟨hentry.ne_nil, ?_⟩ .nil
  obtain ⟨sep, hsep, hlabel⟩ := hentry
  rw [hlabel]
  exact splitPair_append hp hs hsep

/-- The options of a single target are accepted exactly when the target is valid. -/
theorem exists_parse_single_iff {pfx sfx pattern : Option Str} {t : Target} {keepFound : Bool}
    (h : expandTargets pfx sfx pattern = .ok [t]) :
    (∃ S, TargetSet.parse pfx sfx pattern keepFound = .ok S) ↔ t.Valid := by
  have hsingle : [t].eraseDups = [t] := rfl
  constructor
  · rintro ⟨S, hS⟩
    obtain ⟨ts, hts, hvalidate, -⟩ := exists_parse_eq_ok_iff_expand.mp ⟨S, hS, rfl⟩
    obtain rfl : [t] = ts := Except.ok.inj (h.symm.trans hts)
    exact (validateTargets_eq_ok_iff List.eraseDups_nil).mp hvalidate |>.1 t
      List.mem_cons_self
  · intro ht
    have hvalidate : validateTargets [] [t] = .ok [t] :=
      (validateTargets_eq_ok_iff List.eraseDups_nil).mpr
        ⟨by simpa using ht, by rw [List.nil_append, hsingle]⟩
    obtain ⟨S, hS, -⟩ := exists_parse_eq_ok_iff_expand.mpr
      ⟨[t], h, hvalidate, le_rfl, Nat.one_le_two_pow (n := 10)⟩
    exact ⟨S, hS⟩

/-- **When parsing rejects exactly the impossible targets.** The options of a single target
over the alphabet, not empty and not too long, are accepted exactly if the target can occur,
if and only if a leading side of full length ends in a character that can end an address. -/
theorem parse_rejects_impossible_iff {pfx sfx pattern : Option Str} {t : Target}
    {keepFound : Bool} (h : expandTargets pfx sfx pattern = .ok [t])
    (hp : ∀ c ∈ t.pfx, c ∈ base32Alphabet) (hs : ∀ c ∈ t.sfx, c ∈ base32Alphabet)
    (hne : t.pfx ≠ [] ∨ t.sfx ≠ []) (hlen : t.pfx.length + t.sfx.length ≤ displayLen) :
    ((∃ S, TargetSet.parse pfx sfx pattern keepFound = .ok S) ↔ t.Occurs) ↔
      (t.pfx.length = displayLen → ∀ c ∈ t.pfx.getLast?, c ∈ lastChars) := by
  have hvalid : t.Valid ↔ ∀ c ∈ t.sfx.getLast?, c ∈ lastChars :=
    ⟨fun ht => ht.last, fun hlast => ⟨hp, hs, hne, hlast, hlen⟩⟩
  rw [exists_parse_single_iff h, Target.occurs_iff hp hs hlen, hvalid]
  constructor
  · intro hiff hfull
    -- A leading side of full length leaves no room for a trailing side.
    have hnil : t.sfx = [] := List.length_eq_zero_iff.mp (by omega)
    exact (hiff.mp (by simp [hnil])).2 hfull
  · intro hfull
    exact ⟨fun hlast => ⟨hlast, hfull⟩, And.left⟩

theorem parse_rejects_impossible_iff_algo :
    ((∃ S, TargetSet.parse (some "algo".toList) (some "y4".toList) none false = .ok S) ↔
      (⟨"ALGO".toList, "Y4".toList⟩ : Target).Occurs) ↔
        ("ALGO".toList.length = displayLen → ∀ c ∈ "ALGO".toList.getLast?, c ∈ lastChars) :=
  parse_rejects_impossible_iff (t := ⟨"ALGO".toList, "Y4".toList⟩) rfl
    (checkChars_eq_ok_iff.mp rfl) (checkChars_eq_ok_iff.mp rfl) (.inl (List.cons_ne_nil _ _))
    (by decide)

/-- A leading side of 58 characters that ends in another character is accepted, and cannot
occur. -/
theorem parse_accepts_impossible :
    ¬ ∀ (pfx sfx pattern : Option Str) (t : Target) (keepFound : Bool),
      expandTargets pfx sfx pattern = .ok [t] →
      (∀ c ∈ t.pfx, c ∈ base32Alphabet) → (∀ c ∈ t.sfx, c ∈ base32Alphabet) →
      (t.pfx ≠ [] ∨ t.sfx ≠ []) → t.pfx.length + t.sfx.length ≤ displayLen →
      ((∃ S, TargetSet.parse pfx sfx pattern keepFound = .ok S) ↔ t.Occurs) := by
  intro hall
  let t : Target := ⟨List.replicate 58 'B', []⟩
  have hp : ∀ c ∈ t.pfx, c ∈ base32Alphabet := fun c hc => by
    rw [List.eq_of_mem_replicate hc]
    decide
  have hs : ∀ c ∈ t.sfx, c ∈ base32Alphabet := fun c hc => absurd hc List.not_mem_nil
  have hne : t.pfx ≠ [] := List.cons_ne_nil _ _
  have hexpand : expandTargets (some t.pfx) none none = .ok [t] := rfl
  have hvalid : t.Valid := checkTarget_eq_ok_iff.mp rfl
  have hoccurs := (hall (some t.pfx) none none t false hexpand hp hs (.inl hne) le_rfl).mp
    ((exists_parse_single_iff hexpand).mpr hvalid)
  have hlast := ((Target.occurs_iff hp hs le_rfl).mp hoccurs).2 rfl 'B' rfl
  exact absurd hlast (by decide)

end FalconVanity
