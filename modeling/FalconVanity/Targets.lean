import FalconVanity.Address

/-!
# Search Targets

A target is a pair of a leading and a trailing pattern of the display string. The command
line gives a list of them, which `TargetSet.parse` validates: an accepted set carries the
proof that every target can occur in an address, that no target is repeated, and that the
set is neither empty nor too large.

The flags of the targets that are still searched for change during a run. They are not part
of the set here: an `Active` is a state of them, and the functions of the source that read
or write the flags take it as an argument.

Lengths are numbers of characters. The source counts bytes, which is the same for the
patterns it gets to measure, since these are over the base32 alphabet.

## Main results

* `checkTarget_eq_ok_iff`: what the validation of one target accepts.
* `validateTargets_spec`: the validated list.
* `TargetSet.firstMatchDisplay_eq_some_iff`: the verification matcher returns the least
  active target that occurs in the display string.
-/

namespace FalconVanity

/-- `MAX_TARGETS`: device target-table capacity. -/
def maxTargets : ℕ := 1024

/-- `GPU_MAX_PREFIX`: the characters of a prefix that fit into a mask of the device. -/
def gpuMaxPrefix : ℕ := 12

/-- `GPU_MAX_SUFFIX`: the characters of a suffix that fit into a mask of the device. -/
def gpuMaxSuffix : ℕ := 13

/-- `LAST_CHARS`: the only characters that can end an address. -/
def lastChars : Str := "AEIMQUY4".toList

/-- `DISPLAY_LEN`: the characters of an address. -/
def displayLen : ℕ := 58

/-- `ADDR_ONLY_CHARS`: leading display characters determined by the address alone. -/
def addrOnlyChars : ℕ := 51

/-- A target: the leading pattern and the trailing pattern. Either of them may be empty, but not
both. -/
structure Target where
  pfx : Str
  sfx : Str
  deriving DecidableEq

/-- `Target::label`: the prefix, an ellipsis and the suffix. -/
def Target.label (t : Target) : Str :=
  if t.pfx ≠ [] ∧ t.sfx = [] then t.pfx ++ ['…']
  else if t.pfx = [] ∧ t.sfx ≠ [] then '…' :: t.sfx
  else t.pfx ++ '…' :: t.sfx

/-- `Target::matches_display`: the reference matcher on the full display string. -/
def Target.matchesDisplay (t : Target) (display : Str) : Bool :=
  t.pfx.isPrefixOf display && t.sfx.isSuffixOf display

/-- A text matches a target if it begins with the prefix and ends with the suffix. -/
theorem Target.matchesDisplay_iff {t : Target} {display : Str} :
    t.matchesDisplay display = true ↔ t.pfx <+: display ∧ t.sfx <:+ display := by
  rw [Target.matchesDisplay, Bool.and_eq_true, List.isPrefixOf_iff_prefix,
    List.isSuffixOf_iff_suffix]

/-! ### Parsing -/

/-- The errors of `TargetSet.parse` and `TargetSet.checkGpu`, with what their texts print. -/
inductive ParseError where
  /-- `empty entry in {what} list {arg:?}` -/
  | emptyEntry (what arg : Str)
  /-- `pattern character {c:?} in {s:?} is not in the Algorand base32 alphabet (..)` -/
  | badChar (c : Char) (s : Str)
  /-- `--pattern entry {entry:?} needs a separator: PREFIX-SUFFIX (or PREFIX..SUFFIX)` -/
  | noSeparator (entry : Str)
  /-- `empty pattern (give a prefix, a suffix, or both)` -/
  | emptyPattern
  /-- `suffix {:?} can never match: ..` -/
  | impossibleLast (sfx : Str)
  /-- `pattern {} is longer than an address (58 chars)` -/
  | tooLong (label : Str)
  /-- `specify --prefix, --suffix, or --pattern` -/
  | noTargets
  /-- `{} targets (after prefix × suffix expansion) — at most 1024 supported` -/
  | tooManyTargets (n : ℕ)
  /-- `GPU search supports prefixes up to 12 and suffixes up to 13 chars ({} given)` -/
  | gpuLimits (label : Str)
  deriving DecidableEq

/-- One entry of `splitList`: trimmed, upper-cased, and not empty. -/
def listEntry (arg what s : Str) : Except ParseError Str :=
  let s := (trim s).map Char.toUpper
  if s = [] then .error (.emptyEntry what arg) else .ok s

/-- `split_list`: the entries of a comma-separated list. -/
def splitList (arg what : Str) : Except ParseError (List Str) :=
  (arg.splitOn ',').mapM (listEntry arg what)

/-- `check_chars`: every character is one of the alphabet. -/
def checkChars (s : Str) : Except ParseError Unit :=
  match s.find? (fun c => !base32Alphabet.contains c) with
  | some c => .error (.badChar c s)
  | none => .ok ()

/-- `split_pair`: one `--pattern` entry, at the first of the three separators it has. -/
def splitPair (entry : Str) : Except ParseError (Str × Str) :=
  match ["..".toList, "…".toList, "-".toList].findSome? (splitOnce entry) with
  | some pair => .ok pair
  | none => .error (.noSeparator entry)

/-- The targets the options name, before validation. `--pattern` conflicts with the others. -/
def expandTargets (pfx sfx pattern : Option Str) : Except ParseError (List Target) :=
  match pattern with
  | some pat => do
    let entries ← splitList pat "--pattern".toList
    entries.mapM fun e => do
      let (p, s) ← splitPair e
      return { pfx := p, sfx := s }
  | none => do
    let ps ← pfx.mapM (splitList · "--prefix".toList)
    let ss ← sfx.mapM (splitList · "--suffix".toList)
    return (ps.getD [[]]).flatMap fun p => (ss.getD [[]]).map fun s => { pfx := p, sfx := s }

/-- `anyhow::ensure!` -/
def ensure (p : Prop) [Decidable p] (e : ParseError) : Except ParseError Unit :=
  if p then .ok () else .error e

/-- The checks of one target, in the order of the loop body of `TargetSet::parse`. -/
def checkTarget (t : Target) : Except ParseError Unit := do
  checkChars t.pfx
  checkChars t.sfx
  ensure (t.pfx ≠ [] ∨ t.sfx ≠ []) .emptyPattern
  ensure (t.sfx.getLast?.all lastChars.contains = true) (.impossibleLast t.sfx)
  ensure (t.pfx.length + t.sfx.length ≤ displayLen) (.tooLong t.label)

/-- The validation loop of `TargetSet::parse`: repeated targets are dropped. -/
def validateTargets (dedup : List Target) : List Target → Except ParseError (List Target)
  | [] => .ok dedup
  | t :: ts => do
    checkTarget t
    if t ∈ dedup then validateTargets dedup ts else validateTargets (dedup ++ [t]) ts

/-- What `checkTarget` accepts. Only such targets are in a list that was validated. -/
structure Target.Valid (t : Target) : Prop where
  pfx_chars : ∀ c ∈ t.pfx, c ∈ base32Alphabet
  sfx_chars : ∀ c ∈ t.sfx, c ∈ base32Alphabet
  nonempty : t.pfx ≠ [] ∨ t.sfx ≠ []
  last : ∀ c ∈ t.sfx.getLast?, c ∈ lastChars
  length_le : t.pfx.length + t.sfx.length ≤ displayLen

/-- The check passes for characters of the alphabet. -/
theorem checkChars_eq_ok_iff {s : Str} :
    checkChars s = .ok () ↔ ∀ c ∈ s, c ∈ base32Alphabet := by
  unfold checkChars
  cases h : s.find? (fun c => !base32Alphabet.contains c) with
  | none => simpa using List.find?_eq_none.mp h
  | some c =>
      have hc := List.find?_some h
      have hmem := List.mem_of_find?_eq_some h
      refine ⟨(fun h => nomatch h), fun hall => ?_⟩
      simp [hall c hmem] at hc

/-- A check passes if its condition holds. -/
theorem ensure_eq_ok_iff {p : Prop} [Decidable p] {e : ParseError} :
    ensure p e = .ok () ↔ p := by
  unfold ensure
  split <;> simp_all

/-- A sequence of checks passes when each of them does. -/
theorem bind_check_eq_ok_iff {α : Type} {x : Except ParseError Unit}
    {f : Except ParseError α} {a : α} :
    (x >>= fun _ => f) = .ok a ↔ x = .ok () ∧ f = .ok a := by
  cases x with
  | error e => simp [bind, Except.bind]
  | ok u => simp [bind, Except.bind]

/-- A character that may be missing is in a list. -/
theorem all_contains_iff {o : Option Char} {l : List Char} :
    o.all l.contains = true ↔ ∀ c ∈ o, c ∈ l := by
  cases o <;> simp

/-- **Validation of one target.** -/
theorem checkTarget_eq_ok_iff {t : Target} : checkTarget t = .ok () ↔ t.Valid := by
  rw [checkTarget, bind_check_eq_ok_iff, bind_check_eq_ok_iff, bind_check_eq_ok_iff,
    bind_check_eq_ok_iff, checkChars_eq_ok_iff, checkChars_eq_ok_iff, ensure_eq_ok_iff,
    ensure_eq_ok_iff, ensure_eq_ok_iff, all_contains_iff]
  exact ⟨fun ⟨h₁, h₂, h₃, h₄, h₅⟩ => ⟨h₁, h₂, h₃, h₄, h₅⟩,
    fun ⟨h₁, h₂, h₃, h₄, h₅⟩ => ⟨h₁, h₂, h₃, h₄, h₅⟩⟩

/-- **The validated list** has the targets of both lists, each once and each valid. -/
theorem validateTargets_spec {ts dedup out : List Target}
    (h : validateTargets dedup ts = .ok out) (hnodup : dedup.Nodup)
    (hvalid : ∀ t ∈ dedup, t.Valid) :
    out.Nodup ∧ (∀ t ∈ out, t.Valid) ∧ ∀ t, t ∈ out ↔ t ∈ dedup ∨ t ∈ ts := by
  induction ts generalizing dedup with
  | nil =>
      obtain rfl : dedup = out := by simpa [validateTargets] using h
      exact ⟨hnodup, hvalid, by simp⟩
  | cons t ts ih =>
      rw [validateTargets, bind_check_eq_ok_iff, checkTarget_eq_ok_iff] at h
      obtain ⟨ht, h⟩ := h
      by_cases hmem : t ∈ dedup
      · rw [if_pos hmem] at h
        obtain ⟨hn, hv, hm⟩ := ih h hnodup hvalid
        refine ⟨hn, hv, fun x => ?_⟩
        rw [hm, List.mem_cons]
        constructor
        · rintro (hx | hx)
          · exact .inl hx
          · exact .inr (.inr hx)
        · rintro (hx | rfl | hx)
          · exact .inl hx
          · exact .inl hmem
          · exact .inr hx
      · rw [if_neg hmem] at h
        obtain ⟨hn, hv, hm⟩ := ih h
          (List.nodup_append.mpr ⟨hnodup, List.nodup_singleton t, by
            intro a ha b hb hab
            exact hmem (List.mem_singleton.mp hb ▸ hab ▸ ha)⟩)
          (fun x hx => (List.mem_append.mp hx).elim (hvalid x) fun hx =>
            List.mem_singleton.mp hx ▸ ht)
        refine ⟨hn, hv, fun x => ?_⟩
        rw [hm, List.mem_append, List.mem_singleton, List.mem_cons, or_assoc]

/-! ### Target sets -/

/-- The longest of a list of lengths. -/
def longest (list : List Target) : ℕ :=
  (list.map fun t => t.pfx.length).foldr max 0

/-- No prefix is longer than the longest one. -/
theorem le_longest {list : List Target} {t : Target} (ht : t ∈ list) :
    t.pfx.length ≤ longest list := by
  induction list with
  | nil => simp at ht
  | cons x xs ih =>
      rw [longest, List.map_cons, List.foldr_cons]
      rcases List.mem_cons.mp ht with rfl | ht
      · exact le_max_left _ _
      · exact (ih ht).trans (le_max_right _ _)

/-- The validated target list. The flag says whether a target is retired after its first hit. -/
structure TargetSet where
  list : List Target
  /-- Retire a target after its first hit (multi search, unless `--keep-found`). -/
  retire : Bool
  /-- Longest leading pattern among the targets. -/
  maxPrefix : ℕ
  list_ne_nil : list ≠ []
  length_le : list.length ≤ maxTargets
  nodup : list.Nodup
  valid : ∀ t ∈ list, t.Valid
  maxPrefix_eq : maxPrefix = longest list
  one_lt_of_retire : retire = true → 1 < list.length

/-- `TargetSet::parse`: the targets from the options, which are expanded first and then validated.
-/
def TargetSet.parse (pfx sfx pattern : Option Str) (keepFound : Bool) :
    Except ParseError TargetSet :=
  match expandTargets pfx sfx pattern with
  | .error e => .error e
  | .ok list =>
    match h : validateTargets [] list with
    | .error e => .error e
    | .ok dedup =>
      if hnil : dedup = [] then .error .noTargets
      else if hlen : maxTargets < dedup.length then .error (.tooManyTargets dedup.length)
      else
        have hspec := validateTargets_spec h List.nodup_nil (by simp)
        .ok { list := dedup
              retire := decide (1 < dedup.length) && !keepFound
              maxPrefix := longest dedup
              list_ne_nil := hnil
              length_le := Nat.le_of_not_lt hlen
              nodup := hspec.1
              valid := hspec.2.1
              maxPrefix_eq := rfl
              one_lt_of_retire := fun hr => by
                rw [Bool.and_eq_true] at hr
                exact of_decide_eq_true hr.1 }

/-- The set of a single target, which is never retired. -/
def TargetSet.single (t : Target) (h : t.Valid) : TargetSet where
  list := [t]
  retire := false
  maxPrefix := longest [t]
  list_ne_nil := by simp
  length_le := by simp [maxTargets]
  nodup := by simp
  valid := by simpa using h
  maxPrefix_eq := rfl
  one_lt_of_retire := by simp

/-- The set of the target with the leading pattern `A`. -/
def singleA : TargetSet := TargetSet.single ⟨"A".toList, []⟩ (checkTarget_eq_ok_iff.mp rfl)

/-- The flags of the targets that are still searched for. -/
abbrev Active := ℕ → Bool

namespace TargetSet

variable (S : TargetSet) (active : Active)

/-- `TargetSet::check_gpu`: enforce the device limits. -/
def checkGpu : Except ParseError Unit :=
  forM S.list fun t =>
    ensure (t.pfx.length ≤ gpuMaxPrefix ∧ t.sfx.length ≤ gpuMaxSuffix) (.gpuLimits t.label)

/-- `TargetSet::any_active`: a target is left to be found. -/
def anyActive : Bool := (List.range S.list.length).any fun i => active i

/-- `TargetSet::claim`: in retiring mode only the first claim of a target succeeds. -/
def claim (i : ℕ) : Bool × Active :=
  if S.retire then
    if active i then (true, Function.update active i false) else (false, active)
  else (true, active)

/-- `TargetSet::first_match_display`: the verification matcher. -/
def firstMatchDisplay (display : Str) : Option ℕ :=
  (List.range S.list.length).find? fun i =>
    active i && (S.list[i]?.any fun t => t.matchesDisplay display)

/-- The device limits, when they hold. -/
theorem checkGpu_eq_ok_iff : S.checkGpu = .ok () ↔
    ∀ t ∈ S.list, t.pfx.length ≤ gpuMaxPrefix ∧ t.sfx.length ≤ gpuMaxSuffix := by
  rw [checkGpu]
  induction S.list with
  | nil => simp [pure, Except.pure]
  | cons t ts ih =>
      rw [List.forM_cons, bind_check_eq_ok_iff, ensure_eq_ok_iff, ih, List.forall_mem_cons]

/-- Target `i` is active and occurs in the display string. -/
def Matches (display : Str) (i : ℕ) : Prop :=
  active i = true ∧ ∃ t, S.list[i]? = some t ∧ t.pfx <+: display ∧ t.sfx <:+ display

/-- If no target is active, none matches. -/
theorem not_matches_of_anyActive {S : TargetSet} {active : Active} (h : S.anyActive active = false)
    {display : Str} {i : ℕ} : ¬ S.Matches active display i := by
  rintro ⟨hactive, t, ht, -⟩
  rw [anyActive, List.any_eq_false] at h
  exact h i (List.mem_range.mpr (List.getElem?_eq_some_iff.mp ht).1) hactive

/-- **The verification matcher** returns the least active target that occurs. -/
theorem firstMatchDisplay_eq_some_iff {display : Str} {i : ℕ} :
    S.firstMatchDisplay active display = some i ↔
      S.Matches active display i ∧ ∀ j < i, ¬ S.Matches active display j := by
  have hiff : ∀ j, (active j && (S.list[j]?.any fun t => t.matchesDisplay display)) = true ↔
      S.Matches active display j := by
    intro j
    rw [Bool.and_eq_true, Option.any_eq_true]
    simp only [Target.matchesDisplay_iff, Matches]
  rw [firstMatchDisplay, List.find?_range_eq_some, hiff, List.mem_range]
  constructor
  · rintro ⟨h, -, hlt⟩
    refine ⟨h, fun j hj hm => ?_⟩
    have hjf := hlt j hj
    rw [(hiff j).mpr hm] at hjf
    cases hjf
  · rintro ⟨h, hlt⟩
    obtain ⟨t, ht, -⟩ := h.2
    refine ⟨h, (List.getElem?_eq_some_iff.mp ht).1, fun j hj => ?_⟩
    rw [Bool.not_eq_true', ← Bool.not_eq_true, hiff]
    exact hlt j hj

/-! ### Claims -/

/-- What a claim that succeeds does to the flags. -/
theorem claim_of_eq_true {S : TargetSet} {active active' : Active} {i : ℕ}
    (h : S.claim active i = (true, active')) :
    S.retire = true ∧ active i = true ∧ active' = Function.update active i false ∨
      S.retire = false ∧ active' = active := by
  rw [claim] at h
  split at h
  case isTrue hr =>
    split at h
    case isTrue ha =>
      cases h
      exact .inl ⟨hr, ha, rfl⟩
    case isFalse => cases h
  case isFalse hr =>
    cases h
    exact .inr ⟨Bool.eq_false_of_not_eq_true hr, rfl⟩

/-- A claim that fails leaves the flags as they are. -/
theorem claim_of_eq_false {S : TargetSet} {active active' : Active} {i : ℕ}
    (h : S.claim active i = (false, active')) : active' = active := by
  rw [claim] at h
  split at h
  · split at h
    · cases h
    · cases h
      rfl
  · cases h

/-- A flag that is cleared stays cleared. -/
theorem claim_inactive {S : TargetSet} {active active' : Active} {i j : ℕ}
    (h : S.claim active i = (true, active')) (hj : active j = false) : active' j = false := by
  rcases claim_of_eq_true h with ⟨-, -, rfl⟩ | ⟨-, rfl⟩
  · by_cases hij : j = i
    · rw [hij, Function.update_self]
    · rw [Function.update_of_ne hij, hj]
  · exact hj

end TargetSet

end FalconVanity
