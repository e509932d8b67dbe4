import FalconVanity.Targets

/-!
# What the Target Options Specify

`TargetSet.parse` is compared with the grammar of its options. The grammar says which list of
targets the options specify: a `--pattern` option one target for each entry, read as two
sides around a separator, and the other two options the product of their lists. Parsing
returns this list without repetitions, when every target of it is valid.

The separators are tried in a fixed order, and an entry may contain several of them. No
character of a separator is in the base32 alphabet, so an entry with valid sides is read in
one way only.

## Main results

* `splitPair_append`: an entry with valid sides is split at its separator.
* `exists_parse_eq_ok_iff`: which options are accepted, and the list they give.
* `target_parsing_exact`: the same, with the two ways to write a list again as patterns.
-/

namespace FalconVanity

/-! ### The grammar of the options -/

/-- The entries of a comma-separated list, trimmed and upper-cased. -/
def entries (arg : Str) : List Str := (arg.splitOn ',').map fun s => (trim s).map Char.toUpper

/-- The separators of a `--pattern` entry. -/
def separators : List Str := ["..".toList, "…".toList, "-".toList]

/-- A `--pattern` entry for a target: its two sides around a separator. -/
def Target.IsEntry (t : Target) (e : Str) : Prop := ∃ sep ∈ separators, e = t.pfx ++ sep ++ t.sfx

/-- The entries of `--prefix` or `--suffix`. Without the option there is one empty entry. -/
def sideEntries (arg : Option Str) : List Str := arg.elim [[]] entries

/-- The targets of `--prefix` and `--suffix`: every combination, with the leading patterns in
the outer loop. -/
def productTargets (pfx sfx : Option Str) : List Target :=
  (sideEntries pfx).flatMap fun p => (sideEntries sfx).map fun s => ⟨p, s⟩

/-- The options specify a list of targets, in which targets may be repeated or invalid. -/
def Specifies (pfx sfx : Option Str) : Option Str → List Target → Prop
  | some pattern, ts => List.Forall₂ (fun e t => e ≠ [] ∧ t.IsEntry e) (entries pattern) ts
  | none, ts =>
    (∀ arg ∈ pfx, [] ∉ entries arg) ∧ (∀ arg ∈ sfx, [] ∉ entries arg) ∧
      ts = productTargets pfx sfx

/-! ### Lists -/

/-- Two fallible steps succeed when both do. -/
theorem bind_eq_ok_iff {α β ε : Type} {x : Except ε α} {f : α → Except ε β} {b : β} :
    (x >>= f) = .ok b ↔ ∃ a, x = .ok a ∧ f a = .ok b := by
  cases x with
  | error e => simp [bind, Except.bind]
  | ok a => simp [bind, Except.bind]

/-- A fallible function on a list succeeds when it does on every element. -/
theorem mapM_eq_ok_iff {α β ε : Type} {f : α → Except ε β} {xs : List α} {ys : List β} :
    xs.mapM f = .ok ys ↔ List.Forall₂ (fun x y => f x = .ok y) xs ys := by
  induction xs generalizing ys with
  | nil =>
      rw [List.mapM_nil, List.forall₂_nil_left_iff]
      exact ⟨fun h => (Except.ok.inj h).symm, fun h => by rw [h]; rfl⟩
  | cons x xs ih =>
      rw [List.mapM_cons, List.forall₂_cons_left_iff]
      cases hx : f x with
      | error e =>
          refine ⟨?_, ?_⟩
          · intro h
            cases h
          · rintro ⟨y, ys, hy, -⟩
            cases hy
      | ok y =>
          constructor
          · intro h
            cases hxs : xs.mapM f with
            | error e =>
                rw [hxs] at h
                cases h
            | ok ys' =>
                rw [hxs] at h
                cases h
                exact ⟨y, ys', rfl, ih.mp hxs, rfl⟩
          · rintro ⟨y', ys', hy, hys, rfl⟩
            cases hy
            rw [ih.mpr hys]
            rfl

/-- An entry of a list is trimmed and converted to upper case, and must not be empty. -/
theorem listEntry_eq_ok_iff {arg what s e : Str} :
    listEntry arg what s = .ok e ↔ e = (trim s).map Char.toUpper ∧ e ≠ [] := by
  rw [listEntry]
  split
  case isTrue h =>
    refine ⟨?_, ?_⟩
    · intro hs
      cases hs
    · rintro ⟨rfl, hne⟩
      exact absurd h hne
  case isFalse h =>
    constructor
    · intro hs
      cases hs
      exact ⟨rfl, h⟩
    · rintro ⟨rfl, -⟩
      rfl

/-- A list of options is accepted when no entry is empty. -/
theorem splitList_eq_ok_iff {arg what : Str} {es : List Str} :
    splitList arg what = .ok es ↔ es = entries arg ∧ [] ∉ es := by
  rw [splitList, mapM_eq_ok_iff, entries]
  generalize arg.splitOn ',' = ss
  induction ss generalizing es with
  | nil =>
      rw [List.forall₂_nil_left_iff, List.map_nil]
      refine ⟨?_, And.left⟩
      rintro rfl
      exact ⟨rfl, List.not_mem_nil⟩
  | cons s ss ih =>
      rw [List.forall₂_cons_left_iff, List.map_cons]
      constructor
      · rintro ⟨e, es, hs, hss, rfl⟩
        obtain ⟨rfl, hne⟩ := listEntry_eq_ok_iff.mp hs
        obtain ⟨hes, hnil⟩ := ih.mp hss
        exact ⟨by rw [hes], by simpa using ⟨Ne.symm (by simpa using hne), hnil⟩⟩
      · rintro ⟨rfl, hnil⟩
        rw [List.mem_cons, not_or] at hnil
        exact ⟨_, _, listEntry_eq_ok_iff.mpr ⟨rfl, Ne.symm hnil.1⟩, ih.mpr ⟨rfl, hnil.2⟩, rfl⟩

/-! ### Entries -/

/-- The entry of a pattern list is split at a separator. -/
theorem splitPair_spec {e p s : Str} (h : splitPair e = .ok (p, s)) :
    ∃ sep ∈ separators, e = p ++ sep ++ s := by
  rw [splitPair] at h
  split at h
  case h_1 pair hfind =>
    cases h
    obtain ⟨sep, hsep, hsplit⟩ := List.exists_of_findSome?_eq_some hfind
    exact ⟨sep, hsep, splitOnce_eq_some hsplit⟩
  case h_2 => cases h

/-- **An entry with valid sides** is split at its separator: the separators that are tried
before do not occur in it, and its own one does not occur in the leading side. -/
theorem splitPair_append {p s sep : Str} (hp : ∀ c ∈ p, c ∈ base32Alphabet)
    (hs : ∀ c ∈ s, c ∈ base32Alphabet) (hsep : sep ∈ separators) :
    splitPair (p ++ sep ++ s) = .ok (p, s) := by
  have hout : ∀ c, c ∉ base32Alphabet → c ∉ p ∧ c ∉ s := fun c hc =>
    ⟨fun h => hc (hp c h), fun h => hc (hs c h)⟩
  have hdot := hout '.' (by decide)
  have hellipsis := hout '…' (by decide)
  have hdash := hout '-' (by decide)
  rw [splitPair]
  simp only [separators, List.mem_cons, List.not_mem_nil, or_false] at hsep
  rcases hsep with rfl | rfl | rfl
  · have hchars : "..".toList = '.' :: ['.'] := rfl
    rw [List.findSome?_cons, hchars, splitOnce_append hdot.1]
  · have hchars : "…".toList = '…' :: [] := rfl
    have hfirst : splitOnce (p ++ "…".toList ++ s) "..".toList = none :=
      splitOnce_eq_none (c := '.') (by simpa using hdot)
    rw [List.findSome?_cons, hfirst, List.findSome?_cons, hchars,
      splitOnce_append hellipsis.1]
  · have hchars : "-".toList = '-' :: [] := rfl
    have hfirst : splitOnce (p ++ "-".toList ++ s) "..".toList = none :=
      splitOnce_eq_none (c := '.') (by simpa using hdot)
    have hsecond : splitOnce (p ++ "-".toList ++ s) "…".toList = none :=
      splitOnce_eq_none (c := '…') (by simpa using hellipsis)
    rw [List.findSome?_cons, hfirst, List.findSome?_cons, hsecond, List.findSome?_cons, hchars,
      splitOnce_append hdash.1]

/-! ### The expansion of the options -/

variable {pfx sfx pattern : Option Str} {ts out : List Target}

/-- The lists of one of the two options. -/
theorem mapM_splitList_eq_ok_iff {arg : Option Str} {what : Str} {es : Option (List Str)} :
    arg.mapM (splitList · what) = .ok es ↔
      (∀ a ∈ arg, [] ∉ entries a) ∧ es = arg.map entries := by
  cases arg with
  | none =>
      refine ⟨fun h => ⟨by simp, (Except.ok.inj h).symm⟩, ?_⟩
      rintro ⟨-, rfl⟩
      rfl
  | some a =>
      cases ha : splitList a what with
      | error e =>
          have hmap : (some a).mapM (splitList · what) = .error e := congrArg (some <$> ·) ha
          rw [hmap]
          refine ⟨fun h => ?_, fun h => ?_⟩
          · cases h
          · rw [splitList_eq_ok_iff.mpr ⟨rfl, h.1 a rfl⟩] at ha
            cases ha
      | ok es' =>
          obtain ⟨rfl, hnil⟩ := splitList_eq_ok_iff.mp ha
          have hmap : (some a).mapM (splitList · what) = .ok (some (entries a)) :=
            congrArg (some <$> ·) ha
          rw [hmap]
          refine ⟨fun h => ⟨by simpa using hnil, (Except.ok.inj h).symm⟩, ?_⟩
          rintro ⟨-, rfl⟩
          rfl

/-- The entries of an option that may be missing: without it, there is one empty side. -/
theorem getD_map_entries (arg : Option Str) : (arg.map entries).getD [[]] = sideEntries arg := by
  cases arg <;> rfl

/-- The product of the two lists. -/
theorem expandTargets_none_eq_ok_iff :
    expandTargets pfx sfx none = .ok ts ↔ Specifies pfx sfx none ts := by
  simp only [expandTargets, bind_eq_ok_iff, mapM_splitList_eq_ok_iff, Specifies, productTargets,
    ← getD_map_entries]
  constructor
  · rintro ⟨ps, ⟨hpnil, rfl⟩, ss, ⟨hsnil, rfl⟩, h⟩
    exact ⟨hpnil, hsnil, (Except.ok.inj h).symm⟩
  · rintro ⟨hpnil, hsnil, rfl⟩
    exact ⟨_, ⟨hpnil, rfl⟩, _, ⟨hsnil, rfl⟩, rfl⟩

/-- The targets of the entries of a pattern list, split at their separators. -/
theorem expandTargets_some_eq_ok_iff {pat : Str} :
    expandTargets pfx sfx (some pat) = .ok ts ↔
      List.Forall₂ (fun e t => e ≠ [] ∧ splitPair e = .ok (t.pfx, t.sfx)) (entries pat) ts := by
  have hpair : ∀ (e : Str) (t : Target),
      (splitPair e >>= fun pair => .ok (⟨pair.1, pair.2⟩ : Target)) = .ok t ↔
        splitPair e = .ok (t.pfx, t.sfx) := by
    intro e t
    rw [bind_eq_ok_iff]
    constructor
    · rintro ⟨⟨p, s⟩, hsplit, h⟩
      cases h
      exact hsplit
    · intro hsplit
      exact ⟨_, hsplit, rfl⟩
  have hexpand : expandTargets pfx sfx (some pat) = .ok ts ↔
      ∃ es, splitList pat "--pattern".toList = .ok es ∧ es.mapM (fun e =>
        splitPair e >>= fun pair => .ok (⟨pair.1, pair.2⟩ : Target)) = .ok ts := by
    rw [expandTargets, bind_eq_ok_iff]
    rfl
  rw [hexpand]
  simp only [splitList_eq_ok_iff, mapM_eq_ok_iff, hpair]
  rw [List.forall₂_and_left]
  constructor
  · rintro ⟨es, ⟨rfl, hnil⟩, hes⟩
    exact ⟨fun e he h => hnil (h ▸ he), hes⟩
  · rintro ⟨hnil, hes⟩
    exact ⟨_, ⟨rfl, fun h => hnil [] h rfl⟩, hes⟩

/-- **The expansion** gives a list of valid targets exactly when the options specify it. -/
theorem expandTargets_eq_ok_iff (hts : ∀ t ∈ ts, t.Valid) :
    expandTargets pfx sfx pattern = .ok ts ↔ Specifies pfx sfx pattern ts := by
  cases pattern with
  | none => exact expandTargets_none_eq_ok_iff
  | some pat =>
      rw [expandTargets_some_eq_ok_iff, Specifies]
      generalize entries pat = es
      constructor
      · intro h
        exact h.imp fun e t het => ⟨het.1, splitPair_spec het.2⟩
      · intro h
        induction h with
        | nil => exact .nil
        | @cons e t es ts het _ ih =>
            obtain ⟨hne, sep, hsep, rfl⟩ := het
            have ht := hts t List.mem_cons_self
            exact .cons ⟨hne, splitPair_append ht.pfx_chars ht.sfx_chars hsep⟩
              (ih fun t ht => hts t (List.mem_cons_of_mem _ ht))

/-! ### Validation -/

/-- **The validated list**: the targets, all valid, without repetitions. -/
theorem validateTargets_eq_ok_iff {dedup : List Target} (hdedup : dedup.eraseDups = dedup) :
    validateTargets dedup ts = .ok out ↔
      (∀ t ∈ ts, t.Valid) ∧ out = (dedup ++ ts).eraseDups := by
  induction ts generalizing dedup with
  | nil =>
      rw [validateTargets, List.append_nil, hdedup]
      exact ⟨fun h => ⟨by simp, (Except.ok.inj h).symm⟩, fun h => by rw [h.2]⟩
  | cons t ts ih =>
      rw [validateTargets, bind_check_eq_ok_iff, checkTarget_eq_ok_iff, List.forall_mem_cons,
        and_assoc]
      refine and_congr_right fun _ => ?_
      by_cases hmem : t ∈ dedup
      · rw [if_pos hmem, ih hdedup, List.eraseDups_append, List.eraseDups_append,
          List.cons_removeAll, if_neg (by simpa using hmem)]
      · have hconcat : (dedup ++ [t]).eraseDups = dedup ++ [t] := by
          rw [List.eraseDups_append, hdedup, List.cons_removeAll, if_pos (by simpa using hmem),
            List.nil_removeAll]
          rfl
        rw [if_neg hmem, ih hconcat, List.append_assoc, List.singleton_append]

/-- What `parse` does with the expanded list. -/
theorem exists_parse_eq_ok_iff_expand {keepFound : Bool} :
    (∃ S, TargetSet.parse pfx sfx pattern keepFound = .ok S ∧ S.list = out) ↔
      ∃ ts, expandTargets pfx sfx pattern = .ok ts ∧ validateTargets [] ts = .ok out ∧
        1 ≤ out.length ∧ out.length ≤ maxTargets := by
  constructor
  · rintro ⟨S, h, rfl⟩
    unfold TargetSet.parse at h
    split at h
    case h_1 => cases h
    case h_2 ts hts =>
      split at h
      case h_1 => cases h
      case h_2 dedup hdedup =>
        split at h
        case isTrue => cases h
        case isFalse hnil =>
          split at h
          case isTrue => cases h
          case isFalse hlen =>
            cases h
            exact ⟨ts, hts, hdedup, List.length_pos_iff.mpr hnil, Nat.le_of_not_lt hlen⟩
  · rintro ⟨ts, hts, hout, hpos, hlen⟩
    have hnil : out ≠ [] := List.length_pos_iff.mp hpos
    unfold TargetSet.parse
    split
    case h_1 e he =>
      rw [he] at hts
      cases hts
    case h_2 ts' hts' =>
      obtain rfl : ts' = ts := Except.ok.inj (hts'.symm.trans hts)
      split
      case h_1 e he =>
        rw [he] at hout
        cases hout
      case h_2 dedup hdedup =>
        obtain rfl : dedup = out := Except.ok.inj (hdedup.symm.trans hout)
        rw [dif_neg hnil, dif_neg (Nat.not_lt.mpr hlen)]
        exact ⟨_, rfl, rfl⟩

/-- **Which options are accepted**, and the list they give. -/
theorem exists_parse_eq_ok_iff {keepFound : Bool} :
    (∃ S, TargetSet.parse pfx sfx pattern keepFound = .ok S ∧ S.list = out) ↔
      ∃ ts, Specifies pfx sfx pattern ts ∧ (∀ t ∈ ts, t.Valid) ∧ out = ts.eraseDups ∧
        1 ≤ out.length ∧ out.length ≤ maxTargets := by
  rw [exists_parse_eq_ok_iff_expand]
  refine exists_congr fun ts => ?_
  rw [validateTargets_eq_ok_iff List.eraseDups_nil, List.nil_append]
  constructor
  · rintro ⟨hts, ⟨hvalid, hout⟩, hlen⟩
    exact ⟨(expandTargets_eq_ok_iff hvalid).mp hts, hvalid, hout, hlen⟩
  · rintro ⟨hts, hvalid, hout, hlen⟩
    exact ⟨(expandTargets_eq_ok_iff hvalid).mpr hts, ⟨hvalid, hout⟩, hlen⟩

/-! ### Explicit pattern lists -/

/-- The characters of the entries of valid targets. -/
def entryChars : Str := base32Alphabet ++ separators.flatten

/-- Such characters are upper case, and neither white space nor a comma. -/
theorem of_mem_entryChars {c : Char} (hc : c ∈ entryChars) :
    isWhitespace c = false ∧ c.toUpper = c ∧ c ≠ ',' := by
  have hall : entryChars.all (fun c => !isWhitespace c && decide (c.toUpper = c) &&
      decide (c ≠ ',')) = true := by
    decide
  have h := List.all_eq_true.mp hall c hc
  simpa [and_assoc] using h

/-- The characters of an entry are those of the alphabet and of the separators. -/
theorem Target.IsEntry.mem_entryChars {t : Target} {e : Str} (he : t.IsEntry e)
    (hp : ∀ c ∈ t.pfx, c ∈ base32Alphabet) (hs : ∀ c ∈ t.sfx, c ∈ base32Alphabet) :
    ∀ c ∈ e, c ∈ entryChars := by
  obtain ⟨sep, hsep, rfl⟩ := he
  intro c hc
  rw [entryChars, List.mem_append, List.mem_flatten]
  rcases List.mem_append.mp hc with hc | hc
  · rcases List.mem_append.mp hc with hc | hc
    · exact .inl (hp c hc)
    · exact .inr ⟨sep, hsep, hc⟩
  · exact .inl (hs c hc)

/-- An entry of a target is not empty. -/
theorem Target.IsEntry.ne_nil {t : Target} {e : Str} (he : t.IsEntry e) : e ≠ [] := by
  obtain ⟨sep, hsep, rfl⟩ := he
  have hne : sep ≠ [] := by
    rintro rfl
    revert hsep
    decide
  simp [hne]

/-- A label is an entry for its target. -/
theorem Target.isEntry_label (t : Target) : t.IsEntry t.label := by
  refine ⟨"…".toList, by decide, ?_⟩
  rw [Target.label]
  split
  case isTrue h => simp [h.2]
  case isFalse =>
    split
    case isTrue h => simp [h.1]
    case isFalse => simp

/-- Entries of plain characters, joined by commas, are the entries of the joined text. -/
theorem entries_intercalate {es : List Str} (hne : es ≠ [])
    (hes : ∀ e ∈ es, ∀ c ∈ e, c ∈ entryChars) : entries ([','].intercalate es) = es := by
  have hcomma : ∀ e ∈ es, ',' ∉ e := fun e he hc =>
    (of_mem_entryChars (hes e he ',' hc)).2.2 rfl
  rw [entries, List.splitOn_intercalate ',' hcomma hne]
  refine (List.map_congr_left fun e he => ?_).trans (List.map_id es)
  have hplain := fun c hc => of_mem_entryChars (hes e he c hc)
  rw [trim_eq_self fun c hc => (hplain c hc).1]
  exact (List.map_congr_left fun c hc => (hplain c hc).2.1).trans (List.map_id e)

/-- **Entries of valid targets**, joined by commas, specify these targets. -/
theorem specifies_intercalate {es : List Str} (hne : ts ≠ []) (hts : ∀ t ∈ ts, t.Valid)
    (hes : List.Forall₂ Target.IsEntry ts es) :
    Specifies none none (some ([','].intercalate es)) ts := by
  have hmem : ∀ e ∈ es, ∀ c ∈ e, c ∈ entryChars := by
    intro e he
    obtain ⟨t, ht, hte⟩ : ∃ t ∈ ts, t.IsEntry e := by
      clear hne hts
      induction hes with
      | nil => simp at he
      | @cons t e' ts es hte _ ih =>
          rcases List.mem_cons.mp he with rfl | he
          · exact ⟨t, List.mem_cons_self, hte⟩
          · obtain ⟨t', ht', hte'⟩ := ih he
            exact ⟨t', List.mem_cons_of_mem _ ht', hte'⟩
    exact hte.mem_entryChars (hts t ht).pfx_chars (hts t ht).sfx_chars
  have hesne : es ≠ [] := by
    rintro rfl
    exact hne (List.forall₂_nil_right_iff.mp hes)
  rw [Specifies, entries_intercalate hesne hmem]
  have hflip : List.Forall₂ (fun e t => Target.IsEntry t e) es ts := hes.flip
  exact hflip.imp fun e t het => ⟨het.ne_nil, het⟩

/-- A list without duplicates keeps all its elements. -/
theorem eraseDups_of_nodup (h : ts.Nodup) : ts.eraseDups = ts := by
  induction ts with
  | nil => rfl
  | cons t ts ih =>
      obtain ⟨hmem, hnodup⟩ := List.nodup_cons.mp h
      have hfilter : ts.filter (fun u => !u == t) = ts :=
        List.filter_eq_self.mpr fun u hu => by
          have hne : u ≠ t := fun h => hmem (h ▸ hu)
          simpa using hne
      rw [List.eraseDups_cons, hfilter, ih hnodup]

/-- **Target parsing is exact and canonical.** The options are accepted exactly when they
specify a list of valid targets of which at least one and at most 1024 are distinct, and the
list of the set is this list without repetitions. A product of two lists can be written as a
pattern list, with any separators, and the labels of any accepted set, joined by commas, are
a pattern list of the same set. -/
theorem target_parsing_exact :
    (∀ pfx sfx pattern keepFound out,
      (∃ S, TargetSet.parse pfx sfx pattern keepFound = .ok S ∧ S.list = out) ↔
        ∃ ts, Specifies pfx sfx pattern ts ∧ (∀ t ∈ ts, t.Valid) ∧ out = ts.eraseDups ∧
          1 ≤ out.length ∧ out.length ≤ maxTargets) ∧
    (∀ pfx sfx keepFound S, TargetSet.parse pfx sfx none keepFound = .ok S →
      ∀ es, List.Forall₂ Target.IsEntry (productTargets pfx sfx) es → ∀ keepFound',
        ∃ S', TargetSet.parse none none (some ([','].intercalate es)) keepFound' = .ok S' ∧
          S'.list = S.list) ∧
    (∀ pfx sfx pattern keepFound S, TargetSet.parse pfx sfx pattern keepFound = .ok S →
      ∀ keepFound', ∃ S', TargetSet.parse none none
        (some ([','].intercalate (S.list.map Target.label))) keepFound' = .ok S' ∧
          S'.list = S.list) := by
  refine ⟨fun pfx sfx pattern keepFound out => exists_parse_eq_ok_iff, ?_, ?_⟩
  · intro pfx sfx keepFound S hS es hes keepFound'
    obtain ⟨ts, hspec, hvalid, hlist, hpos, hlen⟩ := exists_parse_eq_ok_iff.mp ⟨S, hS, rfl⟩
    obtain ⟨-, -, rfl⟩ := hspec
    have hne : productTargets pfx sfx ≠ [] := by
      intro h
      rw [h, List.eraseDups_nil] at hlist
      exact S.list_ne_nil hlist
    exact exists_parse_eq_ok_iff.mpr
      ⟨_, specifies_intercalate hne hvalid hes, hvalid, hlist, hpos, hlen⟩
  · intro pfx sfx pattern keepFound S hS keepFound'
    have hentries : List.Forall₂ Target.IsEntry S.list (S.list.map Target.label) := by
      rw [List.forall₂_map_right_iff, List.forall₂_same]
      exact fun t _ => t.isEntry_label
    exact exists_parse_eq_ok_iff.mpr
      ⟨_, specifies_intercalate S.list_ne_nil S.valid hentries, S.valid,
        (eraseDups_of_nodup S.nodup).symm, List.length_pos_iff.mpr S.list_ne_nil, S.length_le⟩

/-- Two pairs of prefix and suffix, as they are written. -/
theorem target_parsing_exact_labels :
    ∃ S, TargetSet.parse none none (some "AB…XA,CD…XA".toList) true = .ok S ∧
      S.list = [⟨"AB".toList, "XA".toList⟩, ⟨"CD".toList, "XA".toList⟩] := by
  obtain ⟨S, hS, hlist⟩ : ∃ S, TargetSet.parse (some "ab, CD,ab".toList) (some "xa".toList) none
      false = .ok S ∧ S.list = [⟨"AB".toList, "XA".toList⟩, ⟨"CD".toList, "XA".toList⟩] :=
    ⟨_, rfl, rfl⟩
  obtain ⟨S', hS', hlist'⟩ := target_parsing_exact.2.2 _ _ _ _ S hS true
  rw [hlist] at hS' hlist'
  exact ⟨S', hS', hlist'⟩

end FalconVanity
