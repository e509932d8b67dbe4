import Mathlib.Data.List.NodupEquivFin
import Mathlib.Data.Nat.Bitwise
import Mathlib.Logic.Equiv.Basic
import Mathlib.Order.Monotone.Basic
import Mathlib.Tactic.Ring

/-!
# Compaction in Passes of Doubling Distance

The valid items of an array are moved to its front, in their order, without a branch that depends
on them: in the pass for the distance `2 ^ t`, an item that has a jump of `j` places ahead moves
by that distance when bit `t` of `j` is set. Within a pass the items are met in their order, and
no place to which one moves is taken: after each pass the places of the items are strictly
increasing, since the jumps that are left are those of the high bits, and these grow from item to
item.

## Main results

* `Placed.pass`: one pass.
* `Placed.passes`: all passes bring the items to the front.
* `getD_passes`: compaction of a list.
* `countValid_passes`: no pass loses an item.
-/

namespace Compaction

variable {α : Type*}

/-- The items `xs` stand at the places `P` of an array of length `m`, and `bad` at the others. A
compaction moves the items to the front, and keeps their order. -/
structure Placed (bad : α) (xs : List α) (P : ℕ → ℕ) (m : ℕ) (a : ℕ → α) : Prop where
  lt : ∀ i < xs.length, P i < m
  item : ∀ i (_ : i < xs.length), a (P i) = xs[i]
  other : ∀ u < m, (∀ i < xs.length, P i ≠ u) → a u = bad

theorem Placed.congr {bad : α} {xs : List α} {P P' : ℕ → ℕ} {m : ℕ} {a : ℕ → α}
    (h : Placed bad xs P m a) (hP : ∀ i < xs.length, P' i = P i) : Placed bad xs P' m a where
  lt i hi := by
    rw [hP i hi]
    exact h.lt i hi
  item i hi := by
    rw [hP i hi]
    exact h.item i hi
  other u hu hne := h.other u hu fun i hi => by
    rw [← hP i hi]
    exact hne i hi

/-- The place of item `i` after the passes for the low `t` bits, when `J i` items before it are
not valid. -/
def pos (J : ℕ → ℕ) (t i : ℕ) : ℕ := i + 2 ^ t * (J i / 2 ^ t)

variable {J : ℕ → ℕ}

theorem pos_zero (i : ℕ) : pos J 0 i = i + J i := by
  rw [pos, pow_zero, Nat.div_one, Nat.one_mul]

/-- The items keep their order. -/
theorem pos_strictMono (hJ : Monotone J) (t : ℕ) : StrictMono (pos J t) := by
  intro i j hij
  have hdiv : J i / 2 ^ t ≤ J j / 2 ^ t := Nat.div_le_div_right (hJ hij.le)
  have hmul : 2 ^ t * (J i / 2 ^ t) ≤ 2 ^ t * (J j / 2 ^ t) := Nat.mul_le_mul_left _ hdiv
  rw [pos, pos]
  omega

/-- **One pass**, for one item. -/
theorem pos_succ (t i : ℕ) :
    pos J (t + 1) i = if (pos J t i - i).testBit t then pos J t i - 2 ^ t else pos J t i := by
  have hdiv : J i / 2 ^ (t + 1) = J i / 2 ^ t / 2 := by
    rw [pow_succ, Nat.div_div_eq_div_mul]
  have hbit : (pos J t i - i).testBit t = decide (J i / 2 ^ t % 2 = 1) := by
    rw [pos, Nat.add_sub_cancel_left, Nat.testBit_two_pow_mul, Nat.sub_self,
      Nat.testBit_zero]
    simp
  have hparts := Nat.div_add_mod (J i / 2 ^ t) 2
  have hprod : 2 ^ t * (J i / 2 ^ t) =
      2 ^ (t + 1) * (J i / 2 ^ t / 2) + 2 ^ t * (J i / 2 ^ t % 2) := by
    rw [pow_succ, Nat.mul_assoc, ← Nat.mul_add, hparts]
  rw [hbit, pos, pos, hdiv, hprod]
  rcases Nat.mod_two_eq_zero_or_one (J i / 2 ^ t) with h | h
  · rw [h, if_neg (by simp), Nat.mul_zero]
    omega
  · rw [h, if_pos (by simp), Nat.mul_one]
    omega

/-- After the passes for all bits of the jumps, the items are at the front. -/
theorem pos_eq_self {t i : ℕ} (h : J i < 2 ^ t) : pos J t i = i := by
  rw [pos, Nat.div_eq_of_lt h, Nat.mul_zero, Nat.add_zero]

/-! ### A pass -/

/-- Two entries of an array, exchanged. -/
def swap (a : ℕ → α) (i j : ℕ) (k : ℕ) : α := if k = j then a i else if k = i then a j else a k

/-- One step of a pass: the number of valid items that were met, and the array. -/
def moveStep (valid : α → Bool) (t : ℕ) (s : ℕ × (ℕ → α)) (u : ℕ) : ℕ × (ℕ → α) :=
  let (v, a) := s
  (if valid (a u) then v + 1 else v,
    if 2 ^ t ≤ u ∧ valid (a u) ∧ (u - v).testBit t then swap a u (u - 2 ^ t) else a)

variable {valid : α → Bool} {bad : α} {xs : List α} {m : ℕ}

/-- The places within a pass: `v` items were met. -/
def mixed (J : ℕ → ℕ) (t v i : ℕ) : ℕ := if i < v then pos J (t + 1) i else pos J t i

/-- The state of a pass at the place `u`. Items before it have moved as far as this pass takes
them, and those from it on have not. -/
structure Passed (bad : α) (xs : List α) (J : ℕ → ℕ) (m t u : ℕ) (s : ℕ × (ℕ → α)) : Prop where
  le : s.1 ≤ xs.length
  met : ∀ i < s.1, pos J t i < u
  left : ∀ i < xs.length, s.1 ≤ i → u ≤ pos J t i
  placed : Placed bad xs (mixed J t s.1) m s.2

theorem pos_succ_le (t i : ℕ) : pos J (t + 1) i ≤ pos J t i := by
  rw [pos_succ]
  split
  · exact Nat.sub_le _ _
  · exact le_rfl

/-- **One step of a pass.** -/
theorem Passed.step (hJ : Monotone J) (hxs : ∀ x ∈ xs, valid x = true) (hbad : valid bad = false)
    {t u : ℕ} (hu : u < m) {s : ℕ × (ℕ → α)} (h : Passed bad xs J m t u s) :
    Passed bad xs J m t (u + 1) (moveStep valid t s u) := by
  obtain ⟨v, a⟩ := s
  obtain ⟨hle, hmet, hleft, hplaced⟩ := h
  dsimp only at hle hmet hleft hplaced
  rw [moveStep]
  -- The next item is at this place, or no item is.
  by_cases hhere : v < xs.length ∧ pos J t v = u
  · obtain ⟨hv, hpos⟩ := hhere
    have hmixed : mixed J t v v = u := by rw [mixed, if_neg (lt_irrefl v), hpos]
    have hitem : a u = xs[v] := by
      rw [← hmixed]
      exact hplaced.item v hv
    have hvalid : valid (a u) = true := by
      rw [hitem]
      exact hxs _ (List.getElem_mem hv)
    have hnext := pos_succ (J := J) t v
    rw [hpos] at hnext
    have hsame : ∀ i, i ≠ v → mixed J t (v + 1) i = mixed J t v i := fun i hi =>
      if_congr (by omega) rfl rfl
    have hlast : mixed J t (v + 1) v = pos J (t + 1) v := if_pos (Nat.lt_succ_self v)
    -- The other items are not at the place to which this one goes.
    have hfree : ∀ i < xs.length, i ≠ v → mixed J t v i ≠ pos J (t + 1) v := by
      intro i hi hne
      rw [mixed]
      rcases Nat.lt_or_gt_of_ne hne with hlt | hgt
      · rw [if_pos hlt]
        exact (pos_strictMono hJ (t + 1) hlt).ne
      · rw [if_neg (by omega)]
        have hlt := pos_strictMono hJ t hgt
        have hsucc := pos_succ_le (J := J) t v
        omega
    have haway : ∀ i < xs.length, i ≠ v → mixed J t v i ≠ u := by
      intro i hi hne
      rw [mixed]
      rcases Nat.lt_or_gt_of_ne hne with hlt | hgt
      · have hmeti := hmet i hlt
        have hsucc := pos_succ_le (J := J) t i
        rw [if_pos hlt]
        omega
      · rw [if_neg (by omega), ← hpos]
        exact (pos_strictMono hJ t hgt).ne'
    rw [if_pos hvalid]
    refine ⟨hv, fun i hi => ?_, fun i hi hvi => ?_, ?_⟩
    · rcases Nat.lt_succ_iff_lt_or_eq.mp hi with hlt | rfl
      · exact (hmet i hlt).trans (Nat.lt_succ_self u)
      · rw [hpos]
        exact Nat.lt_succ_self u
    · have hlt := pos_strictMono hJ t (Nat.lt_of_succ_le hvi)
      omega
    · by_cases hmove : 2 ^ t ≤ u ∧ valid (a u) = true ∧ (u - v).testBit t = true
      · rw [if_pos hmove.2.2] at hnext
        rw [if_pos hmove]
        change Placed bad xs (mixed J t (v + 1)) m (swap a u (u - 2 ^ t))
        have hpow := Nat.two_pow_pos t
        refine ⟨fun i hi => ?_, fun i hi => ?_, fun w hw hne => ?_⟩
        · by_cases hiv : i = v
          · rw [hiv, hlast]
            omega
          · rw [hsame i hiv]
            exact hplaced.lt i hi
        · by_cases hiv : i = v
          · subst hiv
            rw [hlast, hnext, swap, if_pos rfl]
            exact hitem
          · have hto := hfree i hi hiv
            rw [hnext] at hto
            rw [hsame i hiv, swap, if_neg hto, if_neg (haway i hi hiv)]
            exact hplaced.item i hi
        · have hwv := hne v hv
          rw [hlast, hnext] at hwv
          rw [swap, if_neg (Ne.symm hwv)]
          have hdest : a (u - 2 ^ t) = bad := by
            refine hplaced.other _ (by omega) fun i hi => ?_
            by_cases hiv : i = v
            · rw [hiv, hmixed]
              omega
            · rw [← hnext]
              exact hfree i hi hiv
          by_cases hwu : w = u
          · rw [if_pos hwu]
            exact hdest
          · rw [if_neg hwu]
            refine hplaced.other w hw fun i hi => ?_
            by_cases hiv : i = v
            · rw [hiv, hmixed]
              exact Ne.symm hwu
            · rw [← hsame i hiv]
              exact hne i hi
      · rw [if_neg hmove]
        refine hplaced.congr fun i hi => ?_
        by_cases hiv : i = v
        · -- A set bit leaves room for the move.
          have hstay : pos J (t + 1) v = u := by
            rw [hnext]
            by_cases hbit : (u - v).testBit t = true
            · have hge := Nat.ge_two_pow_of_testBit hbit
              exact absurd ⟨by omega, hvalid, hbit⟩ hmove
            · rw [if_neg hbit]
          rw [hiv, hlast, hmixed, hstay]
        · exact hsame i hiv
  · have hnone : ∀ i < xs.length, mixed J t v i ≠ u := by
      intro i hi
      rw [mixed]
      by_cases hiv : i < v
      · have hmeti := hmet i hiv
        have hsucc := pos_succ_le (J := J) t i
        rw [if_pos hiv]
        omega
      · rw [if_neg hiv]
        rcases Nat.eq_or_lt_of_le (Nat.le_of_not_lt hiv) with rfl | hlt
        · exact fun heq => hhere ⟨hi, heq⟩
        · have hge := hleft v (by omega) le_rfl
          have hlt' := pos_strictMono hJ t hlt
          omega
    have hinvalid : valid (a u) = false := by
      rw [hplaced.other u hu hnone]
      exact hbad
    have hstay : ¬ (valid (a u) = true) := by
      rw [hinvalid]
      exact Bool.false_ne_true
    rw [if_neg hstay, if_neg fun hmove => hstay hmove.2.1]
    refine ⟨hle, fun i hi => (hmet i hi).trans (Nat.lt_succ_self u), fun i hi hvi => ?_, hplaced⟩
    have hge := hleft i hi hvi
    have hne := hnone i hi
    rw [mixed, if_neg (by omega)] at hne
    dsimp only at hvi
    omega

/-- **One pass** moves each item by one bit of its jump. -/
theorem Placed.pass (hJ : Monotone J) (hxs : ∀ x ∈ xs, valid x = true) (hbad : valid bad = false)
    {t : ℕ} {a : ℕ → α} (h : Placed bad xs (pos J t) m a) :
    Placed bad xs (pos J (t + 1)) m ((List.range m).foldl (moveStep valid t) (0, a)).2 := by
  have hrun : ∀ n ≤ m, Passed bad xs J m t n ((List.range n).foldl (moveStep valid t) (0, a)) := by
    intro n hn
    induction n with
    | zero =>
        exact ⟨Nat.zero_le _, fun i hi => absurd hi (Nat.not_lt_zero i), fun i _ _ => Nat.zero_le _,
          h.congr fun i _ => if_neg (Nat.not_lt_zero i)⟩
    | succ n ih =>
        rw [List.range_succ, List.foldl_append]
        exact (ih (by omega)).step hJ hxs hbad hn
  obtain ⟨hle, -, hleft, hplaced⟩ := hrun m le_rfl
  refine hplaced.congr fun i hi => ?_
  rw [mixed, if_pos]
  by_contra hge
  have hm := hleft i hi (Nat.le_of_not_lt hge)
  have hlt := h.lt i hi
  omega

/-- **All passes.** -/
theorem Placed.passes (hJ : Monotone J) (hxs : ∀ x ∈ xs, valid x = true)
    (hbad : valid bad = false) {a : ℕ → α} (h : Placed bad xs (pos J 0) m a) (n : ℕ) :
    Placed bad xs (pos J n) m ((List.range n).foldl
      (fun a t => ((List.range m).foldl (moveStep valid t) (0, a)).2) a) := by
  induction n with
  | zero => exact h
  | succ n ih =>
      rw [List.range_succ, List.foldl_append]
      exact ih.pass hJ hxs hbad

/-! ### The start -/

/-- **The jumps of the items of a list**: the number of items before that are not valid. -/
theorem exists_placed {l : List α} (hl : ∀ x ∈ l, valid x = false → x = bad) :
    ∃ J : ℕ → ℕ, Monotone J ∧ (∀ i, J i ≤ (l.filter fun x => !valid x).length) ∧
      Placed bad (l.filter valid) (pos J 0) l.length fun u => l.getD u bad := by
  induction l with
  | nil =>
      refine ⟨fun _ => 0, fun _ _ _ => le_rfl, fun _ => Nat.zero_le _, ?_⟩
      exact ⟨fun i hi => absurd hi (Nat.not_lt_zero i), fun i hi => absurd hi (Nat.not_lt_zero i),
        fun u hu => absurd hu (Nat.not_lt_zero u)⟩
  | cons x l ih =>
      obtain ⟨hx, hl⟩ := List.forall_mem_cons.mp hl
      obtain ⟨J, hJ, hcount, hlt, hitem, hother⟩ := ih hl
      cases hvalid : valid x with
      | true =>
          have hinvalid : ((x :: l).filter fun x => !valid x) = l.filter fun x => !valid x :=
            List.filter_cons_of_neg (by rw [hvalid]; exact Bool.false_ne_true)
          rw [hinvalid, List.filter_cons_of_pos hvalid]
          refine ⟨fun i => if i = 0 then 0 else J (i - 1), ?_, fun i => ?_, ?_, ?_, ?_⟩
          · refine monotone_nat_of_le_succ fun i => ?_
            rcases i with _ | i
            · exact Nat.zero_le _
            · exact hJ (Nat.le_succ i)
          · rcases i with _ | i
            · exact Nat.zero_le _
            · exact hcount i
          · intro i hi
            rw [pos_zero, List.length_cons]
            rcases i with _ | i
            · exact Nat.zero_lt_succ _
            · have hi' := hlt i (Nat.lt_of_succ_lt_succ hi)
              rw [pos_zero] at hi'
              change i + 1 + J i < l.length + 1
              omega
          · intro i hi
            rw [pos_zero]
            rcases i with _ | i
            · rfl
            · have hi' := hitem i (Nat.lt_of_succ_lt_succ hi)
              rw [pos_zero] at hi'
              have hindex : i + 1 + (if i + 1 = 0 then 0 else J (i + 1 - 1)) = i + J i + 1 := by
                rw [if_neg (Nat.succ_ne_zero i), Nat.add_sub_cancel, Nat.add_right_comm]
              rw [hindex]
              exact hi'
          · intro u hu hne
            rcases u with _ | u
            · exact absurd (pos_zero 0) (hne 0 (Nat.zero_lt_succ _))
            · refine hother u (Nat.lt_of_succ_lt_succ hu) fun i hi heq => ?_
              refine hne (i + 1) (Nat.succ_lt_succ hi) ?_
              rw [pos_zero] at heq ⊢
              change i + 1 + J i = u + 1
              omega
      | false =>
          have hneg : ¬ (valid x = true) := by
            rw [hvalid]
            exact Bool.false_ne_true
          have hinvalid : ((x :: l).filter fun x => !valid x) =
              x :: l.filter fun x => !valid x := List.filter_cons_of_pos (by rw [hvalid]; rfl)
          rw [hinvalid, List.filter_cons_of_neg hneg]
          refine ⟨fun i => J i + 1, fun i j hij => Nat.succ_le_succ (hJ hij),
            fun i => Nat.succ_le_succ (hcount i), fun i hi => ?_, fun i hi => ?_,
            fun u hu hne => ?_⟩
          · have hi' := hlt i hi
            rw [pos_zero] at hi' ⊢
            rw [List.length_cons]
            omega
          · have hi' := hitem i hi
            rw [pos_zero] at hi' ⊢
            exact hi'
          · rcases u with _ | u
            · exact hx hvalid
            · refine hother u (Nat.lt_of_succ_lt_succ hu) fun i hi heq => hne i hi ?_
              rw [pos_zero] at heq ⊢
              omega

/-- **Compaction.** When the distances reach the number of items that are not valid, the array
holds the valid items, and then only `bad`. -/
theorem getD_passes {l : List α} (hl : ∀ x ∈ l, valid x = false → x = bad)
    (hbad : valid bad = false) {n : ℕ} (hn : (l.filter fun x => !valid x).length < 2 ^ n) {u : ℕ}
    (hu : u < l.length) :
    (List.range n).foldl (fun a t => ((List.range l.length).foldl (moveStep valid t) (0, a)).2)
      (fun u => l.getD u bad) u = (l.filter valid).getD u bad := by
  obtain ⟨J, hJ, hcount, hplaced⟩ := exists_placed hl
  have hfront := hplaced.passes hJ (fun x hx => (List.mem_filter.mp hx).2) hbad n
  have hpos : ∀ i, pos J n i = i := fun i => pos_eq_self ((hcount i).trans_lt hn)
  by_cases hlt : u < (l.filter valid).length
  · have hitem := hfront.item u hlt
    rw [hpos] at hitem
    rw [hitem, List.getD_eq_getElem _ _ hlt]
  · rw [List.getD_eq_default _ _ (Nat.le_of_not_lt hlt)]
    refine hfront.other u hu fun i hi => ?_
    rw [hpos]
    omega

/-! ### The number of valid items -/

/-- The number of valid items of an array. -/
def countValid (valid : α → Bool) (m : ℕ) (a : ℕ → α) : ℕ :=
  (List.range m).countP fun u => valid (a u)

/-- The places of an array, two of them exchanged, are its places. -/
theorem range_map_swap {i j : ℕ} (hi : i < m) (hj : j < m) :
    (List.range m).map (Equiv.swap i j) |>.Perm (List.range m) := by
  refine (List.perm_ext_iff_of_nodup ?_ List.nodup_range).mpr fun k => ?_
  · exact List.nodup_range.map (Equiv.swap i j).injective
  · rw [List.mem_map, List.mem_range]
    constructor
    · rintro ⟨u, hu, rfl⟩
      have hu := List.mem_range.mp hu
      rw [Equiv.swap_apply_def]
      split
      · exact hj
      · split
        · exact hi
        · exact hu
    · intro hk
      refine ⟨Equiv.swap i j k, List.mem_range.mpr ?_, Equiv.swap_apply_self i j k⟩
      rw [Equiv.swap_apply_def]
      split
      · exact hj
      · split
        · exact hi
        · exact hk

/-- An exchange keeps the number of valid items. -/
theorem countValid_swap (a : ℕ → α) {i j : ℕ} (hi : i < m) (hj : j < m) :
    countValid valid m (swap a i j) = countValid valid m a := by
  have hswap : ∀ u, swap a i j u = a (Equiv.swap i j u) := by
    intro u
    rw [swap, Equiv.swap_apply_def]
    by_cases huj : u = j
    · by_cases hui : u = i
      · rw [if_pos huj, if_pos hui, ← hui, huj]
      · rw [if_pos huj, if_neg hui, if_pos huj]
    · by_cases hui : u = i
      · rw [if_neg huj, if_pos hui, if_pos hui]
      · rw [if_neg huj, if_neg hui, if_neg hui, if_neg huj]
  have hperm := (range_map_swap hi hj).countP_eq fun u => valid (a u)
  rw [List.countP_map] at hperm
  rw [countValid, countValid, ← hperm]
  refine List.countP_congr fun u _ => ?_
  rw [hswap]
  rfl

/-- **The passes keep the number of valid items.** -/
theorem countValid_passes (a : ℕ → α) (n : ℕ) :
    countValid valid m ((List.range n).foldl
      (fun a t => ((List.range m).foldl (moveStep valid t) (0, a)).2) a) =
      countValid valid m a := by
  have hpass : ∀ t k (s : ℕ × (ℕ → α)), k ≤ m →
      countValid valid m ((List.range k).foldl (moveStep valid t) s).2 =
        countValid valid m s.2 := by
    intro t k s hk
    induction k with
    | zero => rfl
    | succ k ih =>
        rw [List.range_succ, List.foldl_append, ← ih (by omega)]
        generalize (List.range k).foldl (moveStep valid t) s = s'
        rw [List.foldl_cons, List.foldl_nil, moveStep]
        dsimp only
        split
        · exact countValid_swap _ hk ((Nat.sub_le _ _).trans_lt hk)
        · rfl
  induction n with
  | zero => rfl
  | succ n ih =>
      rw [List.range_succ, List.foldl_append]
      exact (hpass n m _ le_rfl).trans ih

theorem countValid_getD (bad : α) (l : List α) :
    countValid valid l.length (fun u => l.getD u bad) = (l.filter valid).length := by
  have hmap : (List.range l.length).map (fun u => l.getD u bad) = l := by
    refine List.ext_getElem (by simp) fun i h₁ h₂ => ?_
    rw [List.getElem_map, List.getElem_range, List.getD_eq_getElem _ _ h₂]
  have hcount := congrArg (List.countP valid) hmap
  rw [List.countP_map] at hcount
  rw [← List.countP_eq_length_filter]
  exact hcount

/-- A front of valid items is not longer than the number of valid items. -/
theorem le_countValid {a : ℕ → α} {k : ℕ} (hk : k ≤ m) (h : ∀ u < k, valid (a u) = true) :
    k ≤ countValid valid m a := by
  have hall : (List.range k).countP (fun u => valid (a u)) = k := by
    rw [List.countP_eq_length.mpr fun u hu => h u (List.mem_range.mp hu), List.length_range]
  rw [countValid, ← hall]
  exact (List.range_sublist.mpr hk).countP_le

end Compaction
