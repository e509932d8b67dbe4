import Mathlib.Data.List.Basic

/-!
# Draws from a Source

A source of values is a state with a function that returns the next value and the next
state. Programs that consume draws, rejection loops among them, take the source as a
parameter. Two sources that agree draw by draw, under a relation of their states, give such
a program the same results, and leave it in related states: what was consumed is the same.

## Main results

* `Agrees.draws_eq`: sources that agree give the same list of draws.
* `drawUntil_eq_some`: a rejection loop returns the first draw that is accepted.
* `drawUntil_mono`: more fuel never changes the result of a rejection loop.
* `Agrees.drawUntil`: the results of a rejection loop over sources that agree.
* `retry_eq_some_iff`, `endsAt_iff`: a retry loop returns the first attempt that passes its
  check.
* `search_eq_some_some_iff`, `search_eq_some_none_iff`: what a search among the attempts
  finds.
-/

namespace Draws

variable {α β σ τ : Type*}

/-- The first `n` draws from a state. -/
def draws (next : σ → α × σ) : ℕ → σ → List α
  | 0, _ => []
  | n + 1, s => (next s).1 :: draws next n (next s).2

/-- Every value of the list was drawn from some state. -/
theorem exists_of_mem_draws {next : σ → α × σ} {n : ℕ} {s : σ} {a : α}
    (h : a ∈ draws next n s) : ∃ t, a = (next t).1 := by
  induction n generalizing s with
  | zero => cases h
  | succ n ih =>
      rcases List.mem_cons.mp h with rfl | h
      · exact ⟨s, rfl⟩
      · exact ih h

/-- The draws of two sources agree from related states on, and related states are left. -/
def Agrees (next₁ : σ → α × σ) (next₂ : τ → α × τ) (R : σ → τ → Prop) : Prop :=
  ∀ s t, R s t → (next₁ s).1 = (next₂ t).1 ∧ R (next₁ s).2 (next₂ t).2

/-- Sources that agree give the same list of draws. -/
theorem Agrees.draws_eq {next₁ : σ → α × σ} {next₂ : τ → α × τ} {R : σ → τ → Prop}
    (h : Agrees next₁ next₂ R) (n : ℕ) {s : σ} {t : τ} (hst : R s t) :
    draws next₁ n s = draws next₂ n t := by
  induction n generalizing s t with
  | zero => rfl
  | succ n ih => rw [draws, draws, (h s t hst).1, ih (h s t hst).2]

/-- Two outcomes of a program over related states: both out of fuel, or the same value and
related states. -/
def SameOutcome (R : σ → τ → Prop) : Option (β × σ) → Option (β × τ) → Prop :=
  Option.Rel fun p q => p.1 = q.1 ∧ R p.2 q.2

theorem SameOutcome.exists_iff {R : σ → τ → Prop} {x : Option (β × σ)} {y : Option (β × τ)}
    (h : SameOutcome R x y) (b : β) : (∃ s, x = some (b, s)) ↔ ∃ t, y = some (b, t) := by
  cases h with
  | none => simp
  | @some p q hpq =>
      obtain ⟨a, s⟩ := p
      obtain ⟨a', t⟩ := q
      obtain ⟨rfl, -⟩ := hpq
      simp

/-- Sequencing keeps outcomes the same. -/
theorem SameOutcome.bind {γ : Type*} {R : σ → τ → Prop} {x : Option (β × σ)}
    {y : Option (β × τ)} (h : SameOutcome R x y) {f : β × σ → Option (γ × σ)}
    {g : β × τ → Option (γ × τ)} (hfg : ∀ b s t, R s t → SameOutcome R (f (b, s)) (g (b, t))) :
    SameOutcome R (x.bind f) (y.bind g) := by
  cases h with
  | none => exact .none
  | @some p q hpq =>
      obtain ⟨a, s⟩ := p
      obtain ⟨a', t⟩ := q
      obtain ⟨rfl, hst⟩ := hpq
      exact hfg a s t hst

/-- A rejection loop: values are drawn until one is accepted, `fuel` times at most. -/
def drawUntil (next : σ → α × σ) (accept : α → Bool) : ℕ → σ → Option (α × σ)
  | 0, _ => none
  | fuel + 1, s =>
    let (a, s) := next s
    if accept a then some (a, s) else drawUntil next accept fuel s

/-- More fuel never changes a result. -/
theorem drawUntil_mono {next : σ → α × σ} {accept : α → Bool} {fuel fuel' : ℕ}
    (hle : fuel ≤ fuel') {s : σ} {r : α × σ} (h : drawUntil next accept fuel s = some r) :
    drawUntil next accept fuel' s = some r := by
  induction fuel generalizing fuel' s with
  | zero => simp [drawUntil] at h
  | succ fuel ih =>
      obtain ⟨fuel', rfl⟩ : ∃ k, fuel' = k + 1 := ⟨fuel' - 1, by omega⟩
      rw [drawUntil] at h ⊢
      by_cases ha : accept (next s).1 = true
      · simpa [ha] using h
      · simp only [ha] at h ⊢
        exact ih (by omega) h

/-- **What a rejection loop returns**: the first draw that is accepted. -/
theorem drawUntil_eq_some {next : σ → α × σ} {accept : α → Bool} {fuel : ℕ} {s : σ} {r : α × σ}
    (h : drawUntil next accept fuel s = some r) :
    ∃ rejected, (∀ a ∈ rejected, accept a = false) ∧ accept r.1 = true ∧
      draws next (rejected.length + 1) s = rejected ++ [r.1] := by
  induction fuel generalizing s with
  | zero => cases h
  | succ fuel ih =>
      rw [drawUntil] at h
      dsimp only at h
      by_cases ha : accept (next s).1 = true
      · rw [if_pos ha] at h
        cases h
        exact ⟨[], by simp, ha, rfl⟩
      · rw [if_neg ha] at h
        obtain ⟨rejected, hrejected, hr, hdraws⟩ := ih h
        refine ⟨(next s).1 :: rejected, fun a hmem => ?_, hr, ?_⟩
        · rcases List.mem_cons.mp hmem with rfl | hmem
          · exact Bool.eq_false_iff.mpr ha
          · exact hrejected a hmem
        · rw [List.length_cons, draws, hdraws, List.cons_append]

/-- A rejection loop over sources that agree. -/
theorem Agrees.drawUntil {next₁ : σ → α × σ} {next₂ : τ → α × τ} {R : σ → τ → Prop}
    (h : Agrees next₁ next₂ R) (accept : α → Bool) (fuel : ℕ) {s : σ} {t : τ} (hst : R s t) :
    SameOutcome R (drawUntil next₁ accept fuel s) (drawUntil next₂ accept fuel t) := by
  induction fuel generalizing s t with
  | zero => exact .none
  | succ fuel ih =>
      obtain ⟨hval, hnext⟩ := h s t hst
      rw [Draws.drawUntil, Draws.drawUntil]
      simp only [← hval]
      by_cases ha : accept (next₁ s).1 = true
      · rw [if_pos ha, if_pos ha]
        exact .some ⟨rfl, hnext⟩
      · rw [if_neg ha, if_neg ha]
        exact ih hnext

/-! ### Retrying -/

/-- The attempt with index `n`, the source continuing. -/
def nthAttempt (sample : σ → Option (α × σ)) : ℕ → σ → Option (α × σ)
  | 0, s => sample s
  | n + 1, s => (nthAttempt sample n s).bind fun (_, s) => sample s

/-- Attempts until one passes the check, `attempts` at most. -/
def retry (sample : σ → Option (α × σ)) (check : α → Option β) :
    ℕ → σ → Option ((α × β) × σ)
  | 0, _ => none
  | attempts + 1, s =>
    (sample s).bind fun (a, s) =>
      match check a with
      | some b => some ((a, b), s)
      | none => retry sample check attempts s

variable {sample : σ → Option (α × σ)} {check : α → Option β}

/-- The attempts after the first one are the attempts from the state that it leaves. -/
theorem nthAttempt_succ (n : ℕ) (s : σ) :
    nthAttempt sample (n + 1) s = (sample s).bind fun (_, s) => nthAttempt sample n s := by
  induction n with
  | zero => rfl
  | succ n ih =>
      rw [nthAttempt, ih, Option.bind_assoc]
      rfl

/-- **The loop returns the first attempt that passes the check.** -/
theorem retry_eq_some_iff {attempts : ℕ} {s t : σ} {a : α} {b : β} :
    retry sample check attempts s = some ((a, b), t) ↔
      ∃ n < attempts, nthAttempt sample n s = some (a, t) ∧ check a = some b ∧
        ∀ m < n, ∃ a' t', nthAttempt sample m s = some (a', t') ∧ check a' = none := by
  induction attempts generalizing s with
  | zero => simp [retry]
  | succ attempts ih =>
      rw [retry]
      constructor
      · intro h
        obtain ⟨⟨a₀, s₀⟩, hsample, hround⟩ := Option.bind_eq_some_iff.mp h
        dsimp only at hround
        cases hcheck : check a₀ with
        | some b₀ =>
            rw [hcheck] at hround
            cases hround
            exact ⟨0, Nat.zero_lt_succ _, hsample, hcheck,
              fun m hm => absurd hm (Nat.not_lt_zero m)⟩
        | none =>
            rw [hcheck] at hround
            obtain ⟨n, hn, hnth, hb, hbefore⟩ := ih.mp hround
            refine ⟨n + 1, by omega, ?_, hb, fun m hm => ?_⟩
            · rw [nthAttempt_succ, hsample]
              exact hnth
            · cases m with
              | zero => exact ⟨a₀, s₀, hsample, hcheck⟩
              | succ m =>
                  rw [nthAttempt_succ, hsample]
                  exact hbefore m (by omega)
      · rintro ⟨n, hn, hnth, hb, hbefore⟩
        cases n with
        | zero =>
            rw [nthAttempt] at hnth
            simp only [hnth, Option.bind_some, hb]
        | succ n =>
            obtain ⟨a₀, s₀, hsample, hcheck⟩ := hbefore 0 (Nat.zero_lt_succ n)
            rw [nthAttempt] at hsample
            simp only [hsample, Option.bind_some, hcheck]
            rw [nthAttempt_succ, hsample] at hnth
            refine ih.mpr ⟨n, by omega, hnth, hb, fun m hm => ?_⟩
            have hm' := hbefore (m + 1) (by omega)
            rwa [nthAttempt_succ, hsample] at hm'

/-- A first attempt that passes the check is returned. -/
theorem retry_of_first {attempts : ℕ} {s t : σ} {a : α} {b : β} (hs : sample s = some (a, t))
    (hb : check a = some b) : retry sample check (attempts + 1) s = some ((a, b), t) :=
  retry_eq_some_iff.mpr ⟨0, Nat.succ_pos _, hs, hb, fun _ hm => (Nat.not_lt_zero _ hm).elim⟩

/-- The attempt that passes was made from some state. -/
theorem exists_sample_of_retry {attempts : ℕ} {s t : σ} {a : α} {b : β}
    (h : retry sample check attempts s = some ((a, b), t)) :
    (∃ s', sample s' = some (a, t)) ∧ check a = some b := by
  obtain ⟨n, -, hnth, hb, -⟩ := retry_eq_some_iff.mp h
  refine ⟨?_, hb⟩
  cases n with
  | zero => exact ⟨s, hnth⟩
  | succ n =>
      rw [nthAttempt, Option.bind_eq_some_iff] at hnth
      obtain ⟨⟨a', s'⟩, -, hsample⟩ := hnth
      exact ⟨s', hsample⟩

/-- More attempts do not change a result. -/
theorem retry_mono {attempts attempts' : ℕ} (hle : attempts ≤ attempts') {s : σ}
    {r : (α × β) × σ} (h : retry sample check attempts s = some r) :
    retry sample check attempts' s = some r := by
  obtain ⟨⟨a, b⟩, t⟩ := r
  obtain ⟨n, hn, hnth⟩ := retry_eq_some_iff.mp h
  exact retry_eq_some_iff.mpr ⟨n, Nat.lt_of_lt_of_le hn hle, hnth⟩

/-- The loop ends at the attempt with index `n`: `n + 1` attempts are enough, and `n` are
not. -/
def EndsAt (sample : σ → Option (α × σ)) (check : α → Option β) (s : σ) (n : ℕ) : Prop :=
  (retry sample check (n + 1) s).isSome ∧ retry sample check n s = none

/-- **Where the loop ends**: at the least index whose attempt passes. -/
theorem endsAt_iff {s : σ} {n : ℕ} :
    EndsAt sample check s n ↔
      (∃ a b t, nthAttempt sample n s = some (a, t) ∧ check a = some b) ∧
        ∀ m < n, ∃ a t, nthAttempt sample m s = some (a, t) ∧ check a = none := by
  constructor
  · rintro ⟨hsome, hnone⟩
    obtain ⟨⟨⟨a, b⟩, t⟩, hretry⟩ := Option.isSome_iff_exists.mp hsome
    obtain ⟨k, hk, hnth, hb, hbefore⟩ := retry_eq_some_iff.mp hretry
    rcases Nat.eq_or_lt_of_le (Nat.le_of_lt_succ hk) with rfl | hlt
    · exact ⟨⟨a, b, t, hnth, hb⟩, hbefore⟩
    · -- An earlier attempt that passes would end the shorter loop.
      rw [retry_eq_some_iff.mpr ⟨k, hlt, hnth, hb, hbefore⟩] at hnone
      cases hnone
  · rintro ⟨⟨a, b, t, hnth, hb⟩, hbefore⟩
    refine ⟨?_, ?_⟩
    · rw [retry_eq_some_iff.mpr ⟨n, Nat.lt_succ_self n, hnth, hb, hbefore⟩]
      rfl
    · cases hretry : retry sample check n s with
      | none => rfl
      | some out =>
          obtain ⟨⟨a', b'⟩, t'⟩ := out
          obtain ⟨k, hk, hnth', hb', -⟩ := retry_eq_some_iff.mp hretry
          obtain ⟨a₀, t₀, hk', hnone⟩ := hbefore k hk
          obtain rfl : a' = a₀ := by
            rw [hnth'] at hk'
            cases hk'
            rfl
          rw [hnone] at hb'
          cases hb'

/-! ### Searching for an attempt -/

/-- The first of `togo` attempts that passes, with its index. The outer `none` is for an attempt
that has no outcome. -/
def search (sample : σ → Option (α × σ)) (pass : α → Bool) :
    ℕ → σ → Option (Option (ℕ × α))
  | 0, _ => some none
  | togo + 1, s =>
    (sample s).bind fun (a, s) =>
      if pass a then some (some (0, a))
      else (search sample pass togo s).map (Option.map fun (k, a) => (k + 1, a))

/-- **What a search finds**: the least index whose attempt passes. -/
theorem search_eq_some_some_iff {pass : α → Bool} {togo k : ℕ} {s : σ} {a : α} :
    search sample pass togo s = some (some (k, a)) ↔
      k < togo ∧ (∃ t, nthAttempt sample k s = some (a, t)) ∧ pass a = true ∧
        ∀ m < k, ∃ a' t', nthAttempt sample m s = some (a', t') ∧ pass a' = false := by
  induction togo generalizing s k with
  | zero => simp [search]
  | succ togo ih =>
      rw [search]
      constructor
      · intro h
        obtain ⟨⟨a₀, s₀⟩, hsample, hround⟩ := Option.bind_eq_some_iff.mp h
        dsimp only at hround
        by_cases hpass : pass a₀ = true
        · rw [if_pos hpass] at hround
          cases hround
          exact ⟨Nat.zero_lt_succ _, ⟨s₀, hsample⟩, hpass,
            fun m hm => absurd hm (Nat.not_lt_zero m)⟩
        · rw [if_neg hpass] at hround
          obtain ⟨r, hr, hmap⟩ := Option.map_eq_some_iff.mp hround
          obtain ⟨⟨k', a'⟩, rfl, heq⟩ := Option.map_eq_some_iff.mp hmap
          cases heq
          obtain ⟨hlt, ⟨t, hnth⟩, ha, hbefore⟩ := ih.mp hr
          refine ⟨Nat.succ_lt_succ hlt, ⟨t, ?_⟩, ha, fun m hm => ?_⟩
          · rw [nthAttempt_succ, hsample]
            exact hnth
          · cases m with
            | zero => exact ⟨a₀, s₀, hsample, Bool.eq_false_iff.mpr hpass⟩
            | succ m =>
                rw [nthAttempt_succ, hsample]
                exact hbefore m (Nat.lt_of_succ_lt_succ hm)
      · rintro ⟨hlt, ⟨t, hnth⟩, ha, hbefore⟩
        cases k with
        | zero =>
            rw [nthAttempt] at hnth
            simp only [hnth, Option.bind_some, ha, if_true]
        | succ k =>
            obtain ⟨a₀, s₀, hsample, hfail⟩ := hbefore 0 (Nat.zero_lt_succ k)
            rw [nthAttempt] at hsample
            rw [nthAttempt_succ, hsample] at hnth
            have hrest : search sample pass togo s₀ = some (some (k, a)) := by
              refine ih.mpr ⟨Nat.lt_of_succ_lt_succ hlt, ⟨t, hnth⟩, ha, fun m hm => ?_⟩
              have hm' := hbefore (m + 1) (Nat.succ_lt_succ hm)
              rwa [nthAttempt_succ, hsample] at hm'
            rw [hsample, Option.bind_some]
            simp [hfail, hrest]

/-- **When a search finds nothing**: no attempt passes. -/
theorem search_eq_some_none_iff {pass : α → Bool} {togo : ℕ} {s : σ} :
    search sample pass togo s = some none ↔
      ∀ m < togo, ∃ a t, nthAttempt sample m s = some (a, t) ∧ pass a = false := by
  induction togo generalizing s with
  | zero => simp [search]
  | succ togo ih =>
      rw [search]
      constructor
      · intro h m hm
        obtain ⟨⟨a₀, s₀⟩, hsample, hround⟩ := Option.bind_eq_some_iff.mp h
        dsimp only at hround
        by_cases hpass : pass a₀ = true
        · rw [if_pos hpass] at hround
          cases hround
        · rw [if_neg hpass] at hround
          obtain ⟨r, hr, hmap⟩ := Option.map_eq_some_iff.mp hround
          rw [Option.map_eq_none_iff] at hmap
          cases m with
          | zero => exact ⟨a₀, s₀, hsample, Bool.eq_false_iff.mpr hpass⟩
          | succ m =>
              rw [nthAttempt_succ, hsample]
              exact ih.mp (hmap ▸ hr) m (Nat.lt_of_succ_lt_succ hm)
      · intro hall
        obtain ⟨a₀, s₀, hsample, hfail⟩ := hall 0 (Nat.zero_lt_succ togo)
        rw [nthAttempt] at hsample
        have hrest : search sample pass togo s₀ = some none := by
          refine ih.mpr fun m hm => ?_
          have hm' := hall (m + 1) (Nat.succ_lt_succ hm)
          rwa [nthAttempt_succ, hsample] at hm'
        rw [hsample, Option.bind_some]
        simp [hfail, hrest]

/-- A search over samplers with the same outcomes. -/
theorem search_eq_of_sameOutcome {R : σ → τ → Prop} {sample' : τ → Option (α × τ)}
    (h : ∀ s t, R s t → SameOutcome R (sample s) (sample' t)) (pass : α → Bool) (togo : ℕ)
    {s : σ} {t : τ} (hst : R s t) :
    search sample pass togo s = search sample' pass togo t := by
  induction togo generalizing s t with
  | zero => rfl
  | succ togo ih =>
      rw [search, search]
      have hout := h s t hst
      generalize sample s = x at hout
      generalize sample' t = y at hout
      cases hout with
      | none => rfl
      | @some p q hpq =>
          obtain ⟨a, s'⟩ := p
          obtain ⟨a', t'⟩ := q
          obtain ⟨rfl, hst'⟩ := hpq
          simp only [Option.bind_some, ih hst']

end Draws
