import FalconVanity.EmissionLoop
import FalconVanity.SaltSweep

/-!
# Hits Whose Target Is Gone

The Falcon search compares the display strings of a batch before its emission loop, under the
flags at this time. A hit keeps the first target that was found, and is dropped if an earlier
hit of the batch has retired this target, whether or not another active target matches. The
classic search compares at the moment of the emission.

The loops of several filters are followed together: as long as all of them pick what the
Falcon filter picks, they pass through the same states, which the targets of the hits passed
over determine.

## Main results

* `Passed.snoc`: loops that pick alike stay together.
* `dropsUnmatched_iff`: when a dropped hit matches no active target.
* `rematch_emissions_iff`: when the emissions are those of a search that compares again.
-/

namespace FalconVanity

variable (L : Libraries) (cfg : GpuConfig)

/-! ### What is compared -/

/-- The display string of a hit. -/
def VerifiedHit.display (v : VerifiedHit) : Str :=
  Address.toAddressString L.toPrimitives v.addr

/-- The Falcon search with the `pick` of the classic search: a verified hit is compared again
at the moment of its emission. -/
def rematchFilter (S : TargetSet) (fuel : ℕ) (canonicalOnly : Bool) :
    HitFilter DeviceHit VerifiedHit VerifiedHit where
  P := L.toPrimitives
  verify := verifyHits L S fuel canonicalOnly
  pick active v := (S.firstMatchDisplay active (v.display L)).map (v, ·)

/-- The pairs of a hit and a target that are emitted. -/
def emissions (records : List (GpuRecord VerifiedHit)) : Set (VerifiedHit × ℕ) :=
  {e | ∃ r ∈ records, e = (r.key, r.target)}

/-- A hit is dropped only if no target matches that is active at the moment it is reached, or
if all hits are found. -/
def DropsUnmatched (F : HitFilter DeviceHit VerifiedHit VerifiedHit) (call : ℕ) (base : Bytes32)
    (xs : List VerifiedHit) (s : GpuState VerifiedHit) : Prop :=
  ∀ pre v, pre ++ [v] <+: xs →
    (emitLoop F cfg call base (pre ++ [v]) s).records = (emitLoop F cfg call base pre s).records →
      cfg.count ≤ (emitLoop F cfg call base pre s).found ∨
        ∀ i, ¬ cfg.targets.Matches (emitLoop F cfg call base pre s).active (v.display L) i

/-- The targets that hits were verified for. -/
def targetsOf (hits : List VerifiedHit) : Finset ℕ := (hits.map VerifiedHit.target).toFinset

/-- If an earlier hit was verified for the same target and hits are still missing, all targets
that match are targets of earlier hits, as far as they are active before the batch. -/
def NotStale (s : GpuState VerifiedHit) (pre : List VerifiedHit) (v : VerifiedHit) : Prop :=
  v.target ∈ targetsOf pre → s.found + (targetsOf pre).card < cfg.count →
    ∀ i, cfg.targets.Matches s.active (v.display L) i → i ∈ targetsOf pre

/-- No hit of a batch is stale. -/
def StaleFree (xs : List VerifiedHit) (s : GpuState VerifiedHit) : Prop :=
  ∀ pre v, pre ++ [v] <+: xs → NotStale L cfg s pre v

variable {L cfg}

/-- No target is taken by no hits. -/
@[simp]
theorem targetsOf_nil : targetsOf [] = ∅ := rfl

/-- The last hit adds its target. -/
theorem mem_targetsOf_snoc {pre : List VerifiedHit} {v : VerifiedHit} {i : ℕ} :
    i ∈ targetsOf (pre ++ [v]) ↔ i ∈ targetsOf pre ∨ i = v.target := by
  simp [targetsOf, eq_comm, or_comm]

/-- The targets of one more hit. -/
theorem targetsOf_snoc (pre : List VerifiedHit) (v : VerifiedHit) :
    targetsOf (pre ++ [v]) = insert v.target (targetsOf pre) := by
  ext i
  rw [mem_targetsOf_snoc, Finset.mem_insert, or_comm]

/-- A verified hit has the first target that matches under the flags before the batch. -/
theorem firstMatch_of_mem_verifyHits {S : TargetSet} {fuel : ℕ} {canonicalOnly : Bool}
    {active : Active} {raw : List DeviceHit} {v : VerifiedHit}
    (hv : v ∈ verifyHits L S fuel canonicalOnly active raw) :
    S.firstMatchDisplay active (v.display L) = some v.target := by
  obtain ⟨hit, -, hverify⟩ := List.mem_filterMap.mp hv
  simp only [verifyOne, bind, Option.bind_eq_some_iff] at hverify
  obtain ⟨fg, -, kp, -, target, hmatch, hverify⟩ := hverify
  split at hverify
  · cases hverify
  split at hverify
  · cases hverify
  cases hverify
  exact hmatch

/-! ### The state after some hits -/

/-- The flags and the counter after an emission for each target of some hits. Both ways to choose a
target lead to such a state, as long as they agree. -/
structure Reached (s t : GpuState VerifiedHit) (pre : List VerifiedHit) : Prop where
  active : ∀ i, t.active i = true ↔ s.active i = true ∧ i ∉ targetsOf pre
  found : t.found = s.found + (targetsOf pre).card

/-- Before the first hit, the state is that before the batch. -/
theorem Reached.refl (s : GpuState VerifiedHit) : Reached s s [] where
  active := by simp
  found := rfl

/-- A target matches later if it matched before the batch and is not taken. -/
theorem Reached.matches_iff {S : TargetSet} {s t : GpuState VerifiedHit}
    {pre : List VerifiedHit} (h : Reached s t pre) {display : Str} {i : ℕ} :
    S.Matches t.active display i ↔ S.Matches s.active display i ∧ i ∉ targetsOf pre := by
  rw [TargetSet.Matches, TargetSet.Matches, h.active, and_right_comm]

/-- A hit with a target of earlier hits changes nothing. -/
theorem Reached.drop {s t : GpuState VerifiedHit} {pre : List VerifiedHit} {v : VerifiedHit}
    (h : Reached s t pre) (hv : v.target ∈ targetsOf pre) : Reached s t (pre ++ [v]) := by
  have hsame : targetsOf (pre ++ [v]) = targetsOf pre := by
    rw [targetsOf_snoc, Finset.insert_eq_of_mem hv]
  exact ⟨by rw [hsame]; exact h.active, by rw [hsame]; exact h.found⟩

/-- A hit with a new target is emitted. -/
theorem Reached.emit {s t : GpuState VerifiedHit} {pre : List VerifiedHit} {v : VerifiedHit}
    (h : Reached s t pre) (hretire : cfg.targets.retire = true) (hv : t.active v.target = true)
    (call : ℕ) (base : Bytes32) :
    Reached s (emitHit cfg call base t v v.target) (pre ++ [v]) := by
  have hnew : v.target ∉ targetsOf pre := ((h.active v.target).mp hv).2
  refine ⟨fun i => ?_, ?_⟩
  · simp only [emitHit, TargetSet.claim, if_pos hretire, if_pos hv]
    rw [mem_targetsOf_snoc, not_or, ← and_assoc, ← h.active]
    by_cases hi : i = v.target
    · simp [hi]
    · simp [hi]
  · rw [targetsOf_snoc, Finset.card_insert_of_notMem hnew, ← Nat.add_assoc, ← h.found]
    rfl

/-! ### Loops that pick alike -/

/-- The loops of some filters are in the same state after the hits of `pre`: they go on, or
they have ended after some of these hits. -/
inductive Passed (Fs : Set (HitFilter DeviceHit VerifiedHit VerifiedHit)) (cfg : GpuConfig)
    (call : ℕ) (base : Bytes32) (s : GpuState VerifiedHit) (pre : List VerifiedHit) :
    GpuState VerifiedHit → Prop
  | running {t : GpuState VerifiedHit} : Reached s t pre → (pre ≠ [] → t.found < cfg.count) →
      (∀ F ∈ Fs, ∀ ys, emitLoop F cfg call base (pre ++ ys) s = emitLoop F cfg call base ys t) →
      Passed Fs cfg call base s pre t
  | stopped {t : GpuState VerifiedHit} {part : List VerifiedHit} : part <+: pre →
      Reached s t part → (cfg.count ≤ t.found ∨ cfg.targets.anyActive t.active = false) →
      (∀ F ∈ Fs, ∀ ys, emitLoop F cfg call base (pre ++ ys) s = t) →
      Passed Fs cfg call base s pre t

section Loops

variable {Fs : Set (HitFilter DeviceHit VerifiedHit VerifiedHit)} {call : ℕ} {base : Bytes32}
  {s t : GpuState VerifiedHit} {pre : List VerifiedHit} {v : VerifiedHit}

/-- Each of the loops has come to the same state. -/
theorem Passed.eq {F : HitFilter DeviceHit VerifiedHit VerifiedHit}
    (h : Passed Fs cfg call base s pre t) (hF : F ∈ Fs) : emitLoop F cfg call base pre s = t := by
  cases h with
  | running _ _ hloop =>
      have h := hloop F hF []
      rwa [List.append_nil] at h
  | stopped _ _ _ hloop =>
      have h := hloop F hF []
      rwa [List.append_nil] at h

/-- What a filter does that picks as the Falcon filter does. -/
def PicksFrozen (F : HitFilter DeviceHit VerifiedHit VerifiedHit) (active : Active)
    (v : VerifiedHit) : Prop :=
  F.pick active v = if active v.target then some (v, v.target) else none

/-- **Loops that pick alike** stay together. -/
theorem Passed.snoc (hretire : cfg.targets.retire = true) (hallow : cfg.allowSiblingHits = true)
    (h : Passed Fs cfg call base s pre t) (hv : s.active v.target = true)
    (hpick : ∀ F ∈ Fs, Reached s t pre → (pre ≠ [] → t.found < cfg.count) →
      PicksFrozen F t.active v) :
    ∃ t', Passed Fs cfg call base s (pre ++ [v]) t' := by
  cases h with
  | stopped hpart hreached hend hloop =>
      refine ⟨t, .stopped (hpart.trans (List.prefix_append pre [v])) hreached hend ?_⟩
      intro F hF ys
      rw [List.append_assoc]
      exact hloop F hF _
  | running hreached hbelow hloop =>
      have hstep : ∀ F ∈ Fs, ∀ ys, emitLoop F cfg call base (pre ++ [v] ++ ys) s =
          emitLoop F cfg call base (v :: ys) t := by
        intro F hF ys
        rw [List.append_assoc]
        exact hloop F hF _
      by_cases hactive : t.active v.target = true
      · -- the hit is emitted by all loops, which end or go on
        have hnext : ∀ F ∈ Fs, ∀ ys, emitLoop F cfg call base (v :: ys) t =
            if (emitHit cfg call base t v v.target).found ≥ cfg.count ||
                !cfg.targets.anyActive (emitHit cfg call base t v v.target).active then
              emitHit cfg call base t v v.target
            else emitLoop F cfg call base ys (emitHit cfg call base t v v.target) := by
          intro F hF ys
          rw [emitLoop, (hpick F hF hreached hbelow).trans (if_pos hactive)]
          simp [hallow]
        refine ⟨emitHit cfg call base t v v.target, ?_⟩
        have hreached' := hreached.emit hretire hactive call base
        by_cases hend : ((emitHit cfg call base t v v.target).found ≥ cfg.count ||
            !cfg.targets.anyActive (emitHit cfg call base t v v.target).active) = true
        · refine .stopped List.prefix_rfl hreached' (by simpa using hend) fun F hF ys => ?_
          rw [hstep F hF, hnext F hF, if_pos hend]
        · refine .running hreached' (fun _ => ?_) fun F hF ys => ?_
          · simp only [Bool.or_eq_true, decide_eq_true_eq, not_or] at hend
            exact Nat.lt_of_not_le hend.1
          · rw [hstep F hF, hnext F hF, if_neg hend]
      · -- the hit is dropped by all loops
        have hmem : v.target ∈ targetsOf pre := by
          by_contra hmem
          exact hactive ((hreached.active v.target).mpr ⟨hv, hmem⟩)
        refine ⟨t, .running (hreached.drop hmem) (fun _ => hbelow ?_) fun F hF ys => ?_⟩
        · rintro rfl
          exact absurd hmem (Finset.notMem_empty _)
        · rw [hstep F hF, emitLoop, (hpick F hF hreached hbelow).trans (if_neg hactive)]

/-- Before the first hit, all loops are in one state. -/
theorem Passed.refl : Passed Fs cfg call base s [] s :=
  .running (.refl s) (fun h => absurd rfl h) fun _ _ _ => rfl

/-- When the condition of a stale hit fails, at the hit that the loops are about to reach. -/
theorem Passed.of_stale (h : Passed Fs cfg call base s pre t) (hstale : ¬ NotStale L cfg s pre v) :
    v.target ∈ targetsOf pre ∧ Reached s t pre ∧ t.found < cfg.count ∧
      (∃ i, cfg.targets.Matches t.active (v.display L) i) ∧
      ∀ F ∈ Fs, ∀ ys, emitLoop F cfg call base (pre ++ ys) s = emitLoop F cfg call base ys t := by
  simp only [NotStale, not_forall] at hstale
  obtain ⟨hmem, hcount, i, hmatch, hi⟩ := hstale
  cases h with
  | running hreached hbelow hloop =>
      exact ⟨hmem, hreached, hreached.found ▸ hcount,
        ⟨i, hreached.matches_iff.mpr ⟨hmatch, hi⟩⟩, hloop⟩
  | @stopped part hpart hreached hend hloop =>
      exfalso
      have hsub : targetsOf part ⊆ targetsOf pre := by
        intro j hj
        simp only [targetsOf, List.mem_toFinset] at hj ⊢
        exact List.map_subset VerifiedHit.target hpart.subset hj
      rcases hend with hend | hend
      · have hcard := Finset.card_le_card hsub
        have hfound := hreached.found
        omega
      · have hmatch' := (hreached.matches_iff (S := cfg.targets)).mpr
          ⟨hmatch, fun hj => hi (hsub hj)⟩
        exact TargetSet.not_matches_of_anyActive hend hmatch'

end Loops

/-! ### When no hit is stale -/

section Frozen

variable {fuel : ℕ} {canonicalOnly : Bool} {call : ℕ} {base : Bytes32}
  {s t : GpuState VerifiedHit} {xs : List VerifiedHit}

/-- The hits keep the first targets that match before the batch. -/
def Verified (L : Libraries) (cfg : GpuConfig) (s : GpuState VerifiedHit)
    (xs : List VerifiedHit) : Prop :=
  ∀ v ∈ xs, cfg.targets.firstMatchDisplay s.active (v.display L) = some v.target

/-- The target of each hit is the first one that its address matches before the batch. -/
theorem Verified.of_prefix {pre : List VerifiedHit} {v : VerifiedHit}
    (h : Verified L cfg s xs) (hpre : pre ++ [v] <+: xs) :
    cfg.targets.firstMatchDisplay s.active (v.display L) = some v.target :=
  h v (hpre.subset (List.mem_append_right _ List.mem_cons_self))

/-- The target of each hit is active before the batch. -/
theorem Verified.active {pre : List VerifiedHit} {v : VerifiedHit} (h : Verified L cfg s xs)
    (hpre : pre ++ [v] <+: xs) : s.active v.target = true :=
  ((cfg.targets.firstMatchDisplay_eq_some_iff _).mp (h.of_prefix hpre)).1.1

/-- The loop of the Falcon search, over some of the hits. -/
theorem exists_passed (hretire : cfg.targets.retire = true) (hallow : cfg.allowSiblingHits = true)
    (hxs : Verified L cfg s xs) {pre : List VerifiedHit} (hpre : pre <+: xs) :
    ∃ t, Passed {f1Filter L cfg.targets fuel canonicalOnly} cfg call base s pre t := by
  induction pre using List.reverseRecOn with
  | nil => exact ⟨s, .refl⟩
  | append_singleton pre v ih =>
      obtain ⟨t, ht⟩ := ih ((List.prefix_append pre [v]).trans hpre)
      refine ht.snoc hretire hallow (hxs.active hpre) fun F hF _ _ => ?_
      rw [Set.mem_singleton_iff.mp hF]
      rfl

/-- A hit that is not stale is dropped if and only if no active target matches. -/
theorem picksFrozen_rematch {pre : List VerifiedHit} {v : VerifiedHit} (hreached : Reached s t pre)
    (hbelow : pre ≠ [] → t.found < cfg.count)
    (hv : cfg.targets.firstMatchDisplay s.active (v.display L) = some v.target)
    (hfresh : NotStale L cfg s pre v) :
    PicksFrozen (rematchFilter L cfg.targets fuel canonicalOnly) t.active v := by
  obtain ⟨hmatch, hleast⟩ := (cfg.targets.firstMatchDisplay_eq_some_iff _).mp hv
  simp only [PicksFrozen, rematchFilter]
  by_cases hactive : t.active v.target = true
  · have hfirst : cfg.targets.firstMatchDisplay t.active (v.display L) = some v.target :=
      (cfg.targets.firstMatchDisplay_eq_some_iff _).mpr
        ⟨⟨hactive, hmatch.2⟩, fun j hj hm => hleast j hj (hreached.matches_iff.mp hm).1⟩
    rw [if_pos hactive, hfirst]
    rfl
  · have hmem : v.target ∈ targetsOf pre := by
      by_contra hmem
      exact hactive ((hreached.active v.target).mpr ⟨hmatch.1, hmem⟩)
    have hne : pre ≠ [] := by
      rintro rfl
      exact absurd hmem (Finset.notMem_empty _)
    have hnone : cfg.targets.firstMatchDisplay t.active (v.display L) = none := by
      refine Option.eq_none_iff_forall_ne_some.mpr fun i hi => ?_
      obtain ⟨hi, -⟩ := (cfg.targets.firstMatchDisplay_eq_some_iff _).mp hi
      obtain ⟨hi, hnew⟩ := hreached.matches_iff.mp hi
      exact hnew (hfresh hmem (hreached.found ▸ hbelow hne) i hi)
    rw [if_neg hactive, hnone]
    rfl

/-- **When a dropped hit matches no active target**: if no hit of the batch is stale. -/
theorem dropsUnmatched_iff (hretire : cfg.targets.retire = true)
    (hallow : cfg.allowSiblingHits = true) (hxs : Verified L cfg s xs) :
    DropsUnmatched L cfg (f1Filter L cfg.targets fuel canonicalOnly) call base xs s ↔
      StaleFree L cfg xs s := by
  refine forall_congr' fun pre => forall_congr' fun v => forall_congr' fun hpre => ?_
  obtain ⟨t, ht⟩ : ∃ t, Passed {f1Filter L cfg.targets fuel canonicalOnly} cfg call base s pre t :=
    exists_passed hretire hallow hxs ((List.prefix_append pre [v]).trans hpre)
  rw [ht.eq rfl]
  constructor
  · intro hdrop
    by_contra hstale
    obtain ⟨hmem, hreached, hcount, ⟨i, hmatch⟩, hloop⟩ := ht.of_stale hstale
    have hgone : t.active v.target ≠ true := fun h => ((hreached.active _).mp h).2 hmem
    have hsame : emitLoop (f1Filter L cfg.targets fuel canonicalOnly) cfg call base (pre ++ [v]) s =
        t := by
      rw [hloop _ rfl, emitLoop]
      simp only [f1Filter, if_neg hgone]
      rfl
    rcases hdrop (by rw [hsame]) with hfull | hnone
    · exact absurd hcount (Nat.not_lt.mpr hfull)
    · exact hnone i hmatch
  · intro hfresh hrecords
    cases ht with
    | running hreached hbelow hloop =>
        have hgone : t.active v.target ≠ true := by
          intro hactive
          rw [hloop _ rfl, emitLoop_records, batchRecords_cons] at hrecords
          simp only [f1Filter, if_pos hactive, hallow, Bool.not_true, Bool.false_and,
            Bool.false_eq_true, if_false] at hrecords
          exact absurd (List.append_right_eq_self.mp hrecords) (List.cons_ne_nil _ _)
        have hmem : v.target ∈ targetsOf pre := by
          by_contra hmem
          exact hgone ((hreached.active v.target).mpr ⟨hxs.active hpre, hmem⟩)
        by_cases hfull : cfg.count ≤ t.found
        · exact .inl hfull
        · refine .inr fun i hi => ?_
          obtain ⟨hi, hnew⟩ := hreached.matches_iff.mp hi
          exact hnew (hfresh hmem (hreached.found ▸ Nat.lt_of_not_le hfull) i hi)
    | stopped _ _ hend _ =>
        exact hend.imp_right fun hend i => TargetSet.not_matches_of_anyActive hend

/-- The loops of both searches, over some of the hits, if no earlier hit is stale. -/
theorem exists_passed_rematch (hretire : cfg.targets.retire = true)
    (hallow : cfg.allowSiblingHits = true) (hxs : Verified L cfg s xs) {pre : List VerifiedHit}
    (hpre : pre <+: xs) (hfresh : ∀ pre' v, pre' ++ [v] <+: pre →
      (∃ t, Passed {f1Filter L cfg.targets fuel canonicalOnly,
        rematchFilter L cfg.targets fuel canonicalOnly} cfg call base s pre' t) →
      NotStale L cfg s pre' v) :
    ∃ t, Passed {f1Filter L cfg.targets fuel canonicalOnly,
      rematchFilter L cfg.targets fuel canonicalOnly} cfg call base s pre t := by
  induction pre using List.reverseRecOn with
  | nil => exact ⟨s, .refl⟩
  | append_singleton pre v ih =>
      obtain ⟨t, ht⟩ := ih ((List.prefix_append pre [v]).trans hpre)
        fun pre' v' h => hfresh pre' v' (h.trans (List.prefix_append pre [v]))
      refine ht.snoc hretire hallow (hxs.active hpre) fun F hF hreached hbelow => ?_
      rcases hF with rfl | hF
      · rfl
      · rw [Set.mem_singleton_iff.mp hF]
        exact picksFrozen_rematch hreached hbelow (hxs.of_prefix hpre)
          (hfresh pre v List.prefix_rfl ⟨t, ht⟩)

/-- The Falcon search emits a hit for the target it was verified for. -/
theorem target_eq_of_mem_f1_records {S : TargetSet} {r : GpuRecord VerifiedHit}
    (hr : r ∈ batchRecords (f1Filter L S fuel canonicalOnly) cfg call base xs s) :
    r.target = r.key.target := by
  obtain ⟨x, -, active, hpick, -⟩ := (ofBatch_of_mem_batchRecords hr).picked
  simp only [f1Filter, Option.ite_none_right_eq_some, Option.some.injEq, Prod.mk.injEq] at hpick
  rw [← hpick.2.1, ← hpick.2.2]

/-- A stale hit is emitted by the search that compares again, for another target. -/
theorem exists_other_target (hallow : cfg.allowSiblingHits = true) {pre : List VerifiedHit}
    {v : VerifiedHit} {Fs : Set (HitFilter DeviceHit VerifiedHit VerifiedHit)}
    (hF : rematchFilter L cfg.targets fuel canonicalOnly ∈ Fs)
    (ht : Passed Fs cfg call base s pre t) (hstale : ¬ NotStale L cfg s pre v)
    (ys : List VerifiedHit) :
    ∃ r ∈ batchRecords (rematchFilter L cfg.targets fuel canonicalOnly) cfg call base
      (pre ++ v :: ys) s, r.target ≠ r.key.target := by
  obtain ⟨hmem, hreached, -, ⟨i, hmatch⟩, hloop⟩ := ht.of_stale hstale
  obtain ⟨j, hj⟩ : ∃ j, cfg.targets.firstMatchDisplay t.active (v.display L) = some j :=
    Option.isSome_iff_exists.mp (firstMatchDisplay_isSome_iff.mpr ⟨i, hmatch⟩)
  have hactive := ((cfg.targets.firstMatchDisplay_eq_some_iff _).mp hj).1.1
  have hne : j ≠ v.target := by
    rintro rfl
    exact ((hreached.active _).mp hactive).2 hmem
  have hpick : (rematchFilter L cfg.targets fuel canonicalOnly).pick t.active v = some (v, j) := by
    simp only [rematchFilter, hj, Option.map_some]
  have hall := hloop _ hF (v :: ys)
  rw [← ht.eq hF] at hall
  rw [batchRecords_append hall, ht.eq hF, batchRecords_cons, hpick]
  dsimp only
  rw [if_neg (by simp [hallow])]
  exact ⟨_, List.mem_append_right _ List.mem_cons_self, hne⟩

/-- **When the emissions are those of a search that compares again**: if no hit of the batch is
stale. -/
theorem rematch_emissions_iff (hretire : cfg.targets.retire = true)
    (hallow : cfg.allowSiblingHits = true) (hxs : Verified L cfg s xs) :
    emissions (batchRecords (f1Filter L cfg.targets fuel canonicalOnly) cfg call base xs s) =
        emissions (batchRecords (rematchFilter L cfg.targets fuel canonicalOnly) cfg call base
          xs s) ↔
      StaleFree L cfg xs s := by
  constructor
  · intro hsame pre v hpre
    -- up to a stale hit, the loops agree; there, only one of them emits
    have hnot : ∀ pre v, pre ++ [v] <+: xs →
        (∃ t, Passed {f1Filter L cfg.targets fuel canonicalOnly,
          rematchFilter L cfg.targets fuel canonicalOnly} cfg call base s pre t) →
        NotStale L cfg s pre v := by
      rintro pre v ⟨ys, hys⟩ ⟨t, ht⟩
      by_contra hstale
      obtain ⟨r, hr, hne⟩ := exists_other_target hallow (.inr rfl) ht hstale ys
      rw [← List.singleton_append, ← List.append_assoc, hys] at hr
      have hmem : (r.key, r.target) ∈ emissions (batchRecords
          (f1Filter L cfg.targets fuel canonicalOnly) cfg call base xs s) := by
        rw [hsame]
        exact ⟨r, hr, rfl⟩
      obtain ⟨r', hr', heq⟩ := hmem
      obtain ⟨hkey, htarget⟩ := Prod.mk.inj heq
      rw [hkey, htarget] at hne
      exact hne (target_eq_of_mem_f1_records hr')
    refine hnot pre v hpre (exists_passed_rematch hretire hallow hxs
      ((List.prefix_append pre [v]).trans hpre) fun pre' v' h => hnot pre' v' ?_)
    exact (h.trans (List.prefix_append pre [v])).trans hpre
  · intro hfresh
    obtain ⟨t, ht⟩ : ∃ t, Passed {f1Filter L cfg.targets fuel canonicalOnly,
        rematchFilter L cfg.targets fuel canonicalOnly} cfg call base s xs t :=
      exists_passed_rematch hretire hallow hxs List.prefix_rfl fun pre v hpre _ =>
        hfresh pre v hpre
    rw [batchRecords, batchRecords, ht.eq (.inl rfl), ht.eq (.inr rfl)]

end Frozen

/-- **When the loop of the Falcon search drops no hit that another target matches.** For a
search that emits siblings and retires targets, all lists of raw hits of a batch and all states
before it, both forms of the condition hold if and only if no hit is stale. -/
theorem f1_drops_unmatched_iff (L : Libraries) (cfg : GpuConfig)
    (hretire : cfg.targets.retire = true) (hallow : cfg.allowSiblingHits = true) (fuel : ℕ)
    (canonicalOnly : Bool) (call : ℕ) (base : Bytes32) (raw : List DeviceHit)
    (s : GpuState VerifiedHit) :
    (DropsUnmatched L cfg (f1Filter L cfg.targets fuel canonicalOnly) call base
        (verifyHits L cfg.targets fuel canonicalOnly s.active raw) s ↔
      StaleFree L cfg (verifyHits L cfg.targets fuel canonicalOnly s.active raw) s) ∧
    (emissions (batchRecords (f1Filter L cfg.targets fuel canonicalOnly) cfg call base
          (verifyHits L cfg.targets fuel canonicalOnly s.active raw) s) =
        emissions (batchRecords (rematchFilter L cfg.targets fuel canonicalOnly) cfg call base
          (verifyHits L cfg.targets fuel canonicalOnly s.active raw) s) ↔
      StaleFree L cfg (verifyHits L cfg.targets fuel canonicalOnly s.active raw) s) :=
  have hxs : Verified L cfg s (verifyHits L cfg.targets fuel canonicalOnly s.active raw) :=
    fun _ hv => firstMatch_of_mem_verifyHits hv
  ⟨dropsUnmatched_iff hretire hallow hxs, rematch_emissions_iff hretire hallow hxs⟩

/-! ### The targets `A` and `AA` -/

/-- The targets with the leading patterns `A` and `AA`, to be found once each. -/
def pairA : TargetSet where
  list := [⟨"A".toList, []⟩, ⟨"AA".toList, []⟩]
  retire := true
  maxPrefix := 2
  list_ne_nil := by simp
  length_le := by simp [maxTargets]
  nodup := by decide
  valid := by
    simp only [List.forall_mem_cons, List.not_mem_nil, false_implies, implies_true, and_true]
    exact ⟨checkTarget_eq_ok_iff.mp rfl, checkTarget_eq_ok_iff.mp rfl⟩
  maxPrefix_eq := rfl
  one_lt_of_retire := by simp

/-- A search for a hit of each of them that emits siblings. -/
def pairConfig : GpuConfig where
  targets := pairA
  count := 2
  count_pos := by decide
  allowSiblingHits := true
  batches := 0

/-- The string of an address that is zero throughout. -/
def zeroDisplay : Str :=
  Address.toAddressString (saltLibraries fun _ => false).toPrimitives
    ((Vector.replicate 32 0).set! 31 0)

/-- With libraries whose addresses are zero, every key is verified for the target that they
match. -/
theorem verifyOne_zeros {S : TargetSet}
    (hmatch : S.firstMatchDisplay (fun _ => true) zeroDisplay = some 0) (entropy : Bytes32) :
    ∃ v, verifyOne (saltLibraries fun _ => false) S 64 false (fun _ => true) ⟨entropy, 0⟩ =
        some v ∧ v.target = 0 ∧ v.display (saltLibraries fun _ => false) = zeroDisplay := by
  obtain ⟨fg, kp, hfg, hkp⟩ := saltLibraries_completes (fun _ => false) entropy
  rw [zeroDisplay] at hmatch
  simp only [verifyOne, hfg, hkp, Option.bind_eq_bind, Option.bind_some, pqAddress_saltLibraries,
    hmatch]
  exact ⟨_, rfl, rfl, rfl⟩

/-- Two hits that are verified, one after the other. -/
theorem verifyHits_pair {S : TargetSet} {x y : DeviceHit} {v w : VerifiedHit}
    (hv : verifyOne (saltLibraries fun _ => false) S 64 false (fun _ => true) x = some v)
    (hw : verifyOne (saltLibraries fun _ => false) S 64 false (fun _ => true) y = some w) :
    verifyHits (saltLibraries fun _ => false) S 64 false (fun _ => true) [x, y] = [v, w] := by
  rw [verifyHits, List.filterMap_cons_some hv, List.filterMap_cons_some hw, List.filterMap_nil]

/-- The targets with the leading patterns `A` and `B`, to be found once each. -/
def pairAB : TargetSet where
  list := [⟨"A".toList, []⟩, ⟨"B".toList, []⟩]
  retire := true
  maxPrefix := 1
  list_ne_nil := by simp
  length_le := by simp [maxTargets]
  nodup := by decide
  valid := by
    simp only [List.forall_mem_cons, List.not_mem_nil, false_implies, implies_true, and_true]
    exact ⟨checkTarget_eq_ok_iff.mp rfl, checkTarget_eq_ok_iff.mp rfl⟩
  maxPrefix_eq := rfl
  one_lt_of_retire := by simp

/-- A search for a hit of each of these. -/
def abConfig : GpuConfig := { pairConfig with targets := pairAB }

/-- Of two keys that match `A`, the second is dropped, and no other target matches it. -/
theorem f1_drops_unmatched_second : ∃ xs : List VerifiedHit, xs.length = 2 ∧
    verifyHits (saltLibraries fun _ => false) pairAB 64 false (fun _ => true)
        [⟨Vector.replicate 32 0, 0⟩, ⟨Vector.replicate 32 1, 0⟩] = xs ∧
      DropsUnmatched (saltLibraries fun _ => false) abConfig
        (f1Filter (saltLibraries fun _ => false) pairAB 64 false) 0 (Vector.replicate 32 0) xs
        (gpuStart plainMix) := by
  have hmatch : pairAB.firstMatchDisplay (fun _ => true) zeroDisplay = some 0 := by
    decide +kernel
  have hB : ¬ "B".toList <+: zeroDisplay := by decide +kernel
  obtain ⟨v, hv, hvt, hvd⟩ := verifyOne_zeros hmatch (Vector.replicate 32 0)
  obtain ⟨w, hw, hwt, hwd⟩ := verifyOne_zeros hmatch (Vector.replicate 32 1)
  refine ⟨[v, w], rfl, verifyHits_pair hv hw, ?_⟩
  have hiff := (f1_drops_unmatched_iff (saltLibraries fun _ => false) abConfig rfl rfl 64 false 0
    (Vector.replicate 32 0) [⟨Vector.replicate 32 0, 0⟩, ⟨Vector.replicate 32 1, 0⟩]
    (gpuStart plainMix)).1
  have hhits : verifyHits (saltLibraries fun _ => false) abConfig.targets 64 false
      (gpuStart plainMix : GpuState VerifiedHit).active
      [⟨Vector.replicate 32 0, 0⟩, ⟨Vector.replicate 32 1, 0⟩] = [v, w] := verifyHits_pair hv hw
  rw [hhits] at hiff
  refine hiff.mpr fun pre x hpre hmem _ i hi => ?_
  have hx : x.target = 0 ∧ x.display (saltLibraries fun _ => false) = zeroDisplay := by
    have hpair : x ∈ [v, w] := hpre.subset (List.mem_append_right pre List.mem_cons_self)
    rcases List.mem_pair.mp hpair with rfl | rfl
    · exact ⟨hvt, hvd⟩
    · exact ⟨hwt, hwd⟩
  obtain ⟨-, t, ht, hpfx, -⟩ := hi
  rw [hx.2] at hpfx
  match i, ht with
  | 0, _ => exact hx.1 ▸ hmem
  | 1, ht =>
      obtain rfl := Option.some.inj ht
      exact absurd hpfx hB

/-- Of two keys that match both targets, the second is dropped. -/
theorem f1_drops_matching_hit : ∃ xs,
    verifyHits (saltLibraries fun _ => false) pairA 64 false (fun _ => true)
        [⟨Vector.replicate 32 0, 0⟩, ⟨Vector.replicate 32 1, 0⟩] = xs ∧
      ¬ DropsUnmatched (saltLibraries fun _ => false) pairConfig
        (f1Filter (saltLibraries fun _ => false) pairA 64 false) 0 (Vector.replicate 32 0) xs
        (gpuStart plainMix) ∧
      emissions (batchRecords (f1Filter (saltLibraries fun _ => false) pairA 64 false) pairConfig 0
          (Vector.replicate 32 0) xs (gpuStart plainMix)) ≠
        emissions (batchRecords (rematchFilter (saltLibraries fun _ => false) pairA 64 false)
          pairConfig 0 (Vector.replicate 32 0) xs (gpuStart plainMix)) := by
  have hmatch : pairA.firstMatchDisplay (fun _ => true) zeroDisplay = some 0 := by decide +kernel
  obtain ⟨v, hv, hvt, hvd⟩ := verifyOne_zeros hmatch (Vector.replicate 32 0)
  obtain ⟨w, hw, hwt, hwd⟩ := verifyOne_zeros hmatch (Vector.replicate 32 1)
  have hverify := verifyHits_pair hv hw
  have hxs : Verified (saltLibraries fun _ => false) pairConfig (gpuStart plainMix) [v, w] :=
    fun x hx => firstMatch_of_mem_verifyHits (hverify ▸ hx)
  have hstale : ¬ StaleFree (saltLibraries fun _ => false) pairConfig [v, w]
      (gpuStart plainMix) := by
    intro hfresh
    have hsecond := hfresh [v] w List.prefix_rfl
      (by rw [targetsOf, hwt]; simp [hvt]) (by simp [targetsOf, gpuStart, pairConfig]) 1
      ⟨rfl, ⟨"AA".toList, []⟩, rfl, by rw [hwd]; decide +kernel, List.nil_suffix⟩
    simp [targetsOf, hvt] at hsecond
  exact ⟨[v, w], hverify, fun h => hstale ((dropsUnmatched_iff rfl rfl hxs).mp h),
    fun h => hstale ((rematch_emissions_iff rfl rfl hxs).mp h)⟩

end FalconVanity
