import FalconVanity.CpuSoundness
import FalconVanity.Schemes
import Mathlib.Algebra.Order.Group.Multiset
import Mathlib.Data.Multiset.UnionInter

/-!
# Hit Accounting of the CPU Search

Threads accept hits by a protocol of atomic steps: claim the target, add one to the counter
of hits, and take it back if the counter was already at the limit. The counter is compared
with the records accepted, the flags with the targets claimed, and the stop flag with the
reasons to stop, as invariants over all interleavings.

A counter that is too high is seen only while some thread is about to take its addition back,
and this happens only when all hits are accepted; so nobody is turned away by an addition
that does not count.

## Main results

* `Counter.reachable`: the counter of hits, and the numbers of the records.
* `Retirement.reachable`: in retiring mode the flags are the targets not claimed.
* `Recorded.reachable`: every record accepted is emitted, or about to be.
* `Stopped.reachable`: the reasons to stop.
* `accepted_length_of_allReturned`: how many records a complete search has.
-/

namespace FalconVanity

open Transitions

variable {κ : Type} {W : Worker κ} {cfg : SearchConfig}

/-! ### The counter of hits -/

/-- The addition of the thread to the counter of hits that it will take back. -/
def Pc.undoing : Pc κ → ℕ
  | .undo => 1
  | _ => 0

/-- The thread was turned away because all hits are accepted. -/
def Pc.turnedAway : Pc κ → Bool
  | .undo => true
  | .giveUp => true
  | _ => false

/-- A thread that is not turned away has nothing to take back. -/
theorem Pc.undoing_eq_zero (p : Pc κ) : p.turnedAway = false → p.undoing = 0 := by
  cases p <;> simp [turnedAway, undoing]

/-- The counter of hits, and the numbers of the records. Threads that were turned away have added
one to the counter, and will take it back. -/
structure Counter (s : SearchState κ cfg) : Prop where
  hits_eq : s.shared.hits = s.shared.accepted.length + total Pc.undoing s.pc
  nums : s.shared.accepted.map HitRecord.num = List.range' 1 s.shared.accepted.length
  length_le : s.shared.accepted.length ≤ cfg.count
  turnedAway : ∀ i, (s.pc i).turnedAway = true → s.shared.accepted.length = cfg.count

/-- A quiet step takes nothing back, before or after, and turns no thread away. -/
theorem Quiet.undoing {s : Shared κ} {p q : Pc κ} (h : Quiet W cfg s p q) :
    p.undoing = 0 ∧ q.undoing = 0 ∧ q.turnedAway = false := by
  cases h <;> simp [Pc.undoing, Pc.turnedAway]

/-- While all hits are not accepted, the counter is exact. -/
theorem Counter.undoing_eq_zero {s : SearchState κ cfg} (h : Counter s)
    (hlt : s.shared.accepted.length < cfg.count) : total Pc.undoing s.pc = 0 := by
  refine total_eq_zero fun i => (s.pc i).undoing_eq_zero ?_
  by_contra hi
  have hfull := h.turnedAway i (Bool.eq_true_of_not_eq_false hi)
  omega

/-- The counter reaches the limit only when all hits are accepted. -/
theorem Counter.full {s : SearchState κ cfg} (h : Counter s)
    (hle : cfg.count ≤ s.shared.hits) : s.shared.accepted.length = cfg.count := by
  by_contra hne
  have hlt := lt_of_le_of_ne h.length_le hne
  have hhits := h.hits_eq
  rw [h.undoing_eq_zero hlt] at hhits
  omega

/-- A counter below the limit is exact. -/
theorem Counter.exact {s : SearchState κ cfg} (h : Counter s)
    (hlt : s.shared.hits < cfg.count) : s.shared.hits = s.shared.accepted.length := by
  have hhits := h.hits_eq
  rw [h.undoing_eq_zero (by omega), Nat.add_zero] at hhits
  exact hhits

/-- A step of one thread keeps the account of the counter. -/
theorem Counter.move {S S' : Shared κ} {pc : Fin cfg.threads → Pc κ} {i : Fin cfg.threads}
    {p p' : Pc κ} (h : Counter ⟨S, pc⟩) (hp : pc i = p) (hm : Move W cfg S p S' p') :
    Counter ⟨S', Function.update pc i p'⟩ := by
  have htotal := total_update Pc.undoing pc i p'
  rw [hp] at htotal
  -- What the others know holds on, since the length matters to them only when it is full.
  have hknown : ∀ {n : ℕ}, (S.accepted.length = cfg.count → n = cfg.count) →
      (p'.turnedAway = true → n = cfg.count) →
      ∀ j, (Function.update pc i p' j).turnedAway = true → n = cfg.count := by
    intro n hn hmove
    rw [Function.forall_update_iff pc fun _ q => q.turnedAway = true → n = cfg.count]
    exact ⟨hmove, fun j _ hj => hn (h.turnedAway j hj)⟩
  have hhits := h.hits_eq
  dsimp only at hhits
  cases hm with
  | quiet hq =>
      obtain ⟨hp0, hq0, hturn⟩ := hq.undoing
      exact ⟨by dsimp only; omega, h.nums, h.length_le,
        hknown id fun ht => absurd ht (by rw [hturn]; exact Bool.false_ne_true)⟩
  | accept hlt =>
      have hexact : S.hits = S.accepted.length := h.exact hlt
      refine ⟨?_, ?_, ?_, hknown (fun hfull => by omega) (by simp [Pc.turnedAway])⟩
      · simp only [Pc.undoing, List.length_append, List.length_singleton] at htotal ⊢
        omega
      · have hnums : S.accepted.map HitRecord.num = List.range' 1 S.accepted.length := h.nums
        rw [List.map_append, hnums, List.length_append, List.length_singleton,
          List.range'_concat, hexact, List.map_singleton]
        simp only [one_mul, add_comm]
      · simp only [List.length_append, List.length_singleton]
        omega
  | overCount hle =>
      refine ⟨?_, h.nums, h.length_le, hknown id fun _ => h.full hle⟩
      simp only [Pc.undoing] at htotal ⊢
      omega
  | undo =>
      refine ⟨?_, h.nums, h.length_le, hknown id fun _ => h.turnedAway i ?_⟩
      · simp only [Pc.undoing] at htotal ⊢
        omega
      · simp only [hp, Pc.turnedAway]
  | _ =>
      refine ⟨?_, h.nums, h.length_le, hknown id (by simp [Pc.turnedAway])⟩
      simp only [Pc.undoing] at htotal ⊢
      omega

/-- The account of the counter holds in every state that a search reaches. -/
theorem Counter.reachable {mix : EntropyMix} {s : SearchState κ cfg}
    (h : SearchReachable W cfg mix s) : Counter s := by
  refine h.invariant ⟨?_, rfl, Nat.zero_le _, ?_⟩ fun _ hI hp hm => hI.move hp hm
  · have hnone : total Pc.undoing (spawned (κ := κ) cfg mix).pc = 0 := total_eq_zero fun _ => rfl
    rw [hnone]
    rfl
  · simp [spawned, Pc.turnedAway]

/-! ### The flags of the targets -/

/-- The target of the thread between its claim and its addition. -/
def Pc.holding : Pc κ → Multiset ℕ
  | .add h _ => {h.target}
  | _ => 0

/-- The targets claimed: those of the records, and those of the threads that are to count
their hit. -/
def claimedTargets {n : ℕ} (accepted : List (HitRecord κ)) (pc : Fin n → Pc κ) : Multiset ℕ :=
  ↑(accepted.map fun r => r.hit.target) + total Pc.holding pc

/-- The flags of the targets are cleared by the claims, at most once each. A claimed target
without a record is one whose hit was turned away. -/
structure Retirement (s : SearchState κ cfg) : Prop where
  nodup : cfg.targets.retire = true → (claimedTargets s.shared.accepted s.pc).Nodup
  inactive : cfg.targets.retire = true →
    ∀ j ∈ claimedTargets s.shared.accepted s.pc, s.shared.active j = false
  claimed : ∀ j, s.shared.active j = false →
    j ∈ claimedTargets s.shared.accepted s.pc ∨ s.shared.accepted.length = cfg.count

/-- A quiet step neither takes a target nor gives one back. -/
theorem Quiet.holding {s : Shared κ} {p q : Pc κ} (h : Quiet W cfg s p q) :
    p.holding = 0 ∧ q.holding = 0 := by
  cases h <;> exact ⟨rfl, rfl⟩

/-- Moves that leave the flags and the claims as they are. -/
theorem Retirement.congr {S S' : Shared κ} {pc pc' : Fin cfg.threads → Pc κ}
    (h : Retirement ⟨S, pc⟩) (hactive : S'.active = S.active)
    (hlen : S.accepted.length = cfg.count → S'.accepted.length = cfg.count)
    (hclaimed : claimedTargets S'.accepted pc' = claimedTargets S.accepted pc) :
    Retirement (⟨S', pc'⟩ : SearchState κ cfg) := by
  obtain ⟨hnodup, hinactive, hcl⟩ := h
  refine ⟨?_, ?_, ?_⟩
  · rw [hclaimed]
    exact hnodup
  · rw [hclaimed, hactive]
    exact hinactive
  · rw [hclaimed, hactive]
    exact fun j hj => (hcl j hj).imp_right hlen

/-- A claim that succeeds. -/
theorem Retirement.claim {S : Shared κ} {pc pc' : Fin cfg.threads → Pc κ} {active : Active}
    {k : Hit κ} (h : Retirement ⟨S, pc⟩)
    (hclaim : cfg.targets.claim S.active k.target = (true, active))
    (hnew : claimedTargets S.accepted pc' = k.target ::ₘ claimedTargets S.accepted pc) :
    Retirement (⟨{ S with active := active }, pc'⟩ : SearchState κ cfg) := by
  obtain ⟨hnodup, hinactive, hcl⟩ := h
  rcases TargetSet.claim_of_eq_true hclaim with ⟨hr, hactive, rfl⟩ | ⟨hr, rfl⟩
  · refine ⟨fun _ => ?_, fun _ j hj => ?_, fun j hj => ?_⟩
    · rw [hnew, Multiset.nodup_cons]
      refine ⟨fun hmem => ?_, hnodup hr⟩
      rw [hinactive hr _ hmem] at hactive
      cases hactive
    · rw [hnew, Multiset.mem_cons] at hj
      rcases hj with rfl | hj
      · exact Function.update_self ..
      · exact TargetSet.claim_inactive hclaim (hinactive hr j hj)
    · rw [hnew, Multiset.mem_cons]
      by_cases hjt : j = k.target
      · exact .inl (.inl hjt)
      · dsimp only at hj
        rw [Function.update_of_ne hjt] at hj
        exact (hcl j hj).imp_left .inr
  · refine ⟨fun hr' => ?_, fun hr' => ?_, fun j hj => ?_⟩
    · rw [hr] at hr'
      cases hr'
    · rw [hr] at hr'
      cases hr'
    · rw [hnew, Multiset.mem_cons]
      exact (hcl j hj).imp_left .inr

/-- A hit that is turned away, when all hits are accepted. -/
theorem Retirement.release {S S' : Shared κ} {pc pc' : Fin cfg.threads → Pc κ} {t : ℕ}
    (h : Retirement ⟨S, pc⟩) (hactive : S'.active = S.active)
    (hfull : S'.accepted.length = cfg.count)
    (hold : claimedTargets S.accepted pc = claimedTargets S'.accepted pc' + {t}) :
    Retirement (⟨S', pc'⟩ : SearchState κ cfg) := by
  obtain ⟨hnodup, hinactive, -⟩ := h
  rw [hold] at hnodup hinactive
  refine ⟨fun hr => (Multiset.nodup_add.mp (hnodup hr)).1, fun hr j hj => ?_,
    fun _ _ => .inr hfull⟩
  rw [hactive]
  exact hinactive hr j (Multiset.mem_add.mpr (.inl hj))

/-- A step of one thread keeps the account of the retired targets. -/
theorem Retirement.move {S S' : Shared κ} {pc : Fin cfg.threads → Pc κ} {i : Fin cfg.threads}
    {p p' : Pc κ} (hc : Counter ⟨S, pc⟩) (h : Retirement ⟨S, pc⟩) (hp : pc i = p)
    (hm : Move W cfg S p S' p') : Retirement ⟨S', Function.update pc i p'⟩ := by
  have htotal := total_update Pc.holding pc i p'
  rw [hp] at htotal
  cases hm with
  | quiet hq =>
      rw [hq.holding.1, hq.holding.2, add_zero, add_zero] at htotal
      exact h.congr rfl id (by rw [claimedTargets, htotal, claimedTargets])
  | claimed hclaim =>
      refine h.claim hclaim ?_
      simp only [Pc.holding, add_zero] at htotal
      rw [claimedTargets, htotal, ← add_assoc, ← claimedTargets, ← Multiset.singleton_add,
        add_comm]
  | accept hlt =>
      have hexact : S.hits = S.accepted.length := hc.exact hlt
      refine h.congr rfl (fun hfull => absurd hfull (by omega)) ?_
      simp only [Pc.holding, add_zero] at htotal
      rw [claimedTargets, claimedTargets, ← htotal, List.map_append, List.map_singleton,
        ← Multiset.coe_add, Multiset.coe_singleton, add_assoc, add_comm (total _ _)]
  | @overCount k _ hle =>
      refine h.release (t := k.target) rfl (hc.full hle) ?_
      simp only [Pc.holding, add_zero] at htotal
      rw [claimedTargets, claimedTargets, ← htotal, add_assoc]
  | _ =>
      simp only [Pc.holding, add_zero] at htotal
      exact h.congr rfl id (by rw [claimedTargets, htotal, claimedTargets])

/-- The account of the retired targets holds in every state that a search reaches. -/
theorem Retirement.reachable {mix : EntropyMix} {s : SearchState κ cfg}
    (h : SearchReachable W cfg mix s) : Retirement s := by
  refine h.invariant ?_ fun hr hI hp hm => hI.move (Counter.reachable hr) hp hm
  have hnone : claimedTargets ([] : List (HitRecord κ)) (spawned (κ := κ) cfg mix).pc = 0 := by
    have hzero : total Pc.holding (spawned (κ := κ) cfg mix).pc = 0 :=
      total_eq_zero fun _ => rfl
    rw [claimedTargets, hzero]
    rfl
  refine ⟨fun _ => ?_, fun _ j hj => ?_, fun j hj => ?_⟩
  · exact hnone ▸ Multiset.nodup_zero
  · exact absurd (hnone ▸ hj) (Multiset.notMem_zero j)
  · cases hj

/-! ### The records -/

/-- The record that the thread has to emit. -/
def Pc.pending : Pc κ → Multiset (HitRecord κ)
  | .lock r => {r}
  | .emit r => {r}
  | _ => 0

/-- Every record accepted is emitted, or held by one thread that is to emit it. -/
def Recorded (s : SearchState κ cfg) : Prop :=
  (s.shared.accepted : Multiset (HitRecord κ)) = s.shared.emitted + total Pc.pending s.pc

/-- A quiet step has no record that is not written yet. -/
theorem Quiet.pending {s : Shared κ} {p q : Pc κ} (h : Quiet W cfg s p q) :
    p.pending = 0 ∧ q.pending = 0 := by
  cases h <;> exact ⟨rfl, rfl⟩

/-- A step of one thread keeps the account of the records. -/
theorem Recorded.move {S S' : Shared κ} {pc : Fin cfg.threads → Pc κ} {i : Fin cfg.threads}
    {p p' : Pc κ} (h : Recorded ⟨S, pc⟩) (hp : pc i = p) (hm : Move W cfg S p S' p') :
    Recorded ⟨S', Function.update pc i p'⟩ := by
  have htotal := total_update Pc.pending pc i p'
  rw [hp] at htotal
  rw [Recorded] at h ⊢
  dsimp only at h ⊢
  cases hm with
  | quiet hq =>
      rw [hq.pending.1, hq.pending.2, add_zero, add_zero] at htotal
      rw [h, htotal]
  | accept hlt =>
      simp only [Pc.pending, add_zero] at htotal
      rw [← Multiset.coe_add, Multiset.coe_singleton, h, htotal, add_assoc]
  | lock hlock =>
      simp only [Pc.pending] at htotal
      rw [h, add_right_cancel htotal]
  | emitLast hle =>
      simp only [Pc.pending, add_zero] at htotal
      rw [h, ← htotal, ← Multiset.coe_add, Multiset.coe_singleton, add_assoc,
        add_comm (total _ _)]
  | emit hlt =>
      simp only [Pc.pending, add_zero] at htotal
      rw [h, ← htotal, ← Multiset.coe_add, Multiset.coe_singleton, add_assoc,
        add_comm (total _ _)]
  | _ =>
      simp only [Pc.pending, add_zero] at htotal
      rw [h, htotal]

/-- The account of the records holds in every state that a search reaches. -/
theorem Recorded.reachable {mix : EntropyMix} {s : SearchState κ cfg}
    (h : SearchReachable W cfg mix s) : Recorded s := by
  refine h.invariant ?_ fun _ hI hp hm => hI.move hp hm
  have hzero : total Pc.pending (spawned (κ := κ) cfg mix).pc = 0 := total_eq_zero fun _ => rfl
  rw [Recorded, hzero]
  rfl

/-- A record that a thread has to emit was accepted. -/
theorem Recorded.mem_accepted {s : SearchState κ cfg} (h : Recorded s) {i : Fin cfg.threads}
    {r : HitRecord κ} (hr : r ∈ (s.pc i).pending) : r ∈ s.shared.accepted := by
  rw [← Multiset.mem_coe, h, Multiset.mem_add]
  right
  rw [total, Multiset.mem_sum]
  exact ⟨i, Finset.mem_univ i, hr⟩

/-- The numbers of the records accepted are not above their count. -/
theorem Counter.num_le {s : SearchState κ cfg} (h : Counter s) {r : HitRecord κ}
    (hr : r ∈ s.shared.accepted) : r.num ≤ s.shared.accepted.length := by
  have hmem := List.mem_map_of_mem (f := HitRecord.num) hr
  rw [h.nums, List.mem_range'_1] at hmem
  omega

/-! ### The stop flag -/

/-- A reason to stop: the entropy source failed, all hits are accepted, or no target is left. -/
def StopReason (cfg : SearchConfig) (s : Shared κ) : Prop :=
  s.failed = true ∨ s.accepted.length = cfg.count ∨
    ∀ j < cfg.targets.list.length, s.active j = false

/-- What a thread knows at the places that lead to a stop. -/
def Pc.Knows (cfg : SearchConfig) (s : Shared κ) : Pc κ → Prop
  | .failing => s.failed = true
  | .giveUp => s.accepted.length = cfg.count
  | .check i => ∀ j < i, s.active j = false
  | .halt => StopReason cfg s
  | .returned => s.stop = true
  | _ => True

/-- A reason to stop remains one. -/
theorem StopReason.mono {s t : Shared κ} (hle : s.Le t) (hlen : t.accepted.length ≤ cfg.count)
    (h : StopReason cfg s) : StopReason cfg t := by
  rcases h with h | h | h
  · exact .inl (hle.failed h)
  · exact .inr (.inl (le_antisymm hlen (h ▸ hle.accepted.length_le)))
  · exact .inr (.inr fun j hj => hle.active j (h j hj))

/-- What a thread knows about the end of the search remains true, whatever the others do. -/
theorem Pc.Knows.mono {s t : Shared κ} {p : Pc κ} (hle : s.Le t)
    (hlen : t.accepted.length ≤ cfg.count) (h : p.Knows cfg s) : p.Knows cfg t := by
  cases p with
  | failing => exact hle.failed h
  | giveUp => exact le_antisymm hlen (h ▸ hle.accepted.length_le)
  | check i => exact fun j hj => hle.active j (h j hj)
  | halt => exact StopReason.mono hle hlen h
  | returned => exact hle.stop h
  | _ => trivial

/-- The stop flag is raised for a reason. All hits are found, no target is active any more, or a
thread failed. -/
structure Stopped (s : SearchState κ cfg) : Prop where
  reason : s.shared.stop = true → StopReason cfg s.shared
  knows : ∀ i, (s.pc i).Knows cfg s.shared

/-- A quiet step keeps what the thread knows. -/
theorem Quiet.knows {s : Shared κ} {p q : Pc κ} (h : Quiet W cfg s p q)
    (hp : p.Knows cfg s) : q.Knows cfg s := by
  cases h with
  | stopped hstop => exact hstop
  | polledStop d k hstop => exact hstop
  | inactive hi =>
      intro j hj
      rcases Nat.lt_succ_iff_lt_or_eq.mp hj with hlt | rfl
      · exact hp j hlt
      · exact hi
  | noneActive hle => exact .inr (.inr fun j hj => hp j (hj.trans_le hle))
  | _ => trivial

/-- A step of one thread keeps the reasons to stop. -/
theorem Stopped.move {S S' : Shared κ} {pc : Fin cfg.threads → Pc κ} {i : Fin cfg.threads}
    {p p' : Pc κ} (hc : Counter ⟨S, pc⟩) (hrec : Recorded ⟨S, pc⟩) (h : Stopped ⟨S, pc⟩)
    (hp : pc i = p) (hm : Move W cfg S p S' p') : Stopped ⟨S', Function.update pc i p'⟩ := by
  have hle := hm.le
  have hlen := (hc.move hp hm).length_le
  have hknows : p.Knows cfg S := hp ▸ h.knows i
  -- It remains to see why the moving thread raises the flag, and what it knows afterwards.
  suffices hmove : (S'.stop = true → S.stop = true ∨ StopReason cfg S') ∧ p'.Knows cfg S' by
    refine ⟨fun hstop => ?_, ?_⟩
    · rcases hmove.1 hstop with hstop | hreason
      · exact (h.reason hstop).mono hle hlen
      · exact hreason
    · rw [Function.forall_update_iff pc fun _ q => q.Knows cfg S']
      exact ⟨hmove.2, fun j _ => (h.knows j).mono hle hlen⟩
  cases hm with
  | quiet hq => exact ⟨.inl, hq.knows hknows⟩
  | fail => exact ⟨.inl, rfl⟩
  | stopFailing => exact ⟨fun _ => .inr (.inl hknows), rfl⟩
  | undo =>
      refine ⟨.inl, hc.turnedAway i ?_⟩
      simp only [hp, Pc.turnedAway]
  | giveUp => exact ⟨fun _ => .inr (.inr (.inl hknows)), trivial⟩
  | @emitLast r hcount =>
      have hmem : r ∈ S.accepted := hrec.mem_accepted (i := i) (by simp [hp, Pc.pending])
      have hnum := hc.num_le hmem
      exact ⟨.inl, .inr (.inl (le_antisymm hlen (hcount.trans hnum)))⟩
  | emit hlt => exact ⟨.inl, fun j hj => absurd hj (Nat.not_lt_zero j)⟩
  | halt => exact ⟨fun _ => .inr (hknows.mono hle hlen), trivial⟩
  | _ => exact ⟨.inl, trivial⟩

/-- Whoever stops has a reason, in every state that a search reaches. -/
theorem Stopped.reachable {mix : EntropyMix} {s : SearchState κ cfg}
    (h : SearchReachable W cfg mix s) : Stopped s := by
  refine h.invariant ⟨?_, fun _ => trivial⟩ fun hr hI hp hm =>
    hI.move (Counter.reachable hr) (Recorded.reachable hr) hp hm
  intro hstop
  cases hstop

/-! ### Complete searches -/

/-- When all threads have returned, no thread holds anything. -/
theorem total_of_allReturned {M : Type} [AddCommMonoid M] {f : Pc κ → M}
    {s : SearchState κ cfg} (hf : f .returned = 0) (hdone : AllReturned s) :
    total f s.pc = 0 :=
  total_eq_zero fun i => by rw [hdone i, hf]

section Complete

variable {mix : EntropyMix} {s : SearchState κ cfg} (h : SearchReachable W cfg mix s)
include h

/-- The records emitted are records accepted. -/
theorem emitted_le_accepted :
    (s.shared.emitted : Multiset (HitRecord κ)) ≤ s.shared.accepted := by
  rw [Recorded.reachable h]
  exact Multiset.le_add_right _ _

/-- What tells the records accepted apart, tells the records emitted apart. -/
theorem emitted_map_nodup {β : Type} {f : HitRecord κ → β}
    (hf : (s.shared.accepted.map f).Nodup) : (s.shared.emitted.map f).Nodup :=
  Multiset.nodup_of_le (Multiset.map_le_map (f := f) (emitted_le_accepted h))
    (Multiset.coe_nodup.mpr hf)

/-- The targets of the hits that are accepted are indices of the list. -/
theorem targets_subset_range :
    (s.shared.accepted.map fun r => r.hit.target) ⊆ List.range cfg.targets.list.length := by
  intro j hj
  obtain ⟨r, hr, rfl⟩ := List.mem_map.mp hj
  exact List.mem_range.mpr ((Sound.reachable h).accepted r hr).1.target_lt

/-- With retirement, no two records have the same target. -/
theorem targets_nodup (hr : cfg.targets.retire = true) :
    (s.shared.accepted.map fun r => r.hit.target).Nodup := by
  have hnodup := (Retirement.reachable h).nodup hr
  rw [claimedTargets, Multiset.nodup_add] at hnodup
  exact Multiset.coe_nodup.mp hnodup.1

/-- A search that retires its targets accepts no more hits than it has targets. -/
theorem accepted_length_le_targets (hr : cfg.targets.retire = true) :
    s.shared.accepted.length ≤ cfg.targets.list.length := by
  have hle := ((targets_nodup h hr).subperm (targets_subset_range h)).length_le
  rwa [List.length_map, List.length_range] at hle

/-- When no target is left and all threads have returned, every target has a record, unless
all hits are accepted. -/
theorem targets_length_le (hdone : AllReturned s)
    (hnone : ∀ j < cfg.targets.list.length, s.shared.active j = false)
    (hne : s.shared.accepted.length ≠ cfg.count) :
    cfg.targets.list.length ≤ s.shared.accepted.length := by
  have hsub : List.range cfg.targets.list.length ⊆
      s.shared.accepted.map fun r => r.hit.target := by
    intro j hj
    have hclaimed := (Retirement.reachable h).claimed j (hnone j (List.mem_range.mp hj))
    rw [claimedTargets, total_of_allReturned rfl hdone, add_zero, Multiset.mem_coe] at hclaimed
    exact hclaimed.resolve_right hne
  have hle := (List.nodup_range.subperm hsub).length_le
  rwa [List.length_range, List.length_map] at hle

/-- **How many records a complete search has.** -/
theorem accepted_length_of_allReturned (hdone : AllReturned s)
    (hfailed : s.shared.failed = false) :
    s.shared.accepted.length =
      if cfg.targets.retire then min cfg.count cfg.targets.list.length else cfg.count := by
  have hcounter := Counter.reachable h
  have hstop := Stopped.reachable h
  have hstopped : s.shared.stop = true := by
    have hknows := hstop.knows ⟨0, cfg.threads_pos⟩
    rwa [hdone] at hknows
  have hle := hcounter.length_le
  rcases hstop.reason hstopped with hf | hfull | hnone
  · rw [hfailed] at hf
    cases hf
  · split
    case isTrue hr =>
      have htargets := accepted_length_le_targets h hr
      omega
    case isFalse => exact hfull
  · cases hr : cfg.targets.retire with
    | true =>
        rw [if_pos rfl]
        have htargets := accepted_length_le_targets h hr
        by_cases hne : s.shared.accepted.length = cfg.count
        · omega
        · have hge := targets_length_le h hdone hnone hne
          omega
    | false =>
        -- A target that is not retired is never inactive.
        have hpos := List.length_pos_iff.mpr cfg.targets.list_ne_nil
        have hactive := (Sound.reachable h).keep hr 0
        rw [hnone 0 hpos] at hactive
        cases hactive

end Complete

/-- **Hit accounting.** In every state of every interleaving of the threads, the counter of
hits is the number of records accepted and of additions about to be taken back, so that no
subtraction underflows. The records accepted are numbered from 1 on, up to the limit at most.
A record is emitted once, by the thread that accepted it, so that the numbers of the records
emitted are different, and form an interval from 1 on when no thread is about to emit. With
retirement, no target has two records. When all threads have returned, the counter is the
number of records emitted; if the entropy source did not fail, this is the limit, or with
retirement the number of targets if that is less. -/
theorem hit_accounting (W : Worker κ) (cfg : SearchConfig) (mix : EntropyMix)
    {s : SearchState κ cfg} (h : SearchReachable W cfg mix s) :
    (s.shared.hits = s.shared.accepted.length + total Pc.undoing s.pc ∧
      ∀ i, s.pc i = .undo → 1 ≤ s.shared.hits) ∧
    (s.shared.accepted.map HitRecord.num = List.range' 1 s.shared.accepted.length ∧
      s.shared.accepted.length ≤ cfg.count) ∧
    ((s.shared.accepted : Multiset (HitRecord κ)) =
        s.shared.emitted + total Pc.pending s.pc ∧
      (s.shared.emitted.map HitRecord.num).Nodup ∧ s.shared.emitted.length ≤ cfg.count ∧
      ((∀ i, (s.pc i).pending = 0) →
        (s.shared.emitted.map HitRecord.num).Perm (List.range' 1 s.shared.emitted.length))) ∧
    (cfg.targets.retire = true → (s.shared.emitted.map fun r => r.hit.target).Nodup) ∧
    (AllReturned s → s.shared.hits = s.shared.emitted.length ∧
      (s.shared.failed = false → s.shared.emitted.length =
        if cfg.targets.retire then min cfg.count cfg.targets.list.length else cfg.count)) := by
  have hcounter := Counter.reachable h
  have hrecorded := Recorded.reachable h
  have hnums : (s.shared.accepted.map HitRecord.num).Nodup := by
    rw [hcounter.nums]
    exact List.nodup_range'
  have hperm : (∀ i, (s.pc i).pending = 0) → s.shared.accepted.Perm s.shared.emitted := by
    intro hnone
    rw [Recorded, total_eq_zero hnone, add_zero] at hrecorded
    exact Multiset.coe_eq_coe.mp hrecorded
  refine ⟨⟨hcounter.hits_eq, fun i hi => ?_⟩, ⟨hcounter.nums, hcounter.length_le⟩,
    ⟨hrecorded, ?_, ?_, fun hnone => ?_⟩, fun hr => ?_, fun hdone => ?_⟩
  · rw [hcounter.hits_eq, hcounter.turnedAway i (by rw [hi]; rfl)]
    exact cfg.count_pos.trans (Nat.le_add_right _ _)
  · exact emitted_map_nodup h hnums
  · exact (Multiset.coe_le.mp (emitted_le_accepted h)).length_le.trans hcounter.length_le
  · have hp := (hperm hnone).map HitRecord.num
    rw [hcounter.nums, (hperm hnone).length_eq] at hp
    exact hp.symm
  · exact emitted_map_nodup h (targets_nodup h hr)
  · have hlength := (hperm fun i => by rw [hdone i]; rfl).length_eq
    refine ⟨?_, fun hfailed => ?_⟩
    · rw [hcounter.hits_eq, total_of_allReturned rfl hdone, add_zero, hlength]
    · rw [← hlength, accepted_length_of_allReturned h hdone hfailed]

/-- A search for addresses that start with `A`. -/
def searchForA (count threads : ℕ) (hcount : 1 ≤ count) (hthreads : 1 ≤ threads) :
    SearchConfig where
  targets := .single ⟨['A'], []⟩
    { pfx_chars := List.forall_mem_singleton.mpr (by decide)
      sfx_chars := List.forall_mem_nil _
      nonempty := by decide
      last := nofun
      length_le := by decide }
  count := count
  threads := threads
  count_pos := hcount
  threads_pos := hthreads

/-- The mixer of such a search. -/
def mixForA : EntropyMix :=
  .new (default : Libraries).toPrimitives none (Vector.replicate 32 0, false) false []
    (Vector.replicate 32 0)

/-- Two threads, one after the other, add a hit to the counter. For one hit that is wanted, this
is one more. -/
def overCountRun {n : ℕ} (i j : Fin n) : List (Fin n × Sources) :=
  List.replicate 7 (i, default) ++ List.replicate 7 (j, default)

/-- The second thread takes its addition back, and both return. -/
def returnRun {n : ℕ} (i j : Fin n) : List (Fin n × Sources) :=
  List.replicate 3 (j, default) ++ List.replicate 5 (i, default)

/-- A complete search with two threads, whose counter is too high for a while. -/
theorem hit_accounting_searchForA :
    ∃ s t : SearchState ClassicKey (searchForA 1 2 le_rfl (by decide)),
      (SearchReachable (ed25519Worker default) (searchForA 1 2 le_rfl (by decide)) mixForA s ∧
        s.pc (1 : Fin 2) = .undo ∧ s.shared.hits = 2 ∧ s.shared.accepted.length ≤ 1) ∧
      SearchReachable (ed25519Worker default) (searchForA 1 2 le_rfl (by decide)) mixForA t ∧
        AllReturned t ∧ t.shared.hits = 1 ∧ t.shared.emitted.length = 1 := by
  have hover : (run (searchStep (ed25519Worker default) (searchForA 1 2 le_rfl (by decide)))
      (spawned _ mixForA) (overCountRun (n := 2) 0 1)).map
        (fun s => (s.pc (1 : Fin 2), s.shared.hits)) = some (.undo, 2) := rfl
  have hreturn : (run (searchStep (ed25519Worker default) (searchForA 1 2 le_rfl (by decide)))
      (spawned _ mixForA) (overCountRun (n := 2) 0 1 ++ returnRun (n := 2) 0 1)).map
        (fun s => (s.pc (0 : Fin 2), s.pc (1 : Fin 2), s.shared.failed)) =
          some (.returned, .returned, false) := rfl
  obtain ⟨s, hs, hmid⟩ := Option.map_eq_some_iff.mp hover
  obtain ⟨hundo, htwo⟩ := Prod.mk.inj hmid
  obtain ⟨t, ht, hend⟩ := Option.map_eq_some_iff.mp hreturn
  obtain ⟨hpc₀, hrest⟩ := Prod.mk.inj hend
  obtain ⟨hpc₁, hfailed⟩ := Prod.mk.inj hrest
  have hreach : SearchReachable (ed25519Worker default) _ mixForA t := ⟨_, ht⟩
  have hall : AllReturned t := Fin.forall_fin_two.mpr ⟨hpc₀, hpc₁⟩
  obtain ⟨hhits, hemitted⟩ := (hit_accounting _ _ _ hreach).2.2.2.2 hall
  have hone := hemitted hfailed
  exact ⟨s, t, ⟨⟨_, hs⟩, hundo, htwo, (hit_accounting _ _ _ ⟨_, hs⟩).2.1.2⟩, hreach, hall,
    hhits.trans hone, hone⟩

end FalconVanity
