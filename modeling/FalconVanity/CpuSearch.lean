import FalconVanity.Entropy
import FalconVanity.FirstMatch
import FalconVanity.Foundation.Transitions

/-!
# The CPU Search

The two CPU searches run the same loop in every thread: draw a mix output, derive keys from
it, compare their addresses with the targets, and record a hit. They differ in the keys of a
mix output, which a `Worker` describes. The shared variables are the mixer, the flags of the
targets, the counter of hits, the stop flag and the lock around the output.

A step of a thread is one access to a shared variable, with the computation up to the next
one. What is not a shared access of the source, the records accepted and emitted so far and
whether the entropy source failed, is history. The throughput counters are left out: nothing
but the progress line reads them.

## Main results

* `Move.of_localStep`: what a step can do, as a list of moves.
* `Move.le`: what a move never takes back.
-/

namespace FalconVanity

open Transitions

/-! ### Workers -/

/-- What a thread does with a mix output. The two schemes differ in the keys they derive and in
what makes a key usable. -/
structure Worker (κ : Type) where
  P : Primitives
  /-- The derivation of the keys ends. -/
  returns : Bytes32 → Bool
  /-- The keys in the order in which they are tried, up to the first `none`. -/
  candidate : Bytes32 → ℕ → Option κ
  address : κ → Address
  /-- What is checked of a key whose address matches. -/
  usable : κ → Bool
  /-- The stop flag is read after the key with this index. -/
  polls : ℕ → Bool
  /-- A signature of the key verifies. -/
  roundtrip : κ → Bool

/-- `SearchConfig`, `Shared`: the options of a search. `cmd_search` rejects a search without
threads and a count of zero. -/
structure SearchConfig where
  targets : TargetSet
  count : ℕ
  threads : ℕ
  count_pos : 1 ≤ count
  threads_pos : 1 ≤ threads

/-- A mix output, with the index of the call and the number of refreshes completed when the
call read the cached contributions. -/
structure Draw where
  entropy : Bytes32
  call : ℕ
  generation : ℕ

/-- A key whose address matches: where it comes from and the target it matches. -/
structure Hit (κ : Type) where
  draw : Draw
  index : ℕ
  key : κ
  target : ℕ

/-- An accepted hit, with its number. `wasActive` is the flag of the target just before the
claim. -/
structure HitRecord (κ : Type) where
  hit : Hit κ
  wasActive : Bool
  num : ℕ
  roundtrip : Bool

/-! ### States -/

/-- Where a thread is: the shared access it makes next, with what it carries. Between two accesses
a thread depends on nothing that others write. -/
inductive Pc (κ : Type)
  /-- The test of the loop. -/
  | head
  /-- `EntropyMix::next` up to the read of the cache. -/
  | next
  /-- `EntropyMix::next` failed. -/
  | failing
  /-- `fetch_add` on the counter of the mixer. -/
  | count (os cpu : Bytes32) (cached : Cached) (generation : ℕ)
  /-- The derivation of the key with an index. -/
  | attempt (d : Draw) (k : ℕ)
  /-- `first_match`, at the target with index `i`. -/
  | scan (d : Draw) (k : ℕ) (c : κ) (i : ℕ)
  | poll (d : Draw) (k : ℕ)
  | claim (h : Hit κ)
  /-- `fetch_add` on the counter of hits. -/
  | add (h : Hit κ) (wasActive : Bool)
  /-- `fetch_sub`, after an over-count. -/
  | undo
  | giveUp
  | lock (r : HitRecord κ)
  /-- `write_hit_record` and `print_hit`. -/
  | emit (r : HitRecord κ)
  /-- `any_active`, at the target with index `i`. -/
  | check (i : ℕ)
  | halt
  | refresh
  | unlock
  | returned

/-- The shared variables, and the history. The history holds the records that were accepted and
those that were written; no thread reads it. -/
structure Shared (κ : Type) where
  mix : TracedMix
  active : Active
  hits : ℕ
  stop : Bool
  ioLock : Bool
  accepted : List (HitRecord κ)
  emitted : List (HitRecord κ)
  /-- Some call of `EntropyMix::next` failed. -/
  failed : Bool

/-- What the entropy sources return to a thread in a step. -/
structure Sources where
  os : Option Bytes32
  cpu : Bytes32
  jitter : Bytes32
  tpm : Option Bytes32

instance : Inhabited Sources where
  default :=
    { os := some (Vector.replicate 32 0)
      cpu := Vector.replicate 32 0
      jitter := Vector.replicate 32 0
      tpm := none }

variable {κ : Type} (W : Worker κ) (cfg : SearchConfig)

/-! ### Steps -/

/-- The local step of a thread: `worker` with `record_hit`, `cpu_worker` with
`record_cpu_hit`. -/
def localStep (e : Sources) (s : Shared κ) : Pc κ → Option (Shared κ × Pc κ)
  | .head => some (s, if s.stop then .returned else .next)
  | .next =>
    match e.os with
    | none => some ({ s with failed := true }, .failing)
    | some os => some (s, .count os e.cpu s.mix.cached s.mix.generation)
  | .failing => some ({ s with stop := true }, .returned)
  | .count os cpu cached generation =>
    let d : Draw :=
      { entropy := W.P.sha512_256 (s.mix.buffer os cpu cached)
        call := s.mix.calls.length
        generation := generation }
    some ({ s with mix := s.mix.count os cpu cached }, .attempt d 0)
  | .attempt d k =>
    if W.returns d.entropy then
      match W.candidate d.entropy k with
      | none => some (s, .head)
      | some c => some (s, .scan d k c 0)
    else none
  | .scan d k c i =>
    if i < cfg.targets.list.length then
      if s.active i && cfg.targets.matchesAt W.P (W.address c) i then
        some (s, if W.usable c then .claim ⟨d, k, c, i⟩ else .attempt d (k + 1))
      else some (s, .scan d k c (i + 1))
    else some (s, if W.polls k then .poll d k else .attempt d (k + 1))
  | .poll d k => some (s, if s.stop then .returned else .attempt d (k + 1))
  | .claim h =>
    let (ok, active) := cfg.targets.claim s.active h.target
    some ({ s with active := active }, if ok then .add h (s.active h.target) else .head)
  | .add h wasActive =>
    let n := s.hits
    if n ≥ cfg.count then some ({ s with hits := n + 1 }, .undo)
    else
      let r : HitRecord κ := ⟨h, wasActive, n + 1, W.roundtrip h.key⟩
      some ({ s with hits := n + 1, accepted := s.accepted ++ [r] }, .lock r)
  | .undo => some ({ s with hits := s.hits - 1 }, .giveUp)
  | .giveUp => some ({ s with stop := true }, .head)
  | .lock r => if s.ioLock then none else some ({ s with ioLock := true }, .emit r)
  | .emit r =>
    some ({ s with emitted := s.emitted ++ [r] },
      if r.num ≥ cfg.count then .halt else .check 0)
  | .check i =>
    if i < cfg.targets.list.length then
      some (s, if s.active i then .refresh else .check (i + 1))
    else some (s, .halt)
  | .halt => some ({ s with stop := true }, .unlock)
  | .refresh => some ({ s with mix := s.mix.refresh e.jitter e.tpm }, .unlock)
  | .unlock => some ({ s with ioLock := false }, .head)
  | .returned => none

/-- A state of the search: the shared variables, and where each thread is. -/
abbrev SearchState (κ : Type) (cfg : SearchConfig) :=
  Threads (Fin cfg.threads) (Shared κ) (Pc κ)

/-- A step of the search. -/
def searchStep : SearchState κ cfg → Fin cfg.threads × Sources → Option (SearchState κ cfg) :=
  Threads.step (localStep W cfg)

/-- The state in which the threads are spawned. -/
def spawned (mix : EntropyMix) : SearchState κ cfg where
  shared :=
    { mix := TracedMix.start mix
      active := fun _ => true
      hits := 0
      stop := false
      ioLock := false
      accepted := []
      emitted := []
      failed := false }
  pc := fun _ => .head

/-- A state of some interleaving of the threads. -/
def SearchReachable (mix : EntropyMix) (s : SearchState κ cfg) : Prop :=
  Reachable (searchStep W cfg) (spawned cfg mix) s

/-- All threads have returned, as the main thread waits for. -/
def AllReturned {cfg : SearchConfig} (s : SearchState κ cfg) : Prop := ∀ i, s.pc i = .returned

/-! ### Moves -/

/-- The moves that leave the shared variables as they are. Most of the invariants follow for these
at once. -/
inductive Quiet (s : Shared κ) : Pc κ → Pc κ → Prop
  | stopped : s.stop = true → Quiet s .head .returned
  | proceed : s.stop = false → Quiet s .head .next
  | read (os cpu : Bytes32) : Quiet s .next (.count os cpu s.mix.cached s.mix.generation)
  | exhausted (d : Draw) (k : ℕ) : Quiet s (.attempt d k) .head
  | derived {d : Draw} {k : ℕ} {c : κ} : W.returns d.entropy = true →
      W.candidate d.entropy k = some c → Quiet s (.attempt d k) (.scan d k c 0)
  | matched {d : Draw} {k : ℕ} {c : κ} {i : ℕ} : i < cfg.targets.list.length →
      cfg.targets.matchesAt W.P (W.address c) i = true → W.usable c = true →
      Quiet s (.scan d k c i) (.claim ⟨d, k, c, i⟩)
  | unmatched (d : Draw) (k : ℕ) (c : κ) (i : ℕ) : Quiet s (.scan d k c i) (.scan d k c (i + 1))
  | skipped (d : Draw) (k : ℕ) (c : κ) (i : ℕ) : Quiet s (.scan d k c i) (.attempt d (k + 1))
  | polling (d : Draw) (k : ℕ) (c : κ) (i : ℕ) : Quiet s (.scan d k c i) (.poll d k)
  | polledStop (d : Draw) (k : ℕ) : s.stop = true → Quiet s (.poll d k) .returned
  | polled (d : Draw) (k : ℕ) : Quiet s (.poll d k) (.attempt d (k + 1))
  | lost (h : Hit κ) : Quiet s (.claim h) .head
  | someActive (i : ℕ) : Quiet s (.check i) .refresh
  | inactive {i : ℕ} : s.active i = false → Quiet s (.check i) (.check (i + 1))
  | noneActive {i : ℕ} : cfg.targets.list.length ≤ i → Quiet s (.check i) .halt

/-- **What a step can do**: from a place, to new shared variables and a new place. -/
inductive Move (s : Shared κ) : Pc κ → Shared κ → Pc κ → Prop
  | quiet {p q : Pc κ} : Quiet W cfg s p q → Move s p s q
  | fail : Move s .next { s with failed := true } .failing
  | stopFailing : Move s .failing { s with stop := true } .returned
  | draw (os cpu : Bytes32) (cached : Cached) (generation : ℕ) :
      Move s (.count os cpu cached generation) { s with mix := s.mix.count os cpu cached }
        (.attempt
          { entropy := W.P.sha512_256 (s.mix.buffer os cpu cached)
            call := s.mix.calls.length
            generation := generation } 0)
  | claimed {h : Hit κ} {active : Active} :
      cfg.targets.claim s.active h.target = (true, active) →
      Move s (.claim h) { s with active := active } (.add h (s.active h.target))
  | accept {h : Hit κ} {wasActive : Bool} : s.hits < cfg.count →
      Move s (.add h wasActive)
        { s with
          hits := s.hits + 1
          accepted := s.accepted ++ [⟨h, wasActive, s.hits + 1, W.roundtrip h.key⟩] }
        (.lock ⟨h, wasActive, s.hits + 1, W.roundtrip h.key⟩)
  | overCount {h : Hit κ} {wasActive : Bool} : cfg.count ≤ s.hits →
      Move s (.add h wasActive) { s with hits := s.hits + 1 } .undo
  | undo : Move s .undo { s with hits := s.hits - 1 } .giveUp
  | giveUp : Move s .giveUp { s with stop := true } .head
  | lock {r : HitRecord κ} : s.ioLock = false →
      Move s (.lock r) { s with ioLock := true } (.emit r)
  | emitLast {r : HitRecord κ} : cfg.count ≤ r.num →
      Move s (.emit r) { s with emitted := s.emitted ++ [r] } .halt
  | emit {r : HitRecord κ} : r.num < cfg.count →
      Move s (.emit r) { s with emitted := s.emitted ++ [r] } (.check 0)
  | halt : Move s .halt { s with stop := true } .unlock
  | refresh (jitter : Bytes32) (tpm : Option Bytes32) :
      Move s .refresh { s with mix := s.mix.refresh jitter tpm } .unlock
  | unlock : Move s .unlock { s with ioLock := false } .head

variable {W cfg}

/-- **Every step is a move.** -/
theorem Move.of_localStep {e : Sources} {s s' : Shared κ} {p p' : Pc κ}
    (h : localStep W cfg e s p = some (s', p')) : Move W cfg s p s' p' := by
  cases p with
  | head =>
      simp only [localStep, Option.some.injEq, Prod.mk.injEq] at h
      obtain ⟨rfl, rfl⟩ := h
      split
      · exact .quiet (.stopped ‹_›)
      · exact .quiet (.proceed (Bool.eq_false_of_not_eq_true ‹_›))
  | next =>
      cases hos : e.os with
      | none =>
          simp only [localStep, hos, Option.some.injEq, Prod.mk.injEq] at h
          obtain ⟨rfl, rfl⟩ := h
          exact .fail
      | some os =>
          simp only [localStep, hos, Option.some.injEq, Prod.mk.injEq] at h
          obtain ⟨rfl, rfl⟩ := h
          exact .quiet (.read os e.cpu)
  | failing =>
      simp only [localStep, Option.some.injEq, Prod.mk.injEq] at h
      obtain ⟨rfl, rfl⟩ := h
      exact .stopFailing
  | count os cpu cached generation =>
      simp only [localStep, Option.some.injEq, Prod.mk.injEq] at h
      obtain ⟨rfl, rfl⟩ := h
      exact .draw os cpu cached generation
  | attempt d k =>
      cases hr : W.returns d.entropy with
      | false => simp [localStep, hr] at h
      | true =>
          cases hc : W.candidate d.entropy k with
          | none =>
              simp only [localStep, hr, hc, if_true, Option.some.injEq, Prod.mk.injEq] at h
              obtain ⟨rfl, rfl⟩ := h
              exact .quiet (.exhausted d k)
          | some c =>
              simp only [localStep, hr, hc, if_true, Option.some.injEq, Prod.mk.injEq] at h
              obtain ⟨rfl, rfl⟩ := h
              exact .quiet (.derived hr hc)
  | scan d k c i =>
      rw [localStep] at h
      by_cases hi : i < cfg.targets.list.length
      · rw [if_pos hi] at h
        by_cases hm : (s.active i && cfg.targets.matchesAt W.P (W.address c) i) = true
        · rw [if_pos hm, Option.some.injEq, Prod.mk.injEq] at h
          obtain ⟨rfl, rfl⟩ := h
          rw [Bool.and_eq_true] at hm
          split
          · exact .quiet (.matched hi hm.2 ‹_›)
          · exact .quiet (.skipped d k c i)
        · rw [if_neg hm, Option.some.injEq, Prod.mk.injEq] at h
          obtain ⟨rfl, rfl⟩ := h
          exact .quiet (.unmatched d k c i)
      · rw [if_neg hi, Option.some.injEq, Prod.mk.injEq] at h
        obtain ⟨rfl, rfl⟩ := h
        split
        · exact .quiet (.polling d k c i)
        · exact .quiet (.skipped d k c i)
  | poll d k =>
      simp only [localStep, Option.some.injEq, Prod.mk.injEq] at h
      obtain ⟨rfl, rfl⟩ := h
      split
      · exact .quiet (.polledStop d k ‹_›)
      · exact .quiet (.polled d k)
  | claim h' =>
      cases hc : cfg.targets.claim s.active h'.target with
      | mk ok active =>
          simp only [localStep, hc, Option.some.injEq, Prod.mk.injEq] at h
          obtain ⟨rfl, rfl⟩ := h
          cases ok with
          | true => exact .claimed hc
          | false =>
              rw [TargetSet.claim_of_eq_false hc]
              exact .quiet (.lost h')
  | add h' wasActive =>
      rw [localStep] at h
      by_cases hn : s.hits ≥ cfg.count
      · rw [if_pos hn, Option.some.injEq, Prod.mk.injEq] at h
        obtain ⟨rfl, rfl⟩ := h
        exact .overCount hn
      · rw [if_neg hn, Option.some.injEq, Prod.mk.injEq] at h
        obtain ⟨rfl, rfl⟩ := h
        exact .accept (Nat.lt_of_not_le hn)
  | undo =>
      simp only [localStep, Option.some.injEq, Prod.mk.injEq] at h
      obtain ⟨rfl, rfl⟩ := h
      exact .undo
  | giveUp =>
      simp only [localStep, Option.some.injEq, Prod.mk.injEq] at h
      obtain ⟨rfl, rfl⟩ := h
      exact .giveUp
  | lock r =>
      cases hl : s.ioLock with
      | true => simp [localStep, hl] at h
      | false =>
          simp only [localStep, hl, Bool.false_eq_true, if_false, Option.some.injEq,
            Prod.mk.injEq] at h
          obtain ⟨rfl, rfl⟩ := h
          exact .lock hl
  | emit r =>
      simp only [localStep, Option.some.injEq, Prod.mk.injEq] at h
      obtain ⟨rfl, rfl⟩ := h
      split
      · exact .emitLast ‹_›
      · exact .emit (Nat.lt_of_not_le ‹_›)
  | check i =>
      rw [localStep] at h
      by_cases hi : i < cfg.targets.list.length
      · rw [if_pos hi, Option.some.injEq, Prod.mk.injEq] at h
        obtain ⟨rfl, rfl⟩ := h
        split
        · exact .quiet (.someActive i)
        · exact .quiet (.inactive (Bool.eq_false_of_not_eq_true ‹_›))
      · rw [if_neg hi, Option.some.injEq, Prod.mk.injEq] at h
        obtain ⟨rfl, rfl⟩ := h
        exact .quiet (.noneActive (Nat.le_of_not_lt hi))
  | halt =>
      simp only [localStep, Option.some.injEq, Prod.mk.injEq] at h
      obtain ⟨rfl, rfl⟩ := h
      exact .halt
  | refresh =>
      simp only [localStep, Option.some.injEq, Prod.mk.injEq] at h
      obtain ⟨rfl, rfl⟩ := h
      exact .refresh e.jitter e.tpm
  | unlock =>
      simp only [localStep, Option.some.injEq, Prod.mk.injEq] at h
      obtain ⟨rfl, rfl⟩ := h
      exact .unlock
  | returned => cases h

/-- A step of the search is a move of one thread. -/
theorem searchStep_cases {s t : SearchState κ cfg} {a : Fin cfg.threads × Sources}
    (h : searchStep W cfg s a = some t) :
    ∃ S' p, Move W cfg s.shared (s.pc a.1) S' p ∧ t = ⟨S', Function.update s.pc a.1 p⟩ := by
  obtain ⟨S', p, hl, rfl⟩ := Threads.step_eq_some_iff.mp h
  exact ⟨S', p, .of_localStep hl, rfl⟩

/-- **Invariants of the search.** What holds when the threads are spawned and is kept by
every move, holds in every state of every interleaving. -/
theorem SearchReachable.invariant {mix : EntropyMix} {I : SearchState κ cfg → Prop}
    {s : SearchState κ cfg} (h : SearchReachable W cfg mix s) (hspawned : I (spawned cfg mix))
    (hmove : ∀ {S S' : Shared κ} {pc : Fin cfg.threads → Pc κ} {i : Fin cfg.threads}
      {p p' : Pc κ}, SearchReachable W cfg mix ⟨S, pc⟩ → I ⟨S, pc⟩ → pc i = p →
        Move W cfg S p S' p' → I ⟨S', Function.update pc i p'⟩) : I s := by
  refine Reachable.invariant h hspawned fun hu hI hstep => ?_
  obtain ⟨S', p, hm, rfl⟩ := searchStep_cases hstep
  exact hmove hu hI rfl hm

/-! ### What only grows -/

/-- The shared variables at an earlier and at a later time. Flags are cleared only, and the history
only grows. -/
structure Shared.Le (s t : Shared κ) : Prop where
  accepted : s.accepted <+: t.accepted
  emitted : s.emitted <+: t.emitted
  calls : s.mix.calls <+: t.mix.calls
  generation : s.mix.generation ≤ t.mix.generation
  stop : s.stop = true → t.stop = true
  failed : s.failed = true → t.failed = true
  active : ∀ j, s.active j = false → t.active j = false

theorem Shared.Le.refl (s : Shared κ) : s.Le s :=
  ⟨List.prefix_rfl, List.prefix_rfl, List.prefix_rfl, le_rfl, id, id, fun _ => id⟩

/-- **No move takes anything back.** -/
theorem Move.le {s s' : Shared κ} {p p' : Pc κ} (h : Move W cfg s p s' p') : s.Le s' := by
  have hr := Shared.Le.refl s
  cases h with
  | quiet => exact hr
  | fail => exact { hr with failed := fun _ => rfl }
  | stopFailing => exact { hr with stop := fun _ => rfl }
  | draw os cpu cached generation => exact { hr with calls := List.prefix_append _ _ }
  | claimed h => exact { hr with active := fun j hj => TargetSet.claim_inactive h hj }
  | accept => exact { hr with accepted := List.prefix_append _ _ }
  | overCount => exact { hr with }
  | undo => exact { hr with }
  | giveUp => exact { hr with stop := fun _ => rfl }
  | lock => exact { hr with }
  | emitLast => exact { hr with emitted := List.prefix_append _ _ }
  | emit => exact { hr with emitted := List.prefix_append _ _ }
  | halt => exact { hr with stop := fun _ => rfl }
  | refresh => exact { hr with generation := Nat.le_succ _ }
  | unlock => exact { hr with }

end FalconVanity
