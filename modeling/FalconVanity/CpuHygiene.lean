import FalconVanity.CpuAccounting
import FalconVanity.Schemes

/-!
# Entropy Hygiene of the CPU Search

Two rules are to keep the keys of one search independent: every record stems from a mix
output of its own, and between two hits the cached contributions of the mixer are renewed.

The first holds in every interleaving. The second depends on the interleaving: a hit is
followed by a refresh, but another thread may have read the cache before it, for the run of
keys that it is still scanning. The generations of the records are different exactly in the
runs in which every hit is accepted with a cache that was read after the refreshes of all
hits accepted before it.

## Main results

* `Distinct.reachable`: a call of the mixer serves at most one record.
* `along_freshAccept_iff`: when the generations of the records are different.
* `freshAccept_of_threads_eq_one`: a single thread always meets the condition.
-/

namespace FalconVanity

open Transitions

variable {κ : Type} {W : Worker κ} {cfg : SearchConfig}

/-! ### One record for each call of the mixer -/

/-- The call of the mix output that the thread carries. -/
def Pc.inFlight : Pc κ → Multiset ℕ
  | .attempt d _ => {d.call}
  | .scan d _ _ _ => {d.call}
  | .poll d _ => {d.call}
  | .claim h => {h.draw.call}
  | .add h _ => {h.draw.call}
  | _ => 0

/-- The calls of the mixer that serve a record or a thread. -/
def servingCalls {n : ℕ} (accepted : List (HitRecord κ)) (pc : Fin n → Pc κ) : Multiset ℕ :=
  ↑(accepted.map fun r => r.hit.draw.call) + total Pc.inFlight pc

/-- Every call serves at most one record or thread. So no two records come from one output of the
mixer. -/
structure Distinct (s : SearchState κ cfg) : Prop where
  nodup : (servingCalls s.shared.accepted s.pc).Nodup
  lt : ∀ c ∈ servingCalls s.shared.accepted s.pc, c < s.shared.mix.calls.length

/-- A quiet step draws no new entropy. -/
theorem Quiet.inFlight_le {s : Shared κ} {p q : Pc κ} (h : Quiet W cfg s p q) :
    q.inFlight ≤ p.inFlight := by
  cases h <;> first | exact le_rfl | exact zero_le

/-- Moves that draw nothing. -/
theorem Distinct.of_le {S S' : Shared κ} {pc pc' : Fin cfg.threads → Pc κ}
    (h : Distinct (⟨S, pc⟩ : SearchState κ cfg)) (hcalls : S'.mix.calls = S.mix.calls)
    (hle : servingCalls S'.accepted pc' ≤ servingCalls S.accepted pc) :
    Distinct (⟨S', pc'⟩ : SearchState κ cfg) := by
  refine ⟨Multiset.nodup_of_le hle h.nodup, fun c hc => ?_⟩
  have hlt := h.lt c (Multiset.mem_of_le hle hc)
  dsimp only at hlt ⊢
  rwa [hcalls]

/-- A thread that carries no more than before leaves the others as they are. -/
theorem servingCalls_le {n : ℕ} {accepted : List (HitRecord κ)} {pc : Fin n → Pc κ} {i : Fin n}
    {p' : Pc κ} (hle : p'.inFlight ≤ (pc i).inFlight) :
    servingCalls accepted (Function.update pc i p') ≤ servingCalls accepted pc := by
  have htotal := total_update Pc.inFlight pc i p'
  refine add_le_add_right (le_of_add_le_add_right (a := (pc i).inFlight) ?_) _
  calc total Pc.inFlight (Function.update pc i p') + (pc i).inFlight
      = total Pc.inFlight pc + p'.inFlight := htotal
    _ ≤ total Pc.inFlight pc + (pc i).inFlight := add_le_add_right hle _

/-- A step of one thread keeps the draws distinct. -/
theorem Distinct.move {S S' : Shared κ} {pc : Fin cfg.threads → Pc κ} {i : Fin cfg.threads}
    {p p' : Pc κ} (h : Distinct ⟨S, pc⟩) (hp : pc i = p) (hm : Move W cfg S p S' p') :
    Distinct ⟨S', Function.update pc i p'⟩ := by
  have htotal := total_update Pc.inFlight pc i p'
  rw [hp] at htotal
  cases hm with
  | quiet hq => exact h.of_le rfl (servingCalls_le (hp ▸ hq.inFlight_le))
  | draw os cpu cached generation =>
      simp only [Pc.inFlight, add_zero] at htotal
      have hnew : ∀ c ∈ servingCalls S.accepted (Function.update pc i (.attempt
          { entropy := W.P.sha512_256 (S.mix.buffer os cpu cached)
            call := S.mix.calls.length
            generation := generation } 0)),
          c ∈ servingCalls S.accepted pc ∨ c = S.mix.calls.length := fun c hc => by
        rwa [servingCalls, htotal, ← add_assoc, ← servingCalls, Multiset.mem_add,
          Multiset.mem_singleton] at hc
      refine ⟨?_, fun c hc => ?_⟩
      · rw [servingCalls, htotal, ← add_assoc, ← servingCalls, add_comm, Multiset.singleton_add,
          Multiset.nodup_cons]
        exact ⟨fun hmem => (h.lt _ hmem).false, h.nodup⟩
      · simp only [TracedMix.count_calls, List.length_append, List.length_singleton]
        rcases hnew c hc with hc | rfl
        · exact (h.lt c hc).trans (Nat.lt_succ_self _)
        · exact Nat.lt_succ_self _
  | accept hlt =>
      refine h.of_le rfl (le_of_eq ?_)
      simp only [Pc.inFlight, add_zero] at htotal
      rw [servingCalls, servingCalls, ← htotal, List.map_append, List.map_singleton,
        ← Multiset.coe_add, Multiset.coe_singleton, add_assoc, add_comm (total _ _)]
  | refresh jitter tpm => exact h.of_le rfl (servingCalls_le (by simp [hp, Pc.inFlight]))
  | _ => exact h.of_le rfl (servingCalls_le (by simp [hp, Pc.inFlight]))

/-- **One record for each call of the mixer**, in every interleaving. -/
theorem Distinct.reachable {mix : EntropyMix} {s : SearchState κ cfg}
    (h : SearchReachable W cfg mix s) : Distinct s := by
  refine h.invariant ?_ fun _ hI hp hm => hI.move hp hm
  have hnone : servingCalls ([] : List (HitRecord κ)) (spawned (κ := κ) cfg mix).pc = 0 := by
    have hzero : total Pc.inFlight (spawned (κ := κ) cfg mix).pc = 0 :=
      total_eq_zero fun _ => rfl
    rw [servingCalls, hzero]
    rfl
  exact ⟨hnone ▸ Multiset.nodup_zero, fun c hc => absurd (hnone ▸ hc) (Multiset.notMem_zero c)⟩

/-- The buffers of the mixer carry the counter, in every interleaving. -/
theorem counted_reachable {mix : EntropyMix} (hmix : mix.ctr = 0) {s : SearchState κ cfg}
    (h : SearchReachable W cfg mix s) : s.shared.mix.Counted := by
  refine h.invariant (I := fun s => s.shared.mix.Counted) (.start hmix) fun _ hI _ hm => ?_
  cases hm with
  | draw os cpu cached generation => exact hI.count os cpu cached
  | refresh jitter tpm => exact hI.refresh jitter tpm
  | _ => exact hI

/-! ### Refreshes -/

/-- The thread has a record accepted and may still refresh the cache. -/
def Pc.owing : Pc κ → ℕ
  | .lock _ => 1
  | .emit _ => 1
  | .check _ => 1
  | .refresh => 1
  | _ => 0

/-- There are at most as many refreshes as records accepted. -/
def Refreshed (s : SearchState κ cfg) : Prop :=
  s.shared.mix.generation + total Pc.owing s.pc ≤ s.shared.accepted.length

/-- A quiet step owes no refresh that was not owed before. -/
theorem Quiet.owing_le {s : Shared κ} {p q : Pc κ} (h : Quiet W cfg s p q) :
    q.owing ≤ p.owing := by
  cases h <;> first | exact le_rfl | exact Nat.zero_le _

/-- A step of one thread keeps the account of the refreshes. -/
theorem Refreshed.move {S S' : Shared κ} {pc : Fin cfg.threads → Pc κ} {i : Fin cfg.threads}
    {p p' : Pc κ} (h : Refreshed ⟨S, pc⟩) (hp : pc i = p) (hm : Move W cfg S p S' p') :
    Refreshed ⟨S', Function.update pc i p'⟩ := by
  have htotal := total_update Pc.owing pc i p'
  rw [hp] at htotal
  rw [Refreshed] at h ⊢
  dsimp only at h ⊢
  cases hm with
  | quiet hq =>
      have hle := hq.owing_le
      omega
  | accept hlt =>
      simp only [Pc.owing, List.length_append, List.length_singleton] at htotal ⊢
      omega
  | _ =>
      simp only [Pc.owing, TracedMix.refresh_generation, TracedMix.count_generation] at htotal ⊢
      omega

/-- The account of the refreshes holds in every state that a search reaches. -/
theorem Refreshed.reachable {mix : EntropyMix} {s : SearchState κ cfg}
    (h : SearchReachable W cfg mix s) : Refreshed s := by
  refine h.invariant ?_ fun _ hI hp hm => hI.move hp hm
  have hzero : total Pc.owing (spawned (κ := κ) cfg mix).pc = 0 := total_eq_zero fun _ => rfl
  rw [Refreshed, hzero]
  rfl

/-! ### Generations of the records -/

/-- The generations of the records accepted. -/
def generations (s : SearchState κ cfg) : List ℕ :=
  s.shared.accepted.map fun r => r.hit.draw.generation

/-- No two records emitted were made with the same cached contributions. -/
def ShareNoCache (s : SearchState κ cfg) : Prop :=
  s.shared.emitted.Pairwise fun r r' => r.hit.draw.generation ≠ r'.hit.draw.generation

/-- The condition on a step: if it accepts a hit, then as many refreshes were completed when
its thread read the cache as hits have been accepted since the start. A hit is followed by
one refresh at most, so the refresh after each of them was completed then. -/
def FreshAccept (s : SearchState κ cfg) (a : Fin cfg.threads × Sources) : Prop :=
  ∀ h wasActive, s.pc a.1 = .add h wasActive → s.shared.hits < cfg.count →
    h.draw.generation = s.shared.accepted.length

/-- A step that accepts no hit, or accepts one. -/
theorem generations_step {s t : SearchState κ cfg} {a : Fin cfg.threads × Sources}
    (h : searchStep W cfg s a = some t) :
    generations t = generations s ∧ FreshAccept s a ∨
      ∃ k wasActive, s.pc a.1 = .add k wasActive ∧ s.shared.hits < cfg.count ∧
        generations t = generations s ++ [k.draw.generation] := by
  obtain ⟨S', p', hm, rfl⟩ := searchStep_cases h
  generalize hp : s.pc a.1 = p at hm
  cases hm with
  | accept hlt =>
      right
      refine ⟨_, _, rfl, hlt, ?_⟩
      rw [generations, List.map_append]
      rfl
  | overCount hle => exact .inl ⟨rfl, fun h w heq hlt => absurd hlt (Nat.not_lt_of_le hle)⟩
  | quiet hq =>
      refine .inl ⟨rfl, fun h w heq => ?_⟩
      rw [hp] at heq
      subst heq
      cases hq
  | _ =>
      refine .inl ⟨rfl, fun h w heq => ?_⟩
      rw [hp] at heq
      cases heq

/-- The list counts up from 0. -/
def CountsUp (gs : List ℕ) : Prop := gs = List.range gs.length

/-- A list counts up if it does without its last element, which is then the length. -/
theorem countsUp_concat_iff {gs : List ℕ} {g : ℕ} :
    CountsUp (gs ++ [g]) ↔ CountsUp gs ∧ g = gs.length := by
  rw [CountsUp, List.length_append, List.length_singleton, List.range_succ, CountsUp]
  constructor
  · intro h
    obtain ⟨h, hg⟩ := List.append_inj' h rfl
    exact ⟨h, List.singleton_inj.mp hg⟩
  · rintro ⟨h, hg⟩
    rw [← h, hg]

/-- A new element that is not above the length of the list is the length. -/
theorem CountsUp.eq_length {gs : List ℕ} {g : ℕ} (h : CountsUp gs) (hle : g ≤ gs.length)
    (hn : (gs ++ [g]).Nodup) : g = gs.length := by
  by_contra hne
  have hmem : g ∈ gs := by
    rw [h]
    exact List.mem_range.mpr (lt_of_le_of_ne hle hne)
  rw [List.nodup_append] at hn
  exact hn.2.2 g hmem g (List.mem_singleton_self g) rfl

/-- A hit was not drawn after more refreshes than there are records. -/
theorem generation_le_of_add {mix : EntropyMix} {s : SearchState κ cfg}
    (h : SearchReachable W cfg mix s) {i : Fin cfg.threads} {k : Hit κ} {wasActive : Bool}
    (hk : s.pc i = .add k wasActive) : k.draw.generation ≤ s.shared.accepted.length := by
  have hsound := (Sound.reachable h).pcs i
  rw [hk] at hsound
  have hgen := hsound.1.draw.generation_le
  have hrefreshed := Refreshed.reachable h
  rw [Refreshed] at hrefreshed
  omega

/-- **When the generations of the records are different**: they count up from 0 then, and
this is so exactly in the runs whose steps all meet the condition. -/
theorem along_freshAccept_iff {mix : EntropyMix} {as : List (Fin cfg.threads × Sources)}
    {s : SearchState κ cfg} (hrun : run (searchStep W cfg) (spawned cfg mix) as = some s) :
    (Along (searchStep W cfg) FreshAccept (spawned cfg mix) as ↔ CountsUp (generations s)) ∧
      ((generations s).Nodup → CountsUp (generations s)) := by
  induction as using List.reverseRecOn generalizing s with
  | nil =>
      cases hrun
      exact ⟨⟨fun _ => rfl, fun _ => trivial⟩, fun _ => rfl⟩
  | append_singleton as a ih =>
      obtain ⟨u, hu, ha⟩ := run_concat_eq_some_iff.mp hrun
      obtain ⟨hiff, hnodup⟩ := ih hu
      rw [along_concat_iff hu, hiff]
      rcases generations_step ha with ⟨hsame, hfresh⟩ | ⟨k, w, hk, hlt, hnew⟩
      · rw [hsame]
        exact ⟨and_iff_left hfresh, hnodup⟩
      · have hlength : (generations u).length = u.shared.accepted.length := List.length_map _
        have hfresh : FreshAccept u a ↔ k.draw.generation = (generations u).length := by
          rw [hlength]
          refine ⟨fun h => h k w hk hlt, fun h k' w' hk' _ => ?_⟩
          rw [hk] at hk'
          cases hk'
          exact h
        have hle : k.draw.generation ≤ (generations u).length :=
          hlength ▸ generation_le_of_add ⟨as, hu⟩ hk
        rw [hnew, hfresh, countsUp_concat_iff]
        refine ⟨Iff.rfl, fun hn => ?_⟩
        have hups := hnodup (List.nodup_append.mp hn).1
        exact ⟨hups, hups.eq_length hle hn⟩

/-! ### A single thread -/

/-- Every record was followed by a refresh. -/
def Shared.Settled (s : Shared κ) : Prop := s.mix.generation = s.accepted.length

/-- What the only thread of a search knows: outside the handling of a hit, every record was
followed by a refresh before the cache was read, unless the search is over. -/
def Pc.Solo (s : Shared κ) : Pc κ → Prop
  | .head => s.stop = true ∨ s.Settled
  | .next => s.Settled
  | .count _ _ _ generation => s.Settled ∧ generation = s.accepted.length
  | .attempt d _ => s.Settled ∧ d.generation = s.accepted.length
  | .scan d _ _ _ => s.Settled ∧ d.generation = s.accepted.length
  | .poll d _ => s.Settled ∧ d.generation = s.accepted.length
  | .claim h => s.Settled ∧ h.draw.generation = s.accepted.length
  | .add h _ => s.Settled ∧ h.draw.generation = s.accepted.length
  | .lock _ => s.mix.generation + 1 = s.accepted.length
  | .emit _ => s.mix.generation + 1 = s.accepted.length
  | .check _ => s.mix.generation + 1 = s.accepted.length
  | .refresh => s.mix.generation + 1 = s.accepted.length
  | .unlock => s.stop = true ∨ s.Settled
  | _ => True

/-- A quiet step of the only thread. -/
theorem Quiet.solo {s : Shared κ} {p q : Pc κ} (h : Quiet W cfg s p q) (hp : p.Solo s) :
    q.Solo s := by
  cases h with
  | stopped hstop => trivial
  | proceed hstop => exact hp.resolve_left (by rw [hstop]; exact Bool.false_ne_true)
  | read os cpu => exact ⟨hp, hp⟩
  | exhausted d k => exact .inr hp.1
  | polledStop d k hstop => trivial
  | lost h => exact .inr hp.1
  | noneActive hle => trivial
  | _ => exact hp

/-- Any step of the only thread. -/
theorem Move.solo {s s' : Shared κ} {p p' : Pc κ} (h : Move W cfg s p s' p')
    (hp : p.Solo s) : p'.Solo s' := by
  cases h with
  | quiet hq => exact hq.solo hp
  | accept hlt =>
      have hsettled : s.mix.generation = s.accepted.length := hp.1
      simp only [Pc.Solo, List.length_append, List.length_singleton]
      omega
  | giveUp => exact .inl rfl
  | halt => exact .inl rfl
  | refresh jitter tpm => exact .inr hp
  | fail => trivial
  | stopFailing => trivial
  | overCount hle => trivial
  | undo => trivial
  | emitLast hle => trivial
  | _ => exact hp

/-- **A single thread always meets the condition.** -/
theorem freshAccept_of_threads_eq_one (hone : cfg.threads = 1) {mix : EntropyMix}
    (as : List (Fin cfg.threads × Sources)) :
    Along (searchStep W cfg) FreshAccept (spawned cfg mix) as := by
  refine along_of_reachable fun {s} a hs h w hadd hlt => ?_
  have hsolo : ∀ i, (s.pc i).Solo s.shared := by
    refine SearchReachable.invariant (I := fun s => ∀ i, (s.pc i).Solo s.shared) hs
      (fun _ => .inr rfl) fun {S S' pc i p p'} _ hI hp hm => ?_
    rw [Function.forall_update_iff pc fun _ q => q.Solo S']
    refine ⟨hm.solo (hp ▸ hI i), fun j hj => absurd (Fin.ext ?_) hj⟩
    have hi := i.isLt
    have hj := j.isLt
    omega
  have hknown := hsolo a.1
  rw [hadd] at hknown
  exact hknown.2

/-! ### The cache and the records -/

/-- **When hits share the cache.** In a run whose steps all meet the condition, no two records
emitted share cached contributions, in any state on the way. A run with a step that does not
meet it has two records accepted that share them, and emits both when no thread is about to
emit a record. With one thread, all steps meet the condition. -/
theorem shareNoCache_of_freshAccept (W : Worker κ) (cfg : SearchConfig) (mix : EntropyMix)
    (as : List (Fin cfg.threads × Sources)) (s : SearchState κ cfg)
    (hrun : run (searchStep W cfg) (spawned cfg mix) as = some s) :
    (Along (searchStep W cfg) FreshAccept (spawned cfg mix) as → ShareNoCache s) ∧
    (Along (searchStep W cfg) FreshAccept (spawned cfg mix) as ↔ (generations s).Nodup) ∧
    ((∀ i, (s.pc i).pending = 0) →
      (Along (searchStep W cfg) FreshAccept (spawned cfg mix) as ↔ ShareNoCache s)) ∧
    (cfg.threads = 1 → Along (searchStep W cfg) FreshAccept (spawned cfg mix) as) := by
  have hreach : SearchReachable W cfg mix s := ⟨as, hrun⟩
  obtain ⟨hiff, hups⟩ := along_freshAccept_iff hrun
  have hnodup : Along (searchStep W cfg) FreshAccept (spawned cfg mix) as ↔
      (generations s).Nodup := by
    rw [hiff]
    exact ⟨fun h => h ▸ List.nodup_range, hups⟩
  have hshare : ShareNoCache s ↔
      (s.shared.emitted.map fun r => r.hit.draw.generation).Nodup :=
    List.pairwise_map.symm
  refine ⟨fun h => ?_, hnodup, fun hnone => ?_, fun hone => freshAccept_of_threads_eq_one hone as⟩
  · rw [hshare]
    exact emitted_map_nodup hreach (hnodup.mp h)
  · have hrecorded := Recorded.reachable hreach
    rw [Recorded, total_eq_zero hnone, add_zero] at hrecorded
    rw [hnodup, hshare, generations]
    exact ((Multiset.coe_eq_coe.mp hrecorded).map _).nodup_iff

/-- One thread finds two hits, one after the other. -/
theorem shareNoCache_of_freshAccept_searchForA :
    ∃ s : SearchState ClassicKey (searchForA 2 1 (by decide) le_rfl),
      SearchReachable (ed25519Worker default) (searchForA 2 1 (by decide) le_rfl) mixForA s ∧
        s.shared.emitted.length = 2 ∧ ShareNoCache s := by
  have hrun : (run (searchStep (ed25519Worker default) (searchForA 2 1 (by decide) le_rfl))
      (spawned _ mixForA) (List.replicate 24 ((0 : Fin 1), default))).map
        (fun s => s.shared.emitted.length) = some 2 := by
    decide +kernel
  obtain ⟨s, hs, hlength⟩ := Option.map_eq_some_iff.mp hrun
  obtain ⟨hshare, -, -, hone⟩ := shareNoCache_of_freshAccept _ _ mixForA _ s hs
  exact ⟨s, ⟨_, hs⟩, hlength, hshare (hone rfl)⟩

/-- Two threads read the cache before the first hit, and both have their hit accepted. -/
def sharingRun : List (Fin 2 × Sources) :=
  List.replicate 2 (1, default) ++ List.replicate 12 (0, default) ++ List.replicate 9 (1, default)

/-- The generations differ in some interleavings only: two threads that search for two
addresses with an `A` at the start may emit both hits from the first generation. -/
theorem hits_share_cache :
    ¬ ∀ (L : Libraries) (cfg : SearchConfig) (mix : EntropyMix)
      (s : SearchState ClassicKey cfg),
      SearchReachable (ed25519Worker L) cfg mix s → ShareNoCache s := by
  intro h
  have hrun : (run (searchStep (ed25519Worker default) (searchForA 2 2 (by decide) (by decide)))
      (spawned _ mixForA) sharingRun).map
        (fun s => s.shared.emitted.map fun r => r.hit.draw.generation) = some [0, 0] := by
    decide +kernel
  obtain ⟨s, hs, hgenerations⟩ := Option.map_eq_some_iff.mp hrun
  have hshare := List.pairwise_map.mpr (h default _ mixForA s ⟨_, hs⟩)
  rw [hgenerations] at hshare
  simp at hshare

end FalconVanity
