import FalconVanity.Entropy
import FalconVanity.Foundation.Transitions
import FalconVanity.Tpm
import Mathlib.Data.List.ReduceOption

/-!
# TPM Reads in the Mix

The mixer reads the TPM when it is made, and at every refresh if the first read succeeded. A
refresh reads into a buffer of its own, so that a read that fails midway changes nothing. The
first read goes into the buffer that becomes the cached contribution: if it fails midway, the
bytes that it brought stay there, although the source is not claimed and never refreshed.

## Main results

* `tpm2GetRandom_outcome`: a read that succeeds, or fails after some well-formed replies.
* `Settled.reachable`: what the operations of the mixer keep.
* `failed_reads_leave_no_trace_iff`: when the cached contribution is the last read that
  succeeded, in every state.
-/

namespace FalconVanity

open Transitions

/-- The architectures that `CPU_DRNG_NAME` distinguishes. -/
inductive CpuArch where
  | x86_64
  | aarch64
  | other

/-- `CPU_DRNG_NAME`: the name of the random number generator of the processor. -/
def cpuDrngName : CpuArch → Str
  | .x86_64 => "rdseed".toList
  | .aarch64 => "rndr".toList
  | .other => "cpu-drng".toList

/-- A buffer of zeros. -/
abbrev zeros32 : Bytes32 := Vector.replicate 32 0

/-- The read in `EntropyMix::new`: the buffer for the cached contribution, and whether the device
is kept. The device may fail to open. -/
def probeTpm : Option (ℕ → Reply) → Bytes32 × Bool
  | none => (zeros32, false)
  | some replies =>
    match (tpm2GetRandom replies zeros32).val with
    | (.ok (), buf) => (buf, true)
    | (.error _, buf) => (buf, false)

/-- The read in `EntropyMix::refresh`, into a buffer of its own. -/
def readTpm (replies : ℕ → Reply) : Option Bytes32 :=
  match (tpm2GetRandom replies zeros32).val with
  | (.ok (), b) => some b
  | (.error _, _) => none

/-- The mixer, with the results of its TPM reads so far. The cache is what a draw mixes in for the
device. -/
structure TpmTrace extends TracedMix where
  reads : List (Option Bytes32)

/-- An operation of the mixer, with what its sources return. A draw fails if the operating system
has no entropy. -/
inductive MixOp where
  | refresh (jitter : Bytes32) (replies : ℕ → Reply)
  | next (os : Option Bytes32) (cpu : Bytes32)

namespace TpmTrace

variable (P : Primitives)

/-- `EntropyMix::new`: the device is probed, and the first buffer of the cache is the very one that
the probe fills. -/
def new (extra : Option (List UInt8)) (device : Option (ℕ → Reply)) (cpuLive : Bool)
    (arch : CpuArch) (jitter : Bytes32) : TpmTrace :=
  { TracedMix.start
      (EntropyMix.new P extra (probeTpm device) cpuLive (cpuDrngName arch) jitter) with
    reads := (device.map readTpm).toList }

/-- `EntropyMix::refresh`: the cache is read again, from a scratch buffer. -/
def refresh (m : TpmTrace) (jitter : Bytes32) (replies : ℕ → Reply) : TpmTrace :=
  { m with
    toTracedMix := m.toTracedMix.refresh jitter (readTpm replies)
    reads := if m.tpm then m.reads ++ [readTpm replies] else m.reads }

/-- One operation. -/
def step (m : TpmTrace) : MixOp → Option TpmTrace
  | .refresh jitter replies => some (m.refresh jitter replies)
  | .next os cpu =>
    match m.toTracedMix.next P os cpu with
    | none => some m
    | some (_, m') => some { m with toTracedMix := m' }

/-- The last read that succeeded, or zeros. -/
def lastRead (reads : List (Option Bytes32)) : Bytes32 :=
  (reads.reduceOption.getLast?).getD zeros32

/-- Failed reads have left no trace: the cached contribution is the last read that succeeded,
and the TPM is claimed as a source only if a read has succeeded. -/
structure Traceless (m : TpmTrace) : Prop where
  cached : m.cached.tpm = lastRead m.reads
  claimed : "+tpm2".toList <:+: m.desc → ∃ b, some b ∈ m.reads

end TpmTrace

/-- The read fails after `k` well-formed replies. The next reply is not well formed, and the buffer
is not full yet. -/
structure FailsAt (replies : ℕ → Reply) (k : ℕ) : Prop where
  before : ∀ i < k, (replies i).WellFormed
  missing : (collected replies k).length < 32
  bad : ¬ (replies k).WellFormed

/-! ### The outcomes of a read -/

theorem FailsAt.unique {replies : ℕ → Reply} {j k : ℕ} (hj : FailsAt replies j)
    (hk : FailsAt replies k) : j = k := by
  rcases Nat.lt_trichotomy j k with hlt | heq | hgt
  · exact absurd (hk.before j hlt) hj.bad
  · exact heq
  · exact absurd (hj.before k hgt) hk.bad

/-- More replies bring more bytes. -/
theorem length_collected_mono (replies : ℕ → Reply) {j k : ℕ} (hjk : j ≤ k) :
    (collected replies j).length ≤ (collected replies k).length := by
  obtain ⟨n, rfl⟩ := Nat.exists_eq_add_of_le hjk
  rw [collected, collected, List.range_add, List.flatMap_append, List.length_append]
  exact Nat.le_add_right _ _

/-- **The outcomes of a read** into a buffer of zeros: it succeeds, and no reply that it consumes
fails; or it fails, and the bytes that were brought are in the buffer. -/
theorem tpm2GetRandom_outcome (replies : ℕ → Reply) :
    ((tpm2GetRandom replies zeros32).val.1 = .ok () ∧ ∀ k, ¬ FailsAt replies k) ∨
    ∃ e k, (tpm2GetRandom replies zeros32).val.1 = .error e ∧ FailsAt replies k ∧
      (tpm2GetRandom replies zeros32).val.2.toList = collected replies k ++
        List.replicate (32 - (collected replies k).length) 0 := by
  obtain ⟨k, -, hrun⟩ := tpmLoop_spec replies (Filled.start zeros32)
  rcases hrun.result with ⟨hok, hall, henough, -⟩ | ⟨j, e, rfl, hbad, herr, hout⟩
  · refine .inl ⟨hok, fun j hj => ?_⟩
    rw [List.nil_append] at henough
    rcases Nat.lt_or_ge j k with hlt | hge
    · exact hj.bad (hall j hlt)
    · have hmono := length_collected_mono replies hge
      have hmissing := hj.missing
      omega
  · refine .inr ⟨e, j, herr, ⟨fun i hi => hrun.before i (by omega), ?_, hbad⟩, ?_⟩
    · exact hrun.missing j (Nat.lt_succ_self j)
    · rw [List.nil_append] at hout
      rw [tpm2GetRandom, hout, Vector.toList_replicate, List.drop_replicate]

/-! ### The read of a new mixer -/

/-- **A read that succeeds** gives both callers its bytes. -/
theorem readTpm_of_ok {replies : ℕ → Reply}
    (h : (tpm2GetRandom replies zeros32).val.1 = .ok ()) :
    readTpm replies = some (probeTpm (some replies)).1 ∧ (probeTpm (some replies)).2 = true := by
  rw [readTpm, probeTpm]
  generalize (tpm2GetRandom replies zeros32).val = r at h
  obtain ⟨res, buf⟩ := r
  obtain rfl : res = .ok () := h
  exact ⟨rfl, rfl⟩

/-- **A read that fails** gives a refresh nothing, and leaves its buffer to a new mixer. -/
theorem readTpm_of_error {replies : ℕ → Reply} {e : TpmError}
    (h : (tpm2GetRandom replies zeros32).val.1 = .error e) :
    readTpm replies = none ∧
      probeTpm (some replies) = ((tpm2GetRandom replies zeros32).val.2, false) := by
  rw [readTpm, probeTpm]
  generalize (tpm2GetRandom replies zeros32).val = r at h
  obtain ⟨res, buf⟩ := r
  obtain rfl : res = .error e := h
  exact ⟨rfl, rfl⟩

/-- The TPM is claimed only if the device is kept. -/
theorem probe_of_claimed {P : Primitives} {extra : Option (List UInt8)} {probe : Bytes32 × Bool}
    {cpuLive : Bool} {arch : CpuArch} {jitter : Bytes32}
    (h : "+tpm2".toList <:+:
      (EntropyMix.new P extra probe cpuLive (cpuDrngName arch) jitter).desc) :
    probe.2 = true := by
  -- No other part of the text has the character `2`.
  have hname : '2' ∉ cpuDrngName arch := by cases arch <;> decide
  have hshown : '2' ∈ "+tpm2".toList := by decide
  have htwo := h.subset hshown
  simp only [EntropyMix.new, List.mem_append] at htwo
  by_contra hkept
  rw [if_neg hkept] at htwo
  rcases htwo with (((htwo | htwo) | htwo) | htwo) | htwo
  · exact absurd htwo (by decide)
  · split at htwo
    · rcases List.mem_cons.mp htwo with heq | htwo
      · exact absurd heq (by decide)
      · exact hname htwo
    · cases htwo
  · exact absurd htwo (by decide)
  · cases htwo
  · split at htwo
    · exact absurd htwo (by decide)
    · cases htwo

namespace TpmTrace

/-! ### What the operations keep -/

/-- One result more. -/
theorem lastRead_concat (reads : List (Option Bytes32)) (r : Option Bytes32) :
    lastRead (reads ++ [r]) = r.getD (lastRead reads) := by
  rw [lastRead, List.reduceOption_append, List.reduceOption_singleton]
  cases r with
  | none => rw [Option.toList_none, List.append_nil, Option.getD_none, lastRead]
  | some b => rw [Option.toList_some, List.getLast?_concat, Option.getD_some, Option.getD_some]

/-- What the operations keep of the first state: a mixer without a device keeps what it has, and
a mixer with a device has the last read that succeeded. -/
structure Settled (m₀ m : TpmTrace) : Prop where
  tpm : m.tpm = m₀.tpm
  desc : m.desc = m₀.desc
  reads : ∀ r ∈ m₀.reads, r ∈ m.reads
  dropped : m₀.tpm = false → m.cached.tpm = m₀.cached.tpm ∧ m.reads = m₀.reads
  kept : m₀.tpm = true → m.cached.tpm = lastRead m.reads

theorem Settled.refresh {m₀ m : TpmTrace} (h : Settled m₀ m) (jitter : Bytes32)
    (replies : ℕ → Reply) : Settled m₀ (m.refresh jitter replies) where
  tpm := h.tpm
  desc := h.desc
  reads r hr := by
    have hmem := h.reads r hr
    rw [TpmTrace.refresh]
    dsimp only
    split
    · exact List.mem_append_left _ hmem
    · exact hmem
  dropped hdropped := by
    have htpm : m.tpm = false := h.tpm.trans hdropped
    simpa [TpmTrace.refresh, TracedMix.refresh, EntropyMix.refresh, htpm] using h.dropped hdropped
  kept hkept := by
    have htpm : m.tpm = true := h.tpm.trans hkept
    have hcached := h.kept hkept
    simp only [TpmTrace.refresh, TracedMix.refresh, EntropyMix.refresh, htpm, if_true,
      lastRead_concat, hcached]

theorem Settled.step {P : Primitives} {m₀ m m' : TpmTrace} (h : Settled m₀ m) {op : MixOp}
    (hstep : m.step P op = some m') : Settled m₀ m' := by
  cases op with
  | refresh jitter replies =>
      cases hstep
      exact h.refresh jitter replies
  | next os cpu =>
      cases os with
      | none =>
          cases hstep
          exact h
      | some os =>
          cases hstep
          exact { tpm := h.tpm, desc := h.desc, reads := h.reads, dropped := h.dropped,
                  kept := h.kept }

/-- **What every run keeps.** -/
theorem Settled.reachable {P : Primitives} {m₀ m : TpmTrace}
    (h : Reachable (TpmTrace.step P) m₀ m)
    (hkept : m₀.tpm = true → m₀.cached.tpm = lastRead m₀.reads) : Settled m₀ m :=
  h.invariant ⟨rfl, rfl, fun _ hr => hr, fun _ => ⟨rfl, rfl⟩, hkept⟩ fun _ hs hstep => hs.step hstep

/-! ### The first state -/

section New

variable (P : Primitives) (extra : Option (List UInt8)) (cpuLive : Bool) (arch : CpuArch)
  (jitter : Bytes32)

/-- A new mixer whose read succeeded. -/
theorem new_kept {device : Option (ℕ → Reply)}
    (h : (new P extra device cpuLive arch jitter).tpm = true) :
    let m := new P extra device cpuLive arch jitter
    m.cached.tpm = lastRead m.reads ∧ (∃ b, some b ∈ m.reads) ∧
      ∀ replies ∈ device, ∀ k, ¬ FailsAt replies k := by
  cases device with
  | none => cases h
  | some replies =>
      rcases tpm2GetRandom_outcome replies with ⟨hok, hnever⟩ | ⟨e, k, herr, -, -⟩
      · obtain ⟨hread, -⟩ := readTpm_of_ok hok
        intro m
        have hreads : m.reads = [some (probeTpm (some replies)).1] :=
          congrArg (fun r => [r]) hread
        rw [hreads]
        refine ⟨rfl, ⟨_, List.mem_singleton.mpr rfl⟩, fun replies' hreplies => ?_⟩
        cases hreplies
        exact hnever
      · obtain ⟨-, hprobe⟩ := readTpm_of_error herr
        have htpm : (probeTpm (some replies)).2 = true := h
        rw [hprobe] at htpm
        cases htpm

/-- A new mixer without a device, or whose read failed: the cached contribution is zero exactly
if the replies before the failure brought zeros only. -/
theorem new_dropped {device : Option (ℕ → Reply)}
    (h : (new P extra device cpuLive arch jitter).tpm = false) :
    let m := new P extra device cpuLive arch jitter
    lastRead m.reads = zeros32 ∧ (m.cached.tpm = zeros32 ↔
      ∀ replies ∈ device, ∀ k, FailsAt replies k → ∀ b ∈ collected replies k, b = 0) := by
  cases device with
  | none => exact ⟨rfl, fun _ _ hreplies => (Option.not_mem_none _ hreplies).elim, fun _ => rfl⟩
  | some replies =>
      rcases tpm2GetRandom_outcome replies with ⟨hok, -⟩ | ⟨e, k, herr, hfails, hout⟩
      · obtain ⟨-, hprobe⟩ := readTpm_of_ok hok
        have htpm : (probeTpm (some replies)).2 = false := h
        rw [hprobe] at htpm
        cases htpm
      · obtain ⟨hread, hprobe⟩ := readTpm_of_error herr
        have hzero : (tpm2GetRandom replies zeros32).val.2 = zeros32 ↔
            ∀ b ∈ collected replies k, b = 0 := by
          have hmissing := hfails.missing
          have hsum : 32 = (collected replies k).length + (32 - (collected replies k).length) := by
            omega
          rw [← Vector.toList_inj, hout, Vector.toList_replicate]
          nth_rewrite 2 [hsum]
          rw [List.replicate_add, List.append_left_inj, List.eq_replicate_iff]
          exact ⟨fun h => h.2, fun h => ⟨rfl, h⟩⟩
        intro m
        have hreads : m.reads = [none] := congrArg (fun r => [r]) hread
        have hcached : m.cached.tpm = (tpm2GetRandom replies zeros32).val.2 :=
          congrArg Prod.fst hprobe
        rw [hreads, hcached, hzero]
        refine ⟨rfl, fun hall replies' hreplies k' hk' => ?_, fun hall => ?_⟩
        · cases hreplies
          obtain rfl := hk'.unique hfails
          exact hall
        · exact hall replies rfl k hfails

/-- **A new mixer** and what is reached from it: no trace of a failed read. -/
theorem traceless_iff {device : Option (ℕ → Reply)} {m : TpmTrace}
    (h : Reachable (step P) (new P extra device cpuLive arch jitter) m) :
    Traceless m ↔
      ∀ replies ∈ device, ∀ k, FailsAt replies k → ∀ b ∈ collected replies k, b = 0 := by
  have hs := Settled.reachable h fun hkept => (new_kept P extra cpuLive arch jitter hkept).1
  have hclaimed : "+tpm2".toList <:+: m.desc →
      (new P extra device cpuLive arch jitter).tpm = true := by
    rw [hs.desc]
    exact probe_of_claimed
  cases hkept : (new P extra device cpuLive arch jitter).tpm with
  | true =>
      obtain ⟨-, ⟨b, hb⟩, hnever⟩ := new_kept P extra cpuLive arch jitter hkept
      exact ⟨fun _ replies hreplies k hk => absurd hk (hnever replies hreplies k),
        fun _ => ⟨hs.kept hkept, fun _ => ⟨b, hs.reads _ hb⟩⟩⟩
  | false =>
      obtain ⟨hlast, hzero⟩ := new_dropped P extra cpuLive arch jitter hkept
      obtain ⟨hcached, hreads⟩ := hs.dropped hkept
      rw [← hzero]
      constructor
      · intro hm
        rw [← hcached, hm.cached, hreads, hlast]
      · intro hnew
        refine ⟨by rw [hcached, hnew, hreads, hlast], fun hdesc => ?_⟩
        rw [hclaimed hdesc] at hkept
        cases hkept

end New

end TpmTrace

open TpmTrace

/-- **When failed reads leave no trace.** A read of a refresh that fails changes neither the
cached contribution nor the claimed sources. In every state of a mixer the cached contribution is
the last read that succeeded, and zero before there is one, if and only if the very first read
does not fail after replies that brought a byte other than zero. -/
theorem failed_reads_leave_no_trace_iff (P : Primitives) (extra : Option (List UInt8))
    (device : Option (ℕ → Reply)) (cpuLive : Bool) (arch : CpuArch) (jitter : Bytes32)
    (m : TpmTrace) (h : Reachable (step P) (new P extra device cpuLive arch jitter) m) :
    (∀ (jitter : Bytes32) (replies : ℕ → Reply), readTpm replies = none →
      (m.refresh jitter replies).cached.tpm = m.cached.tpm ∧
        (m.refresh jitter replies).desc = m.desc) ∧
    (Traceless m ↔
      ∀ replies ∈ device, ∀ k, FailsAt replies k → ∀ b ∈ collected replies k, b = 0) := by
  refine ⟨fun jitter replies hread => ⟨?_, rfl⟩, traceless_iff P extra cpuLive arch jitter h⟩
  simp [TpmTrace.refresh, TracedMix.refresh, EntropyMix.refresh, hread]

/-- A mixer without extra entropy. -/
def plainMixer (device : Option (ℕ → Reply)) : TpmTrace :=
  new ⟨fun _ => zeros32, fun _ => false⟩ none device false .other zeros32

/-- A reply with 32 bytes, for every command. -/
def wholeReplies (_ : ℕ) : Reply :=
  some ⟨[0x80, 0x01, 0, 0, 0, 44, 0, 0, 0, 0, 0, 32] ++ List.replicate 32 0xAA, by decide⟩

/-- A read that succeeds, and a refresh whose read fails: the bytes of the first one stay. -/
theorem failed_reads_leave_no_trace_iff_whole :
    let m := plainMixer (some wholeReplies)
    m.cached.tpm = Vector.replicate 32 0xAA ∧
      (m.refresh zeros32 fun _ => none).cached.tpm = m.cached.tpm ∧
      (m.refresh zeros32 fun _ => none).desc = m.desc ∧
      Traceless (m.refresh zeros32 fun _ => none) := by
  have hfails : FailsAt (fun _ => none) 0 :=
    ⟨fun i hi => absurd hi (Nat.not_lt_zero i), by decide, fun h => h⟩
  have hread : readTpm (fun _ => none) = none := by
    rcases tpm2GetRandom_outcome fun _ => none with ⟨-, hnever⟩ | ⟨e, -, herr, -⟩
    · exact absurd hfails (hnever 0)
    · exact (readTpm_of_error herr).1
  have hwell : ∀ i, (wholeReplies i).WellFormed := by
    intro i
    refine ⟨?_, ?_, ?_, ?_⟩ <;> decide
  intro m
  have hreach : Reachable (step ⟨fun _ => zeros32, fun _ => false⟩) m
      (m.refresh zeros32 fun _ => none) :=
    (Reachable.refl _).tail (a := .refresh zeros32 fun _ => none) rfl
  have hstart : Reachable (step ⟨fun _ => zeros32, fun _ => false⟩) m m := .refl _
  obtain ⟨hrefresh, -⟩ := failed_reads_leave_no_trace_iff _ none (some wholeReplies) false .other
    zeros32 m hstart
  obtain ⟨-, hiff⟩ := failed_reads_leave_no_trace_iff _ none (some wholeReplies) false .other
    zeros32 _ hreach
  refine ⟨?_, (hrefresh zeros32 _ hread).1, (hrefresh zeros32 _ hread).2, hiff.mpr ?_⟩
  · decide +kernel
  · rintro replies hreplies k hk
    obtain rfl := Option.some.inj hreplies
    exact absurd (hwell k) hk.bad

/-- A reply with one byte, and an I/O error at the next command. -/
def brokenReplies (i : ℕ) : Reply :=
  if i = 0 then some ⟨[0x80, 0x01, 0, 0, 0, 13, 0, 0, 0, 0, 0, 1, 0xAA], by decide⟩ else none

/-- The byte stays in the cached contribution, although no read has succeeded. -/
theorem partial_read_leaves_trace :
    (plainMixer (some brokenReplies)).cached.tpm ≠ zeros32 ∧
      (plainMixer (some brokenReplies)).reads = [none] ∧
      ¬ Traceless (plainMixer (some brokenReplies)) := by
  have hfirst : (brokenReplies 0).WellFormed := by
    refine ⟨?_, ?_, ?_, ?_⟩ <;> decide
  have hcollected : collected brokenReplies 1 = [0xAA] := by decide
  have hfails : FailsAt brokenReplies 1 := by
    refine ⟨fun i hi => ?_, by rw [hcollected]; decide, fun h => h⟩
    obtain rfl : i = 0 := by omega
    exact hfirst
  obtain ⟨e, herr⟩ : ∃ e, (tpm2GetRandom brokenReplies zeros32).val.1 = .error e := by
    rcases tpm2GetRandom_outcome brokenReplies with ⟨-, hnever⟩ | ⟨e, -, herr, -⟩
    · exact absurd hfails (hnever 1)
    · exact ⟨e, herr⟩
  obtain ⟨hread, hprobe⟩ := readTpm_of_error herr
  have hreads : (plainMixer (some brokenReplies)).reads = [none] := congrArg (fun r => [r]) hread
  obtain ⟨hlast, hzero⟩ := new_dropped _ none false .other zeros32 (congrArg Prod.snd hprobe)
  have hne : (plainMixer (some brokenReplies)).cached.tpm ≠ zeros32 := by
    intro hcached
    have hbyte := hzero.mp hcached brokenReplies rfl 1 hfails 0xAA
      (by rw [hcollected]; exact List.mem_singleton.mpr rfl)
    exact absurd hbyte (by decide)
  exact ⟨hne, hreads, fun htraceless => hne (htraceless.cached.trans hlast)⟩

end FalconVanity
