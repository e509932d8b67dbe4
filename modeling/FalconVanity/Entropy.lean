import FalconVanity.Address
import FalconVanity.Foundation.Words

/-!
# The Entropy Mixer

Every output of the mixer is the hash of a buffer of 192 bytes: a tag, five contributions of
32 bytes and a counter. The contributions of the TPM and of the timing jitter are cached; the
cache is written by `refresh` and read by `next`. The counter is an atomic of 64 bits that
all callers share.

What the sources return is an argument of every operation. `TracedMix` adds the history that
the statements about the mixer speak of: the buffers hashed so far, in the order of the
counter, and the number of completed refreshes.

## Main results

* `mixBuffer_ctr_injective`: buffers with different counters are different.
* `TracedMix.Counted`: the buffer of call `k` has the counter `k`, in every history.
* `TracedMix.calls_nodup`: below `2 ^ 64` calls, all buffers are different.
-/

namespace FalconVanity

/-- `MIX_TAG`: the tag in front of all sources. -/
def mixTag : List UInt8 := byteString "pq-vanity/entropy-mix/v1".toList

/-- The cached contributions. They are read anew by a refresh, and mixed into every draw until the
next one. -/
structure Cached where
  tpm : Bytes32
  jitter : Bytes32

/-- `EntropyMix`. Of the open TPM device only its presence is kept. -/
structure EntropyMix where
  tpm : Bool
  cached : Cached
  extra : Option Bytes32
  ctr : UInt64
  desc : Str

/-- `u64::to_le_bytes`: the eight bytes of a word, the least significant one first. -/
def toLeBytes (w : UInt64) : List UInt8 :=
  (List.range 8).map fun j => (w >>> (8 * j).toUInt64).toUInt8

@[simp] theorem length_toLeBytes (w : UInt64) : (toLeBytes w).length = 8 := by
  simp [toLeBytes]

/-- A counter is determined by its bytes. -/
theorem toLeBytes_injective : Function.Injective toLeBytes := by
  intro v w h
  refine Words.UInt64.ext_bytes fun j hj => ?_
  exact List.map_inj_left.mp h j (List.mem_range.mpr hj)

/-- The buffer that `EntropyMix::next` hashes. -/
def mixBuffer (os cpu : Bytes32) (cached : Cached) (extra : Option Bytes32) (ctr : UInt64) :
    List UInt8 :=
  mixTag ++ os.toList ++ cpu.toList ++ cached.tpm.toList ++ cached.jitter.toList ++
    (extra.getD (Vector.replicate 32 0)).toList ++ toLeBytes ctr

@[simp] theorem length_mixBuffer (os cpu : Bytes32) (cached : Cached) (extra : Option Bytes32)
    (ctr : UInt64) : (mixBuffer os cpu cached extra ctr).length = 192 := by
  have htag : mixTag.length = 24 := rfl
  simp only [mixBuffer, List.length_append, Vector.length_toList, length_toLeBytes, htag]

/-- **The counter is visible in the buffer.** -/
theorem mixBuffer_ctr_injective {os os' cpu cpu' : Bytes32} {c c' : Cached}
    {x x' : Option Bytes32} {ctr ctr' : UInt64}
    (h : mixBuffer os cpu c x ctr = mixBuffer os' cpu' c' x' ctr') : ctr = ctr' :=
  toLeBytes_injective (List.append_inj_right' h (by rw [length_toLeBytes, length_toLeBytes]))

namespace EntropyMix

variable (P : Primitives)

/-- `EntropyMix::new`. `probe` is the buffer after the attempt to read the TPM, and whether
the device was opened and read; `cpuLive` is the result of `cpu_drng_fill`, and `cpuName` the
name of that source. -/
def new (extra : Option (List UInt8)) (probe : Bytes32 × Bool) (cpuLive : Bool) (cpuName : Str)
    (jitter : Bytes32) : EntropyMix where
  tpm := probe.2
  cached := { tpm := probe.1, jitter := jitter }
  extra := extra.map P.sha512_256
  ctr := 0
  desc := "getrandom".toList ++ (if cpuLive then '+' :: cpuName else []) ++ "+jitter".toList ++
    (if probe.2 then "+tpm2".toList else []) ++ (if extra.isSome then "+extra".toList else [])

/-- `EntropyMix::refresh`. `tpmRead` is what the TPM returns, if it is asked and succeeds. -/
def refresh (m : EntropyMix) (jitter : Bytes32) (tpmRead : Option Bytes32) : EntropyMix :=
  { m with cached :=
    { tpm := if m.tpm then tpmRead.getD m.cached.tpm else m.cached.tpm
      jitter := jitter } }

end EntropyMix

/-- The mixer with its history. The history holds the buffers that were hashed and counts the
refreshes; no function of the source reads it. -/
structure TracedMix extends EntropyMix where
  /-- The number of completed refreshes. -/
  generation : ℕ
  /-- The buffers hashed, in the order of the counter. -/
  calls : List (List UInt8)

namespace TracedMix

variable (P : Primitives)

/-- A mixer without history. -/
def start (m : EntropyMix) : TracedMix := { m with generation := 0, calls := [] }

/-- `EntropyMix::refresh`: the write to the cache completes it. -/
def refresh (m : TracedMix) (jitter : Bytes32) (tpmRead : Option Bytes32) : TracedMix :=
  { m with
    toEntropyMix := m.toEntropyMix.refresh jitter tpmRead
    generation := m.generation + 1 }

/-- The buffer of a call whose counter is the present one. -/
def buffer (m : TracedMix) (os cpu : Bytes32) (cached : Cached) : List UInt8 :=
  mixBuffer os cpu cached m.extra m.ctr

/-- `fetch_add` on the counter, at the end of `EntropyMix::next`. -/
def count (m : TracedMix) (os cpu : Bytes32) (cached : Cached) : TracedMix :=
  { m with
    ctr := m.ctr + 1
    calls := m.calls ++ [m.buffer os cpu cached] }

/-- `EntropyMix::next` in one piece, for a caller that has the mixer to itself. `os` is what
`getrandom` returns, if it succeeds. -/
def next (m : TracedMix) (os : Option Bytes32) (cpu : Bytes32) : Option (Bytes32 × TracedMix) :=
  os.map fun os => (P.sha512_256 (m.buffer os cpu m.cached), m.count os cpu m.cached)

@[simp] theorem refresh_generation (m : TracedMix) (jitter : Bytes32) (t : Option Bytes32) :
    (m.refresh jitter t).generation = m.generation + 1 := rfl

@[simp] theorem refresh_calls (m : TracedMix) (jitter : Bytes32) (t : Option Bytes32) :
    (m.refresh jitter t).calls = m.calls := rfl

@[simp] theorem count_generation (m : TracedMix) (os cpu : Bytes32) (c : Cached) :
    (m.count os cpu c).generation = m.generation := rfl

@[simp] theorem count_calls (m : TracedMix) (os cpu : Bytes32) (c : Cached) :
    (m.count os cpu c).calls = m.calls ++ [m.buffer os cpu c] := rfl

/-- The buffer of call `k` was made with the counter `k`, which wraps at 64 bits. -/
structure Counted (m : TracedMix) : Prop where
  ctr_eq : m.ctr = UInt64.ofNat m.calls.length
  buffers : ∀ k buf, m.calls[k]? = some buf →
    ∃ os cpu cached, buf = mixBuffer os cpu cached m.extra (UInt64.ofNat k)

/-- No buffer is hashed before the first draw. -/
theorem Counted.start {m : EntropyMix} (h : m.ctr = 0) : (start m).Counted where
  ctr_eq := h
  buffers := by
    intro k buf hk
    simp [TracedMix.start] at hk

/-- Refreshing the cache hashes no buffer. -/
theorem Counted.refresh {m : TracedMix} (h : m.Counted) (jitter : Bytes32)
    (t : Option Bytes32) : (m.refresh jitter t).Counted where
  ctr_eq := h.ctr_eq
  buffers := h.buffers

/-- A draw hashes one buffer, with the counter before it. -/
theorem Counted.count {m : TracedMix} (h : m.Counted) (os cpu : Bytes32) (c : Cached) :
    (m.count os cpu c).Counted where
  ctr_eq := by
    rw [count_calls, List.length_append, List.length_singleton, UInt64.ofNat_add, ← h.ctr_eq]
    rfl
  buffers := by
    intro k buf hk
    rw [count_calls, List.getElem?_append] at hk
    by_cases hlt : k < m.calls.length
    · rw [if_pos hlt] at hk
      exact h.buffers k buf hk
    · rw [if_neg hlt, List.getElem?_singleton] at hk
      obtain ⟨hz, rfl⟩ : k - m.calls.length = 0 ∧ m.buffer os cpu c = buf := by simpa using hk
      have hlast : k = m.calls.length := by omega
      refine ⟨os, cpu, c, ?_⟩
      rw [TracedMix.buffer, h.ctr_eq, hlast]
      rfl

/-- **All buffers are different**, whatever the sources return. -/
theorem calls_nodup {m : TracedMix} (h : m.Counted) (hlt : m.calls.length ≤ 2 ^ 64) :
    m.calls.Nodup := by
  rw [List.nodup_iff_getElem?_ne_getElem?]
  intro i j hij hj heq
  obtain ⟨os, cpu, c, hbuf⟩ := h.buffers j _ (List.getElem?_eq_getElem hj)
  obtain ⟨os', cpu', c', hbuf'⟩ := h.buffers i _
    (heq.trans (List.getElem?_eq_getElem hj))
  have hctr := congrArg UInt64.toNat (mixBuffer_ctr_injective (hbuf'.symm.trans hbuf))
  rw [UInt64.toNat_ofNat_of_lt' (lt_of_lt_of_le hj hlt),
    UInt64.toNat_ofNat_of_lt' (lt_of_lt_of_le (hij.trans hj) hlt)] at hctr
  omega

end TracedMix

end FalconVanity
