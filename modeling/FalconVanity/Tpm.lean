import FalconVanity.Foundation.Logged
import FalconVanity.Mnemonic

/-!
# The TPM Reader

`tpm2_get_random` asks the device for the bytes that are missing, again and again: a reply may
hold fewer bytes than were asked for, or more. The lengths in a reply are the device's own: the
number of bytes that were read, and a length field inside them.

The accesses to the reply and to the output are logged, with the requests. The slices are total
functions here; that every slice is within its array is a statement about the log.

## Main results

* `tpmExchange_of_wellFormed`, `tpmExchange_of_not_wellFormed`: one iteration.
* `tpmLoop_spec`: the loop.
* `tpm_reader_exact`: what the reader asks for, what it accesses, and what it returns.
-/

namespace FalconVanity

open Positional Logged

/-- What comes of one command: an I/O error of `write_all` or `read`, or the bytes of one
read into a buffer of 4096 bytes. -/
abbrev Reply := Option {bytes : List UInt8 // bytes.length ≤ 4096}

/-- The errors of `tpm2_get_random`. The comments are the texts that are displayed. -/
inductive TpmError where
  /-- An error of `write_all` or `read`. -/
  | io
  /-- `short TPM response` -/
  | shortResponse
  /-- `TPM rc {rc:#x}` -/
  | rc (rc : ℕ)
  /-- `bad TPM2B length` -/
  | badLength
  deriving DecidableEq

/-- A command that is written, a slice of the response buffer that is read, of which the device
filled `n` bytes, or a slice of the output that is written. -/
inductive TpmEvent where
  | request (cmd : List UInt8)
  | read (start stop n : ℕ)
  | write (start stop : ℕ)

/-- The variables of `tpm2_get_random` between two iterations. They are the number of bytes that
are filled, and the buffer. -/
structure TpmState where
  filled : ℕ
  out : Bytes32

/-- `from_be_bytes`: a number from its bytes, the most significant one first. -/
def fromBeBytes (bytes : List UInt8) : ℕ := ofDigitsBE 256 (bytes.map UInt8.toNat)

/-- The command that asks for `want` bytes. -/
def tpmCommand (want : UInt16) : List UInt8 :=
  [0x80, 0x01,
    0x00, 0x00, 0x00, 0x0c,
    0x00, 0x00, 0x01, 0x7b,
    (want >>> 8).toUInt8, want.toUInt8]

/-- `&resp[start..stop]` -/
def readResp (resp : List UInt8) (n start stop : ℕ) : Logged TpmEvent (List UInt8) := do
  emit (.read start stop n)
  return (resp.drop start).take (stop - start)

/-- `out[start..start + src.len()].copy_from_slice(src)` -/
def copyInto (out : Bytes32) (start : ℕ) (src : List UInt8) : Bytes32 :=
  Vector.ofFn fun i =>
    if start ≤ i.val ∧ i.val < start + src.length then src[i.val - start]! else out[i.val]!

/-- What an iteration does with the bytes that it read. -/
def tpmResponse (s : TpmState) (bytes : List UInt8) :
    Logged TpmEvent (Except TpmError TpmState) := do
  let n := bytes.length
  let resp := bytes ++ List.replicate (4096 - n) 0
  if n < 12 then return .error .shortResponse
  let rc := fromBeBytes (← readResp resp n 6 10)
  if rc ≠ 0 then return .error (.rc rc)
  let blen := fromBeBytes (← readResp resp n 10 12)
  if blen = 0 ∨ 12 + blen > n then return .error .badLength
  let take := min blen (32 - s.filled)
  let src ← readResp resp n 12 (12 + take)
  emit (.write s.filled (s.filled + take))
  return .ok { filled := s.filled + take, out := copyInto s.out s.filled src }

/-- One iteration of `tpm2_get_random`. -/
def tpmExchange (s : TpmState) (reply : Reply) : Logged TpmEvent (Except TpmError TpmState) := do
  emit (.request (tpmCommand (32 - s.filled).toUInt16))
  match reply with
  | none => return .error .io
  | some bytes => tpmResponse s bytes

/-! ### Replies -/

/-- The response code of a reply. -/
def responseCode (bytes : List UInt8) : ℕ := fromBeBytes ((bytes.drop 6).take 4)

/-- The declared length of a reply. -/
def declaredLength (bytes : List UInt8) : ℕ := fromBeBytes ((bytes.drop 10).take 2)

/-- A reply with a complete header, the response code zero and a declared length that is not
zero and fits. -/
def Reply.WellFormed : Reply → Prop
  | none => False
  | some bytes => 12 ≤ bytes.val.length ∧ responseCode bytes = 0 ∧ declaredLength bytes ≠ 0 ∧
      12 + declaredLength bytes ≤ bytes.val.length

/-- The bytes that a reply declares. -/
def Reply.payload : Reply → List UInt8
  | none => []
  | some bytes => (bytes.val.drop 12).take (declaredLength bytes)

/-- The payloads of the first `k` replies, in order. -/
def collected (replies : ℕ → Reply) (k : ℕ) : List UInt8 :=
  (List.range k).flatMap fun i => (replies i).payload

/-- A slice that a reply covers is read from it. -/
theorem readResp_eq {bytes pad : List UInt8} {start stop : ℕ} (h : stop ≤ bytes.length) :
    readResp (bytes ++ pad) bytes.length start stop =
      ⟨(bytes.drop start).take (stop - start), [.read start stop bytes.length]⟩ := by
  have hslice : ((bytes ++ pad).drop start).take (stop - start) =
      (bytes.drop start).take (stop - start) := by
    by_cases hle : start ≤ bytes.length
    · rw [List.drop_append_of_le_length hle, List.take_append_of_le_length]
      rw [List.length_drop]
      omega
    · have hzero : stop - start = 0 := by omega
      rw [hzero, List.take_zero, List.take_zero]
  rw [readResp, hslice]
  rfl

/-- The payload of a well-formed reply is as long as its header says. -/
theorem Reply.WellFormed.length_payload {bytes : {bytes : List UInt8 // bytes.length ≤ 4096}}
    (h : Reply.WellFormed (some bytes)) :
    (Reply.payload (some bytes)).length = declaredLength bytes := by
  have hfit := h.2.2.2
  rw [Reply.payload, List.length_take, List.length_drop]
  omega

/-- A well-formed reply brings a byte at least. -/
theorem Reply.WellFormed.payload_pos {reply : Reply} (h : reply.WellFormed) :
    0 < reply.payload.length := by
  cases reply with
  | none => cases h
  | some bytes =>
      rw [h.length_payload]
      exact Nat.pos_of_ne_zero h.2.2.1

/-- The payloads of one reply more, from the front. -/
theorem collected_succ (replies : ℕ → Reply) (k : ℕ) :
    collected replies (k + 1) = (replies 0).payload ++ collected (fun i => replies (i + 1)) k := by
  rw [collected, List.range_succ_eq_map, List.flatMap_cons, List.flatMap_map]
  rfl

/-! ### Events -/

/-- A slice is within what the device filled, or within the output. -/
def TpmEvent.InBounds : TpmEvent → Prop
  | .request _ => True
  | .read start stop n => start ≤ stop ∧ stop ≤ n ∧ n ≤ 4096
  | .write start stop => start ≤ stop ∧ stop ≤ 32

/-- The number of bytes that a command asks for. -/
def TpmEvent.bytesRequested : TpmEvent → Option ℕ
  | .request cmd => some (fromBeBytes (cmd.drop 10))
  | .read .. => none
  | .write .. => none

/-- The numbers of bytes asked for, in order. -/
def requested (log : List TpmEvent) : List ℕ := log.filterMap TpmEvent.bytesRequested

@[simp] theorem requested_append (log log' : List TpmEvent) :
    requested (log ++ log') = requested log ++ requested log' := List.filterMap_append

/-- A command asks for the number of bytes that it was made for. -/
theorem bytesRequested_tpmCommand (want : UInt16) :
    (TpmEvent.request (tpmCommand want)).bytesRequested = some want.toNat := by
  have hlt := want.toNat_lt
  have hhi : (want >>> 8).toUInt8.toNat = want.toNat / 256 := by
    rw [UInt16.toNat_toUInt8, UInt16.toNat_shiftRight]
    have hshift : want.toNat >>> ((8 : UInt16).toNat % 16) = want.toNat / 256 :=
      Nat.shiftRight_eq_div_pow _ _
    rw [hshift]
    omega
  have hbytes : fromBeBytes ((tpmCommand want).drop 10) =
      (want >>> 8).toUInt8.toNat * 256 + want.toUInt8.toNat := by
    simp [tpmCommand, fromBeBytes, ofDigitsBE]
  rw [TpmEvent.bytesRequested, hbytes, hhi, UInt16.toNat_toUInt8]
  refine congrArg some ?_
  omega

/-! ### One iteration -/

variable (s : TpmState)

/-- The output with a slice overwritten. -/
theorem toList_copyInto {out : Bytes32} {start : ℕ} {src : List UInt8}
    (h : start + src.length ≤ 32) :
    (copyInto out start src).toList =
      out.toList.take start ++ (src ++ out.toList.drop (start + src.length)) := by
  have htake : (out.toList.take start).length = start := by
    rw [List.length_take, Vector.length_toList]
    omega
  refine List.ext_getElem ?_ fun i h₁ h₂ => ?_
  · rw [Vector.length_toList, List.length_append, htake, List.length_append, List.length_drop,
      Vector.length_toList]
    omega
  rw [Vector.length_toList] at h₁
  have hget : (copyInto out start src)[i] =
      if start ≤ i ∧ i < start + src.length then src[i - start]! else out[i]! :=
    Vector.getElem_ofFn ..
  rw [Vector.getElem_toList, hget]
  rcases Nat.lt_or_ge i start with hlo | hlo
  · rw [if_neg (by omega), List.getElem_append_left (by omega), List.getElem_take,
      Vector.getElem_toList, getElem!_pos out i h₁]
  rw [List.getElem_append_right (by omega)]
  simp only [htake]
  rcases Nat.lt_or_ge i (start + src.length) with hmid | hmid
  · have hsrc : i - start < src.length := by omega
    rw [if_pos ⟨hlo, hmid⟩, List.getElem_append_left hsrc, getElem!_pos src _ hsrc]
  · have hindex : start + src.length + (i - start - src.length) = i := by omega
    rw [if_neg (by omega), List.getElem_append_right (by omega), List.getElem_drop,
      Vector.getElem_toList, getElem!_pos out i h₁]
    simp only [hindex]

/-- **A well-formed reply**: the output is filled further, with the payload or the first part of
it. -/
theorem tpmResponse_of_wellFormed {bytes : {bytes : List UInt8 // bytes.length ≤ 4096}}
    (h : Reply.WellFormed (some bytes)) :
    let n := bytes.val.length
    let take := min (declaredLength bytes) (32 - s.filled)
    tpmResponse s bytes = ⟨.ok
      { filled := s.filled + take
        out := copyInto s.out s.filled ((bytes.val.drop 12).take take) },
      [.read 6 10 n, .read 10 12 n, .read 12 (12 + take) n,
        .write s.filled (s.filled + take)]⟩ := by
  obtain ⟨hn, hrc, hzero, hfit⟩ := h
  intro n take
  have hcode : ¬ fromBeBytes ((bytes.val.drop 6).take (10 - 6)) ≠ 0 := not_not.mpr hrc
  have hdeclared : fromBeBytes ((bytes.val.drop 10).take (12 - 10)) = declaredLength bytes := rfl
  have hbad : ¬ (declaredLength bytes = 0 ∨ 12 + declaredLength bytes > bytes.val.length) := by
    omega
  have htake : 12 + take ≤ bytes.val.length := by omega
  rw [tpmResponse]
  dsimp only
  rw [if_neg (Nat.not_lt.mpr hn), readResp_eq (by omega), mk_bind, if_neg hcode,
    readResp_eq (by omega), mk_bind, hdeclared, if_neg hbad, readResp_eq htake, mk_bind,
    Nat.add_sub_cancel_left]
  rfl

/-- **Any other reply** is an error, and at most its header was read. -/
theorem tpmResponse_of_not_wellFormed {bytes : {bytes : List UInt8 // bytes.length ≤ 4096}}
    (h : ¬ Reply.WellFormed (some bytes)) :
    ∃ e, (tpmResponse s bytes).val = .error e ∧
      ∀ ev ∈ (tpmResponse s bytes).log, 12 ≤ bytes.val.length ∧
        (ev = .read 6 10 bytes.val.length ∨ ev = .read 10 12 bytes.val.length) := by
  rw [tpmResponse]
  dsimp only
  by_cases hn : bytes.val.length < 12
  · rw [if_pos hn]
    exact ⟨_, rfl, fun ev hev => absurd hev List.not_mem_nil⟩
  rw [if_neg hn, readResp_eq (by omega), mk_bind]
  by_cases hcode : fromBeBytes ((bytes.val.drop 6).take (10 - 6)) ≠ 0
  · rw [if_pos hcode]
    refine ⟨_, rfl, fun ev hev => ⟨by omega, .inl (List.mem_singleton.mp hev)⟩⟩
  have hdeclared : fromBeBytes ((bytes.val.drop 10).take (12 - 10)) = declaredLength bytes := rfl
  have hbad : declaredLength bytes = 0 ∨ 12 + declaredLength bytes > bytes.val.length := by
    by_contra hfit
    exact h ⟨by omega, not_not.mp hcode, by omega, by omega⟩
  rw [if_neg hcode, readResp_eq (by omega), mk_bind, hdeclared, if_pos hbad]
  refine ⟨_, rfl, fun ev hev => ⟨by omega, ?_⟩⟩
  rcases List.mem_cons.mp hev with rfl | hev
  · exact .inl rfl
  · exact .inr (List.mem_singleton.mp hev)

/-- An exchange with a reply: the request, and then what is made of the reply. -/
theorem tpmExchange_some (bytes : {bytes : List UInt8 // bytes.length ≤ 4096}) :
    tpmExchange s (some bytes) = ⟨(tpmResponse s bytes).val,
      .request (tpmCommand (32 - s.filled).toUInt16) :: (tpmResponse s bytes).log⟩ := rfl

/-- An exchange without a reply fails after its request. -/
theorem tpmExchange_none :
    tpmExchange s none = ⟨.error .io, [.request (tpmCommand (32 - s.filled).toUInt16)]⟩ := rfl

/-- **A well-formed reply**: the output is filled further. -/
theorem tpmExchange_of_wellFormed {reply : Reply} (h : reply.WellFormed) :
    (tpmExchange s reply).val = .ok
      { filled := s.filled + min reply.payload.length (32 - s.filled)
        out := copyInto s.out s.filled (reply.payload.take (32 - s.filled)) } := by
  cases reply with
  | none => cases h
  | some bytes =>
      rw [tpmExchange_some, tpmResponse_of_wellFormed s h, h.length_payload, Reply.payload,
        List.take_take, Nat.min_comm (32 - s.filled)]

/-- Any other reply is an error. -/
theorem tpmExchange_of_not_wellFormed {reply : Reply} (h : ¬ reply.WellFormed) :
    ∃ e, (tpmExchange s reply).val = .error e := by
  cases reply with
  | none => exact ⟨_, rfl⟩
  | some bytes =>
      obtain ⟨e, he, -⟩ := tpmResponse_of_not_wellFormed s h
      exact ⟨e, he⟩

/-- An iteration makes one request, for the bytes that are missing. -/
theorem requested_tpmExchange (reply : Reply) :
    requested (tpmExchange s reply).log = [32 - s.filled] := by
  have hfirst : (TpmEvent.request (tpmCommand (32 - s.filled).toUInt16)).bytesRequested =
      some (32 - s.filled) := by
    rw [bytesRequested_tpmCommand]
    refine congrArg some (UInt16.toNat_ofNat_of_lt' ?_)
    exact (Nat.sub_le 32 s.filled).trans_lt (by decide)
  have hrest : ∀ log : List TpmEvent, (∀ ev ∈ log, ev.bytesRequested = none) →
      requested (.request (tpmCommand (32 - s.filled).toUInt16) :: log) = [32 - s.filled] := by
    intro log hlog
    rw [requested, List.filterMap_cons_some hfirst, List.filterMap_eq_nil_iff.mpr hlog]
  cases reply with
  | none => exact hrest [] (by simp)
  | some bytes =>
      rw [tpmExchange_some]
      refine hrest _ fun ev hev => ?_
      by_cases h : Reply.WellFormed (some bytes)
      · rw [tpmResponse_of_wellFormed s h] at hev
        simp only [List.mem_cons, List.not_mem_nil, or_false] at hev
        rcases hev with rfl | rfl | rfl | rfl <;> rfl
      · obtain ⟨e, -, hlog⟩ := tpmResponse_of_not_wellFormed s h
        rcases (hlog ev hev).2 with rfl | rfl <;> rfl

/-- **Every slice of an iteration is in bounds.** -/
theorem tpmExchange_inBounds {s : TpmState} (hs : s.filled ≤ 32) (reply : Reply) :
    ∀ ev ∈ (tpmExchange s reply).log, ev.InBounds := by
  cases reply with
  | none =>
      intro ev hev
      rw [tpmExchange_none] at hev
      obtain rfl := List.mem_singleton.mp hev
      trivial
  | some bytes =>
      intro ev hev
      rw [tpmExchange_some] at hev
      rcases List.mem_cons.mp hev with rfl | hev
      · trivial
      have hbound := bytes.property
      by_cases h : Reply.WellFormed (some bytes)
      · rw [tpmResponse_of_wellFormed s h] at hev
        obtain ⟨hn, -, -, hfit⟩ := h
        simp only [List.mem_cons, List.not_mem_nil, or_false] at hev
        rcases hev with rfl | rfl | rfl | rfl <;> simp only [TpmEvent.InBounds] <;> omega
      · obtain ⟨e, -, hlog⟩ := tpmResponse_of_not_wellFormed s h
        obtain ⟨hn, rfl | rfl⟩ := hlog ev hev <;> simp only [TpmEvent.InBounds] <;> omega

/-! ### The loop -/

variable {s}

/-- A reply that is accepted brings a byte at least. -/
theorem lt_of_tpmExchange_eq_ok {s' : TpmState} {reply : Reply} (hlt : s.filled < 32)
    (h : (tpmExchange s reply).val = .ok s') : s.filled < s'.filled := by
  by_cases hwell : reply.WellFormed
  · rw [tpmExchange_of_wellFormed s hwell] at h
    obtain rfl := Except.ok.inj h
    have hpos := hwell.payload_pos
    dsimp only
    omega
  · obtain ⟨e, he⟩ := tpmExchange_of_not_wellFormed s hwell
    rw [he] at h
    cases h

/-- The loop of `tpm2_get_random`: its result, and the output. -/
def tpmLoop (replies : ℕ → Reply) (s : TpmState) :
    Logged TpmEvent (Except TpmError Unit × Bytes32) :=
  if _hlt : s.filled < 32 then
    match _h : (tpmExchange s (replies 0)).val with
    | .error e => ⟨(.error e, s.out), (tpmExchange s (replies 0)).log⟩
    | .ok s' =>
      let rest := tpmLoop (fun i => replies (i + 1)) s'
      ⟨rest.val, (tpmExchange s (replies 0)).log ++ rest.log⟩
  else ⟨(.ok (), s.out), []⟩
termination_by 32 - s.filled
decreasing_by
  have hprogress := lt_of_tpmExchange_eq_ok _hlt _h
  omega

/-- `tpm2_get_random`: the loop that asks the device until the buffer is full. The log holds the
requests and the slices. -/
def tpm2GetRandom (replies : ℕ → Reply) (out : Bytes32) :
    Logged TpmEvent (Except TpmError Unit × Bytes32) :=
  tpmLoop replies { filled := 0, out := out }

variable {replies : ℕ → Reply}

/-- A full buffer ends the loop, without a request. -/
theorem tpmLoop_of_full (h : 32 ≤ s.filled) : tpmLoop replies s = ⟨(.ok (), s.out), []⟩ := by
  rw [tpmLoop, dif_neg (Nat.not_lt.mpr h)]

/-- After an exchange that succeeds, the loop goes on with the next replies. -/
theorem tpmLoop_of_ok (hlt : s.filled < 32) {s' : TpmState}
    (h : (tpmExchange s (replies 0)).val = .ok s') :
    tpmLoop replies s = ⟨(tpmLoop (fun i => replies (i + 1)) s').val,
      (tpmExchange s (replies 0)).log ++ (tpmLoop (fun i => replies (i + 1)) s').log⟩ := by
  rw [tpmLoop, dif_pos hlt]
  split
  case h_1 e he =>
    rw [he] at h
    cases h
  case h_2 t ht =>
    obtain rfl := Except.ok.inj (ht.symm.trans h)
    rfl

/-- An exchange that fails ends the loop. What was copied before stays in the buffer. -/
theorem tpmLoop_of_error (hlt : s.filled < 32) {e : TpmError}
    (h : (tpmExchange s (replies 0)).val = .error e) :
    tpmLoop replies s = ⟨(.error e, s.out), (tpmExchange s (replies 0)).log⟩ := by
  rw [tpmLoop, dif_pos hlt]
  split
  case h_1 e' he =>
    obtain rfl := Except.error.inj (he.symm.trans h)
    rfl
  case h_2 t ht =>
    rw [ht] at h
    cases h

/-- The output holds the first bytes of a text, and behind them what it held before. -/
structure Filled (out₀ : Bytes32) (text : List UInt8) (s : TpmState) : Prop where
  filled : s.filled = min text.length 32
  out : s.out.toList = text.take 32 ++ out₀.toList.drop text.length

/-- Nothing is filled at first. -/
theorem Filled.start (out₀ : Bytes32) : Filled out₀ [] { filled := 0, out := out₀ } where
  filled := rfl
  out := rfl

/-- **A well-formed reply** adds its payload to the text. -/
theorem Filled.exchange {out₀ : Bytes32} {text : List UInt8} (hs : Filled out₀ text s)
    (hlt : s.filled < 32) {reply : Reply} (h : reply.WellFormed) :
    ∃ s', (tpmExchange s reply).val = .ok s' ∧ Filled out₀ (text ++ reply.payload) s' := by
  have hfilled := hs.filled
  have hlen : s.filled = text.length := by omega
  refine ⟨_, tpmExchange_of_wellFormed s h, ?_, ?_⟩
  · rw [List.length_append]
    dsimp only
    omega
  have htext : text.take 32 = text := List.take_of_length_le (by omega)
  have hout : s.out.toList = text ++ out₀.toList.drop text.length := by rw [hs.out, htext]
  have hsrc : (reply.payload.take (32 - text.length)).length =
      min (32 - text.length) reply.payload.length := List.length_take
  have hbehind : s.out.toList.drop
      (text.length + (reply.payload.take (32 - text.length)).length) =
        out₀.toList.drop (text.length + reply.payload.length) := by
    have hout₀ : out₀.toList.length = 32 := out₀.length_toList
    rw [hout, List.drop_length_add_append, List.drop_drop, hsrc]
    rcases Nat.le_total reply.payload.length (32 - text.length) with hle | hle
    · rw [Nat.min_eq_right hle]
    · rw [Nat.min_eq_left hle, List.drop_eq_nil_of_le (by omega),
        List.drop_eq_nil_of_le (by omega)]
  rw [hlen, toList_copyInto (by omega), hbehind, hout, List.take_left, List.length_append,
    List.take_append, htext, List.append_assoc]

/-! ### Runs -/

/-- A run that consumes `k` replies: it asks for what is missing each time, every slice is in
bounds, and it ends well when the replies have brought 32 bytes, or with an error at the first
reply that is not well-formed. -/
structure Runs (out₀ : Bytes32) (text : List UInt8) (replies : ℕ → Reply) (k : ℕ)
    (run : Logged TpmEvent (Except TpmError Unit × Bytes32)) : Prop where
  requested : requested run.log =
    (List.range k).map fun i => 32 - (text ++ collected replies i).length
  missing : ∀ i < k, (text ++ collected replies i).length < 32
  inBounds : ∀ ev ∈ run.log, ev.InBounds
  before : ∀ i, i + 1 < k → (replies i).WellFormed
  result : (run.val.1 = .ok () ∧ (∀ i < k, (replies i).WellFormed) ∧
      32 ≤ (text ++ collected replies k).length ∧
      run.val.2.toList = (text ++ collected replies k).take 32) ∨
    ∃ j e, k = j + 1 ∧ ¬ (replies j).WellFormed ∧ run.val.1 = .error e ∧
      run.val.2.toList = (text ++ collected replies j) ++
        out₀.toList.drop (text ++ collected replies j).length

/-- The replies of a run, after one more well-formed reply. -/
theorem append_collected_succ (text : List UInt8) (replies : ℕ → Reply) (i : ℕ) :
    text ++ collected replies (i + 1) =
      text ++ (replies 0).payload ++ collected (fun i => replies (i + 1)) i := by
  rw [collected_succ, List.append_assoc]

/-- **One well-formed reply** in front of a run. -/
theorem Runs.cons {out₀ : Bytes32} {text : List UInt8} {k : ℕ} {s' : TpmState}
    (hs : Filled out₀ text s) (hlt : s.filled < 32) (hwell : (replies 0).WellFormed)
    (hval : (tpmExchange s (replies 0)).val = .ok s')
    (h : Runs out₀ (text ++ (replies 0).payload) (fun i => replies (i + 1)) k
      (tpmLoop (fun i => replies (i + 1)) s')) :
    Runs out₀ text replies (k + 1) (tpmLoop replies s) := by
  have hfilled := hs.filled
  have hzero : text ++ collected replies 0 = text := List.append_nil text
  rw [tpmLoop_of_ok hlt hval]
  refine ⟨?_, fun i hi => ?_, fun ev hev => ?_, fun i hi => ?_, ?_⟩
  · have hfirst : 32 - s.filled = 32 - text.length := by omega
    rw [requested_append, requested_tpmExchange, h.requested, List.range_succ_eq_map,
      List.map_cons, List.map_map, hzero, hfirst, List.singleton_append]
    refine congrArg _ (List.map_congr_left fun i _ => ?_)
    rw [Function.comp_apply, append_collected_succ]
  · cases i with
    | zero =>
        rw [hzero]
        omega
    | succ i =>
        rw [append_collected_succ]
        exact h.missing i (Nat.lt_of_succ_lt_succ hi)
  · rcases List.mem_append.mp hev with hev | hev
    · exact tpmExchange_inBounds hlt.le _ ev hev
    · exact h.inBounds ev hev
  · cases i with
    | zero => exact hwell
    | succ i => exact h.before i (Nat.lt_of_succ_lt_succ hi)
  · rcases h.result with ⟨hok, hall, henough, hout⟩ | ⟨j, e, rfl, hbad, herr, hout⟩
    · refine .inl ⟨hok, fun i hi => ?_, ?_, ?_⟩
      · cases i with
        | zero => exact hwell
        | succ i => exact hall i (Nat.lt_of_succ_lt_succ hi)
      · rw [append_collected_succ]
        exact henough
      · rw [append_collected_succ]
        exact hout
    · refine .inr ⟨j + 1, e, rfl, hbad, herr, ?_⟩
      rw [append_collected_succ]
      exact hout

/-- A reply that is not well-formed ends a run. -/
theorem Runs.error {out₀ : Bytes32} {text : List UInt8} (hs : Filled out₀ text s)
    (hlt : s.filled < 32) (hwell : ¬ (replies 0).WellFormed) :
    Runs out₀ text replies 1 (tpmLoop replies s) := by
  have hfilled := hs.filled
  have hzero : text ++ collected replies 0 = text := List.append_nil text
  have htext : text.take 32 = text := List.take_of_length_le (by omega)
  obtain ⟨e, he⟩ := tpmExchange_of_not_wellFormed s hwell
  rw [tpmLoop_of_error hlt he]
  refine ⟨?_, fun i hi => ?_, fun ev hev => tpmExchange_inBounds hlt.le _ ev hev,
    fun i hi => by omega, .inr ⟨0, e, rfl, hwell, rfl, ?_⟩⟩
  · have hfirst : 32 - s.filled = 32 - text.length := by omega
    rw [requested_tpmExchange, List.range_one, List.map_singleton, hzero, hfirst]
  · obtain rfl : i = 0 := by omega
    rw [hzero]
    omega
  · rw [hzero]
    dsimp only
    rw [hs.out, htext]

/-- A full output ends a run. -/
theorem Runs.full {out₀ : Bytes32} {text : List UInt8} (hs : Filled out₀ text s)
    (hge : 32 ≤ s.filled) : Runs out₀ text replies 0 (tpmLoop replies s) := by
  have hfilled := hs.filled
  have hzero : text ++ collected replies 0 = text := List.append_nil text
  have hout₀ : out₀.toList.length = 32 := out₀.length_toList
  rw [tpmLoop_of_full hge]
  refine ⟨rfl, fun i hi => absurd hi (Nat.not_lt_zero i),
    fun ev hev => absurd hev List.not_mem_nil, fun i hi => absurd hi (Nat.not_lt_zero _),
    .inl ⟨rfl, fun i hi => absurd hi (Nat.not_lt_zero i), ?_, ?_⟩⟩
  · rw [hzero]
    omega
  · rw [hzero]
    dsimp only
    rw [hs.out, List.drop_eq_nil_of_le (by omega), List.append_nil]

/-- **The loop** from any state on. -/
theorem tpmLoop_spec (replies : ℕ → Reply) {out₀ : Bytes32} {text : List UInt8}
    (hs : Filled out₀ text s) :
    ∃ k, k ≤ 32 - s.filled ∧ Runs out₀ text replies k (tpmLoop replies s) := by
  induction hm : 32 - s.filled using Nat.strong_induction_on generalizing replies s text with
  | _ m ih =>
      rcases Nat.lt_or_ge s.filled 32 with hlt | hge
      · by_cases hwell : (replies 0).WellFormed
        · obtain ⟨s', hval, hs'⟩ := hs.exchange hlt hwell
          have hprogress := lt_of_tpmExchange_eq_ok hlt hval
          obtain ⟨k, hk, hrun⟩ := ih (32 - s'.filled) (by omega)
            (fun i => replies (i + 1)) hs' rfl
          exact ⟨k + 1, by omega, hrun.cons hs hlt hwell hval⟩
        · exact ⟨1, by omega, .error hs hlt hwell⟩
      · exact ⟨0, Nat.zero_le _, .full hs hge⟩

/-- **The reader handles every fragmentation.** For every sequence of replies it ends after
`k ≤ 32` requests. Each asks for the bytes that are missing, which is one at least; no access is
out of bounds; and it succeeds exactly if all `k` replies are well-formed. Then the output is the
first 32 bytes of their payloads. Otherwise the last of the replies is the first one that is not
well-formed, and the reader fails. -/
theorem tpm_reader_exact (replies : ℕ → Reply) (out : Bytes32) :
    let run := tpm2GetRandom replies out
    ∃ k ≤ 32,
      requested run.log = (List.range k).map (fun i => 32 - (collected replies i).length) ∧
      (∀ i < k, (collected replies i).length < 32) ∧
      (∀ ev ∈ run.log, ev.InBounds) ∧
      (run.val.1 = .ok () ↔ ∀ i < k, (replies i).WellFormed) ∧
      (run.val.1 = .ok () → 32 ≤ (collected replies k).length ∧
        run.val.2.toList = (collected replies k).take 32) ∧
      ∀ i < k, ¬ (replies i).WellFormed → i + 1 = k ∧ ∃ e, run.val.1 = .error e := by
  intro run
  obtain ⟨k, hk, hrun⟩ := tpmLoop_spec replies (Filled.start out)
  refine ⟨k, hk, hrun.requested, hrun.missing, hrun.inBounds, ?_⟩
  rcases hrun.result with ⟨hok, hall, henough, hout⟩ | ⟨j, e, rfl, hbad, herr, -⟩
  · exact ⟨⟨fun _ => hall, fun _ => hok⟩, fun _ => ⟨henough, hout⟩,
      fun i hi hbad => absurd (hall i hi) hbad⟩
  · have hne : run.val.1 ≠ .ok () := fun hok => by
      have hboth : Except.error e = .ok () := herr.symm.trans hok
      cases hboth
    refine ⟨⟨fun hok => absurd hok hne, fun hall => absurd (hall j (Nat.lt_succ_self j)) hbad⟩,
      fun hok => absurd hok hne, fun i hi hbad' => ⟨?_, e, herr⟩⟩
    by_contra hne'
    exact hbad' (hrun.before i (by omega))

end FalconVanity
