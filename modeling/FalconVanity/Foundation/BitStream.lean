import FalconVanity.Foundation.Positional
import FalconVanity.Foundation.Words

/-!
# Bit Streams in Bytes

A codec with codes of different lengths moves bits between a list of bytes and an accumulator, a
word of which the low bits wait and the others are forgotten. What is written and what waits are
one list of bits, and so are what waits and what is to be read. This module has the rules of both
directions, and the argument by which a reader that takes one code from the front of a stream
takes a list of them.

## Main results

* `digitsBE_push`, `digitsBE_split`: the low bits of an accumulator when bits enter and leave.
* `waiting_read`, `waiting_write`: whole bytes enter, and leave.
* `ReadsExactly.list`: a reader of codes reads lists of codes.
-/

namespace BitStream

open Positional

/-- The bits of a list of bytes, most significant first. -/
def byteBits (bytes : List UInt8) : List ℕ := bytes.flatMap fun b => digitsBE 2 8 b.toNat

@[simp] theorem byteBits_nil : byteBits [] = [] := rfl

/-- The bits of the first byte come first. -/
theorem byteBits_cons (b : UInt8) (bytes : List UInt8) :
    byteBits (b :: bytes) = digitsBE 2 8 b.toNat ++ byteBits bytes := rfl

/-- The bits of bytes one after the other. -/
theorem byteBits_append (xs ys : List UInt8) :
    byteBits (xs ++ ys) = byteBits xs ++ byteBits ys := List.flatMap_append

/-- Each byte has eight bits. -/
theorem length_byteBits (bytes : List UInt8) : (byteBits bytes).length = 8 * bytes.length := by
  induction bytes with
  | nil => rfl
  | cons b bytes ih =>
      rw [byteBits_cons, List.length_append, length_digitsBE, ih, List.length_cons]
      ring

/-- The bits determine the bytes. -/
theorem byteBits_injective : Function.Injective byteBits := by
  intro xs ys h
  induction xs generalizing ys with
  | nil =>
      rcases ys with _ | ⟨b, ys⟩
      · rfl
      · have hlen := congrArg List.length h
        rw [length_byteBits, length_byteBits, List.length_nil, List.length_cons] at hlen
        omega
  | cons a xs ih =>
      rcases ys with _ | ⟨b, ys⟩
      · have hlen := congrArg List.length h
        rw [length_byteBits, length_byteBits, List.length_nil, List.length_cons] at hlen
        omega
      · rw [byteBits_cons, byteBits_cons] at h
        obtain ⟨hbyte, hrest⟩ := List.append_inj h (by rw [length_digitsBE, length_digitsBE])
        have hvalue := congrArg (ofDigitsBE 2) hbyte
        rw [ofDigitsBE_digitsBE, ofDigitsBE_digitsBE, Nat.mod_eq_of_lt a.toNat_lt,
          Nat.mod_eq_of_lt b.toNat_lt] at hvalue
        rw [ih hrest, UInt8.toNat_inj.mp hvalue]

/-! ### The accumulator -/

variable {w p s k : ℕ}

/-- Only the low bits count. -/
theorem digitsBE_mod (h : w ≤ p) (n : ℕ) : digitsBE 2 w (n % 2 ^ p) = digitsBE 2 w n := by
  have hdigits : ∀ d ∈ digitsBE 2 w n, d < 2 := fun d hd => lt_of_mem_digitsBE two_pos hd
  rw [digitsBE_eq_iff one_lt_two (length_digitsBE _ _ _) hdigits, ofDigitsBE_digitsBE,
    Nat.mod_mod_of_dvd _ (pow_dvd_pow 2 h)]

/-- Bits that enter come after the bits that wait. -/
theorem digitsBE_push {n v : ℕ} (hv : v < 2 ^ s) :
    digitsBE 2 (p + s) (n * 2 ^ s + v) = digitsBE 2 p n ++ digitsBE 2 s v := by
  have hdiv : (n * 2 ^ s + v) / 2 ^ s = n := by
    rw [Nat.add_comm, Nat.add_mul_div_right _ _ (Nat.two_pow_pos s), Nat.div_eq_of_lt hv,
      Nat.zero_add]
  have hmod : (n * 2 ^ s + v) % 2 ^ s = v := by
    rw [Nat.add_comm, Nat.add_mul_mod_self_right, Nat.mod_eq_of_lt hv]
  rw [digitsBE_add, hdiv, ← digitsBE_mod le_rfl (n * 2 ^ s + v), hmod]

/-- The digits of zero are zeros. -/
theorem digitsBE_zero : digitsBE 2 w 0 = List.replicate w 0 := by
  induction w with
  | zero => rfl
  | succ w ih => rw [digitsBE, Nat.zero_div, ih, Nat.zero_mod, ← List.replicate_succ']

/-- The bits that wait in an accumulator. -/
def waiting (acc : UInt32) (accLen : ℕ) : List ℕ := digitsBE 2 accLen acc.toNat

@[simp] theorem length_waiting (acc : UInt32) (accLen : ℕ) :
    (waiting acc accLen).length = accLen := length_digitsBE _ _ _

@[simp] theorem waiting_zero (acc : UInt32) : waiting acc 0 = [] := rfl

/-- **Bits enter the accumulator.** -/
theorem waiting_push {acc v : UInt32} {accLen : ℕ} (hv : v.toNat < 2 ^ k)
    (hfit : accLen + k ≤ 32) (hk : k < 32) :
    waiting (acc <<< k.toUInt32 ||| v) (accLen + k) =
      waiting acc accLen ++ digitsBE 2 k v.toNat := by
  rw [waiting, Words.UInt32.toNat_shiftLeft_or acc hk hv, digitsBE_mod hfit, digitsBE_push hv]
  rfl

/-- **A byte enters the accumulator.** -/
theorem waiting_read (acc : UInt32) {accLen : ℕ} (hfit : accLen ≤ 24) (b : UInt8)
    (bytes : List UInt8) :
    waiting (acc <<< 8 ||| b.toUInt32) (accLen + 8) ++ byteBits bytes =
      waiting acc accLen ++ byteBits (b :: bytes) := by
  have hb : b.toUInt32.toNat < 2 ^ 8 := by
    rw [UInt8.toNat_toUInt32]
    exact b.toNat_lt
  have hpush := @waiting_push 8 acc b.toUInt32 accLen hb (by omega) (by norm_num)
  rw [UInt8.toNat_toUInt32] at hpush
  rw [byteBits_cons, ← List.append_assoc, ← hpush]
  rfl

/-- The bits that wait, at any place. -/
theorem waiting_split (acc : UInt32) {accLen : ℕ} (hk : k < 32) :
    waiting acc (accLen + k) = waiting (acc >>> k.toUInt32) accLen ++ waiting acc k := by
  have hkval : k.toUInt32.toNat = k := by
    rw [Nat.toUInt32, UInt32.toNat_ofNat', Nat.mod_eq_of_lt (by omega)]
  rw [waiting, digitsBE_add, waiting, Words.UInt32.toNat_shiftRight_of_lt acc _ hkval hk]
  rfl

/-- **A byte leaves the accumulator.** -/
theorem waiting_write (acc : UInt32) (hk : k < 32) (bytes : List UInt8) :
    byteBits (bytes ++ [(acc >>> k.toUInt32).toUInt8]) ++ waiting acc k =
      byteBits bytes ++ waiting acc (k + 8) := by
  have hbyte : digitsBE 2 8 (acc >>> k.toUInt32).toUInt8.toNat =
      waiting (acc >>> k.toUInt32) 8 := by
    rw [UInt32.toNat_toUInt8]
    exact digitsBE_mod le_rfl _
  rw [byteBits_append, byteBits_cons, byteBits_nil, List.append_nil, hbyte, List.append_assoc,
    ← waiting_split acc hk, Nat.add_comm]

/-- **The last byte**: the bits that wait, filled up with zeros. -/
theorem digitsBE_flush (acc : UInt32) (hw : w ≤ 8) :
    digitsBE 2 8 (acc <<< (8 - w).toUInt32).toUInt8.toNat =
      waiting acc w ++ List.replicate (8 - w) 0 := by
  have hshift : (8 - w).toUInt32.toNat % 32 = 8 - w := by simp; omega
  have hsplit : 8 = w + (8 - w) := by omega
  rw [UInt32.toNat_toUInt8, UInt32.toNat_shiftLeft, hshift, Nat.shiftLeft_eq,
    Nat.mod_mod_of_dvd _ (by norm_num : 2 ^ 8 ∣ 2 ^ 32), digitsBE_mod le_rfl]
  have hpush := digitsBE_push (p := w) (s := 8 - w) (n := acc.toNat) (v := 0)
    (Nat.two_pow_pos _)
  rw [Nat.add_zero, ← hsplit, digitsBE_zero] at hpush
  exact hpush

/-- The bits that wait are zero exactly when the mask of them is. -/
theorem waiting_eq_replicate_iff {acc : UInt32} {accLen : ℕ} (hlt : accLen < 32) :
    waiting acc accLen = List.replicate accLen 0 ↔
      acc &&& ((1 : UInt32) <<< accLen.toUInt32 - 1) = 0 := by
  have hzeros : ∀ d ∈ List.replicate accLen 0, d < 2 := by
    intro d hd
    rw [List.eq_of_mem_replicate hd]
    exact two_pos
  rw [waiting, digitsBE_eq_iff one_lt_two (List.length_replicate) hzeros, ← UInt32.toNat_inj,
    Words.UInt32.toNat_and_mask _ _ (Words.UInt32.toNat_lowMask hlt), ← digitsBE_zero,
    ofDigitsBE_digitsBE, Nat.zero_mod]
  rfl

/-! ### Readers -/

section Reader

variable {σ α : Type*}

/-- A reader that takes one code from the front of a stream: in the states that are `good`, it
succeeds exactly when the stream starts with the code of an item that is `ok`, and leaves the
rest of the stream. -/
structure ReadsExactly (good : σ → Prop) (stream : σ → List ℕ) (ok : α → Prop)
    (code : α → List ℕ) (read : σ → Option (α × σ)) : Prop where
  sound : ∀ s a t, good s → read s = some (a, t) →
    good t ∧ ok a ∧ stream s = code a ++ stream t
  complete : ∀ s a rest, good s → ok a → stream s = code a ++ rest →
    ∃ t, read s = some (a, t) ∧ stream t = rest

/-- A reader, several times. -/
def readList (read : σ → Option (α × σ)) : ℕ → σ → Option (List α × σ)
  | 0, s => some ([], s)
  | n + 1, s =>
    (read s).bind fun (a, s) => (readList read n s).map fun (as, s) => (a :: as, s)

variable {good : σ → Prop} {stream : σ → List ℕ} {ok : α → Prop} {code : α → List ℕ}
  {read : σ → Option (α × σ)}

/-- **A reader of codes reads lists of codes.** -/
theorem ReadsExactly.list (h : ReadsExactly good stream ok code read) (n : ℕ) :
    ReadsExactly good stream (fun as => as.length = n ∧ ∀ a ∈ as, ok a)
      (fun as => as.flatMap code) (readList read n) := by
  induction n with
  | zero =>
      refine ⟨fun s as t hs hread => ?_, fun s as rest hs hok hstream => ?_⟩
      · obtain ⟨rfl, rfl⟩ := Prod.mk.inj (Option.some.inj hread)
        exact ⟨hs, ⟨rfl, fun a ha => absurd ha List.not_mem_nil⟩, rfl⟩
      · obtain rfl := List.eq_nil_of_length_eq_zero hok.1
        exact ⟨s, rfl, hstream⟩
  | succ n ih =>
      refine ⟨fun s as t hs hread => ?_, fun s as rest hs hok hstream => ?_⟩
      · obtain ⟨⟨a, s₁⟩, hfirst, hrest⟩ := Option.bind_eq_some_iff.mp hread
        obtain ⟨⟨as', t'⟩, hlist, heq⟩ := Option.map_eq_some_iff.mp hrest
        obtain ⟨rfl, rfl⟩ := Prod.mk.inj heq
        obtain ⟨hs₁, ha, hstream⟩ := h.sound s a s₁ hs hfirst
        obtain ⟨ht, ⟨hlen, has⟩, hstream'⟩ := ih.sound s₁ as' t' hs₁ hlist
        refine ⟨ht, ⟨by rw [List.length_cons, hlen], ?_⟩, ?_⟩
        · exact List.forall_mem_cons.mpr ⟨ha, has⟩
        · rw [hstream, hstream', List.flatMap_cons, List.append_assoc]
      · obtain ⟨hlen, has⟩ := hok
        rcases as with _ | ⟨a, as⟩
        · exact absurd hlen (Nat.succ_ne_zero n).symm
        · obtain ⟨ha, has⟩ := List.forall_mem_cons.mp has
          rw [List.flatMap_cons, List.append_assoc] at hstream
          obtain ⟨s₁, hfirst, hs₁⟩ := h.complete s a _ hs ha hstream
          obtain ⟨hgood, -, -⟩ := h.sound s a s₁ hs hfirst
          obtain ⟨t, hlist, ht⟩ := ih.complete s₁ as rest hgood
            ⟨Nat.succ.inj hlen, has⟩ hs₁
          refine ⟨t, ?_, ht⟩
          simp only [readList, hfirst, Option.bind_some, hlist, Option.map_some]

end Reader

end BitStream
