import Mathlib.Data.Nat.Digits.Lemmas
import Mathlib.Tactic.Ring

/-!
# Positional Numerals and Bit Repacking

Codecs that regroup a bit string, from `w`-bit items into `v`-bit items, are statements
about one natural number written in two bases. This module collects what such codecs
need, in both orders.

* **Most significant digit first.** `ofDigitsBE b ds` is the value of a digit list and
  `digitsBE b w n` the list of the `w` low digits of `n`. `digitsBE_eq_iff` makes the two
  mutually inverse, and `digitsBE_add` splits a numeral at any position, which is how a
  leading or a trailing run of digits is compared with a fixed pattern.
* **Least significant digit first.** `Nat.ofDigits` is Mathlib's. `Packs` is the loop
  invariant of a repacker that keeps a partial item in a bit buffer: what was read equals
  what was written plus the buffer on top. `Packs.read`, `Packs.write` and `Packs.flush`
  are its three rules, one for each thing such a loop does.
* **An accumulator that is never cleared.** `Emitted` is the invariant of a repacker, most
  significant digit first, that never removes what it wrote: the written items are the digits
  of everything that was read, without the bits that wait. `Emitted.read` and
  `Emitted.write` are its rules.

## Main results

* `digitsBE_eq_iff`: a digit list is the numeral of its value.
* `digitsBE_add`: splitting a numeral into a leading and a trailing part.
* `Packs.read`, `Packs.write`, `Packs.flush`: the repacking loop rules.
* `Emitted.read`, `Emitted.write`: the same, for an accumulator that is never cleared.
-/

namespace Positional

/-! ### Most significant digit first -/

/-- The value of a digit list in base `b`, most significant digit first. -/
def ofDigitsBE (b : ℕ) (ds : List ℕ) : ℕ :=
  ds.foldl (fun acc d => acc * b + d) 0

@[simp] theorem ofDigitsBE_nil (b : ℕ) : ofDigitsBE b [] = 0 := rfl

/-- Reading a digit list backwards turns it into Mathlib's little-endian numeral. -/
theorem ofDigitsBE_eq_ofDigits (b : ℕ) (ds : List ℕ) :
    ofDigitsBE b ds = Nat.ofDigits b ds.reverse := by
  induction ds using List.reverseRecOn with
  | nil => simp
  | append_singleton ds d ih =>
      rw [List.reverse_append, List.reverse_singleton, List.singleton_append,
        Nat.ofDigits_cons, ← ih]
      simp only [ofDigitsBE, List.foldl_append, List.foldl_cons, List.foldl_nil]
      ring

/-- The last digit is the units digit. -/
theorem ofDigitsBE_concat (b : ℕ) (ds : List ℕ) (d : ℕ) :
    ofDigitsBE b (ds ++ [d]) = ofDigitsBE b ds * b + d := by
  simp [ofDigitsBE]

/-- The value of a concatenation. -/
theorem ofDigitsBE_append (b : ℕ) (xs ys : List ℕ) :
    ofDigitsBE b (xs ++ ys) = ofDigitsBE b xs * b ^ ys.length + ofDigitsBE b ys := by
  simp only [ofDigitsBE_eq_ofDigits, List.reverse_append, Nat.ofDigits_append,
    List.length_reverse]
  ring

/-- A digit list is smaller than the base to its length. -/
theorem ofDigitsBE_lt {b : ℕ} (hb : 1 < b) {ds : List ℕ} (h : ∀ d ∈ ds, d < b) :
    ofDigitsBE b ds < b ^ ds.length := by
  rw [ofDigitsBE_eq_ofDigits, ← List.length_reverse]
  exact Nat.ofDigits_lt_base_pow_length hb fun x hx => h x (List.mem_reverse.mp hx)

/-- The `w` low digits of `n` in base `b`, most significant digit first. -/
def digitsBE (b : ℕ) : ℕ → ℕ → List ℕ
  | 0, _ => []
  | w + 1, n => digitsBE b w (n / b) ++ [n % b]

@[simp] theorem length_digitsBE (b w n : ℕ) : (digitsBE b w n).length = w := by
  induction w generalizing n with
  | zero => rfl
  | succ w ih => simp [digitsBE, ih]

theorem lt_of_mem_digitsBE {b : ℕ} (hb : 0 < b) {w n d : ℕ} (hd : d ∈ digitsBE b w n) :
    d < b := by
  induction w generalizing n with
  | zero => simp [digitsBE] at hd
  | succ w ih =>
      rw [digitsBE, List.mem_append, List.mem_singleton] at hd
      rcases hd with hd | rfl
      · exact ih hd
      · exact Nat.mod_lt _ hb

/-- The numeral of width `w` keeps exactly the value modulo `b ^ w`. -/
theorem ofDigitsBE_digitsBE (b w n : ℕ) : ofDigitsBE b (digitsBE b w n) = n % b ^ w := by
  induction w generalizing n with
  | zero => simp [digitsBE, Nat.mod_one]
  | succ w ih =>
      rw [digitsBE, ofDigitsBE_concat, ih, pow_succ']
      rw [Nat.mod_mul, mul_comm (n / b % b ^ w)]
      exact Nat.add_comm _ _

/-- The numeral of the value of a list of `w` digits is the list itself. -/
theorem digitsBE_ofDigitsBE {b : ℕ} (hb : 1 < b) {ds : List ℕ} (h : ∀ d ∈ ds, d < b) :
    digitsBE b ds.length (ofDigitsBE b ds) = ds := by
  induction ds using List.reverseRecOn with
  | nil => rfl
  | append_singleton ds d ih =>
      have hd : d < b := h d (by simp)
      have hds : ∀ x ∈ ds, x < b := fun x hx => h x (by simp [hx])
      rw [List.length_append, List.length_singleton, digitsBE, ofDigitsBE_concat]
      have hdiv : (ofDigitsBE b ds * b + d) / b = ofDigitsBE b ds := by
        rw [mul_comm, Nat.mul_add_div (by omega), Nat.div_eq_of_lt hd, Nat.add_zero]
      have hmod : (ofDigitsBE b ds * b + d) % b = d := by
        rw [mul_comm, Nat.mul_add_mod, Nat.mod_eq_of_lt hd]
      rw [hdiv, hmod, ih hds]

/-- **Numerals and values.** The `w` low digits of `n` are `ds` exactly when `ds` is a list
of `w` digits whose value is `n` modulo `b ^ w`. -/
theorem digitsBE_eq_iff {b : ℕ} (hb : 1 < b) {w n : ℕ} {ds : List ℕ} (hlen : ds.length = w)
    (hds : ∀ d ∈ ds, d < b) : digitsBE b w n = ds ↔ n % b ^ w = ofDigitsBE b ds := by
  constructor
  · intro h
    rw [← h, ofDigitsBE_digitsBE]
  · intro h
    have hn : digitsBE b w n = digitsBE b w (n % b ^ w) := by
      rw [← digitsBE_ofDigitsBE hb (fun d hd => lt_of_mem_digitsBE (by omega) hd),
        length_digitsBE, ofDigitsBE_digitsBE]
    rw [hn, h, ← hlen, digitsBE_ofDigitsBE hb hds]

/-- **Splitting a numeral.** The low `p + s` digits are the low `p` digits of the quotient
by `b ^ s`, followed by the low `s` digits. -/
theorem digitsBE_add (b p s n : ℕ) :
    digitsBE b (p + s) n = digitsBE b p (n / b ^ s) ++ digitsBE b s n := by
  induction s generalizing n with
  | zero => simp [digitsBE]
  | succ s ih =>
      rw [← Nat.add_assoc, digitsBE, ih, digitsBE, List.append_assoc, pow_succ',
        Nat.div_div_eq_div_mul]

/-- A digit of a numeral. -/
theorem getElem_digitsBE (b w n : ℕ) {j : ℕ} (hj : j < (digitsBE b w n).length) :
    (digitsBE b w n)[j] = n / b ^ (w - 1 - j) % b := by
  induction w generalizing n with
  | zero => exact absurd hj (Nat.not_lt_zero j)
  | succ w ih =>
      rw [length_digitsBE] at hj
      rcases Nat.lt_succ_iff_lt_or_eq.mp hj with hlt | rfl
      · have hexp : w + 1 - 1 - j = (w - 1 - j) + 1 := by omega
        have hlen : j < (digitsBE b w (n / b)).length := by rwa [length_digitsBE]
        have hget : (digitsBE b (w + 1) n)[j] = (digitsBE b w (n / b))[j] :=
          List.getElem_append_left hlen
        rw [hget, ih _ hlen, hexp, pow_succ', Nat.div_div_eq_div_mul]
      · simp [digitsBE]

/-! ### Least significant digit first: repacking through a bit buffer -/

/-- The invariant of a repacking loop. The items `read`, of `w` bits each, denote the same
number as the items `out`, of `v` bits each, with the bit buffer on top of them; the buffer
holds the `bits` bits that are read but not yet written. -/
structure Packs (w v : ℕ) (read out : List ℕ) (buffer bits : ℕ) : Prop where
  value : Nat.ofDigits (2 ^ w) read =
    Nat.ofDigits (2 ^ v) out + (2 ^ v) ^ out.length * buffer
  buffer_lt : buffer < 2 ^ bits
  length : w * read.length = v * out.length + bits
  out_lt : ∀ x ∈ out, x < 2 ^ v

/-- Nothing read, nothing written, nothing buffered. -/
theorem Packs.nil (w v : ℕ) : Packs w v [] [] 0 0 :=
  ⟨by simp, by simp, by simp, by simp⟩

/-- Appending the most significant digit of a little-endian numeral. -/
theorem ofDigits_concat (b : ℕ) (l : List ℕ) (x : ℕ) :
    Nat.ofDigits b (l ++ [x]) = Nat.ofDigits b l + b ^ l.length * x := by
  rw [Nat.ofDigits_append, Nat.ofDigits_singleton]

/-- Reading an item puts it above the buffered bits. -/
theorem Packs.read {w v : ℕ} {xs out : List ℕ} {buffer bits : ℕ}
    (h : Packs w v xs out buffer bits) {x : ℕ} (hx : x < 2 ^ w) :
    Packs w v (xs ++ [x]) out (buffer + x * 2 ^ bits) (bits + w) where
  value := by
    have hpow : (2 ^ w) ^ xs.length = (2 ^ v) ^ out.length * 2 ^ bits := by
      rw [← pow_mul, ← pow_mul, ← pow_add, h.length]
    rw [ofDigits_concat, h.value, hpow]
    ring
  buffer_lt := by
    have hb := h.buffer_lt
    calc buffer + x * 2 ^ bits < 2 ^ bits + x * 2 ^ bits := by omega
      _ = (x + 1) * 2 ^ bits := by ring
      _ ≤ 2 ^ w * 2 ^ bits := Nat.mul_le_mul_right _ hx
      _ = 2 ^ (bits + w) := by rw [pow_add, mul_comm]
  length := by
    have hl := h.length
    rw [List.length_append, List.length_singleton, Nat.mul_add, hl]
    ring
  out_lt := h.out_lt

/-- Writing an item takes it from the low end of the buffer. -/
theorem Packs.write {w v : ℕ} {xs out : List ℕ} {buffer bits : ℕ}
    (h : Packs w v xs out buffer (bits + v)) :
    Packs w v xs (out ++ [buffer % 2 ^ v]) (buffer / 2 ^ v) bits where
  value := by
    have hsplit := Nat.mod_add_div buffer (2 ^ v)
    rw [h.value, ofDigits_concat, List.length_append, List.length_singleton, pow_succ,
      Nat.add_assoc]
    congr 1
    calc (2 ^ v) ^ out.length * buffer
        = (2 ^ v) ^ out.length * (buffer % 2 ^ v + 2 ^ v * (buffer / 2 ^ v)) := by
          rw [hsplit]
      _ = _ := by ring
  buffer_lt := by
    have hb := h.buffer_lt
    rw [pow_add] at hb
    exact Nat.div_lt_of_lt_mul (by rwa [mul_comm])
  length := by
    have hl := h.length
    rw [List.length_append, List.length_singleton, hl]
    ring
  out_lt := by
    intro x hx
    rw [List.mem_append, List.mem_singleton] at hx
    rcases hx with hx | rfl
    · exact h.out_lt x hx
    · exact Nat.mod_lt _ (by positivity)

/-- Writing out a partial item at the end: the written items then denote what was read. -/
theorem Packs.flush {w v : ℕ} {xs out : List ℕ} {buffer bits : ℕ}
    (h : Packs w v xs out buffer bits) (hbits : bits ≤ v) :
    Nat.ofDigits (2 ^ v) (out ++ [buffer]) = Nat.ofDigits (2 ^ w) xs ∧
      ∀ x ∈ out ++ [buffer], x < 2 ^ v := by
  refine ⟨by rw [ofDigits_concat, h.value], fun x hx => ?_⟩
  rw [List.mem_append, List.mem_singleton] at hx
  rcases hx with hx | rfl
  · exact h.out_lt x hx
  · exact h.buffer_lt.trans_le (Nat.pow_le_pow_right (by norm_num) hbits)

/-- An empty buffer at the end: the written items denote what was read. -/
theorem Packs.done {w v : ℕ} {xs out : List ℕ} {buffer : ℕ}
    (h : Packs w v xs out buffer 0) :
    Nat.ofDigits (2 ^ v) out = Nat.ofDigits (2 ^ w) xs := by
  have hb : buffer = 0 := by simpa using h.buffer_lt
  rw [h.value, hb, Nat.mul_zero, Nat.add_zero]

/-! ### Most significant digit first: an accumulator that is never cleared -/

/-- The items `out`, of `v` bits each, are the bits of a value above its low `bits`, which are
read but not yet written. -/
def Emitted (v value bits : ℕ) (out : List ℕ) : Prop :=
  out = digitsBE (2 ^ v) out.length (value / 2 ^ bits)

variable {v value bits : ℕ} {out : List ℕ}

theorem Emitted.nil (v value bits : ℕ) : Emitted v value bits [] := rfl

/-- Reading an item of `w` bits puts it below the bits that wait. -/
theorem Emitted.read (h : Emitted v value bits out) {w x : ℕ} (hx : x < 2 ^ w) :
    Emitted v (value * 2 ^ w + x) (bits + w) out := by
  have hdiv : (value * 2 ^ w + x) / 2 ^ (bits + w) = value / 2 ^ bits := by
    rw [Nat.add_comm bits, pow_add, ← Nat.div_div_eq_div_mul, Nat.add_comm,
      Nat.add_mul_div_right _ _ (Nat.two_pow_pos w), Nat.div_eq_of_lt hx, Nat.zero_add]
  rw [Emitted, hdiv]
  exact h

/-- Writing an item takes it from the top of the bits that wait. -/
theorem Emitted.write (h : Emitted v value (bits + v) out) :
    Emitted v value bits (out ++ [value / 2 ^ bits % 2 ^ v]) := by
  rw [Emitted, List.length_append, List.length_singleton, digitsBE, Nat.div_div_eq_div_mul,
    ← pow_add, ← h]

end Positional
