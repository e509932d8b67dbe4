import Mathlib.NumberTheory.LucasPrimality
import Mathlib.Tactic.NormNum.Prime
import Mathlib.Tactic.ReduceModChar

/-!
# The Field with 2^255 - 19 Elements

The number `2 ^ 255 - 19` is prime: each prime factor of its predecessor is certified by the
factors of its own predecessor, down to primes that are small.

## Main results

* `prime_of_factors`: the certificate of one prime.
* `prime_q`: the number `2 ^ 255 - 19` is prime.
-/

/-- **A certificate of a prime**: a primitive root, and the factors of the predecessor. -/
theorem prime_of_factors {p : ℕ} (a : ZMod p) (fs : List ℕ) (hfs : fs.Forall Nat.Prime)
    (hprod : p - 1 = fs.prod) (hone : a ^ (p - 1) = 1)
    (hne : ∀ f ∈ fs, a ^ ((p - 1) / f) ≠ 1) : p.Prime := by
  refine lucas_primality p a hone fun f hf hdvd => ?_
  rw [hprod] at hdvd
  obtain ⟨g, hg, hfg⟩ := (Prime.dvd_prod_iff hf.prime).mp hdvd
  rw [(Nat.prime_dvd_prime_iff_eq hf (List.forall_iff_forall_mem.mp hfs g hg)).mp hfg]
  exact hne g hg

namespace Field25519

/-- The number of elements. -/
abbrev q : ℕ := 2 ^ 255 - 19

/-! ### The certificates -/

/-- The first prime of a chain of certificates, with 32 bits. -/
theorem prime_bits32 : Nat.Prime 2773320623 := by
  refine prime_of_factors 5 [2, 2437, 569003] ?_ ?_ ?_ ?_
  · refine ⟨?_, ?_, ?_⟩ <;> norm_num
  · norm_num
  · reduce_mod_char
  · norm_num
    reduce_mod_char
    decide

/-- The next prime of the chain, with 37 bits: one less than it is a product of primes that are
known already. -/
theorem prime_bits37 : Nat.Prime 72106336199 := by
  refine prime_of_factors 7 [2, 13, 2773320623] ?_ ?_ ?_ ?_
  · refine ⟨?_, ?_, prime_bits32⟩ <;> norm_num
  · norm_num
  · reduce_mod_char
  · norm_num
    reduce_mod_char
    decide

/-- A prime with 51 bits, from small factors only. -/
theorem prime_bits51 : Nat.Prime 1919519569386763 := by
  refine prime_of_factors 2 [2, 3, 7, 19, 47, 47, 127, 8574133] ?_ ?_ ?_ ?_
  · refine ⟨?_, ?_, ?_, ?_, ?_, ?_, ?_, ?_⟩ <;> norm_num
  · norm_num
  · reduce_mod_char
  · norm_num
    reduce_mod_char
    decide

/-- The next prime of the chain, with 55 bits. -/
theorem prime_bits55 : Nat.Prime 31757755568855353 := by
  refine prime_of_factors 10 [2, 2, 2, 3, 31, 107, 223, 4153, 430751] ?_ ?_ ?_ ?_
  · refine ⟨?_, ?_, ?_, ?_, ?_, ?_, ?_, ?_, ?_⟩ <;> norm_num
  · norm_num
  · reduce_mod_char
  · norm_num
    reduce_mod_char
    decide

/-- The next prime of the chain, with 116 bits. -/
theorem prime_bits116 : Nat.Prime 75445702479781427272750846543864801 := by
  refine prime_of_factors 7
    [2, 2, 2, 2, 2, 3, 3, 5, 5, 75707, 72106336199, 1919519569386763] ?_ ?_ ?_ ?_
  · refine ⟨?_, ?_, ?_, ?_, ?_, ?_, ?_, ?_, ?_, ?_, prime_bits37, prime_bits51⟩ <;> norm_num
  · norm_num
  · reduce_mod_char
  · norm_num
    reduce_mod_char
    decide

/-- The last prime of the chain before `q`, with 236 bits. -/
theorem prime_bits236 :
    Nat.Prime 74058212732561358302231226437062788676166966415465897661863160754340907 := by
  refine prime_of_factors 2
    [2, 3, 353, 57467, 132049, 1923133, 31757755568855353,
      75445702479781427272750846543864801] ?_ ?_ ?_ ?_
  · refine ⟨?_, ?_, ?_, ?_, ?_, ?_, prime_bits55, prime_bits116⟩ <;> norm_num
  · norm_num
  · reduce_mod_char
  · norm_num
    reduce_mod_char
    decide

/-- **The number of elements** is prime. -/
theorem prime_q : q.Prime := by
  have hq : q = 57896044618658097711785492504343953926634992332820282019728792003956564819949 := by
    norm_num
  rw [hq]
  refine prime_of_factors 2
    [2, 2, 3, 65147,
      74058212732561358302231226437062788676166966415465897661863160754340907] ?_ ?_ ?_ ?_
  · refine ⟨?_, ?_, ?_, ?_, prime_bits236⟩ <;> norm_num
  · norm_num
  · reduce_mod_char
  · norm_num
    reduce_mod_char
    decide

/-- The integers modulo `q` are a field. -/
instance : Fact q.Prime := ⟨prime_q⟩

/-- Positive numbers below the prime are not zero in the field. -/
theorem natCast_ne_zero {n : ℕ} (hpos : 0 < n) (hlt : n < q) : (n : ZMod q) ≠ 0 := fun h =>
  absurd (Nat.le_of_dvd hpos ((ZMod.natCast_eq_zero_iff n q).mp h)) (by omega)

/-- Two is invertible in the field. -/
theorem two_ne_zero_of_field : (2 : ZMod q) ≠ 0 := by
  exact_mod_cast natCast_ne_zero (n := 2) (by norm_num) (by norm_num)

/-- The product of the first three primes is invertible in the field. -/
theorem thirty_ne_zero_of_field : (30 : ZMod q) ≠ 0 := by
  exact_mod_cast natCast_ne_zero (n := 30) (by norm_num) (by norm_num)

end Field25519
