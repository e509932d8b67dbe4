import FalconVanity.Foundation.RootTable
import FalconVanity.SmallPrimes
import Mathlib.Data.List.GetD

/-!
# The Transform Modulo a Small Prime

The solver of the NTRU equation multiplies polynomials modulo small primes by a transform whose
twiddle factors are not a table of the source: they are computed from a generator of the table of
primes, one power after the other, and stored in bit-reversed order.

## Main results

* `rev10_eq_bitRev`: the index table reverses ten bits.
* `modpMkgm2_spec`: the tables hold the powers of the generator and of its inverse.
* `modpNTT2_spec`: the transform.
-/

namespace FalconVanity

open Negacyclic Dif

/-- An array of 1024 32-bit words. -/
abbrev Poly32 := Vector UInt32 1024

/-! ### The tables and the transform -/

/-- `REV10`: the numbers of ten bits with their bits in reverse order. -/
def rev10 : List ℕ :=
  [0, 512, 256, 768, 128, 640, 384, 896, 64, 576, 320, 832, 192, 704, 448, 960, 32, 544, 288,
    800, 160, 672, 416, 928, 96, 608, 352, 864, 224, 736, 480, 992, 16, 528, 272, 784, 144, 656,
    400, 912, 80, 592, 336, 848, 208, 720, 464, 976, 48, 560, 304, 816, 176, 688, 432, 944, 112,
    624, 368, 880, 240, 752, 496, 1008, 8, 520, 264, 776, 136, 648, 392, 904, 72, 584, 328, 840,
    200, 712, 456, 968, 40, 552, 296, 808, 168, 680, 424, 936, 104, 616, 360, 872, 232, 744, 488,
    1000, 24, 536, 280, 792, 152, 664, 408, 920, 88, 600, 344, 856, 216, 728, 472, 984, 56, 568,
    312, 824, 184, 696, 440, 952, 120, 632, 376, 888, 248, 760, 504, 1016, 4, 516, 260, 772, 132,
    644, 388, 900, 68, 580, 324, 836, 196, 708, 452, 964, 36, 548, 292, 804, 164, 676, 420, 932,
    100, 612, 356, 868, 228, 740, 484, 996, 20, 532, 276, 788, 148, 660, 404, 916, 84, 596, 340,
    852, 212, 724, 468, 980, 52, 564, 308, 820, 180, 692, 436, 948, 116, 628, 372, 884, 244, 756,
    500, 1012, 12, 524, 268, 780, 140, 652, 396, 908, 76, 588, 332, 844, 204, 716, 460, 972, 44,
    556, 300, 812, 172, 684, 428, 940, 108, 620, 364, 876, 236, 748, 492, 1004, 28, 540, 284,
    796, 156, 668, 412, 924, 92, 604, 348, 860, 220, 732, 476, 988, 60, 572, 316, 828, 188, 700,
    444, 956, 124, 636, 380, 892, 252, 764, 508, 1020, 2, 514, 258, 770, 130, 642, 386, 898, 66,
    578, 322, 834, 194, 706, 450, 962, 34, 546, 290, 802, 162, 674, 418, 930, 98, 610, 354, 866,
    226, 738, 482, 994, 18, 530, 274, 786, 146, 658, 402, 914, 82, 594, 338, 850, 210, 722, 466,
    978, 50, 562, 306, 818, 178, 690, 434, 946, 114, 626, 370, 882, 242, 754, 498, 1010, 10, 522,
    266, 778, 138, 650, 394, 906, 74, 586, 330, 842, 202, 714, 458, 970, 42, 554, 298, 810, 170,
    682, 426, 938, 106, 618, 362, 874, 234, 746, 490, 1002, 26, 538, 282, 794, 154, 666, 410,
    922, 90, 602, 346, 858, 218, 730, 474, 986, 58, 570, 314, 826, 186, 698, 442, 954, 122, 634,
    378, 890, 250, 762, 506, 1018, 6, 518, 262, 774, 134, 646, 390, 902, 70, 582, 326, 838, 198,
    710, 454, 966, 38, 550, 294, 806, 166, 678, 422, 934, 102, 614, 358, 870, 230, 742, 486, 998,
    22, 534, 278, 790, 150, 662, 406, 918, 86, 598, 342, 854, 214, 726, 470, 982, 54, 566, 310,
    822, 182, 694, 438, 950, 118, 630, 374, 886, 246, 758, 502, 1014, 14, 526, 270, 782, 142,
    654, 398, 910, 78, 590, 334, 846, 206, 718, 462, 974, 46, 558, 302, 814, 174, 686, 430, 942,
    110, 622, 366, 878, 238, 750, 494, 1006, 30, 542, 286, 798, 158, 670, 414, 926, 94, 606, 350,
    862, 222, 734, 478, 990, 62, 574, 318, 830, 190, 702, 446, 958, 126, 638, 382, 894, 254, 766,
    510, 1022, 1, 513, 257, 769, 129, 641, 385, 897, 65, 577, 321, 833, 193, 705, 449, 961, 33,
    545, 289, 801, 161, 673, 417, 929, 97, 609, 353, 865, 225, 737, 481, 993, 17, 529, 273, 785,
    145, 657, 401, 913, 81, 593, 337, 849, 209, 721, 465, 977, 49, 561, 305, 817, 177, 689, 433,
    945, 113, 625, 369, 881, 241, 753, 497, 1009, 9, 521, 265, 777, 137, 649, 393, 905, 73, 585,
    329, 841, 201, 713, 457, 969, 41, 553, 297, 809, 169, 681, 425, 937, 105, 617, 361, 873, 233,
    745, 489, 1001, 25, 537, 281, 793, 153, 665, 409, 921, 89, 601, 345, 857, 217, 729, 473, 985,
    57, 569, 313, 825, 185, 697, 441, 953, 121, 633, 377, 889, 249, 761, 505, 1017, 5, 517, 261,
    773, 133, 645, 389, 901, 69, 581, 325, 837, 197, 709, 453, 965, 37, 549, 293, 805, 165, 677,
    421, 933, 101, 613, 357, 869, 229, 741, 485, 997, 21, 533, 277, 789, 149, 661, 405, 917, 85,
    597, 341, 853, 213, 725, 469, 981, 53, 565, 309, 821, 181, 693, 437, 949, 117, 629, 373, 885,
    245, 757, 501, 1013, 13, 525, 269, 781, 141, 653, 397, 909, 77, 589, 333, 845, 205, 717, 461,
    973, 45, 557, 301, 813, 173, 685, 429, 941, 109, 621, 365, 877, 237, 749, 493, 1005, 29, 541,
    285, 797, 157, 669, 413, 925, 93, 605, 349, 861, 221, 733, 477, 989, 61, 573, 317, 829, 189,
    701, 445, 957, 125, 637, 381, 893, 253, 765, 509, 1021, 3, 515, 259, 771, 131, 643, 387, 899,
    67, 579, 323, 835, 195, 707, 451, 963, 35, 547, 291, 803, 163, 675, 419, 931, 99, 611, 355,
    867, 227, 739, 483, 995, 19, 531, 275, 787, 147, 659, 403, 915, 83, 595, 339, 851, 211, 723,
    467, 979, 51, 563, 307, 819, 179, 691, 435, 947, 115, 627, 371, 883, 243, 755, 499, 1011, 11,
    523, 267, 779, 139, 651, 395, 907, 75, 587, 331, 843, 203, 715, 459, 971, 43, 555, 299, 811,
    171, 683, 427, 939, 107, 619, 363, 875, 235, 747, 491, 1003, 27, 539, 283, 795, 155, 667,
    411, 923, 91, 603, 347, 859, 219, 731, 475, 987, 59, 571, 315, 827, 187, 699, 443, 955, 123,
    635, 379, 891, 251, 763, 507, 1019, 7, 519, 263, 775, 135, 647, 391, 903, 71, 583, 327, 839,
    199, 711, 455, 967, 39, 551, 295, 807, 167, 679, 423, 935, 103, 615, 359, 871, 231, 743, 487,
    999, 23, 535, 279, 791, 151, 663, 407, 919, 87, 599, 343, 855, 215, 727, 471, 983, 55, 567,
    311, 823, 183, 695, 439, 951, 119, 631, 375, 887, 247, 759, 503, 1015, 15, 527, 271, 783,
    143, 655, 399, 911, 79, 591, 335, 847, 207, 719, 463, 975, 47, 559, 303, 815, 175, 687, 431,
    943, 111, 623, 367, 879, 239, 751, 495, 1007, 31, 543, 287, 799, 159, 671, 415, 927, 95, 607,
    351, 863, 223, 735, 479, 991, 63, 575, 319, 831, 191, 703, 447, 959, 127, 639, 383, 895, 255,
    767, 511, 1023]

/-- The body of the loop of `modp_mkgm2`, on `gm`, `igm`, `x1` and `x2`. -/
def mkgm2Step (k : ℕ) (g ig p p0i : UInt32) (s : (Poly32 × Poly32) × UInt32 × UInt32) (u : ℕ) :
    (Poly32 × Poly32) × UInt32 × UInt32 :=
  let ((gm, igm), x1, x2) := s
  let v := rev10.getD (u <<< k) 0
  ((gm.set! v x1, igm.set! v x2), modpMontymul x1 g p p0i, modpMontymul x2 ig p p0i)

/-- `modp_mkgm2`, into the arrays `gm` and `igm`. -/
def modpMkgm2 (gm igm : Poly32) (logn : ℕ) (g p p0i : UInt32) : Poly32 × Poly32 :=
  let n := 1 <<< logn
  let R2 := modpR2 p p0i
  let g := modpMontymul g R2 p p0i
  let g := (List.range (10 - logn)).foldl (fun g _ => modpMontymul g g p p0i) g
  let ig := modpDiv R2 g p p0i (modpR p)
  let k := 10 - logn
  ((List.range n).foldl (mkgm2Step k g ig p p0i) ((gm, igm), modpR p, modpR p)).1

/-- The body of the inner loop of `modp_NTT2`, on the block that starts at `v1`. -/
def ntt2Butterfly (s p p0i : UInt32) (v1 ht : ℕ) (a : Poly32) (v : ℕ) : Poly32 :=
  let x := a[v1 + v]!
  let y := modpMontymul a[v1 + v + ht]! s p p0i
  let a := a.set! (v1 + v) (modpAdd x y p)
  a.set! (v1 + v + ht) (modpSub x y p)

/-- The two inner loops of `modp_NTT2`. -/
def ntt2Layer (gm : Poly32) (p p0i : UInt32) (m t : ℕ) (a : Poly32) : Poly32 :=
  let ht := t >>> 1
  (List.range m).foldl (fun a u =>
    (List.range ht).foldl (ntt2Butterfly gm[m + u]! p p0i (u * t) ht) a) a

/-- `modp_NTT2`: in round `k` there are `m = 2 ^ k` blocks of length `t = 2 ^ (logn - k)`. -/
def modpNTT2 (a gm : Poly32) (logn : ℕ) (p p0i : UInt32) : Poly32 :=
  if logn = 0 then a
  else (List.range logn).foldl (fun a k => ntt2Layer gm p p0i (1 <<< k) (1 <<< (logn - k)) a) a

/-- **The index table** reverses ten bits. -/
theorem rev10_eq_bitRev {u : ℕ} (hu : u < 1024) : rev10.getD u 0 = bitRev 10 u := by
  have htable : rev10 = (List.range 1024).map (bitRev 10) := by decide +kernel
  rw [htable, List.getD_eq_getElem _ _ (by simpa using hu), List.getElem_map, List.getElem_range]

/-! ### Arrays of residues -/

section Transform

variable {p p0i : UInt32}

/-- The array `a` holds the residues of the values `g`. -/
def Rep32 (p : UInt32) (a : Poly32) (g : ℕ → ZMod p.toNat) : Prop :=
  ∀ i < 1024, Residue p a[i]! (g i)

variable [Fact p.toNat.Prime] {γ : ZMod p.toNat}

/-- The loop of the tables: after `u` steps, the first `u` powers stand at their places. -/
theorem mkgm2_loop (hp : Modulus31 p p0i) (gm igm : Poly32) {g ig : UInt32}
    (hg : Residue p g (γ * (radix31 : ℕ))) (hig : Residue p ig (γ⁻¹ * (radix31 : ℕ))) {n : ℕ}
    (hn : n ≤ 1024) :
    let s := (List.range n).foldl (mkgm2Step 0 g ig p p0i) ((gm, igm), modpR p, modpR p)
    (∀ u < n, Residue p s.1.1[bitRev 10 u]! (γ ^ u * (radix31 : ℕ)) ∧
        Residue p s.1.2[bitRev 10 u]! (γ⁻¹ ^ u * (radix31 : ℕ))) ∧
      Residue p s.2.1 (γ ^ n * (radix31 : ℕ)) ∧ Residue p s.2.2 (γ⁻¹ ^ n * (radix31 : ℕ)) := by
  refine foldl_range_inv (fun n (s : (Poly32 × Poly32) × UInt32 × UInt32) =>
    (∀ u < n, Residue p s.1.1[bitRev 10 u]! (γ ^ u * (radix31 : ℕ)) ∧
        Residue p s.1.2[bitRev 10 u]! (γ⁻¹ ^ u * (radix31 : ℕ))) ∧
      Residue p s.2.1 (γ ^ n * (radix31 : ℕ)) ∧ Residue p s.2.2 (γ⁻¹ ^ n * (radix31 : ℕ))) ?_ ?_
  · refine ⟨fun u hu => absurd hu (Nat.not_lt_zero u), ?_, ?_⟩ <;> rw [pow_zero, one_mul]
    · exact residue_modpR hp
    · exact residue_modpR hp
  · rintro k hk ⟨⟨gm, igm⟩, x1, x2⟩ ⟨htable, hx1, hx2⟩
    have hrev : rev10.getD (k <<< 0) 0 = bitRev 10 k := rev10_eq_bitRev (by omega)
    rw [mkgm2Step]
    dsimp only
    rw [hrev]
    refine ⟨fun u hu => ?_, ?_, ?_⟩
    · have hu1024 : bitRev 10 u < 1024 := bitRev_lt (L := 10) (by omega)
      rw [Words.getElem!_set! _ hu1024, Words.getElem!_set! _ hu1024]
      rcases Nat.lt_succ_iff_lt_or_eq.mp hu with hlt | rfl
      · have hne : bitRev 10 k ≠ bitRev 10 u := by
          intro heq
          have hback := congrArg (bitRev 10) heq
          rw [bitRev_bitRev (by omega), bitRev_bitRev (by omega)] at hback
          omega
        rw [if_neg hne, if_neg hne]
        exact htable u hlt
      · rw [if_pos rfl, if_pos rfl]
        exact ⟨hx1, hx2⟩
    · rw [pow_succ]
      exact hx1.montymul_monty hp hg
    · rw [pow_succ]
      exact hx2.montymul_monty hp hig

/-- **The tables** of the powers of the generator and of its inverse. -/
theorem modpMkgm2_spec (hp : Modulus31 p p0i) (gm igm : Poly32) {g : UInt32}
    (hg : Residue p g γ) :
    Rep32 p (modpMkgm2 gm igm 10 g p p0i).1 (fun v => γ ^ bitRev 10 v * (radix31 : ℕ)) ∧
      Rep32 p (modpMkgm2 gm igm 10 g p p0i).2 (fun v => γ⁻¹ ^ bitRev 10 v * (radix31 : ℕ)) := by
  have hmonty := hg.montymul_right hp (residue_modpR2 hp)
  have hinv := (residue_modpR2 hp).div hp hmonty
  have hval : ((radix31 : ℕ) : ZMod p.toNat) * (radix31 : ℕ) / (γ * (radix31 : ℕ)) =
      γ⁻¹ * (radix31 : ℕ) := by
    rw [mul_div_mul_right _ _ (radix31_ne_zero hp), div_eq_inv_mul]
  rw [hval] at hinv
  have hloop := (mkgm2_loop hp gm igm hmonty hinv (n := 1 <<< 10) le_rfl).1
  have hat : ∀ v < 1024, bitRev 10 v < 1 <<< 10 := fun v hv => bitRev_lt (L := 10) hv
  -- For ten layers the generator is not squared.
  simp only [modpMkgm2, Nat.sub_self, List.range_zero, List.foldl_nil]
  refine ⟨fun v hv => ?_, fun v hv => ?_⟩
  · have hentry := (hloop (bitRev 10 v) (hat v hv)).1
    rwa [bitRev_bitRev (L := 10) hv] at hentry
  · have hentry := (hloop (bitRev 10 v) (hat v hv)).2
    rwa [bitRev_bitRev (L := 10) hv] at hentry

/-- A butterfly replaces a pair. -/
theorem Rep32.ntt2Butterfly (hp : Modulus31 p p0i) {a : Poly32} {c b : ℕ → ZMod p.toNat}
    (ha : Rep32 p a c) {s : UInt32} {ζ : ZMod p.toNat} (hs : Residue p s (ζ * (radix31 : ℕ)))
    {v1 ht v : ℕ} (hlt : v1 + v + ht < 1024)
    (hleft : b (v1 + v) = c (v1 + v) + ζ * c (v1 + v + ht))
    (hright : b (v1 + v + ht) = c (v1 + v) - ζ * c (v1 + v + ht)) :
    Rep32 p (ntt2Butterfly s p p0i v1 ht a v) fun i =>
      if i = v1 + v ∨ i = v1 + v + ht then b i else c i := by
  have hx := ha (v1 + v) (by omega)
  have hy := (ha (v1 + v + ht) hlt).montymul_right hp hs
  rw [mul_comm _ ζ] at hy
  intro i hi
  beta_reduce
  rw [FalconVanity.ntt2Butterfly, Words.getElem!_set! _ hi]
  by_cases h₂ : v1 + v + ht = i
  · rw [if_pos h₂, if_pos (.inr h₂.symm), ← h₂, hright]
    exact hx.sub hp hy
  · rw [if_neg h₂, Words.getElem!_set! _ hi]
    by_cases h₁ : v1 + v = i
    · rw [if_pos h₁, if_pos (.inl h₁.symm), ← h₁, hleft]
      exact hx.add hp hy
    · rw [if_neg h₁, if_neg (by omega)]
      exact ha i hi

/-- A layer of the transform. -/
theorem Rep32.ntt2Layer (hp : Modulus31 p p0i) {gm a : Poly32} {c ζ : ℕ → ZMod p.toNat}
    (ha : Rep32 p a c) (hgm : Rep32 p gm fun v => ζ v * (radix31 : ℕ)) {m h : ℕ} (hh : 0 < h)
    (hm : m * (2 * h) = 1024) :
    Rep32 p (ntt2Layer gm p p0i m (2 * h) a) (layer ζ m h c) := by
  have hhalf : (2 * h) >>> 1 = h := by
    rw [Nat.shiftRight_eq_div_pow]
    omega
  rw [FalconVanity.ntt2Layer, hhalf]
  have hrun : Rep32 p ((List.range m).foldl (fun a u => (List.range h).foldl
      (FalconVanity.ntt2Butterfly gm[m + u]! p p0i (u * (2 * h)) h) a) a)
      (progress h m 0 c (layer ζ m h c)) := by
    refine foldl_inPlace (Rep32 p) hh (fun i hi r hr s d hs hl hr' => ?_) ha
    have hblock : (i + 1) * (2 * h) ≤ m * (2 * h) := Nat.mul_le_mul_right _ hi
    rw [Nat.succ_mul, hm] at hblock
    refine hs.ntt2Butterfly hp (hgm (m + i) ?_) (by omega) ?_ ?_
    · have hle : m + m ≤ m * (2 * h) := by
        rw [← Nat.mul_two]
        exact Nat.mul_le_mul_left _ (by omega)
      omega
    · rw [layer_left _ _ _ hr, hl, hr']
    · rw [layer_right _ _ _ hr, hl, hr']
  intro i hi
  rw [← progress_done (a := c) (b := layer ζ m h c) (hm ▸ hi)]
  exact hrun i hi

/-- **The transform**, by the twiddle factors that the table holds. -/
theorem modpNTT2_spec (hp : Modulus31 p p0i) {T : Twiddles (ZMod p.toNat) 10} {gm a : Poly32}
    {c : ℕ → ZMod p.toNat} (hgm : Rep32 p gm fun v => T.ζ v * (radix31 : ℕ)) (ha : Rep32 p a c) :
    Rep32 p (modpNTT2 a gm 10 p p0i) (forward T c 10) := by
  refine foldl_range_inv (fun k a => Rep32 p a (forward T c k)) ha fun k hk a ha => ?_
  obtain ⟨hprod, hdouble, -⟩ := pow_split hk
  have hm : 1 <<< k = 2 ^ k := Nat.one_shiftLeft k
  have ht : 1 <<< (10 - k) = 2 * 2 ^ (10 - k - 1) := (Nat.one_shiftLeft _).trans hdouble
  rw [hm, ht]
  exact ha.ntt2Layer hp hgm (Nat.two_pow_pos _) hprod

end Transform

end FalconVanity
