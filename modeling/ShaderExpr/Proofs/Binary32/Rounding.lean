import Mathlib.Algebra.Order.Field.Power
import Mathlib.Algebra.Order.Field.Rat
import Mathlib.Tactic.FieldSimp
import Mathlib.Tactic.Linarith
import Mathlib.Tactic.NormNum
import Mathlib.Tactic.Positivity
import Mathlib.Tactic.Ring
import ShaderExpr.Binary32.Shortest

/-!
# Rounding goes to the nearest number

Rounding a quotient is done on naturals: an exponent is found from lengths in bits, the quotient is
scaled by it and divided with ties to even. Here the same steps are read over the rationals, where a
scaled quotient is a quotient divided by a power of two.

* **`binaryExponent_spec`** — the exponent that is found is that of the binade of the quotient.
* **`divNearestEven_eq`** — the division gives the only natural that the quotient is nearest to.
* **`InInterval`** — the rounding interval of `m * 2 ^ q` as a set of rationals, narrower below a power
  of two.
* **`round_eq_encode`** — a quotient inside the rounding interval of a number rounds to that number,
  also where the interval reaches into the binade below.
* **`encode_decode`**, **`canonical_decode`** — patterns of finite numbers and their coefficients and
  exponents are the same thing.
-/

namespace ShaderExpr.BinaryFormat

/-! ## Quotients scaled by a power of two -/

/-- Moving a power of two to the numerator or to the denominator, whichever keeps naturals, divides
the quotient by it. -/
theorem ratio_scaled (n d : Nat) (e : Int) :
    ((n * 2 ^ (-e).toNat : Nat) : ℚ) / ((d * 2 ^ e.toNat : Nat) : ℚ) = (n / d : ℚ) / 2 ^ e := by
  rcases le_total 0 e with he | he
  · rw [show (-e).toNat = 0 by omega]
    obtain ⟨k, rfl⟩ := Int.eq_ofNat_of_zero_le he
    push_cast
    simp [div_div]
  · rw [show e.toNat = 0 by omega]
    obtain ⟨k, hk⟩ := Int.eq_ofNat_of_zero_le (show 0 ≤ -e by omega)
    rw [hk, show e = -(k : Int) by omega]
    push_cast
    simp [zpow_neg]
    ring

theorem two_zpow_lt_iff {a b : Int} : (2 : ℚ) ^ a < 2 ^ b ↔ a < b :=
  zpow_lt_zpow_iff_right₀ (by norm_num)

theorem two_pow_mul_zpow (k : Nat) (q : Int) : (2 : ℚ) ^ k * 2 ^ q = 2 ^ (q + k) := by
  rw [zpow_add₀ (by norm_num), zpow_natCast, mul_comm]

/-- The lengths in bits give the binade of a quotient up to one: each of the two numbers lies between its
leading power of two and the next. -/
theorem two_zpow_log2_lt_div {n d : Nat} (hn : 0 < n) (hd : 0 < d) :
    (2 : ℚ) ^ ((n.log2 : Int) - d.log2 - 1) < n / d ∧
      (n / d : ℚ) < 2 ^ ((n.log2 : Int) - d.log2 + 1) := by
  have hn₁ : (2 : ℚ) ^ n.log2 ≤ n := by exact_mod_cast Nat.log2_self_le hn.ne'
  have hn₂ : (n : ℚ) < 2 ^ (n.log2 + 1) := by exact_mod_cast Nat.lt_log2_self
  have hd₁ : (2 : ℚ) ^ d.log2 ≤ d := by exact_mod_cast Nat.log2_self_le hd.ne'
  have hd₂ : (d : ℚ) < 2 ^ (d.log2 + 1) := by exact_mod_cast Nat.lt_log2_self
  have hd₀ : (0 : ℚ) < d := by exact_mod_cast hd
  constructor
  · -- the numerator at its least over the denominator at its greatest
    rw [lt_div_iff₀ hd₀,
      show (n.log2 : Int) - d.log2 - 1 = (n.log2 : Int) - (d.log2 + 1 : Nat) by push_cast; ring,
      zpow_sub₀ (by norm_num), zpow_natCast, zpow_natCast, div_mul_eq_mul_div,
      div_lt_iff₀ (by positivity)]
    calc (2 : ℚ) ^ n.log2 * d < 2 ^ n.log2 * 2 ^ (d.log2 + 1) := by gcongr
      _ ≤ n * 2 ^ (d.log2 + 1) := by gcongr
  · -- and the other way round
    rw [div_lt_iff₀ hd₀,
      show (n.log2 : Int) - d.log2 + 1 = ((n.log2 + 1 : Nat) : Int) - d.log2 by push_cast; ring,
      zpow_sub₀ (by norm_num), zpow_natCast, zpow_natCast, div_mul_eq_mul_div,
      lt_div_iff₀ (by positivity)]
    calc (n : ℚ) * 2 ^ d.log2 < 2 ^ (n.log2 + 1) * 2 ^ d.log2 := by gcongr
      _ ≤ 2 ^ (n.log2 + 1) * d := by gcongr

/-- The exponent that is found is that of the binade of the quotient. The lengths leave two candidates, and
one comparison of naturals tells which it is. -/
theorem binaryExponent_spec {n d : Nat} (hn : 0 < n) (hd : 0 < d) :
    (2 : ℚ) ^ binaryExponent n d ≤ n / d ∧ (n / d : ℚ) < 2 ^ (binaryExponent n d + 1) := by
  obtain ⟨hlow, hhigh⟩ := two_zpow_log2_lt_div hn hd
  unfold binaryExponent
  simp only [Nat.pow_eq]
  set e : Int := (n.log2 : Int) - (d.log2 : Int)
  -- the test on naturals compares the quotient with the power of two of the first guess
  have hcompare : n * 2 ^ (-e).toNat < d * 2 ^ e.toNat ↔ (n / d : ℚ) < 2 ^ e := by
    have hden : (0 : ℚ) < ((d * 2 ^ e.toNat : Nat) : ℚ) := by positivity
    rw [← div_lt_one (by positivity : (0 : ℚ) < 2 ^ e), ← ratio_scaled, div_lt_one hden]
    exact Nat.cast_lt.symm
  split
  · next h => exact ⟨hlow.le, by rw [sub_add_cancel]; exact hcompare.mp h⟩
  · next h => exact ⟨not_lt.mp (mt hcompare.mpr h), hhigh⟩

/-! ## The nearest natural -/

/-- A rational is nearest to a natural; from the middle it goes to an even one only. -/
def Nearest (m : Nat) (x : ℚ) : Prop :=
  (m : ℚ) - 1 / 2 ≤ x ∧ x ≤ m + 1 / 2 ∧ (m % 2 = 1 → (m : ℚ) - 1 / 2 < x ∧ x < m + 1 / 2)

/-- The same with the denominator multiplied out, on naturals, where the division is done. -/
theorem nearest_div_iff {n d m : Nat} (hd : 0 < d) :
    Nearest m (n / d) ↔ 2 * (m * d) ≤ 2 * n + d ∧ 2 * n ≤ 2 * (m * d) + d ∧
      (m % 2 = 1 → 2 * (m * d) < 2 * n + d ∧ 2 * n < 2 * (m * d) + d) := by
  have hd' : (0 : ℚ) < d := by exact_mod_cast hd
  unfold Nearest
  rw [le_div_iff₀ hd', div_le_iff₀ hd', lt_div_iff₀ hd', div_lt_iff₀ hd']
  simp only [← Nat.cast_le (α := ℚ), ← Nat.cast_lt (α := ℚ), Nat.cast_add, Nat.cast_mul,
    Nat.cast_ofNat]
  constructor
  · rintro ⟨hlow, hhigh, hodd⟩
    exact ⟨by linarith, by linarith, fun h => ⟨by linarith [(hodd h).1], by linarith [(hodd h).2]⟩⟩
  · rintro ⟨hlow, hhigh, hodd⟩
    exact ⟨by linarith, by linarith, fun h => ⟨by linarith [(hodd h).1], by linarith [(hodd h).2]⟩⟩

/-- Division with ties to even gives the natural that a quotient is nearest to. There is only one: the
quotient rounded down or the next, and the remainder tells which. -/
theorem divNearestEven_eq {n d m : Nat} (hd : 0 < d) (h : Nearest m (n / d)) :
    divNearestEven n d = m := by
  obtain ⟨hlow, hhigh, hodd⟩ := (nearest_div_iff hd).mp h
  unfold divNearestEven
  simp only
  have hdiv := Nat.div_add_mod n d
  have hr := Nat.mod_lt n hd
  set k := n / d
  set r := n % d
  rw [Nat.mul_comm d k] at hdiv
  -- `m` is the quotient or the next number
  have hkm : k ≤ m := by
    by_contra hlt
    have hmul : (m + 1) * d ≤ k * d := Nat.mul_le_mul_right d (by omega)
    rw [Nat.add_mul] at hmul
    omega
  have hmk : m ≤ k + 1 := by
    by_contra hlt
    have hmul : (k + 2) * d ≤ m * d := Nat.mul_le_mul_right d (by omega)
    rw [Nat.add_mul] at hmul
    omega
  rcases (by omega : m = k ∨ m = k + 1) with rfl | rfl
  · split
    · rfl
    · split <;> omega
  · rw [Nat.add_mul] at hlow hhigh hodd
    split
    · omega
    · split <;> omega

/-- A quotient is nearest to what division with ties to even gives. -/
theorem nearest_divNearestEven (n : Nat) {d : Nat} (hd : 0 < d) :
    Nearest (divNearestEven n d) (n / d) := by
  rw [nearest_div_iff hd]
  unfold divNearestEven
  simp only
  have hdiv := Nat.div_add_mod n d
  have hr := Nat.mod_lt n hd
  generalize n / d = k at *
  generalize n % d = r at *
  rw [Nat.mul_comm d k] at hdiv
  split
  · omega
  · split
    · rw [Nat.add_mul]
      omega
    · -- from the middle, to whichever of the two is even
      rcases Nat.mod_two_eq_zero_or_one k with hk | hk
      · rw [hk, Nat.add_zero]
        omega
      · rw [hk, Nat.add_mul]
        omega

/-! ## Patterns of single precision -/

/-- Where the grid is known, rounding takes the nearest coefficient on it. The scaling that it does on
naturals divides the quotient by the step of the grid. -/
theorem round_eq_of_nearest {n d m : Nat} {q : Int} (hn : 0 < n) (hd : 0 < d)
    (hq : max (-149) (binaryExponent n d - 23) = q) (h : Nearest m (n / d / 2 ^ q)) :
    single.round n d = single.encode m q := by
  have hgrid : max single.least (binaryExponent n d - (single.precision - 1)) = q := by
    rw [← hq]
    norm_num [single]
  unfold round
  rw [if_neg hn.ne']
  simp only [hgrid, Nat.pow_eq]
  rw [divNearestEven_eq (by positivity)]
  rw [ratio_scaled]
  exact h

/-- A coefficient that reaches the next power of two carries into the exponent: the pattern is the same,
because the fields of the exponent and of the coefficient are added. -/
theorem encode_carry {q : Int} (hq : -149 < q) :
    single.encode (2 ^ 24) (q - 1) = single.encode (2 ^ 23) q := by
  have hexp : (q - single.least).toNat = (q - 1 - single.least).toNat + 1 := by
    simp only [single]
    omega
  unfold encode
  rw [Nat.pow_eq, hexp, Nat.add_mul, Nat.one_mul, Nat.add_assoc, show single.precision - 1 = 23 from rfl,
    ← Nat.two_mul, ← Nat.pow_succ']

/-- `m * 2 ^ q` is a positive number of single precision with the coefficient and the exponent that
its pattern has: a coefficient of full length unless the exponent is the least. -/
structure Canonical (m : Nat) (q : Int) : Prop where
  pos : 0 < m
  lt : m < 2 ^ 24
  least_le : -149 ≤ q
  normal : -149 < q → 2 ^ 23 ≤ m

/-- The coefficient and the exponent of a pattern have full length, or the exponent is the least. -/
theorem canonical_decode {pattern : Nat} (h : 0 < pattern) :
    Canonical (single.decode pattern).1 (single.decode pattern).2 := by
  unfold decode
  simp only [Nat.pow_eq, show single.precision - 1 = 23 from rfl, show single.least = -149 from rfl]
  have hmod : pattern % 2 ^ 23 < 2 ^ 23 := Nat.mod_lt _ (by norm_num)
  split
  · -- no exponent field: a subnormal number, whose coefficient is the whole pattern
    next hzero =>
      have hlt : pattern < 2 ^ 23 := (Nat.div_eq_zero_iff_lt (by norm_num)).mp hzero
      exact ⟨h, by omega, le_refl _, fun hlt => absurd hlt (lt_irrefl _)⟩
  · exact ⟨by omega, by omega, by omega, fun _ => by omega⟩

/-- A pattern below that of infinity is put together again from its coefficient and its exponent, subnormal
numbers included. -/
theorem encode_decode {pattern : Nat} (h : pattern < single.infinity) :
    single.encode (single.decode pattern).1 (single.decode pattern).2 = pattern := by
  have hdiv := Nat.div_add_mod pattern (2 ^ 23)
  unfold encode decode
  simp only [Nat.pow_eq, show single.precision - 1 = 23 from rfl]
  split
  · rw [show single.least - single.least = 0 by ring, Int.toNat_zero, Nat.zero_mul, Nat.zero_add]
    exact Nat.min_eq_right h.le
  · next hpos =>
      -- the hidden bit that decoding added is carried into the exponent field
      obtain ⟨t, ht⟩ : ∃ t, pattern / 2 ^ 23 = t + 1 := ⟨pattern / 2 ^ 23 - 1, by omega⟩
      have hexp : (single.least + ((t + 1 : Nat) : Int) - 1 - single.least).toNat = t := by
        rw [show single.least + ((t + 1 : Nat) : Int) - 1 - single.least = t by push_cast; ring,
          Int.toNat_natCast]
      rw [ht, Nat.mul_comm, Nat.add_mul] at hdiv
      rw [ht, hexp, show t * 2 ^ 23 + (pattern % 2 ^ 23 + 2 ^ 23) = pattern by linarith]
      exact Nat.min_eq_right h.le

end ShaderExpr.BinaryFormat

namespace ShaderExpr.Binary32

open BinaryFormat

/-! ## The rounding interval

The ends of the interval are given in quarters of the last place. Away from a power of two they are half
a place away on both sides; below a power of two the lower end is only a quarter of a place away, which
is half a place of the binade below. -/

/-- A rational lies in the rounding interval of `m * 2 ^ q`; the ends are inside iff `m` is even. -/
def InInterval (m : Nat) (q : Int) (x : ℚ) : Prop :=
  lowerEnd m q * (2 : ℚ) ^ (q - 2) ≤ x ∧ x ≤ upperEnd m * (2 : ℚ) ^ (q - 2) ∧
    (m % 2 = 1 → lowerEnd m q * (2 : ℚ) ^ (q - 2) < x ∧ x < upperEnd m * (2 : ℚ) ^ (q - 2))

theorem two_zpow_sub_two (q : Int) : (2 : ℚ) ^ (q - 2) = 2 ^ q / 4 := by
  rw [zpow_sub₀ (by norm_num)]
  norm_num

/-- The upper end is half a place above the number. -/
theorem upperEnd_mul (m : Nat) (q : Int) :
    (upperEnd m : ℚ) * 2 ^ (q - 2) = (m + 1 / 2) * 2 ^ q := by
  rw [two_zpow_sub_two, upperEnd]
  push_cast
  ring

/-- Away from a power of two the lower end is half a place below the number. -/
theorem lowerEnd_mul {m : Nat} {q : Int} (hm : 0 < m) (h : ¬ (m = 2 ^ 23 ∧ -149 < q)) :
    (lowerEnd m q : ℚ) * 2 ^ (q - 2) = (m - 1 / 2) * 2 ^ q := by
  rw [two_zpow_sub_two, lowerEnd, Nat.pow_eq, if_neg h, Nat.cast_sub (by omega)]
  push_cast
  ring

/-- Below a power of two the lower end is half a place of the binade below it. -/
theorem lowerEnd_mul_of_power {q : Int} (h : -149 < q) :
    (lowerEnd (2 ^ 23) q : ℚ) * 2 ^ (q - 2) = (2 ^ 24 - 1 / 2) * 2 ^ (q - 1) := by
  rw [two_zpow_sub_two, lowerEnd, if_pos ⟨rfl, h⟩, zpow_sub₀ (by norm_num)]
  norm_num
  ring

/-- Even the least number has a positive lower end, so zero is in no interval. -/
theorem lowerEnd_mul_pos {m : Nat} (q : Int) (hm : 0 < m) :
    0 < (lowerEnd m q : ℚ) * 2 ^ (q - 2) := by
  have hpos : 0 < lowerEnd m q := by
    unfold lowerEnd
    split <;> omega
  positivity

/-- A quotient in an interval is not zero, which rounding treats apart. -/
theorem InInterval.num_pos {m n d : Nat} {q : Int} (hm : 0 < m) (h : InInterval m q (n / d)) :
    0 < n := by
  have hx : (0 : ℚ) < n / d := (lowerEnd_mul_pos q hm).trans_le h.1
  rcases Nat.eq_zero_or_pos n with rfl | hn
  · simp at hx
  · exact hn

/-- Away from a power of two, being in the interval is being nearest to the coefficient: the ends are the
same after division by the last place. -/
theorem InInterval.nearest {m : Nat} {q : Int} {x : ℚ} (hm : 0 < m)
    (hne : ¬ (m = 2 ^ 23 ∧ -149 < q)) (h : InInterval m q x) : Nearest m (x / 2 ^ q) := by
  unfold InInterval at h
  rw [lowerEnd_mul hm hne, upperEnd_mul] at h
  have hp : (0 : ℚ) < 2 ^ q := by positivity
  unfold Nearest
  rw [le_div_iff₀ hp, div_le_iff₀ hp, lt_div_iff₀ hp, div_lt_iff₀ hp]
  exact h

/-! ## Rounding a quotient inside the interval -/

/-- No quotient in the interval reaches the binade above that of the number: the upper end is half a place
above the greatest coefficient. -/
theorem InInterval.binaryExponent_lt {m n d : Nat} {q : Int} (hc : Canonical m q) (hd : 0 < d)
    (h : InInterval m q (n / d)) : binaryExponent n d < q + 24 := by
  have hm : (m : ℚ) + 1 ≤ 2 ^ 24 := by exact_mod_cast hc.lt
  have hlow := (binaryExponent_spec (h.num_pos hc.pos) hd).1
  have hup : (n / d : ℚ) < 2 ^ (q + 24) := by
    calc (n / d : ℚ) ≤ (m + 1 / 2) * 2 ^ q := by rw [← upperEnd_mul]; exact h.2.1
      _ < 2 ^ 24 * 2 ^ q := by gcongr; linarith
      _ = 2 ^ (q + 24) := two_pow_mul_zpow 24 q
  exact two_zpow_lt_iff.mp (hlow.trans_lt hup)

/-- A lower bound `c * 2 ^ p` with `2 ^ j ≤ c` puts a quotient into the binade of `2 ^ (p + j)` or
above it. -/
theorem le_binaryExponent {n d j : Nat} {p : Int} {c : ℚ} (hn : 0 < n) (hd : 0 < d)
    (hc : (2 : ℚ) ^ j ≤ c) (h : c * 2 ^ p ≤ n / d) : p + j ≤ binaryExponent n d := by
  have hlt : (2 : ℚ) ^ (p + j) < 2 ^ (binaryExponent n d + 1) := by
    calc (2 : ℚ) ^ (p + j) = 2 ^ j * 2 ^ p := (two_pow_mul_zpow j p).symm
      _ ≤ c * 2 ^ p := by gcongr
      _ ≤ n / d := h
      _ < 2 ^ (binaryExponent n d + 1) := (binaryExponent_spec hn hd).2
  have := two_zpow_lt_iff.mp hlt
  omega

/-- Away from a power of two the whole interval lies on the grid of the number, so the nearest coefficient
on the grid of the quotient is that of the number. -/
theorem round_eq_encode_of_not_power {m n d : Nat} {q : Int} (hc : Canonical m q) (hd : 0 < d)
    (hne : ¬ (m = 2 ^ 23 ∧ -149 < q)) (h : InInterval m q (n / d)) :
    single.round n d = single.encode m q := by
  have hn := h.num_pos hc.pos
  have hlt := h.binaryExponent_lt hc hd
  have hleast := hc.least_le
  refine round_eq_of_nearest hn hd ?_ (h.nearest hc.pos hne)
  -- the grid: the least exponent, or the binade of the number, which the lower end does not leave
  rcases eq_or_lt_of_le hleast with hq | hq
  · omega
  · have hnormal := hc.normal hq
    have hm : (2 : ℚ) ^ 23 + 1 ≤ m := by exact_mod_cast (by omega : 2 ^ 23 + 1 ≤ m)
    have hlow := h.1
    rw [lowerEnd_mul hc.pos hne] at hlow
    have hge := le_binaryExponent hn hd (by linarith : (2 : ℚ) ^ 23 ≤ m - 1 / 2) hlow
    push_cast at hge
    omega

/-- At a power of two the part of the interval below it lies on the finer grid of the binade below, where
the nearest coefficient is too large by one bit and carries back. -/
theorem round_eq_encode_of_power {n d : Nat} {q : Int} (hq : -149 < q) (hd : 0 < d)
    (h : InInterval (2 ^ 23) q (n / d)) : single.round n d = single.encode (2 ^ 23) q := by
  have hc : Canonical (2 ^ 23) q := ⟨by norm_num, by norm_num, by omega, fun _ => le_refl _⟩
  have hn := h.num_pos hc.pos
  have hlt := h.binaryExponent_lt hc hd
  obtain ⟨hlow, hhigh⟩ := binaryExponent_spec hn hd
  rcases le_or_gt (q + 23) (binaryExponent n d) with hge | hbelow
  · -- at or above the power of two: the grid of the number, where it is nearest
    have hp : (0 : ℚ) < 2 ^ q := by positivity
    have hlow' : (2 : ℚ) ^ 23 * 2 ^ q ≤ n / d := by
      rw [two_pow_mul_zpow]
      exact (zpow_le_zpow_right₀ (by norm_num) (by push_cast; omega)).trans hlow
    have hhigh' := h.2.1
    rw [upperEnd_mul] at hhigh'
    refine round_eq_of_nearest hn hd (by omega)
      ⟨?_, (div_le_iff₀ hp).mpr hhigh', fun hodd => by norm_num at hodd⟩
    rw [le_div_iff₀ hp]
    push_cast
    linarith
  · -- below it: the finer grid, where `2 ^ 24` is nearest and carries
    have hp : (0 : ℚ) < 2 ^ (q - 1) := by positivity
    have hlow' := h.1
    rw [lowerEnd_mul_of_power hq] at hlow'
    have hge := le_binaryExponent hn hd (by norm_num : (2 : ℚ) ^ 23 ≤ 2 ^ 24 - 1 / 2) hlow'
    push_cast at hge
    have hhigh' : (n / d : ℚ) < 2 ^ 24 * 2 ^ (q - 1) := by
      rw [two_pow_mul_zpow]
      exact hhigh.trans_le (zpow_le_zpow_right₀ (by norm_num) (by push_cast; omega))
    rw [← encode_carry hq]
    refine round_eq_of_nearest hn hd (by omega) ⟨?_, ?_, fun hodd => by norm_num at hodd⟩
    · rw [le_div_iff₀ hp]
      push_cast
      exact hlow'
    · rw [div_le_iff₀ hp]
      push_cast
      linarith

/-- **Rounding finds the number whose interval a quotient lies in.** Powers of two, below which the grid
changes, are treated apart. -/
theorem round_eq_encode {m n d : Nat} {q : Int} (hc : Canonical m q) (hd : 0 < d)
    (h : InInterval m q (n / d)) : single.round n d = single.encode m q := by
  by_cases hpower : m = 2 ^ 23 ∧ -149 < q
  · obtain ⟨rfl, hq⟩ := hpower
    exact round_eq_encode_of_power hq hd h
  · exact round_eq_encode_of_not_power hc hd hpower h

end ShaderExpr.Binary32
