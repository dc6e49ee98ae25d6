import ShaderExpr.Proofs.Binary32.Rounding

/-!
# Rounding is rounding to nearest, ties to even

Rounding was read so far from a number to the quotients of its interval. Here it is read the other way: a
quotient that rounds to a number lies in the interval of the number, whose ends are the middles between it and
its two neighbours. So rounding gives the number that no other number is nearer to than, and from a middle
the one with the even coefficient, whatever the exponent of the other would be.

* **`inInterval_of_round_eq`** — a quotient lies in the interval of the number it rounds to.
* **`Representable.le_below_or_above_le`** — no number lies between a number and its neighbours.
* **`NearestEven`** — a number is nearest to a rational, ties to even.
* **`round_eq_magnitude_iff`** — rounding a quotient gives the pattern of a finite number exactly if the
  number is nearest to it.
-/

namespace ShaderExpr.BinaryFormat

/-! ## The coefficient that rounding takes -/

/-- The exponent of the grid that a quotient is rounded on: that of its binade, or the least. -/
def gridExponent (n d : Nat) : Int := max (-149) (binaryExponent n d - 23)

/-- Rounding takes the nearest coefficient on the grid of the quotient, which may still have one bit too
many. -/
theorem exists_nearest_round {n d : Nat} {q : Int} (hn : 0 < n) (hd : 0 < d)
    (hq : gridExponent n d = q) :
    ∃ m, Nearest m (n / d / 2 ^ q) ∧ single.round n d = single.encode m q := by
  have hnearest := nearest_divNearestEven (n * 2 ^ (-q).toNat)
    (Nat.mul_pos hd (Nat.two_pow_pos q.toNat))
  rw [ratio_scaled] at hnearest
  exact ⟨_, hnearest, round_eq_of_nearest hn hd hq hnearest⟩

/-- The nearest natural is not below a natural that is not above. -/
theorem Nearest.le {m k : Nat} {x : ℚ} (h : Nearest m x) (hk : (k : ℚ) ≤ x) : k ≤ m := by
  have hlt : (k : ℚ) < m + 1 := by linarith [h.2.1]
  exact Nat.lt_succ_iff.mp (by exact_mod_cast hlt)

/-- The nearest natural is not above a natural that is above. -/
theorem Nearest.le_of_lt {m k : Nat} {x : ℚ} (h : Nearest m x) (hk : x < k) : m ≤ k := by
  have hlt : (m : ℚ) < k + 1 := by linarith [h.1]
  exact Nat.lt_succ_iff.mp (by exact_mod_cast hlt)

/-- A canonical coefficient and exponent are read off their pattern again. -/
theorem decode_encode {m : Nat} {q : Int} (hc : Canonical m q)
    (h : single.encode m q < single.infinity) : single.decode (single.encode m q) = (m, q) := by
  obtain ⟨e, rfl⟩ : ∃ e : Nat, q = e - 149 := ⟨(q + 149).toNat, by have := hc.least_le; omega⟩
  have hcode : single.encode m (e - 149) = e * 2 ^ 23 + m := by
    unfold encode at h ⊢
    rw [Nat.pow_eq, show ((e : Int) - 149 - single.least).toNat = e by simp only [single]; omega,
      show single.precision - 1 = 23 from rfl] at h ⊢
    exact Nat.min_eq_right (by omega)
  have hlt := hc.lt
  rw [hcode]
  unfold decode
  simp only [Nat.pow_eq, show single.precision - 1 = 23 from rfl, show single.least = -149 from rfl]
  rcases Nat.eq_zero_or_pos e with rfl | he
  · -- the least exponent, with or without the hidden bit
    rw [Nat.zero_mul, Nat.zero_add]
    split
    · rfl
    · next hne =>
        have hle : 2 ^ 23 ≤ m := Nat.not_lt.mp fun hlt => hne (Nat.div_eq_of_lt hlt)
        ext <;> simp only <;> omega
  · have hnormal := hc.normal (by omega)
    rw [if_neg (by omega)]
    ext <;> simp only <;> omega

end ShaderExpr.BinaryFormat

namespace ShaderExpr.Binary32

open BinaryFormat

/-! ## From a rounded quotient to the interval -/

/-- A quotient with a nearest coefficient on its own grid is in the interval of the number. At a power of
two the interval is narrower below, but there a quotient on this grid is not below the number. -/
theorem inInterval_of_nearest {m : Nat} {q : Int} {v : ℚ} (hm : 0 < m) (h : Nearest m (v / 2 ^ q))
    (hnormal : -149 < q → (2 : ℚ) ^ 23 ≤ v / 2 ^ q) : InInterval m q v := by
  have hp : (0 : ℚ) < 2 ^ q := by positivity
  obtain ⟨hlow, hhigh, hodd⟩ := h
  rw [le_div_iff₀ hp] at hlow hnormal
  rw [div_le_iff₀ hp] at hhigh
  rw [lt_div_iff₀ hp, div_lt_iff₀ hp] at hodd
  by_cases hpower : m = 2 ^ 23 ∧ -149 < q
  · -- at a power of two the quotient is not below it
    obtain ⟨rfl, hq⟩ := hpower
    have hge := hnormal hq
    refine ⟨?_, by rw [upperEnd_mul]; exact hhigh, fun h => by norm_num at h⟩
    rw [two_zpow_sub_two, lowerEnd, if_pos ⟨rfl, hq⟩]
    norm_num at hge ⊢
    linarith
  · unfold InInterval
    rw [lowerEnd_mul hm hpower, upperEnd_mul]
    exact ⟨hlow, hhigh, hodd⟩

/-- A quotient whose coefficient carries is in the interval of the power of two that it carries to, in the
narrower part below it. -/
theorem inInterval_of_nearest_carry {q : Int} {v : ℚ} (hq : -149 ≤ q)
    (h : Nearest (2 ^ 24) (v / 2 ^ q)) (hlt : v / 2 ^ q < 2 ^ 24) : InInterval (2 ^ 23) (q + 1) v := by
  have hp : (0 : ℚ) < 2 ^ q := by positivity
  have hlow := h.1
  rw [le_div_iff₀ hp] at hlow
  rw [div_lt_iff₀ hp] at hlt
  refine ⟨?_, ?_, fun h => by norm_num at h⟩
  · rw [lowerEnd_mul_of_power (by omega), add_sub_cancel_right]
    push_cast at hlow
    exact hlow
  · rw [upperEnd_mul, zpow_add_one₀ (by norm_num)]
    push_cast
    linarith

/-- The number that a quotient rounds to, unless it is zero: canonical, with the quotient in its interval.
The coefficient that rounding takes has full length, or one bit more and then carries. -/
theorem exists_canonical_round {n d : Nat} (hn : 0 < n) (hd : 0 < d) (h : 0 < single.round n d) :
    ∃ m q, Canonical m q ∧ InInterval m q (n / d) ∧ single.round n d = single.encode m q := by
  obtain ⟨hlow, hhigh⟩ := binaryExponent_spec hn hd
  generalize hq : gridExponent n d = q
  obtain ⟨m, hnearest, hround⟩ := exists_nearest_round hn hd hq
  unfold gridExponent at hq
  have hp : (0 : ℚ) < 2 ^ q := by positivity
  -- on its grid the quotient has at most 24 bits before the point, and at least 24 unless the exponent is
  -- the least
  have hlt : (n / d / 2 ^ q : ℚ) < 2 ^ 24 := by
    rw [div_lt_iff₀ hp, two_pow_mul_zpow]
    exact hhigh.trans_le (zpow_le_zpow_right₀ (by norm_num) (by push_cast; omega))
  have hnormal : -149 < q → (2 : ℚ) ^ 23 ≤ n / d / 2 ^ q := by
    intro hleast
    rw [le_div_iff₀ hp, two_pow_mul_zpow]
    exact (zpow_le_zpow_right₀ (by norm_num) (by push_cast; omega)).trans hlow
  have hle : m ≤ 2 ^ 24 := hnearest.le_of_lt (by exact_mod_cast hlt)
  have hnormal' : -149 < q → 2 ^ 23 ≤ m := fun h => hnearest.le (by exact_mod_cast hnormal h)
  -- a coefficient of zero has the least exponent and the pattern zero
  have hpos : 0 < m := by
    rcases Nat.eq_zero_or_pos m with rfl | hpos
    · have hleast : q = -149 := by
        by_contra hne
        exact absurd (hnormal' (by omega)) (by norm_num)
      rw [hround, hleast] at h
      exact absurd h (by decide)
    · exact hpos
  -- either the coefficient fits, or it is the power of two that carries
  rcases Nat.lt_or_eq_of_le hle with hlt24 | rfl
  · exact ⟨m, q, ⟨hpos, hlt24, by omega, hnormal'⟩, inInterval_of_nearest hpos hnearest hnormal,
      hround⟩
  · refine ⟨2 ^ 23, q + 1, ⟨by norm_num, by norm_num, by omega, fun _ => le_refl _⟩,
      inInterval_of_nearest_carry (by omega) hnearest hlt, ?_⟩
    rw [hround, ← encode_carry (by omega), add_sub_cancel_right]

/-- **A quotient lies in the interval of the number it rounds to.** This is the converse of the lemma that a
quotient in the interval rounds to the number. -/
theorem inInterval_of_round_eq {n d pattern : Nat} (hd : 0 < d) (hpos : 0 < pattern)
    (hfinite : pattern < single.infinity) (h : single.round n d = pattern) :
    InInterval (single.decode pattern).1 (single.decode pattern).2 (n / d) := by
  have hn : 0 < n := by
    rcases Nat.eq_zero_or_pos n with rfl | hn
    · exact absurd (h.symm.trans (if_pos rfl)) hpos.ne'
    · exact hn
  obtain ⟨m, q, hc, hin, hround⟩ := exists_canonical_round hn hd (h ▸ hpos)
  rw [← h, hround, decode_encode hc (by rw [← hround, h]; exact hfinite)]
  exact hin

/-! ## Neighbours -/

/-- A rational is a number of single precision, or would be if exponents had no upper bound. -/
def Representable (r : ℚ) : Prop := ∃ (m : Nat) (q : Int), m < 2 ^ 24 ∧ -149 ≤ q ∧ r = m * 2 ^ q

/-- The number next below `m * 2 ^ q`. -/
def below (m : Nat) (q : Int) : ℚ :=
  if m = 2 ^ 23 ∧ -149 < q then (2 ^ 24 - 1 : Nat) * 2 ^ (q - 1) else (m - 1 : Nat) * 2 ^ q

/-- The number next above `m * 2 ^ q`. -/
def above (m : Nat) (q : Int) : ℚ := (m + 1 : Nat) * 2 ^ q

/-- The neighbour below is a number, in the binade below if the number is a power of two. -/
theorem representable_below {m : Nat} {q : Int} (hc : Canonical m q) : Representable (below m q) := by
  have hlt := hc.lt
  have hleast := hc.least_le
  unfold below
  split
  · exact ⟨_, _, by norm_num, by omega, rfl⟩
  · exact ⟨_, _, by omega, hleast, rfl⟩

/-- The neighbour above is a number, or would be if exponents had no upper bound. -/
theorem representable_above {m : Nat} {q : Int} (hc : Canonical m q) : Representable (above m q) := by
  have hlt := hc.lt
  have hleast := hc.least_le
  unfold above
  rcases Nat.lt_or_eq_of_le hlt with hlt' | hcarry
  · exact ⟨m + 1, q, hlt', hleast, rfl⟩
  · -- the next coefficient carries into the exponent
    refine ⟨2 ^ 23, q + 1, by norm_num, by omega, ?_⟩
    rw [show m + 1 = 2 ^ 24 from hcarry, zpow_add_one₀ (by norm_num)]
    push_cast
    ring

/-- The lower end of the interval is the middle between the number and its neighbour below, at a power of
two as elsewhere. -/
theorem lowerEnd_eq_middle {m : Nat} {q : Int} (hm : 0 < m) :
    (lowerEnd m q : ℚ) * 2 ^ (q - 2) = (below m q + m * 2 ^ q) / 2 := by
  unfold below
  split
  · next h =>
      obtain ⟨rfl, hq⟩ := h
      rw [lowerEnd_mul_of_power hq, zpow_sub_one₀ (by norm_num)]
      norm_num
      ring
  · next h =>
      rw [lowerEnd_mul hm h, Nat.cast_sub hm]
      push_cast
      ring

/-- The upper end is the middle between the number and its neighbour above. -/
theorem upperEnd_eq_middle (m : Nat) (q : Int) :
    (upperEnd m : ℚ) * 2 ^ (q - 2) = (above m q + m * 2 ^ q) / 2 := by
  rw [upperEnd_mul, above]
  push_cast
  ring

theorem below_lt {m : Nat} {q : Int} (hm : 0 < m) : below m q < m * 2 ^ q := by
  have hp : (0 : ℚ) < 2 ^ q := by positivity
  unfold below
  split
  · next h =>
      obtain ⟨rfl, -⟩ := h
      rw [zpow_sub_one₀ (by norm_num)]
      norm_num
      linarith
  · gcongr
    omega

theorem lt_above (m : Nat) (q : Int) : (m : ℚ) * 2 ^ q < above m q := by
  unfold above
  gcongr
  omega

/-- Numbers with a greater exponent are multiples of the last place. -/
theorem mul_two_zpow_of_le {m : Nat} {q q' : Int} (h : q ≤ q') :
    (m : ℚ) * 2 ^ q' = (m * 2 ^ (q' - q).toNat : Nat) * 2 ^ q := by
  push_cast
  rw [← zpow_natCast (2 : ℚ), Int.toNat_of_nonneg (by omega), mul_assoc, ← zpow_add₀ (by norm_num),
    sub_add_cancel]

/-- Numbers with a smaller exponent end before the binade above theirs. -/
theorem mul_two_zpow_le_of_lt {m : Nat} {q q' : Int} (hm : m < 2 ^ 24) (h : q' < q) :
    (m : ℚ) * 2 ^ q' ≤ (2 ^ 24 - 1 : Nat) * 2 ^ (q - 1) := by
  have hpow : (2 : ℚ) ^ q' ≤ 2 ^ (q - 1) := zpow_le_zpow_right₀ (by norm_num) (by omega)
  gcongr
  omega

/-- **No number lies between a number and its neighbours.** On the grid of the number, or a coarser one,
others are whole steps away; those on finer grids end before its binade begins. -/
theorem Representable.le_below_or_above_le {m : Nat} {q : Int} {r : ℚ} (hc : Canonical m q)
    (hr : Representable r) (hne : r ≠ m * 2 ^ q) : r ≤ below m q ∨ above m q ≤ r := by
  have hp : (0 : ℚ) < 2 ^ q := by positivity
  obtain ⟨m', q', hm', hq', rfl⟩ := hr
  rcases lt_or_ge q' q with hfiner | hcoarser
  · -- on a finer grid: the coefficient has full length, so the other number is below
    left
    have hle := mul_two_zpow_le_of_lt hm' hfiner
    unfold below
    split
    · exact hle
    · next h =>
        have hge := hc.normal (by omega)
        have hgt : (2 ^ 23 : Nat) ≤ m - 1 := by
          have hne' : m ≠ 2 ^ 23 := fun hm => h ⟨hm, by omega⟩
          omega
        refine hle.trans ?_
        calc ((2 ^ 24 - 1 : Nat) : ℚ) * 2 ^ (q - 1) ≤ (2 ^ 23 : Nat) * 2 ^ q := by
              rw [zpow_sub_one₀ (by norm_num)]
              norm_num
              linarith
          _ ≤ (m - 1 : Nat) * 2 ^ q := by gcongr
  · -- on the grid of the number: at least one step away
    rw [mul_two_zpow_of_le hcoarser] at hne ⊢
    generalize m' * 2 ^ (q' - q).toNat = j at hne ⊢
    have hjm : j ≠ m := fun h => hne (by rw [h])
    rcases Nat.lt_or_gt_of_ne hjm with hlt | hgt
    · left
      have hle : (j : ℚ) * 2 ^ q ≤ (m - 1 : Nat) * 2 ^ q := by
        gcongr
        omega
      refine hle.trans ?_
      unfold below
      split
      · next h =>
          obtain ⟨rfl, -⟩ := h
          rw [zpow_sub_one₀ (by norm_num)]
          norm_num
          linarith
      · exact le_refl _
    · right
      unfold above
      gcongr
      omega

/-! ## The nearest number -/

/-- The absolute value of a finite number. -/
def absValue (x : Binary32) : ℚ := x.significand * 2 ^ x.exponent

/-- A number is nearest to a nonnegative rational: no other number is nearer, and if another is as near, the
coefficient of this one is even. A rational beyond the greatest number is compared with the number that would
come next. -/
def NearestEven (x : Binary32) (v : ℚ) : Prop :=
  ∀ r, Representable r → |x.absValue - v| ≤ |r - v| ∧
    (|x.absValue - v| = |r - v| → r = x.absValue ∨ x.significand % 2 = 0)

/-- Which of two points is nearer is decided by the middle between them. Squares are compared, which need no
cases for the signs. -/
theorem abs_sub_le_iff_of_lt {r x v : ℚ} (h : r < x) : |x - v| ≤ |r - v| ↔ (r + x) / 2 ≤ v := by
  rw [← sq_le_sq]
  constructor <;> intro hle <;> nlinarith

theorem abs_sub_le_iff_of_gt {r x v : ℚ} (h : x < r) : |x - v| ≤ |r - v| ↔ v ≤ (r + x) / 2 := by
  rw [← sq_le_sq]
  constructor <;> intro hle <;> nlinarith

/-- Two points are equally near exactly from the middle between them. -/
theorem abs_sub_eq_iff_of_ne {r x v : ℚ} (h : r ≠ x) : |x - v| = |r - v| ↔ v = (r + x) / 2 := by
  rw [abs_eq_abs]
  constructor
  · rintro (heq | heq)
    · exact absurd (by linarith) h
    · linarith
  · intro heq
    right
    linarith

section Positive

variable {x : Binary32} {v : ℚ} (hx : 0 < x.magnitude)

include hx

/-- What a number is nearest to lies in its interval: it is enough to compare with the two neighbours, whose
middles with the number are the ends. -/
theorem inInterval_of_nearestEven (h : x.NearestEven v) :
    InInterval x.significand x.exponent v := by
  have hc : Canonical x.significand x.exponent := canonical_decode hx
  obtain ⟨hbelow, hbelow_eq⟩ := h _ (representable_below hc)
  obtain ⟨habove, habove_eq⟩ := h _ (representable_above hc)
  have hlt : below x.significand x.exponent < x.absValue := below_lt hc.pos
  have hgt : x.absValue < above x.significand x.exponent := lt_above _ _
  rw [abs_sub_le_iff_of_lt hlt] at hbelow
  rw [abs_sub_le_iff_of_gt hgt] at habove
  rw [abs_sub_eq_iff_of_ne hlt.ne] at hbelow_eq
  rw [abs_sub_eq_iff_of_ne hgt.ne'] at habove_eq
  unfold InInterval
  rw [lowerEnd_eq_middle hc.pos, upperEnd_eq_middle]
  refine ⟨hbelow, habove, fun hodd => ⟨lt_of_le_of_ne hbelow fun heq => ?_,
    lt_of_le_of_ne habove fun heq => ?_⟩⟩
  -- a middle goes to an even coefficient
  · rcases hbelow_eq heq.symm with hsame | heven
    · exact hlt.ne hsame
    · omega
  · rcases habove_eq heq with hsame | heven
    · exact hgt.ne' hsame
    · omega

/-- A number is nearest to what lies in its interval: a number other than the neighbours is even further
away than they are. -/
theorem nearestEven_of_inInterval (h : InInterval x.significand x.exponent v) :
    x.NearestEven v := by
  have hc : Canonical x.significand x.exponent := canonical_decode hx
  have hlt : below x.significand x.exponent < x.absValue := below_lt hc.pos
  have hgt : x.absValue < above x.significand x.exponent := lt_above _ _
  obtain ⟨hlow, hhigh, hodd⟩ := h
  rw [lowerEnd_eq_middle hc.pos] at hlow hodd
  rw [upperEnd_eq_middle] at hhigh hodd
  change (_ + x.absValue) / 2 ≤ v at hlow
  change v ≤ (_ + x.absValue) / 2 at hhigh
  change _ → (_ + x.absValue) / 2 < v ∧ v < (_ + x.absValue) / 2 at hodd
  intro r hr
  by_cases hsame : r = x.absValue
  · rw [hsame]
    exact ⟨le_refl _, fun _ => .inl rfl⟩
  -- another number is at least as far away as the neighbour on its side
  rw [abs_sub_eq_iff_of_ne hsame]
  rcases hr.le_below_or_above_le hc hsame with hle | hge
  · rw [abs_sub_le_iff_of_lt (hle.trans_lt hlt)]
    refine ⟨by linarith, fun heq => .inr ?_⟩
    by_contra hne
    linarith [(hodd (Nat.mod_two_ne_zero.mp hne)).1]
  · rw [abs_sub_le_iff_of_gt (hgt.trans_le hge)]
    refine ⟨by linarith, fun heq => .inr ?_⟩
    by_contra hne
    linarith [(hodd (Nat.mod_two_ne_zero.mp hne)).2]

end Positive

/-- Zero is nearest to what is at most half of the least number. Its coefficient is even, so it takes the
tie. -/
theorem nearestEven_iff_of_zero {x : Binary32} (hx : x.magnitude = 0) {v : ℚ} :
    x.NearestEven v ↔ v ≤ 2 ^ (-150 : Int) := by
  have hsignificand : x.significand = 0 := by
    unfold significand
    rw [hx]
    rfl
  have hzero : x.absValue = 0 := by rw [absValue, hsignificand, Nat.cast_zero, zero_mul]
  unfold NearestEven
  rw [hzero, hsignificand]
  constructor
  · intro h
    -- the number to compare with is the least one
    have hleast := (h (1 * 2 ^ (-149 : Int)) ⟨1, -149, by norm_num, le_refl _, by norm_num⟩).1
    rw [abs_sub_le_iff_of_gt (by positivity)] at hleast
    norm_num at hleast ⊢
    linarith
  · rintro hle _ ⟨m, q, _, hq, rfl⟩
    refine ⟨?_, fun _ => .inr rfl⟩
    rcases Nat.eq_zero_or_pos m with rfl | hm
    · rw [Nat.cast_zero, zero_mul]
    · have hone : (1 : ℚ) ≤ m := by exact_mod_cast hm
      have hge : (2 : ℚ) ^ (-149 : Int) ≤ m * 2 ^ q := by
        calc (2 : ℚ) ^ (-149 : Int) ≤ 2 ^ q := zpow_le_zpow_right₀ (by norm_num) hq
          _ = 1 * 2 ^ q := (one_mul _).symm
          _ ≤ m * 2 ^ q := by gcongr
      rw [abs_sub_le_iff_of_gt (by positivity)]
      norm_num at hle hge
      linarith

/-- What rounds to zero is at most half of the least number, the tie included. -/
theorem round_eq_zero_iff {n d : Nat} (hd : 0 < d) :
    single.round n d = 0 ↔ (n / d : ℚ) ≤ 2 ^ (-150 : Int) := by
  have hhalf : (2 : ℚ) ^ (-150 : Int) = 1 / 2 * 2 ^ (-149 : Int) := by norm_num
  rcases Nat.eq_zero_or_pos n with rfl | hn
  · rw [Nat.cast_zero, zero_div]
    exact ⟨fun _ => by positivity, fun _ => rfl⟩
  constructor
  · intro h
    generalize hq : gridExponent n d = q
    obtain ⟨m, hnearest, hround⟩ := exists_nearest_round hn hd hq
    unfold gridExponent at hq
    -- only the coefficient zero with the least exponent has the pattern zero
    rw [hround] at h
    unfold encode at h
    rw [Nat.pow_eq, show single.precision - 1 = 23 from rfl, show single.least = -149 from rfl,
      show single.infinity = 2139095040 from rfl] at h
    obtain ⟨rfl, hleast⟩ : m = 0 ∧ q = -149 := by omega
    have hle := hnearest.2.1
    rw [div_le_iff₀ (by positivity), hleast, Nat.cast_zero, zero_add] at hle
    rw [hhalf]
    exact hle
  · intro h
    -- a quotient so small is rounded on the finest grid
    have hexp : binaryExponent n d < -149 := by
      rw [← two_zpow_lt_iff]
      exact ((binaryExponent_spec hn hd).1.trans h).trans_lt (two_zpow_lt_iff.mpr (by norm_num))
    have hnearest : Nearest 0 (n / d / 2 ^ (-149 : Int)) := by
      have hpos : (0 : ℚ) ≤ n / d / 2 ^ (-149 : Int) := by positivity
      rw [hhalf, ← div_le_iff₀ (by positivity)] at h
      refine ⟨?_, ?_, fun hodd => absurd hodd (by decide)⟩
      · rw [Nat.cast_zero]
        linarith
      · rwa [Nat.cast_zero, zero_add]
    rw [round_eq_of_nearest hn hd (by omega) hnearest]
    rfl

/-- **Rounding is rounding to nearest, ties to even.** Zero has no interval and is treated apart; for all
other numbers both sides say that the quotient lies in the interval. -/
theorem round_eq_magnitude_iff {x : Binary32} (hx : x.isFinite = true) {n d : Nat} (hd : 0 < d) :
    single.round n d = x.magnitude ↔ x.NearestEven (n / d) := by
  have hfinite : x.magnitude < single.infinity := of_decide_eq_true hx
  rcases Nat.eq_zero_or_pos x.magnitude with hzero | hpos
  · rw [hzero, round_eq_zero_iff hd, nearestEven_iff_of_zero hzero]
  · constructor
    · intro h
      exact nearestEven_of_inInterval hpos (inInterval_of_round_eq hd hpos hfinite h)
    · intro h
      rw [round_eq_encode (canonical_decode hpos) hd (inInterval_of_nearestEven hpos h)]
      exact encode_decode hfinite

end ShaderExpr.Binary32
