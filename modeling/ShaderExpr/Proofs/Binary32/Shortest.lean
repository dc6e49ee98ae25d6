import ShaderExpr.Proofs.Binary32.Rounding

/-!
# The shortest decimal lies in the rounding interval

The search for a short decimal compares scaled naturals. Read over the rationals, its test says that a
multiple of a power of ten lies in the rounding interval, and the search can not run out: the grid of
`10 ^ (-46)` is finer than the narrowest interval.

* **`roundsTo_iff`** — the test on naturals is membership in the interval.
* **`coarsest_spec`** — the search ends on a grid with a point in the interval.
* **`shortest_spec`** — the decimal of a finite number other than zero lies in its interval.
-/

namespace ShaderExpr.Binary32

open BinaryFormat

/-! ## The test on naturals -/

/-- What both sides of a comparison are multiplied by so that neither has a denominator. -/
def clearing (k q : Int) : ℚ := 10 ^ (-k).toNat * 2 ^ (2 - q).toNat

theorem clearing_pos (k q : Int) : 0 < clearing k q := by
  unfold clearing
  positivity

/-- A power with a nonnegative exponent is one with a negative exponent multiplied up. -/
theorem pow_toNat (b : ℚ) (hb : b ≠ 0) (k : Int) : b ^ k.toNat = b ^ k * b ^ (-k).toNat := by
  rw [← zpow_natCast b k.toNat, ← zpow_natCast b (-k).toNat, ← zpow_add₀ hb]
  congr 1
  omega

/-- A multiple of a power of ten, scaled to a natural. -/
theorem cast_scaleDecimal (k q : Int) (n : Nat) :
    (scaleDecimal k q n : ℚ) = n * 10 ^ k * clearing k q := by
  unfold scaleDecimal clearing
  rw [Nat.pow_eq, Nat.pow_eq]
  push_cast
  rw [pow_toNat 10 (by norm_num) k]
  ring

/-- A multiple of a quarter of the last place, scaled to a natural by the same factor. -/
theorem cast_scaleBinary (k q : Int) (x : Nat) :
    (scaleBinary k q x : ℚ) = x * 2 ^ (q - 2) * clearing k q := by
  unfold scaleBinary clearing
  rw [Nat.pow_eq, Nat.pow_eq]
  push_cast
  rw [pow_toNat 2 (by norm_num) (q - 2), show -(q - 2) = 2 - q by ring]
  ring

/-- Comparing the scaled naturals is comparing the numbers, since both were multiplied by the same positive
factor. -/
theorem scaleBinary_le_iff {k q : Int} {x n : Nat} :
    scaleBinary k q x ≤ scaleDecimal k q n ↔ (x : ℚ) * 2 ^ (q - 2) ≤ n * 10 ^ k := by
  rw [← mul_le_mul_iff_left₀ (clearing_pos k q), ← cast_scaleDecimal, ← cast_scaleBinary, Nat.cast_le]

theorem scaleDecimal_le_iff {k q : Int} {x n : Nat} :
    scaleDecimal k q n ≤ scaleBinary k q x ↔ (n : ℚ) * 10 ^ k ≤ x * 2 ^ (q - 2) := by
  rw [← mul_le_mul_iff_left₀ (clearing_pos k q), ← cast_scaleDecimal, ← cast_scaleBinary, Nat.cast_le]

/-- The test on naturals is membership in the rounding interval. It compares with both ends of the interval,
scaled in the same way. -/
theorem roundsTo_iff {m n : Nat} {q k : Int} :
    roundsTo m q k n = true ↔ InInterval m q (n * 10 ^ k) := by
  unfold roundsTo InInterval
  -- the ends are inside for an even coefficient and outside for an odd one
  rcases Nat.mod_two_eq_zero_or_one m with hm | hm
  · simp only [hm, if_true, Bool.and_eq_true, decide_eq_true_eq, scaleBinary_le_iff,
      scaleDecimal_le_iff]
    exact ⟨fun h => ⟨h.1, h.2, nofun⟩, fun h => ⟨h.1, h.2.1⟩⟩
  · simp only [hm, Nat.one_ne_zero, if_false, Bool.and_eq_true, decide_eq_true_eq, ← not_le,
      scaleBinary_le_iff, scaleDecimal_le_iff, forall_const]
    exact ⟨fun h => ⟨le_of_not_ge h.1, le_of_not_ge h.2, h⟩, fun h => h.2.2⟩

/-! ## The search -/

/-- A point that a grid offers rounds to the number. Of two that do, the tie is settled between them. -/
theorem roundsTo_of_onGrid? {m n : Nat} {q k : Int} (h : onGrid? m q k = some n) :
    roundsTo m q k n = true := by
  unfold onGrid? at h
  simp only at h
  generalize scaleBinary k q (4 * m) / scaleDecimal k q 1 = i at h
  split at h
  · cases h
  · next hi _ =>
      rw [← Option.some.inj h]
      exact hi
  · next _ hnext =>
      rw [← Option.some.inj h]
      exact hnext
  · next hi hnext =>
      split at h
      · rw [← Option.some.inj h]
        exact hi
      · split at h
        · rw [← Option.some.inj h]
          exact hnext
        · rw [← Option.some.inj h]
          rcases Nat.mod_two_eq_zero_or_one i with hmod | hmod
          · rw [hmod]
            exact hi
          · rw [hmod]
            exact hnext

/-- A grid offers a point if the multiple of its step next below the number rounds to it. Which one is
offered if both do is of no matter here. -/
theorem onGrid?_isSome {m : Nat} {q k : Int}
    (h : roundsTo m q k (scaleBinary k q (4 * m) / scaleDecimal k q 1) = true) :
    (onGrid? m q k).isSome = true := by
  unfold onGrid?
  simp only [h]
  -- the test at the floor is true, so two of the four cases can not be
  split
  · next hfalse _ => cases hfalse
  · rfl
  · next hfalse _ => cases hfalse
  · split
    · rfl
    · split <;> rfl

/-- The lower end of an interval is at least half of the least number away. For a power of two it is only a
quarter of a place away, but its exponent is above the least then. -/
theorem lowerEnd_mul_add_le {m : Nat} {q : Int} (hc : Canonical m q) :
    (lowerEnd m q : ℚ) * 2 ^ (q - 2) + 2 ^ (-150 : Int) ≤ m * 2 ^ q := by
  by_cases hpower : m = 2 ^ 23 ∧ -149 < q
  · -- a quarter of a place, of an exponent above the least
    obtain ⟨rfl, hq⟩ := hpower
    have hstep : (2 : ℚ) ^ (-150 : Int) ≤ 2 ^ (q - 2) :=
      zpow_le_zpow_right₀ (by norm_num) (by omega)
    rw [two_zpow_sub_two] at hstep
    rw [two_zpow_sub_two, lowerEnd, if_pos ⟨rfl, hq⟩]
    norm_num at hstep ⊢
    linarith
  · have hstep : (2 : ℚ) ^ (-150 : Int) ≤ 2 ^ (q - 1) :=
      zpow_le_zpow_right₀ (by norm_num) (by have := hc.least_le; omega)
    rw [zpow_sub₀ (by norm_num), zpow_one] at hstep
    rw [lowerEnd_mul hc.pos hpower]
    linarith

/-- A point that misses a bound by less than the room below the bound is above what the room ends at. -/
theorem lt_of_add_le_of_lt_add {a b c s t : ℚ} (hab : a + t ≤ b) (hbc : b < c + s) (hst : s < t) :
    a < c := by linarith

/-- The multiple of the step of a grid that the search starts from is the last that is not above the number:
it is a quotient of naturals, rounded down. -/
theorem floor_mul_le_lt (m : Nat) (q k : Int) :
    ((scaleBinary k q (4 * m) / scaleDecimal k q 1 : Nat) : ℚ) * 10 ^ k ≤ m * 2 ^ q ∧
      (m : ℚ) * 2 ^ q < ((scaleBinary k q (4 * m) / scaleDecimal k q 1 + 1 : Nat) : ℚ) * 10 ^ k := by
  have hs := clearing_pos k q
  have hv : ((scaleBinary k q (4 * m) : Nat) : ℚ) = m * 2 ^ q * clearing k q := by
    rw [cast_scaleBinary, two_zpow_sub_two]
    push_cast
    ring
  have hu : ((scaleDecimal k q 1 : Nat) : ℚ) = 10 ^ k * clearing k q := by
    rw [cast_scaleDecimal, Nat.cast_one, one_mul]
  -- from here on it is a division of naturals with both sides scaled
  generalize scaleBinary k q (4 * m) = v at *
  generalize scaleDecimal k q 1 = u at *
  have hupos : 0 < u := by
    have : (0 : ℚ) < u := by rw [hu]; positivity
    exact_mod_cast this
  constructor
  · have hmul : ((v / u * u : Nat) : ℚ) ≤ v := by exact_mod_cast Nat.div_mul_le_self v u
    rw [Nat.cast_mul, hu, hv, ← mul_assoc] at hmul
    exact le_of_mul_le_mul_right hmul hs
  · have hmul : (v : ℚ) < ((v / u + 1) * u : Nat) := by
      exact_mod_cast (Nat.div_lt_iff_lt_mul hupos).mp (Nat.lt_succ_self (v / u))
    rw [Nat.cast_mul, hu, hv, ← mul_assoc] at hmul
    exact lt_of_mul_lt_mul_right hmul hs.le

theorem lt_upperEnd_mul (m : Nat) (q : Int) : (m : ℚ) * 2 ^ q < upperEnd m * 2 ^ (q - 2) := by
  rw [upperEnd_mul]
  have hp : (0 : ℚ) < 2 ^ q := by positivity
  linarith

/-- The finest grid that is tried offers a point for every number, since its step is less than the distance
of the number from the lower end of its interval. -/
theorem onGrid?_finest {m : Nat} {q : Int} (hc : Canonical m q) :
    (onGrid? m q (-46)).isSome = true := by
  apply onGrid?_isSome
  rw [roundsTo_iff]
  obtain ⟨hle, hlt⟩ := floor_mul_le_lt m q (-46)
  rw [Nat.cast_add_one, add_mul, one_mul] at hlt
  -- it is less than a step below, and the interval reaches further down than a step
  have hlow := lowerEnd_mul_add_le hc
  have hfine : (10 : ℚ) ^ (-46 : Int) < 2 ^ (-150 : Int) := by norm_num
  have hup := hle.trans_lt (lt_upperEnd_mul m q)
  have hlow' := lt_of_add_le_of_lt_add hlow hlt hfine
  exact ⟨hlow'.le, hup.le, fun _ => ⟨hlow', hup⟩⟩

/-- The search ends on a grid with a point in the interval. Induction on the grids that are left; the last
of them is the finest, which always has a point. -/
theorem coarsest_spec {m : Nat} {q : Int} (hc : Canonical m q) (g : Nat) :
    roundsTo m q (coarsest m q (g + 1)).exponent (coarsest m q (g + 1)).coefficient = true := by
  -- on the grids that are left, the finest of which offers a point
  induction g with
  | zero =>
      rw [coarsest]
      have hfinest := onGrid?_finest hc
      rw [Option.isSome_iff_exists] at hfinest
      obtain ⟨n, hn⟩ := hfinest
      rw [show ((0 : Nat) : Int) - 46 = -46 from rfl, hn]
      exact roundsTo_of_onGrid? hn
  | succ g ih =>
      rw [coarsest]
      split
      · next n hn => exact roundsTo_of_onGrid? hn
      · exact ih

/-- The decimal of a finite number other than zero lies in its rounding interval. -/
theorem shortest_spec {x : Binary32} (hx : 0 < x.magnitude) :
    InInterval x.significand x.exponent (x.shortest.coefficient * 10 ^ x.shortest.exponent) := by
  have hc : Canonical x.significand x.exponent := canonical_decode hx
  rw [← roundsTo_iff]
  unfold shortest shortestOf
  rw [if_neg hc.pos.ne']
  exact coarsest_spec hc 85

end ShaderExpr.Binary32
