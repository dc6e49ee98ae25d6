import ShaderExpr.Proofs.Binary32.Shortest

/-!
# No decimal with fewer digits rounds to a number

The search for a short decimal goes from coarse grids of powers of ten to finer ones and looks on each grid at
the two points around the number only. An interval that holds any point of a grid holds one of these two, so a
grid without a hit has no point in the interval at all, and the decimal that is found lies on the coarsest grid
that has one. Digits follow: a decimal with fewer of them would have a power of ten between itself and the one
that is found, on a coarser grid.

* **`not_inInterval_of_onGrid?_eq_none`** — a grid without a hit has no point in the interval.
* **`exponent_le_shortest`** — no grid that is coarser has one.
* **`length_digits_shortest_le`** — every decimal in the interval has at least as many digits.
-/

namespace ShaderExpr.Binary32

open BinaryFormat

/-! ## The interval -/

/-- What lies between two points of the interval lies in it, the ends included or not. -/
theorem InInterval.convex {m : Nat} {q : Int} {a b c : ℚ} (ha : InInterval m q a)
    (hb : InInterval m q b) (hac : a ≤ c) (hcb : c ≤ b) : InInterval m q c :=
  ⟨ha.1.trans hac, hcb.trans hb.2.1,
    fun hodd => ⟨(ha.2.2 hodd).1.trans_le hac, hcb.trans_lt (hb.2.2 hodd).2⟩⟩

/-- A number lies in its own interval, away from both ends. -/
theorem inInterval_self {m : Nat} {q : Int} (hc : Canonical m q) : InInterval m q (m * 2 ^ q) := by
  have hlow := lowerEnd_mul_add_le hc
  have hgap : (0 : ℚ) < 2 ^ (-150 : Int) := by positivity
  have hlt : (lowerEnd m q : ℚ) * 2 ^ (q - 2) < m * 2 ^ q := by linarith
  have hup := lt_upperEnd_mul m q
  exact ⟨hlt.le, hup.le, fun _ => ⟨hlt, hup⟩⟩

/-! ## The search -/

/-- A grid offers no point only if neither of the two around the number rounds to it. -/
theorem roundsTo_eq_false_of_onGrid? {m : Nat} {q k : Int} (h : onGrid? m q k = none) :
    roundsTo m q k (scaleBinary k q (4 * m) / scaleDecimal k q 1) = false ∧
      roundsTo m q k (scaleBinary k q (4 * m) / scaleDecimal k q 1 + 1) = false := by
  unfold onGrid? at h
  simp only at h
  split at h
  · next hfloor hnext => exact ⟨hfloor, hnext⟩
  · cases h
  · cases h
  · split at h
    · cases h
    · split at h <;> cases h

/-- A grid that offers no point has none in the interval. A point of the grid that lies in it has the number
on one side and is not nearer to it than the point of the grid next to the number on that side. -/
theorem not_inInterval_of_onGrid?_eq_none {m : Nat} {q k : Int} (hc : Canonical m q)
    (h : onGrid? m q k = none) (n : Nat) : ¬ InInterval m q (n * 10 ^ k) := by
  intro hn
  obtain ⟨hfloor, hnext⟩ := roundsTo_eq_false_of_onGrid? h
  obtain ⟨hle, hlt⟩ := floor_mul_le_lt m q k
  rw [← Bool.not_eq_true, roundsTo_iff] at hfloor hnext
  generalize scaleBinary k q (4 * m) / scaleDecimal k q 1 = i at *
  -- the point around the number on the same side lies between the other point and the number
  rcases Nat.lt_or_ge i n with hgt | hge
  · exact hnext ((inInterval_self hc).convex hn hlt.le (by gcongr; exact hgt))
  · exact hfloor (hn.convex (inInterval_self hc) (by gcongr) hle)

/-- Of the grids that the search tries, none that is coarser than the one it ends on has a point in the
interval. -/
theorem not_inInterval_of_coarsest_lt {m : Nat} {q k : Int} (hc : Canonical m q) {g : Nat}
    (hk : k < (g : Int) - 46) (h : (coarsest m q g).exponent < k) (n : Nat) :
    ¬ InInterval m q (n * 10 ^ k) := by
  -- on the grids that are left, as the search goes
  induction g with
  | zero =>
      rw [coarsest] at h
      simp only at h
      omega
  | succ g ih =>
      rw [coarsest] at h
      split at h
      · simp only at h
        omega
      · next hnone =>
          rcases eq_or_ne k ((g : Int) - 46) with rfl | hne
          · exact not_inInterval_of_onGrid?_eq_none hc hnone n
          · exact ih (by omega) h

/-- The exponent of the greatest number bounds all others. -/
theorem exponent_le {x : Binary32} (h : x.isFinite = true) : x.exponent ≤ 104 := by
  have hlt : x.magnitude < 2139095040 := of_decide_eq_true h
  unfold exponent decode
  simp only [Nat.pow_eq, show single.precision - 1 = 23 from rfl, show single.least = -149 from rfl]
  split
  · norm_num
  · simp only
    omega

section Finite

variable {x : Binary32} (hfinite : x.isFinite = true) (hx : 0 < x.magnitude)

include hfinite hx

/-- No finite number is rounded to from `10 ^ 39` on, so the search need not try coarser grids than
it does. -/
theorem InInterval.lt_of_isFinite {v : ℚ} (h : InInterval x.significand x.exponent v) :
    v < 10 ^ (39 : Int) := by
  have hc : Canonical x.significand x.exponent := canonical_decode hx
  have hm : (x.significand : ℚ) + 1 ≤ 2 ^ 24 := by exact_mod_cast hc.lt
  calc v ≤ (x.significand + 1 / 2) * 2 ^ x.exponent := by rw [← upperEnd_mul]; exact h.2.1
    _ ≤ 2 ^ 24 * 2 ^ (104 : Int) := by
        gcongr
        · linarith
        · norm_num
        · exact exponent_le hfinite
    _ < 10 ^ (39 : Int) := by norm_num

/-- **The shortest decimal lies on the coarsest grid** that has a point in the interval. A coarser grid was
tried before without a hit, or is beyond all finite numbers. -/
theorem exponent_le_shortest {n : Nat} {k : Int}
    (h : InInterval x.significand x.exponent (n * 10 ^ k)) : k ≤ x.shortest.exponent := by
  have hc : Canonical x.significand x.exponent := canonical_decode hx
  have hshortest : x.shortest = coarsest x.significand x.exponent 86 := if_neg hc.pos.ne'
  by_contra hlt
  rw [hshortest] at hlt
  have hk : k < (86 : Nat) - 46 := by
    -- a multiple of a greater power of ten, other than zero, is beyond the finite numbers
    by_contra hge
    have hpos : (0 : ℚ) < n * 10 ^ k := (lowerEnd_mul_pos _ hc.pos).trans_le h.1
    have hn : (1 : ℚ) ≤ n := by
      have : (0 : ℚ) < n := pos_of_mul_pos_left hpos (by positivity)
      exact_mod_cast this
    have hpow : (10 : ℚ) ^ (39 : Int) ≤ 10 ^ k := zpow_le_zpow_right₀ (by norm_num) (by omega)
    have hlt := h.lt_of_isFinite hfinite hx
    nlinarith
  exact not_inInterval_of_coarsest_lt hc hk (by omega) n h

/-- **No decimal with fewer digits** lies in the interval. Otherwise a power of ten would lie between it and
the decimal that was found, hence in the interval, on a coarser grid than the coarsest. -/
theorem length_digits_shortest_le {n length : Nat} {k : Int} (hn : n < 10 ^ length)
    (h : InInterval x.significand x.exponent (n * 10 ^ k)) : x.shortest.digits.length ≤ length := by
  have hc : Canonical x.significand x.exponent := canonical_decode hx
  have hpos : 0 < length := by
    rcases Nat.eq_zero_or_pos length with rfl | hpos
    · -- zero is not in the interval
      obtain rfl : n = 0 := Nat.lt_one_iff.mp hn
      have hlow := (lowerEnd_mul_pos x.exponent hc.pos).trans_le h.1
      rw [Nat.cast_zero, zero_mul] at hlow
      exact absurd hlow (lt_irrefl _)
    · exact hpos
  by_contra hlt
  have hle : 10 ^ length ≤ x.shortest.coefficient := by
    by_contra hlt'
    exact hlt ((Nat.length_toDigits_le_iff (by norm_num) hpos).mpr (Nat.not_le.mp hlt'))
  have hk := exponent_le_shortest hfinite hx h
  -- a power of ten between the two decimals, on a coarser grid
  have hpower : InInterval x.significand x.exponent
      ((1 : Nat) * 10 ^ (x.shortest.exponent + length : Int)) := by
    rw [Nat.cast_one, one_mul, zpow_add₀ (by norm_num), zpow_natCast, mul_comm]
    refine h.convex (shortest_spec hx) ?_ ?_
    · calc (n : ℚ) * 10 ^ k ≤ 10 ^ length * 10 ^ k := by gcongr; exact_mod_cast hn.le
        _ ≤ 10 ^ length * 10 ^ x.shortest.exponent := by gcongr; norm_num
    · gcongr
      exact_mod_cast hle
  have hcoarser := exponent_le_shortest hfinite hx hpower
  omega

end Finite

end ShaderExpr.Binary32
