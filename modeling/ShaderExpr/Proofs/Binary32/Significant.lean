import Mathlib.Data.List.DropRight
import ShaderExpr.Proofs.Binary32.Minimal
import ShaderExpr.Proofs.Binary32.Nearest
import ShaderExpr.Proofs.Binary32.Text

/-!
# The text of a number has the fewest significant digits

The significant digits of a decimal text are those before its power of ten, without zeros at either end. They
spell the value of the text up to a power of ten, so a text that is read as a number has a decimal with so many
digits in the rounding interval of the number, and the number's own text has the digits of the shortest decimal.

* **`Numeral.significantDigits`** — the digits that count.
* **`Numeral.exists_significant`** — they spell what a decimal text denotes, up to a power of ten.
* **`read_eq_ok_iff`** — reading a decimal text gives the number nearest to what it denotes.
* **`appendTo_eq`** — appending a text looks at nothing that stood before it.
* **`text_shortest`** — the text of a finite number: its form, its value, and that no text is shorter.
-/

namespace ShaderExpr

namespace Numeral

/-! ## Significant digits -/

/-- The digits of a decimal text before its power of ten. -/
def mantissaDigits (cs : List Char) : List Char :=
  (cs.takeWhile fun c => c != 'e' && c != 'E').filter Char.isDigit

/-- Digits without the zeros at both ends. -/
def withoutZeros (ds : List Char) : List Char := (ds.dropWhile (· == '0')).rdropWhile (· == '0')

/-- The significant digits of a decimal text. -/
def significantDigits (text : String) : List Char := withoutZeros (mantissaDigits text.toList)

/-- Characters that are all zeros are so many copies of one character. The lemmas on reading digits are
stated for copies. -/
theorem exists_eq_replicate {ds : List Char} (h : ∀ c ∈ ds, (c == '0') = true) :
    ∃ n, ds = List.replicate n '0' :=
  ⟨ds.length, List.eq_replicate_iff.mpr ⟨rfl, fun c hc => beq_iff_eq.mp (h c hc)⟩⟩

/-- Digits are their significant ones between zeros: what is dropped at the front and at the back is zeros
only. -/
theorem exists_zeros_append (ds : List Char) :
    ∃ a b, ds = List.replicate a '0' ++ (withoutZeros ds ++ List.replicate b '0') := by
  have hfront : ∀ c ∈ ds.takeWhile (· == '0'), (c == '0') = true := fun _ hc =>
    List.mem_takeWhile_imp (p := (· == '0')) hc
  have hback : ∀ c ∈ (ds.dropWhile (· == '0')).rtakeWhile (· == '0'), (c == '0') = true := fun _ hc =>
    List.mem_rtakeWhile_imp (p := (· == '0')) hc
  obtain ⟨a, ha⟩ := exists_eq_replicate hfront
  obtain ⟨b, hb⟩ := exists_eq_replicate hback
  refine ⟨a, b, ?_⟩
  rw [withoutZeros, ← ha, ← hb, List.rdropWhile_append_rtakeWhile, List.takeWhile_append_dropWhile]

/-- Zeros at the end go away together with those that stand there already, so that it does not matter how
many are added. -/
theorem rdropWhile_append_zeros (ds : List Char) (n : Nat) :
    (ds ++ List.replicate n '0').rdropWhile (· == '0') = ds.rdropWhile (· == '0') := by
  unfold List.rdropWhile
  rw [List.reverse_append, List.reverse_replicate,
    List.dropWhile_append_of_pos fun c hc => beq_iff_eq.mpr (List.eq_of_mem_replicate hc)]

/-- Zeros at the ends do not count. The digits between them may have zeros at their own ends, so this is
only a bound. -/
theorem length_withoutZeros_le (a b : Nat) (ds : List Char) :
    (withoutZeros (List.replicate a '0' ++ (ds ++ List.replicate b '0'))).length ≤ ds.length := by
  unfold withoutZeros
  rw [List.dropWhile_append_of_pos fun c hc => beq_iff_eq.mpr (List.eq_of_mem_replicate hc),
    List.dropWhile_append]
  split
  · -- nothing but zeros
    rw [List.dropWhile_eq_nil_iff.mpr fun c hc => beq_iff_eq.mpr (List.eq_of_mem_replicate hc)]
    exact Nat.zero_le _
  · rw [rdropWhile_append_zeros]
    exact (List.rdropWhile_prefix _ _).length_le.trans (List.dropWhile_suffix _).length_le

/-- Digits spell a number with at most so many digits. Induction on the digits: the first is at most nine,
and the rest is less than the power that the first counts. -/
theorem ofDigitChars_lt {ds : List Char} (h : ∀ c ∈ ds, c.isDigit = true) :
    Nat.ofDigitChars 10 ds 0 < 10 ^ ds.length := by
  induction ds with
  | nil => exact Nat.one_pos
  | cons c ds ih =>
      have hc := toNat_of_isDigit (h c List.mem_cons_self)
      have hrest := ih fun d hd => h d (List.mem_cons_of_mem _ hd)
      -- a digit is at most nine: this is where the base ten of the bound comes from
      have hdigit : (c.toNat - '0'.toNat) ≤ 9 := by
        change c.toNat - 48 ≤ 9
        omega
      rw [Nat.ofDigitChars_cons, Nat.mul_zero, Nat.zero_add, Nat.ofDigitChars_eq_ofDigitChars_zero,
        List.length_cons, Nat.pow_succ]
      have hmul := Nat.mul_le_mul_left (10 ^ ds.length) hdigit
      omega

/-- What digits spell is, up to a power of ten, what the significant ones spell. Zeros at the front add
nothing, and those at the back are the power of ten. -/
theorem exists_ofDigitChars_eq {ds : List Char} (h : ∀ c ∈ ds, c.isDigit = true) :
    ∃ n j, Nat.ofDigitChars 10 ds 0 = n * 10 ^ j ∧ n < 10 ^ (withoutZeros ds).length := by
  obtain ⟨a, b, hds⟩ := exists_zeros_append ds
  have hdigits : ∀ c ∈ withoutZeros ds, c.isDigit = true := by
    intro c hc
    apply h
    rw [hds]
    exact List.mem_append_right _ (List.mem_append_left _ hc)
  refine ⟨_, b, ?_, ofDigitChars_lt hdigits⟩
  -- only the digits that are spelled are split, not those that are counted
  nth_rewrite 1 [hds]
  rw [Nat.ofDigitChars_append, Nat.ofDigitChars_append, Nat.ofDigitChars_replicate_zero,
    Nat.ofDigitChars_replicate_zero, Nat.mul_zero, Nat.mul_comm]

/-! ## Decimal texts -/

/-- Reading numerals has its own test for digits, by the value of a character in a base. In base ten it lets
pass the ten digits and nothing else. -/
theorem isDigit_of_isDigit_ten {c : Char} (h : isDigit 10 c = true) : c.isDigit = true := by
  by_contra hnot
  unfold Char.isDigit at hnot
  rw [Bool.and_eq_true, decide_eq_true_eq, decide_eq_true_eq] at hnot
  have hrange : ('0' ≤ c && c ≤ '9') = false := by
    rw [← Bool.not_eq_true, Bool.and_eq_true, decide_eq_true_eq, decide_eq_true_eq]
    exact hnot
  -- letters have values from ten on
  unfold isDigit digit? at h
  simp only [hrange, Bool.false_eq_true, if_false] at h
  split at h
  · next hletter =>
      rw [Bool.and_eq_true, decide_eq_true_eq] at hletter
      have hle : 97 ≤ c.toNat := UInt32.le_iff_toNat_le.mp hletter.1
      rw [if_neg (by omega)] at h
      cases h
  · split at h
    · next hletter =>
        rw [Bool.and_eq_true, decide_eq_true_eq] at hletter
        have hle : 65 ≤ c.toNat := UInt32.le_iff_toNat_le.mp hletter.1
        rw [if_neg (by omega)] at h
        cases h
    · cases h

/-- One character at a time: a mark of the power ends the digits, a digit is one of them, and anything else
is passed over. -/
theorem mantissaDigits_cons (c : Char) (cs : List Char) :
    mantissaDigits (c :: cs) = if c == 'e' || c == 'E' then [] else
      if c.isDigit then c :: mantissaDigits cs else mantissaDigits cs := by
  have hmark : (c != 'e' && c != 'E') = !(c == 'e' || c == 'E') := (Bool.not_or _ _).symm
  unfold mantissaDigits
  rw [List.takeWhile_cons, hmark]
  cases c == 'e' || c == 'E' with
  | true => rfl
  | false => exact List.filter_cons

/-- Digits at the front are all kept. None of them is the mark of a power of ten, so the search goes on
behind them. -/
theorem mantissaDigits_append {ds : List Char} (h : ∀ c ∈ ds, c.isDigit = true) (cs : List Char) :
    mantissaDigits (ds ++ cs) = ds ++ mantissaDigits cs := by
  induction ds with
  | nil => rfl
  | cons c ds ih =>
      have hc := h c List.mem_cons_self
      have hmark : ¬ (c == 'e' || c == 'E') = true := by
        rw [Bool.or_eq_true, beq_iff_eq, beq_iff_eq]
        rintro (rfl | rfl) <;> exact absurd hc (by decide)
      rw [List.cons_append, mantissaDigits_cons, if_neg hmark, if_pos hc,
        ih fun d hd => h d (List.mem_cons_of_mem _ hd), List.cons_append]

/-- Underscores do not count. Reading drops them before it looks at the digits, while the significant digits
are counted in the text as it stands. -/
theorem mantissaDigits_clean (cs : List Char) :
    mantissaDigits (cs.filter (· != '_')) = mantissaDigits cs := by
  induction cs with
  | nil => rfl
  | cons c cs ih =>
      by_cases hc : c = '_'
      · rw [hc, List.filter_cons_of_neg (by decide), mantissaDigits_cons, if_neg (by decide),
          if_neg (by decide), ih]
      · rw [List.filter_cons_of_pos (by simpa using hc), mantissaDigits_cons, mantissaDigits_cons, ih]

theorem mantissaDigits_splitSign (cs : List Char) :
    mantissaDigits (splitSign cs).2 = mantissaDigits cs := by
  unfold splitSign
  split <;> rfl

theorem isDigit_of_mem_takeWhile {cs : List Char} {c : Char} (h : c ∈ cs.takeWhile (isDigit 10)) :
    c.isDigit = true :=
  isDigit_of_isDigit_ten (List.mem_takeWhile_imp h)

/-- The digits up to the point or to the power come first. This is how the reader goes through a text, so
the two can be compared part by part. -/
theorem mantissaDigits_eq_takeWhile (cs : List Char) : mantissaDigits cs =
    cs.takeWhile (isDigit 10) ++ mantissaDigits (cs.dropWhile (isDigit 10)) := by
  rw [← mantissaDigits_append fun _ => isDigit_of_mem_takeWhile, List.takeWhile_append_dropWhile]

theorem isDigit_of_mem_mantissaDigits {cs : List Char} {c : Char} (h : c ∈ mantissaDigits cs) :
    c.isDigit = true :=
  (List.mem_filter.mp h).2

/-- The coefficient of a decimal text is what its digits spell, with the point left out. With or without a
point, the reader stops at a rest that has no digits of its own. -/
theorem coefficient_eq {cs rest : List Char} {n places : Nat}
    (h : coefficient? 10 cs = some (n, places, rest)) (hrest : mantissaDigits rest = []) :
    n = Nat.ofDigitChars 10 (mantissaDigits cs) 0 := by
  rw [← digitsFrom_ten fun _ => isDigit_of_mem_mantissaDigits, mantissaDigits_eq_takeWhile]
  unfold coefficient? at h
  simp only at h
  split at h
  · -- with a point: the digits behind it come next, and the point is passed over
    next _ part hpoint =>
      split at h
      · cases h
      · obtain ⟨rfl, -, rfl⟩ : digitsFrom 10 0 _ = n ∧ _ = places ∧ _ = rest := by
          simpa only [Option.some.injEq, Prod.mk.injEq] using h
        rw [hpoint, mantissaDigits_cons, if_neg (by decide), if_neg (by decide),
          mantissaDigits_eq_takeWhile, hrest, List.append_nil]
  · split at h
    · cases h
    · obtain ⟨rfl, -, rfl⟩ : digitsFrom 10 0 _ = n ∧ _ = places ∧ _ = rest := by
        simpa only [Option.some.injEq, Prod.mk.injEq] using h
      rw [hrest]

/-- So it is with a decimal numeral, with a power of ten behind its coefficient or without one: the mark of
the power ends the digits that count. -/
theorem decimal?_eq_some {cs : List Char} {negative negative' : Bool} {n : Nat} {e : Int}
    (h : decimal? negative cs = some (.decimal negative' n e)) :
    n = Nat.ofDigitChars 10 (mantissaDigits cs) 0 := by
  unfold decimal? at h
  split at h
  · cases h
  · next hcoefficient =>
      cases h
      exact coefficient_eq hcoefficient rfl
  · next c rest hcoefficient =>
      split at h
      · next hmark =>
          obtain ⟨_, _, heq⟩ := Option.map_eq_some_iff.mp h
          cases heq
          exact coefficient_eq hcoefficient (by rw [mantissaDigits_cons, if_pos hmark])
      · cases h

/-- A hexadecimal numeral is never a decimal one, so its digits need not be looked at. -/
theorem hexadecimal?_ne_decimal {cs : List Char} {negative negative' : Bool} {n : Nat} {e : Int} :
    hexadecimal? negative cs ≠ some (.decimal negative' n e) := by
  intro h
  unfold hexadecimal? at h
  split at h
  · split at h
    · obtain ⟨_, _, heq⟩ := Option.map_eq_some_iff.mp h
      cases heq
    · cases h
  · cases h

/-- What a decimal text denotes is what its digits spell, times a power of ten. Of all the ways to read a
text only one gives a decimal, and the sign and the underscores that it takes away first are no digits. -/
theorem ofString?_eq_decimal {text : String} {negative : Bool} {n : Nat} {e : Int}
    (h : ofString? text = some (.decimal negative n e)) :
    n = Nat.ofDigitChars 10 (mantissaDigits text.toList) 0 := by
  unfold ofString? ofChars? at h
  simp only at h
  split at h
  · cases h
  · split at h
    · cases h
    · split at h
      · split at h
        · exact absurd h hexadecimal?_ne_decimal
        · cases h
      · split at h
        · -- the reader has taken away the sign and the underscores
          rw [← mantissaDigits_splitSign, ← mantissaDigits_clean]
          exact decimal?_eq_some h
        · cases h

/-- The significant digits of a decimal text spell what it denotes, up to a power of ten. -/
theorem exists_significant {text : String} {negative : Bool} {n : Nat} {e : Int}
    (h : ofString? text = some (.decimal negative n e)) :
    ∃ m j, n = m * 10 ^ j ∧ m < 10 ^ (significantDigits text).length := by
  rw [ofString?_eq_decimal h]
  exact exists_ofDigitChars_eq fun _ => isDigit_of_mem_mantissaDigits

end Numeral

/-! ## The digits of a number's text -/

namespace Decimal

/-- In positional writing, zeros stand around the digits of a decimal: behind them for a large power of ten,
before them for a small one. -/
theorem exists_zeros_positional (d : Decimal) : ∃ a b, d.positional.1 ++ d.positional.2 =
    List.replicate a '0' ++ (d.digits ++ List.replicate b '0') := by
  unfold positional
  split
  · exact ⟨0, d.exponent.toNat, List.append_nil _⟩
  · simp only [List.take_append_drop]
    refine ⟨(-d.exponent).toNat + 1 - d.digits.length, 0, ?_⟩
    rw [List.replicate_zero, List.append_nil]

/-- An empty part behind the point is written as one zero, and any other as it is. Either way only zeros
come behind it, which are not significant. -/
theorem exists_fraction_eq (part : List Char) : ∃ b, fraction part = part ++ List.replicate b '0' := by
  cases part with
  | nil => exact ⟨1, rfl⟩
  | cons c cs => exact ⟨0, (List.append_nil _).symm⟩

end Decimal

namespace Binary32

open BinaryFormat

/-- The digits of the text of a number are those before and behind its point, since the text has a sign at
most besides, and no power of ten. -/
theorem mantissaDigits_text {x : Binary32} (h : x.isFinite = true) :
    Numeral.mantissaDigits x.text.toList =
      x.shortest.positional.1 ++ Decimal.fraction x.shortest.positional.2 := by
  obtain ⟨hpointed, -⟩ := Decimal.positional_spec x.shortest
  have hpart := Numeral.mantissaDigits_append hpointed.isDigit_part []
  rw [List.append_nil, show Numeral.mantissaDigits [] = [] from rfl, List.append_nil] at hpart
  rw [← Numeral.mantissaDigits_splitSign, splitSign_toList_text h,
    Numeral.mantissaDigits_append hpointed.isDigit_whole, Numeral.mantissaDigits_cons,
    if_neg (by decide), if_neg (by decide), hpart]

/-- The text of a number has no more significant digits than the shortest decimal: all that positional
writing and the part behind the point add to it is zeros. -/
theorem length_significantDigits_text_le {x : Binary32} (h : x.isFinite = true) :
    (Numeral.significantDigits x.text).length ≤ x.shortest.digits.length := by
  obtain ⟨a, b, hzeros⟩ := Decimal.exists_zeros_positional x.shortest
  obtain ⟨c, hfraction⟩ := Decimal.exists_fraction_eq x.shortest.positional.2
  unfold Numeral.significantDigits
  rw [mantissaDigits_text h, hfraction, ← List.append_assoc, hzeros, List.append_assoc,
    List.append_assoc, List.replicate_append_replicate]
  exact Numeral.length_withoutZeros_le a (b + c) _

/-! ## Reading decimal texts -/

section Parts

variable {negative : Bool} {magnitude : Nat} (h : magnitude < 2 ^ 31)

include h

/-- The sign is the highest bit, and a magnitude below it does not reach that far. -/
theorem toNat_bits_ofParts :
    (ofParts negative magnitude).bits.toNat = magnitude + if negative then 2 ^ 31 else 0 := by
  unfold ofParts
  rw [Nat.pow_eq, UInt32.toNat_ofNat']
  apply Nat.mod_eq_of_lt
  split <;> omega

theorem isNegative_ofParts : (ofParts negative magnitude).isNegative = negative := by
  unfold isNegative
  rw [toNat_bits_ofParts h, Nat.pow_eq]
  cases negative with
  | true => exact decide_eq_true (Nat.le_add_left _ _)
  | false => exact decide_eq_false (Nat.not_le.mpr h)

theorem magnitude_ofParts : (ofParts negative magnitude).magnitude = magnitude := by
  have hmod := Nat.mod_eq_of_lt h
  unfold Binary32.magnitude
  rw [toNat_bits_ofParts h, Nat.pow_eq]
  cases negative with
  | true => exact (Nat.add_mod_right _ _).trans hmod
  | false => exact hmod

end Parts

/-- The quotient of a decimal numeral is its value: a power of ten goes to the numerator or to the
denominator, by its sign. -/
theorem ratio_ten (n : Nat) (e : Int) :
    ((Numeral.ratio 10 n e).1 / (Numeral.ratio 10 n e).2 : ℚ) = n * 10 ^ e := by
  unfold Numeral.ratio
  simp only [Nat.pow_eq]
  push_cast
  rw [pow_toNat 10 (by norm_num) e]
  field_simp

/-- A decimal text is read by rounding, unless that leads beyond the finite numbers. Everything about
reading is then about rounding a quotient. -/
theorem read_decimal {text : String} {negative : Bool} {n : Nat} {e : Int}
    (h : Numeral.ofString? text = some (.decimal negative n e)) :
    read text =
      if single.round (Numeral.ratio 10 n e).1 (Numeral.ratio 10 n e).2 < single.infinity then
        .ok (ofParts negative (single.round (Numeral.ratio 10 n e).1 (Numeral.ratio 10 n e).2))
      else .error .outOfRange := by
  unfold read Numeral.read
  rw [h]
  unfold Numeral.round? Numeral.round?.finite
  by_cases hlt : single.round (Numeral.ratio 10 n e).1 (Numeral.ratio 10 n e).2 < single.infinity
  · rw [if_pos hlt]
    simp only [if_pos hlt]
    rfl
  · rw [if_neg hlt]
    simp only [if_neg hlt]
    rfl

/-- A decimal text is read as the number nearest to what it denotes, with the sign of the text. Rounding
works on magnitudes, so the sign is carried along apart from it. -/
theorem read_eq_ok_iff {text : String} {negative : Bool} {n : Nat} {e : Int}
    (h : Numeral.ofString? text = some (.decimal negative n e)) {x : Binary32} :
    read text = .ok x ↔
      x.isFinite = true ∧ x.isNegative = negative ∧ x.NearestEven (n * 10 ^ e) := by
  have hden : 0 < (Numeral.ratio 10 n e).2 := Nat.pow_pos (by decide)
  rw [read_decimal h, ← ratio_ten]
  constructor
  · intro hread
    split at hread
    · -- the rounded pattern is finite, so it fits below the bit of the sign
      next hlt =>
        obtain rfl := Except.ok.inj hread
        have hpattern := hlt.trans (by decide : single.infinity < 2 ^ 31)
        have hmagnitude : (ofParts negative _).magnitude = _ := magnitude_ofParts hpattern
        have hfinite : (ofParts negative _).isFinite = true :=
          decide_eq_true (by rw [hmagnitude]; exact hlt)
        refine ⟨hfinite, isNegative_ofParts hpattern, ?_⟩
        rw [← round_eq_magnitude_iff hfinite hden, hmagnitude]
    · cases hread
  · rintro ⟨hfinite, rfl, hnearest⟩
    rw [(round_eq_magnitude_iff hfinite hden).mpr hnearest, if_pos (of_decide_eq_true hfinite),
      ofParts_magnitude]

/-- **No text is shorter.** A text that is read as a number has a decimal of its significant digits in the
rounding interval of the number, and the shortest decimal has the fewest digits of all in it. -/
theorem length_significantDigits_le {x : Binary32} {text : String} {negative : Bool} {n : Nat}
    {e : Int} (h : Numeral.ofString? text = some (.decimal negative n e)) (hread : read text = .ok x) :
    (Numeral.significantDigits x.text).length ≤ (Numeral.significantDigits text).length := by
  obtain ⟨hfinite, -, hnearest⟩ := (read_eq_ok_iff h).mp hread
  rcases Nat.eq_zero_or_pos x.magnitude with hzero | hpos
  · -- the text of a zero has no significant digit
    have hnone : (Numeral.significantDigits x.text).length = 0 := by
      rw [← ofParts_magnitude x, hzero]
      cases x.isNegative <;> decide +kernel
    rw [hnone]
    exact Nat.zero_le _
  · -- the digits of the other text are a decimal in the interval, up to its power of ten
    obtain ⟨m, j, rfl, hm⟩ := Numeral.exists_significant h
    have hin := inInterval_of_nearestEven hpos hnearest
    rw [Nat.cast_mul, Nat.cast_pow, mul_assoc, Nat.cast_ofNat, ← zpow_natCast,
      ← zpow_add₀ (by norm_num)] at hin
    exact (length_significantDigits_text_le hfinite).trans
      (length_digits_shortest_le hfinite hpos hm hin)

/-! ## Appending to a buffer -/

/-- The characters of the plain text of a finite number: a point stands in it only if something comes behind
the point. -/
theorem toList_plain {x : Binary32} (h : x.isFinite = true) :
    x.plain.toList = x.signText ++ (x.shortest.positional.1 ++
      if x.shortest.positional.2.isEmpty then [] else '.' :: x.shortest.positional.2) := by
  unfold plain
  rw [if_neg (by rw [isNaN_eq_false_of_isFinite h]; exact Bool.false_ne_true),
    if_neg (by rw [isInfinite_eq_false_of_isFinite h]; exact Bool.false_ne_true)]
  rw [String.toList_ofList, List.append_assoc]

/-- A sign and digits pass the test for a whole number. Without a sign the first digit must not be taken for
one. -/
theorem isWhole_signText {x : Binary32} {digits : List Char} (hne : digits ≠ [])
    (h : ∀ c ∈ digits, c.isDigit = true) : isWhole (x.signText ++ digits) = true := by
  obtain ⟨c, ds, rfl⟩ := List.exists_cons_of_ne_nil hne
  have hall : (c :: ds).all Char.isDigit = true := List.all_eq_true.mpr h
  unfold signText isWhole
  cases x.isNegative with
  | true => exact hall
  | false =>
      -- a digit is not a minus sign
      have hsign : ¬ (c :: ds).head? = some '-' := by
        intro hc
        have hdigit := h c List.mem_cons_self
        rw [Option.some.inj hc] at hdigit
        exact absurd hdigit (by decide)
      simp only [Bool.false_eq_true, if_false, List.nil_append, if_neg hsign]
      exact hall

theorem point_not_mem_signText (x : Binary32) : '.' ∉ x.signText := by
  unfold signText
  cases x.isNegative <;> decide

/-- The text of a number is the plain text, with `.0` behind it if that is digits only. The text of a finite
number has a point anyway; infinities and the other patterns are told apart by their letters. -/
theorem text_eq_plain (x : Binary32) : x.text =
    if !x.plain.toList.contains '.' && isWhole x.plain.toList then x.plain ++ ".0" else x.plain := by
  rcases Nat.lt_trichotomy x.magnitude single.infinity with h | h | h
  · have hfinite : x.isFinite = true := decide_eq_true h
    obtain ⟨hpointed, -⟩ := Decimal.positional_spec x.shortest
    have hplain := toList_plain hfinite
    apply String.toList_injective
    rw [toList_text hfinite]
    -- whether a point is there already depends on the part behind it
    by_cases hpart : x.shortest.positional.2.isEmpty = true
    · rw [if_pos hpart, List.append_nil] at hplain
      have hpoint : x.plain.toList.contains '.' = false := by
        rw [← Bool.not_eq_true, List.contains_iff_mem, hplain, List.mem_append]
        rintro (hsign | hdigit)
        · exact point_not_mem_signText x hsign
        · exact absurd (hpointed.isDigit_whole _ hdigit) (by decide)
      have hwhole : isWhole x.plain.toList = true := by
        rw [hplain]
        exact isWhole_signText hpointed.whole_ne_nil hpointed.isDigit_whole
      rw [hpoint, hwhole, if_pos (by decide), String.toList_append, hplain, Decimal.fraction, if_pos hpart,
        List.append_assoc]
      rfl
    · rw [if_neg hpart] at hplain
      have hpoint : x.plain.toList.contains '.' = true := by
        rw [List.contains_iff_mem, hplain]
        exact List.mem_append_right _ (List.mem_append_right _ List.mem_cons_self)
      rw [hpoint, Bool.not_true, Bool.false_and, if_neg Bool.false_ne_true, hplain, Decimal.fraction,
        if_neg hpart]
  · have hnan : x.isNaN = false := decide_eq_false (by rw [h]; exact Nat.lt_irrefl _)
    have hinfinite : x.isInfinite = true := beq_iff_eq.mpr h
    unfold text plain
    rw [hnan, hinfinite, if_neg Bool.false_ne_true, if_neg Bool.false_ne_true, if_pos rfl, if_pos rfl]
    cases x.isNegative <;> decide
  · have hnan : x.isNaN = true := decide_eq_true h
    unfold text plain
    rw [if_pos hnan, if_pos hnan]
    decide

/-- Appending the text of a number to a buffer adds the text and looks at nothing else. The question whether
a point is lacking is put to what was appended, not to the buffer. -/
theorem appendTo_eq (x : Binary32) (buffer : String) : x.appendTo buffer = buffer ++ x.text := by
  have hadded : (buffer ++ x.plain).toList.drop buffer.length = x.plain.toList := by
    rw [String.toList_append, ← String.length_toList, List.drop_left]
  unfold appendTo
  simp only [hadded]
  rw [text_eq_plain]
  split
  · exact String.append_assoc
  · rfl

theorem appendAllTo_eq (buffer : String) (xs : List Binary32) :
    appendAllTo buffer xs = buffer ++ texts xs := by
  unfold texts
  cases xs with
  | nil => exact String.append_empty.symm
  | cons x xs =>
      rw [appendAllTo, appendTo_eq]
      -- what the fold has appended so far
      induction xs generalizing x buffer with
      | nil => rfl
      | cons y ys ih =>
          rw [List.foldl_cons, appendTo_eq, ih, List.map_cons, List.map_cons, List.map_cons,
            String.intercalate_cons_cons]
          simp only [String.append_assoc]

/-! ## The text of a number -/

/-- **Texts of finite numbers.** The text of a finite number is its sign, digits, a point and digits, without a
power of ten. What they spell is a quotient that the number is nearest to, with ties to even, and reading the
text gives the number back, bit by bit. Without zeros at the ends, no decimal text that is read as the number
has fewer digits. Appended to a buffer, the text stands behind what was there, whatever that is. -/
theorem text_shortest {x : Binary32} (h : x.isFinite = true) :
    (∃ whole part, Pointed whole part ∧ x.text.toList = x.signText ++ (whole ++ '.' :: part) ∧
      x.NearestEven (Nat.ofDigitChars 10 (whole ++ part) 0 / 10 ^ part.length)) ∧
    read x.text = .ok x ∧
    (∀ text negative n e, Numeral.ofString? text = some (.decimal negative n e) →
      read text = .ok x →
        (Numeral.significantDigits x.text).length ≤ (Numeral.significantDigits text).length) ∧
    ∀ buffer, x.appendTo buffer = buffer ++ x.text := by
  obtain ⟨hpointed, hvalue⟩ := Decimal.positional_spec x.shortest
  have hnearest : x.NearestEven (Nat.ofDigitChars 10
      (x.shortest.positional.1 ++ Decimal.fraction x.shortest.positional.2) 0 /
        10 ^ (Decimal.fraction x.shortest.positional.2).length) := by
    have hpow : 0 < 10 ^ (Decimal.fraction x.shortest.positional.2).length := Nat.pow_pos (by decide)
    have hround := round_shortest h hpow (by rw [hvalue, Nat.cast_pow]; rfl)
    rw [round_eq_magnitude_iff h hpow, Nat.cast_pow] at hround
    exact hround
  refine ⟨⟨_, _, hpointed, toList_text h, hnearest⟩, read_text_of_isFinite h, ?_, appendTo_eq x⟩
  intro text negative n e hdecimal hread
  exact length_significantDigits_le hdecimal hread

/-- At a power of two, where the interval is narrower below. -/
theorem text_shortest_powerOfTwo :
    (⟨0x0f800000⟩ : Binary32).isFinite = true ∧
    read "0.000000000000000000000000000012621775" = .ok ⟨0x0f800000⟩ ∧
    (∀ text negative n e, Numeral.ofString? text = some (.decimal negative n e) →
      read text = .ok ⟨0x0f800000⟩ → 8 ≤ (Numeral.significantDigits text).length) ∧
    (⟨0x0f800000⟩ : Binary32).appendTo "1." = "1.0.000000000000000000000000000012621775" := by
  have htext : (⟨0x0f800000⟩ : Binary32).text = "0.000000000000000000000000000012621775" := by
    decide +kernel
  have hfinite : (⟨0x0f800000⟩ : Binary32).isFinite = true := by decide
  obtain ⟨-, hread, hfewest, happend⟩ := text_shortest hfinite
  rw [htext] at hread hfewest
  refine ⟨hfinite, hread, hfewest, ?_⟩
  rw [happend, htext]
  rfl

end Binary32

end ShaderExpr
