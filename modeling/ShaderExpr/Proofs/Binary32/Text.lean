import Mathlib.Data.List.TakeWhile
import ShaderExpr.Binary32.Numeral
import ShaderExpr.Proofs.Binary32.Shortest

/-!
# The text of a number reads back

The text of a finite number is a sign, digits, a point and digits. Reading it passes the sign, finds
neither a name nor a hexadecimal start nor underscores, takes the digits and rounds the quotient that
they spell. That quotient is the shortest decimal of the number, which lies in its rounding interval.

* **`Pointed`** — digits on both sides of a point.
* **`Numeral.ofChars?_pointed`** — such a text is read as the number that its digits spell.
* **`Decimal.positional_spec`**, **`Binary32.toList_text`** — the text of a finite number has this form
  and spells its shortest decimal.
* **`read_text`** — reading the text of a number gives the number; all NaNs are read as one.
-/

namespace ShaderExpr

/-- Digits on both sides of a point, at least one on each. -/
structure Pointed (whole part : List Char) : Prop where
  whole_ne_nil : whole ≠ []
  part_ne_nil : part ≠ []
  isDigit_whole : ∀ c ∈ whole, c.isDigit = true
  isDigit_part : ∀ c ∈ part, c.isDigit = true

namespace Numeral

/-! ## Digits -/

/-- Digits have the codes from 48 to 57. Tests on characters compare words of 32 bits, so the bounds are
carried over to naturals once. -/
theorem toNat_of_isDigit {c : Char} (h : c.isDigit = true) : 48 ≤ c.toNat ∧ c.toNat ≤ 57 := by
  unfold Char.isDigit at h
  rw [Bool.and_eq_true, decide_eq_true_eq, decide_eq_true_eq] at h
  exact ⟨UInt32.le_iff_toNat_le.mp h.1, UInt32.le_iff_toNat_le.mp h.2⟩

/-- The value of a digit is the distance of its code from that of zero, and it is always below the
base ten. -/
theorem digit?_ten {c : Char} (h : c.isDigit = true) : digit? 10 c = some (c.toNat - 48) := by
  obtain ⟨hlow, hhigh⟩ := toNat_of_isDigit h
  have hrange : ('0' ≤ c && c ≤ '9') = true := by
    rw [Bool.and_eq_true, decide_eq_true_eq, decide_eq_true_eq]
    exact ⟨UInt32.le_iff_toNat_le.mpr hlow, UInt32.le_iff_toNat_le.mpr hhigh⟩
  unfold digit?
  simp only [hrange, if_true]
  rw [if_pos (by omega)]

theorem isDigit_ten_of_isDigit {c : Char} (h : c.isDigit = true) : isDigit 10 c = true := by
  unfold isDigit
  rw [digit?_ten h]
  rfl

theorem isDigit_ten_point : isDigit 10 '.' = false := by decide

/-- The natural that digits spell, as the library has it. Both take the digits from the left, so the
induction is on the digits with any number before them. -/
theorem digitsFrom_ten {ds : List Char} (h : ∀ c ∈ ds, c.isDigit = true) (n : Nat) :
    digitsFrom 10 n ds = Nat.ofDigitChars 10 ds n := by
  induction ds generalizing n with
  | nil => rfl
  | cons c ds ih =>
      have hrest := ih fun d hd => h d (List.mem_cons_of_mem _ hd)
      rw [Nat.ofDigitChars_cons, ← hrest]
      unfold digitsFrom
      rw [List.foldl_cons, digit?_ten (h c List.mem_cons_self), Option.getD_some, Nat.mul_comm]
      rfl

/-- Underscores have to stand between digits, and a text without underscores keeps to that, whatever came
before it. -/
theorem separated_of_not_mem {base : Nat} {cs : List Char} (h : '_' ∉ cs) (after : Bool) :
    separated base after cs = true := by
  induction cs generalizing after with
  | nil => rfl
  | cons c cs ih =>
      have hc : (c == '_') = false := by
        rw [beq_eq_false_iff_ne]
        rintro rfl
        exact h List.mem_cons_self
      unfold separated
      rw [hc, if_neg Bool.false_ne_true]
      exact ih (fun hmem => h (List.mem_cons_of_mem _ hmem)) _

/-! ## Digits with a point -/

section Pointed

variable {whole part : List Char} (h : Pointed whole part)

include h

/-- The first run of digits ends at the point. -/
theorem takeWhile_pointed : (whole ++ '.' :: part).takeWhile (isDigit 10) = whole := by
  rw [List.takeWhile_append_of_pos fun c hc => isDigit_ten_of_isDigit (h.isDigit_whole c hc),
    List.takeWhile_cons_of_neg (by rw [isDigit_ten_point]; exact Bool.false_ne_true),
    List.append_nil]

theorem dropWhile_pointed : (whole ++ '.' :: part).dropWhile (isDigit 10) = '.' :: part := by
  rw [List.dropWhile_append_of_pos fun c hc => isDigit_ten_of_isDigit (h.isDigit_whole c hc),
    List.dropWhile_cons_of_neg (by rw [isDigit_ten_point]; exact Bool.false_ne_true)]

/-- Reading takes the digits on both sides of the point, counts those behind it, and leaves nothing. -/
theorem coefficient?_pointed :
    coefficient? 10 (whole ++ '.' :: part) =
      some (Nat.ofDigitChars 10 (whole ++ part) 0, part.length, []) := by
  have hdigits : ∀ c ∈ whole ++ part, c.isDigit = true := by
    intro c hc
    rcases List.mem_append.mp hc with hc | hc
    · exact h.isDigit_whole c hc
    · exact h.isDigit_part c hc
  have htake : part.takeWhile (isDigit 10) = part :=
    List.takeWhile_eq_self_iff.mpr fun c hc => isDigit_ten_of_isDigit (h.isDigit_part c hc)
  have hdrop : part.dropWhile (isDigit 10) = [] :=
    List.dropWhile_eq_nil_iff.mpr fun c hc => isDigit_ten_of_isDigit (h.isDigit_part c hc)
  have hwhole : whole.isEmpty = false := by
    rw [List.isEmpty_eq_false_iff]
    exact h.whole_ne_nil
  unfold coefficient?
  simp only [takeWhile_pointed h, dropWhile_pointed h, htake, hdrop, hwhole, Bool.false_and,
    Bool.false_eq_true, if_false]
  rw [digitsFrom_ten hdigits]

/-- There is no underscore to check or to drop: all characters are digits, but for the point. -/
theorem not_underscore_mem : '_' ∉ whole ++ '.' :: part := by
  rw [List.mem_append, List.mem_cons]
  rintro (hmem | hpoint | hmem)
  · exact absurd (h.isDigit_whole _ hmem) (by decide)
  · exact absurd hpoint (by decide)
  · exact absurd (h.isDigit_part _ hmem) (by decide)

omit h in
/-- A text with a point in it is not the name of infinity or of NaN, since none of these names has a
point. -/
theorem word_ne {word : String} (hword : '.' ∉ word.toList) :
    (String.ofList ((whole ++ '.' :: part).map Char.toLower) == word) = false := by
  rw [beq_eq_false_iff_ne]
  rintro rfl
  apply hword
  rw [String.toList_ofList]
  exact List.mem_map.mpr ⟨'.', List.mem_append_right _ List.mem_cons_self, by decide⟩

/-- The second character is a digit or the point, so no hexadecimal digits follow. -/
theorem hexadecimalBody?_pointed : hexadecimalBody? (whole ++ '.' :: part) = none := by
  obtain ⟨c, ds, rfl⟩ := List.exists_cons_of_ne_nil h.whole_ne_nil
  cases ds with
  | nil =>
      unfold hexadecimalBody?
      split <;> simp_all
  | cons d ds =>
      have hd := h.isDigit_whole d (List.mem_cons_of_mem _ List.mem_cons_self)
      unfold hexadecimalBody?
      split
      · rename_i heq
        rw [List.cons_append, List.cons_append, List.cons.injEq, List.cons.injEq] at heq
        exact absurd hd (by rw [heq.2.1]; decide)
      · rename_i heq
        rw [List.cons_append, List.cons_append, List.cons.injEq, List.cons.injEq] at heq
        exact absurd hd (by rw [heq.2.1]; decide)
      · rfl

/-- Digits with a point after a sign are read as the quotient that they spell: none of the other forms of a
number comes first. -/
theorem ofChars?_pointed {cs : List Char} {negative : Bool}
    (hsign : splitSign cs = (negative, whole ++ '.' :: part)) :
    ofChars? cs =
      some (.decimal negative (Nat.ofDigitChars 10 (whole ++ part) 0) (-(part.length : Int))) := by
  -- no name, no hexadecimal start, no underscores to check or to drop
  have hunderscore := not_underscore_mem h
  have hclean : (whole ++ '.' :: part).filter (· != '_') = whole ++ '.' :: part :=
    List.filter_eq_self.mpr fun c hc => bne_iff_ne.mpr fun heq => hunderscore (heq ▸ hc)
  unfold ofChars?
  rw [hsign]
  simp only [word_ne (by decide : '.' ∉ "inf".toList),
    word_ne (by decide : '.' ∉ "infinity".toList), word_ne (by decide : '.' ∉ "nan".toList),
    Bool.or_self, Bool.false_and, Bool.false_eq_true, if_false, hexadecimalBody?_pointed h,
    separated_of_not_mem hunderscore, if_true, hclean]
  unfold decimal?
  rw [coefficient?_pointed h]

end Pointed

end Numeral

/-! ## Positional writing -/

namespace Decimal

theorem isDigit_of_mem_digits {d : Decimal} {c : Char} (h : c ∈ d.digits) : c.isDigit = true :=
  Nat.isDigit_of_mem_toDigits (by decide) (by decide) h

theorem isDigit_of_mem_zeros {n : Nat} {c : Char} (h : c ∈ List.replicate n '0') :
    c.isDigit = true := by
  rw [List.eq_of_mem_replicate h]
  rfl

/-- The digits after the point, with a zero if there are none. -/
def fraction (part : List Char) : List Char := if part.isEmpty then ['0'] else part

/-- A decimal without a fraction is its digits and as many zeros as its exponent says. Behind the point one
zero is written. -/
theorem positional_of_nonneg {d : Decimal} (h : 0 ≤ d.exponent) :
    Pointed d.positional.1 (fraction d.positional.2) ∧
      (Nat.ofDigitChars 10 (d.positional.1 ++ fraction d.positional.2) 0 : ℚ) =
        d.coefficient * 10 ^ d.exponent * 10 ^ (fraction d.positional.2).length := by
  have hpos : d.positional = (d.digits ++ List.replicate d.exponent.toNat '0', []) := if_pos h
  have hfraction : fraction d.positional.2 = ['0'] := by
    rw [hpos]
    rfl
  rw [hfraction, hpos]
  refine ⟨⟨?_, List.cons_ne_nil _ _, ?_, ?_⟩, ?_⟩
  · exact List.append_ne_nil_of_left_ne_nil Nat.toDigits_ne_nil _
  · intro c hc
    rcases List.mem_append.mp hc with hc | hc
    · exact isDigit_of_mem_digits hc
    · exact isDigit_of_mem_zeros hc
  · intro c hc
    rw [List.mem_singleton.mp hc]
    rfl
  · -- the zeros behind the digits multiply by the power of ten of the exponent, and that behind the point
    -- by one more
    have hdigits : Nat.ofDigitChars 10 d.digits 0 = d.coefficient := Nat.ofDigitChars_ten_toDigits
    rw [Nat.ofDigitChars_append, Nat.ofDigitChars_append, hdigits, Nat.ofDigitChars_replicate_zero,
      show ['0'] = List.replicate 1 '0' from rfl, Nat.ofDigitChars_replicate_zero,
      List.length_replicate]
    push_cast
    rw [← zpow_natCast (10 : ℚ) d.exponent.toNat, Int.toNat_of_nonneg h]
    ring

/-- A decimal with a fraction is its digits behind enough zeros, cut as many places from the end as its
exponent says. Cutting changes none of the digits, so together they still spell the coefficient. -/
theorem positional_of_neg {d : Decimal} (h : d.exponent < 0) :
    Pointed d.positional.1 (fraction d.positional.2) ∧
      (Nat.ofDigitChars 10 (d.positional.1 ++ fraction d.positional.2) 0 : ℚ) =
        d.coefficient * 10 ^ d.exponent * 10 ^ (fraction d.positional.2).length := by
  obtain ⟨places, hplaces⟩ : ∃ places : Nat, d.exponent = -(places : Int) :=
    ⟨(-d.exponent).toNat, by omega⟩
  have htoNat : (-d.exponent).toNat = places := by omega
  -- the digits with zeros before them, long enough to leave one before the point
  generalize hds : List.replicate (places + 1 - d.digits.length) '0' ++ d.digits = ds
  have hlength : places < ds.length := by
    rw [← hds, List.length_append, List.length_replicate]
    omega
  have hpos : d.positional = (ds.take (ds.length - places), ds.drop (ds.length - places)) := by
    rw [← hds, ← htoNat]
    exact if_neg (by omega)
  have hisDigit : ∀ c ∈ ds, c.isDigit = true := by
    intro c hc
    rw [← hds] at hc
    rcases List.mem_append.mp hc with hc | hc
    · exact isDigit_of_mem_zeros hc
    · exact isDigit_of_mem_digits hc
  have hpart : (ds.drop (ds.length - places)).length = places := by
    rw [List.length_drop]
    omega
  have hne : ds.drop (ds.length - places) ≠ [] := by
    rw [← List.length_pos_iff, hpart]
    omega
  have hfraction : fraction d.positional.2 = ds.drop (ds.length - places) := by
    rw [hpos]
    exact if_neg (by rwa [List.isEmpty_iff])
  rw [hfraction, hpos]
  refine ⟨⟨?_, hne, fun c hc => hisDigit c (List.mem_of_mem_take hc),
    fun c hc => hisDigit c (List.mem_of_mem_drop hc)⟩, ?_⟩
  · rw [← List.length_pos_iff, List.length_take]
    omega
  · -- zeros before the digits do not change what they spell
    have hvalue : Nat.ofDigitChars 10 ds 0 = d.coefficient := by
      rw [← hds, Nat.ofDigitChars_append, Nat.ofDigitChars_replicate_zero, Nat.mul_zero]
      exact Nat.ofDigitChars_ten_toDigits
    rw [List.take_append_drop, hvalue, hpart, hplaces, zpow_neg, zpow_natCast]
    field_simp

/-- **Positional writing spells a decimal**: there are digits on both sides of the point, and what they
spell is the decimal times a power of ten for each place behind the point. -/
theorem positional_spec (d : Decimal) :
    Pointed d.positional.1 (fraction d.positional.2) ∧
      (Nat.ofDigitChars 10 (d.positional.1 ++ fraction d.positional.2) 0 : ℚ) =
        d.coefficient * 10 ^ d.exponent * 10 ^ (fraction d.positional.2).length := by
  rcases le_or_gt 0 d.exponent with h | h
  · exact positional_of_nonneg h
  · exact positional_of_neg h

end Decimal

/-! ## The round trip -/

namespace Binary32

open BinaryFormat

theorem isNaN_eq_false_of_isFinite {x : Binary32} (h : x.isFinite = true) : x.isNaN = false :=
  decide_eq_false (Nat.lt_asymm (of_decide_eq_true h))

theorem isInfinite_eq_false_of_isFinite {x : Binary32} (h : x.isFinite = true) :
    x.isInfinite = false :=
  beq_eq_false_iff_ne.mpr (Nat.ne_of_lt (of_decide_eq_true h))

/-- The text of a finite number is its sign and the digits of its shortest decimal around a point. -/
theorem toList_text {x : Binary32} (h : x.isFinite = true) :
    x.text.toList = x.signText ++ (x.shortest.positional.1 ++
      '.' :: Decimal.fraction x.shortest.positional.2) := by
  unfold text
  rw [if_neg (by rw [isNaN_eq_false_of_isFinite h]; exact Bool.false_ne_true),
    if_neg (by rw [isInfinite_eq_false_of_isFinite h]; exact Bool.false_ne_true)]
  rw [String.toList_ofList, List.append_assoc]
  rfl

/-- The sign of a number is taken off again. Where there is none, the first character is a digit and not
taken for one. -/
theorem splitSign_text {x : Binary32} {whole rest : List Char} (hne : whole ≠ [])
    (hdigits : ∀ c ∈ whole, c.isDigit = true) :
    Numeral.splitSign (x.signText ++ (whole ++ rest)) = (x.isNegative, whole ++ rest) := by
  obtain ⟨c, ds, rfl⟩ := List.exists_cons_of_ne_nil hne
  have hc := hdigits c List.mem_cons_self
  unfold signText
  cases x.isNegative with
  | true => rfl
  | false =>
      -- neither sign of the reader is a digit
      rw [if_neg Bool.false_ne_true, List.nil_append, List.cons_append]
      unfold Numeral.splitSign
      split
      · rename_i heq
        cases heq
        exact absurd hc (by decide)
      · rename_i heq
        cases heq
        exact absurd hc (by decide)
      · rfl

/-- Behind its sign, the text of a finite number is digits around a point. -/
theorem splitSign_toList_text {x : Binary32} (h : x.isFinite = true) :
    Numeral.splitSign x.text.toList = (x.isNegative,
      x.shortest.positional.1 ++ '.' :: Decimal.fraction x.shortest.positional.2) := by
  obtain ⟨hpointed, -⟩ := Decimal.positional_spec x.shortest
  rw [toList_text h]
  exact splitSign_text hpointed.whole_ne_nil hpointed.isDigit_whole

/-- A number is what its sign and its magnitude make: the highest bit of its pattern and the other bits. -/
theorem ofParts_magnitude (x : Binary32) : ofParts x.isNegative x.magnitude = x := by
  have hlt : x.bits.toNat < 2 ^ 32 := x.bits.toNat_lt
  have hsum : (x.magnitude + if x.isNegative then 2 ^ 31 else 0) = x.bits.toNat := by
    unfold magnitude isNegative
    rw [Nat.pow_eq]
    -- the pattern is split at its highest bit
    by_cases hsign : 2 ^ 31 ≤ x.bits.toNat
    · rw [if_pos (decide_eq_true hsign)]
      omega
    · rw [if_neg (by rw [decide_eq_false hsign]; exact Bool.false_ne_true)]
      omega
  unfold ofParts
  rw [Nat.pow_eq, hsum, UInt32.ofNat_toNat]

/-- Rounding the shortest decimal gives the number's own pattern, since the decimal lies in the rounding
interval of the number, and zero is zero. -/
theorem round_shortest {x : Binary32} (h : x.isFinite = true) {n d : Nat} (hd : 0 < d)
    (hvalue : (n : ℚ) = x.shortest.coefficient * 10 ^ x.shortest.exponent * d) :
    single.round n d = x.magnitude := by
  have hlt : x.magnitude < single.infinity := of_decide_eq_true h
  rcases Nat.eq_zero_or_pos x.magnitude with hzero | hpos
  · -- zero has no interval; its digits are zeros
    have hshortest : x.shortest = ⟨0, 0⟩ := by
      unfold shortest significand exponent
      rw [hzero]
      rfl
    rw [hshortest, Nat.cast_zero, zero_mul, zero_mul, Nat.cast_eq_zero] at hvalue
    rw [hvalue, hzero]
    rfl
  · have hd0 : (d : ℚ) ≠ 0 := Nat.cast_ne_zero.mpr (Nat.ne_of_gt hd)
    have hin : InInterval x.significand x.exponent (n / d) := by
      rw [hvalue, mul_div_cancel_right₀ _ hd0]
      exact shortest_spec hpos
    rw [round_eq_encode (canonical_decode hpos) hd hin]
    exact encode_decode hlt

/-- Reading the text of a finite number gives its bits again, minus zero included. The text spells the
shortest decimal, the reader rounds what the text spells, and the sign is passed through. -/
theorem read_text_of_isFinite {x : Binary32} (h : x.isFinite = true) : read x.text = .ok x := by
  obtain ⟨hpointed, hvalue⟩ := Decimal.positional_spec x.shortest
  have hnumeral := Numeral.ofChars?_pointed hpointed (splitSign_toList_text h)
  have hround : single.round _ (10 ^ (Decimal.fraction x.shortest.positional.2).length) =
      x.magnitude :=
    round_shortest h (Nat.pow_pos (by decide)) (by rw [hvalue, Nat.cast_pow]; rfl)
  unfold read Numeral.read Numeral.ofString?
  rw [hnumeral]
  unfold Numeral.round? Numeral.round?.finite Numeral.ratio
  simp only [Nat.pow_eq, Int.neg_neg, Int.toNat_natCast, Int.toNat_neg_natCast, Nat.pow_zero,
    Nat.mul_one, hround]
  rw [if_pos (of_decide_eq_true h)]
  -- what was rounded is the magnitude, and the sign was read beside it
  show Except.ok (ofParts x.isNegative x.magnitude) = .ok x
  rw [ofParts_magnitude]

/-- The number that stands for it in arithmetic: all NaNs are one. -/
def canonical (x : Binary32) : Binary32 := if x.isNaN then nan else x

/-- Reading the text of a number gives the number, up to the bits of a NaN. Infinities and NaN are written
as names, which are read before any digits. -/
theorem read_text (x : Binary32) : read x.text = .ok x.canonical := by
  unfold canonical
  rcases Nat.lt_trichotomy x.magnitude single.infinity with h | h | h
  · have hfinite : x.isFinite = true := decide_eq_true h
    rw [isNaN_eq_false_of_isFinite hfinite, if_neg Bool.false_ne_true]
    exact read_text_of_isFinite hfinite
  · have hnan : x.isNaN = false := decide_eq_false (by rw [h]; exact Nat.lt_irrefl _)
    have hinfinite : x.isInfinite = true := beq_iff_eq.mpr h
    have hx := ofParts_magnitude x
    unfold text
    rw [hnan, hinfinite, if_neg Bool.false_ne_true, if_neg Bool.false_ne_true, if_pos rfl]
    rw [h] at hx
    -- one of two numbers, each of which is read by its name
    generalize x.isNegative = negative at hx ⊢
    subst hx
    cases negative <;> rfl
  · have hnan : x.isNaN = true := decide_eq_true h
    unfold text
    rw [if_pos hnan, if_pos hnan]
    rfl

end Binary32

end ShaderExpr
