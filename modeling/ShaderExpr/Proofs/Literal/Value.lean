import ShaderExpr.Evaluator
import ShaderExpr.Proofs.Binary32.Text
import ShaderExpr.Proofs.Outcome
import ShaderExpr.Proofs.Value

/-!
# The value of a written literal

A literal is written with a comma and a blank between its numbers. No text of a number has a comma, a
blank or a parenthesis in it, so cutting the text at the commas and trimming the pieces gives the texts
of the numbers again, and each of them reads back.

* **`isDelimiter_of_mem_text`** — what no text of a number contains.
* **`fields_texts`** — the numbers between the parentheses are those that were written.
* **`value_vectorText`**, **`value_shapeText`** — a literal with as many components as its shape has
  evaluates to the value of that shape with these components.
-/

namespace ShaderExpr

/-! ## Cutting at separators -/

namespace Text

theorem splitChars_of_not_mem {sep : Char} {cs : List Char} (h : sep ∉ cs) :
    splitChars sep cs = [cs] := by
  induction cs with
  | nil => rfl
  | cons c cs ih =>
      have hc : (c == sep) = false := by
        rw [beq_eq_false_iff_ne]
        rintro rfl
        exact h List.mem_cons_self
      rw [splitChars, ih fun hmem => h (List.mem_cons_of_mem _ hmem)]
      simp only [hc, Bool.false_eq_true, if_false]

theorem splitChars_ne_nil (sep : Char) (cs : List Char) : splitChars sep cs ≠ [] := by
  cases cs with
  | nil => exact List.cons_ne_nil _ _
  | cons c cs =>
      unfold splitChars
      split
      · exact List.cons_ne_nil _ _
      · split <;> exact List.cons_ne_nil _ _

/-- The first separator ends the first piece. Induction on the piece, which has no separator in
it. -/
theorem splitChars_append {sep : Char} {cs : List Char} (h : sep ∉ cs) (rest : List Char) :
    splitChars sep (cs ++ sep :: rest) = cs :: splitChars sep rest := by
  induction cs with
  | nil =>
      -- there is always a piece to put the character before, so the match on it is decided
      obtain ⟨piece, pieces, hrest⟩ := List.exists_cons_of_ne_nil (splitChars_ne_nil sep rest)
      rw [List.nil_append, splitChars, hrest]
      simp only [beq_self_eq_true, if_true]
  | cons c cs ih =>
      have hc : (c == sep) = false := by
        rw [beq_eq_false_iff_ne]
        rintro rfl
        exact h List.mem_cons_self
      rw [List.cons_append, splitChars, ih fun hmem => h (List.mem_cons_of_mem _ hmem)]
      simp only [hc, Bool.false_eq_true, if_false]

/-- Texts joined with commas and blanks are cut at the commas. The blanks stay, one before each
piece but the first. -/
theorem splitChars_intercalate {p : List Char} {ps : List (List Char)} (hp : ',' ∉ p)
    (hps : ∀ q ∈ ps, ',' ∉ q) :
    splitChars ',' ([',', ' '].intercalate (p :: ps)) = p :: ps.map (' ' :: ·) := by
  induction ps generalizing p with
  | nil =>
      rw [List.intercalate_singleton]
      exact splitChars_of_not_mem hp
  | cons q qs ih =>
      have hq : ',' ∉ ' ' :: q := by
        rw [List.mem_cons]
        rintro (hblank | hmem)
        · exact absurd hblank (by decide)
        · exact hps q List.mem_cons_self hmem
      have hrest := ih hq fun r hr => hps r (List.mem_cons_of_mem _ hr)
      -- the comma ends the first piece and the blank begins the next
      have hjoin : [',', ' '].intercalate (p :: q :: qs) =
          p ++ ',' :: [',', ' '].intercalate ((' ' :: q) :: qs) := by
        cases qs <;> simp [List.intercalate_cons_cons]
      rw [hjoin, splitChars_append hp, hrest]
      rfl

theorem dropWhile_isBlank {cs : List Char} (h : ∀ c ∈ cs, isBlank c = false) :
    cs.dropWhile isBlank = cs := by
  cases cs with
  | nil => rfl
  | cons c cs =>
      rw [List.dropWhile_cons_of_neg]
      rw [h c List.mem_cons_self]
      exact Bool.false_ne_true

/-- A text without blanks has none around it. -/
theorem trimChars_of_not_blank {cs : List Char} (h : ∀ c ∈ cs, isBlank c = false) :
    trimChars cs = cs := by
  unfold trimChars
  rw [dropWhile_isBlank h, dropWhile_isBlank fun c hc => h c (List.mem_reverse.mp hc),
    List.reverse_reverse]

theorem trimChars_blank_cons (cs : List Char) : trimChars (' ' :: cs) = trimChars cs := by
  unfold trimChars
  rw [List.dropWhile_cons_of_pos (by decide)]

end Text

/-! ## What numbers are written with -/

namespace Literal

/-- A character that separates the parts of a literal. -/
def isDelimiter (c : Char) : Bool := c == ',' || c == '(' || Text.isBlank c

/-- A digit separates nothing. Blanks have codes below and above those of the digits. -/
theorem isDelimiter_of_isDigit {c : Char} (h : c.isDigit = true) : isDelimiter c = false := by
  obtain ⟨hlow, hhigh⟩ := Numeral.toNat_of_isDigit h
  have hcomma : c ≠ ',' := by
    rintro rfl
    exact absurd h (by decide)
  have hparen : c ≠ '(' := by
    rintro rfl
    exact absurd h (by decide)
  unfold isDelimiter Text.isBlank
  rw [beq_eq_false_iff_ne.mpr hcomma, beq_eq_false_iff_ne.mpr hparen]
  simp only [Bool.false_or, Bool.or_eq_false_iff, Bool.and_eq_false_iff, decide_eq_false_iff_not,
    beq_eq_false_iff_ne]
  omega

/-- **No text of a number has a separator in it.** A finite number has a sign, digits and a point;
infinities and NaN have names. -/
theorem isDelimiter_of_mem_text {x : Binary32} {c : Char} (h : c ∈ x.text.toList) :
    isDelimiter c = false := by
  by_cases hfinite : x.isFinite = true
  · obtain ⟨hpointed, -⟩ := Decimal.positional_spec x.shortest
    rw [Binary32.toList_text hfinite, List.mem_append, List.mem_append, List.mem_cons] at h
    -- the sign, the digits before the point, the point and the digits behind it
    rcases h with hsign | hwhole | rfl | hpart
    · unfold Binary32.signText at hsign
      split at hsign
      · rw [List.mem_singleton.mp hsign]
        decide
      · cases hsign
    · exact isDelimiter_of_isDigit (hpointed.isDigit_whole c hwhole)
    · decide
    · exact isDelimiter_of_isDigit (hpointed.isDigit_part c hpart)
  · -- what is not finite is written as a word
    have htext : x.text = "NaN" ∨ x.text = "-Inf" ∨ x.text = "+Inf" := by
      unfold Binary32.text
      by_cases hnan : x.isNaN = true
      · exact .inl (if_pos hnan)
      · have hinfinite : x.isInfinite = true := by
          unfold Binary32.isFinite at hfinite
          unfold Binary32.isNaN at hnan
          rw [decide_eq_true_eq] at hfinite hnan
          exact beq_iff_eq.mpr (Nat.le_antisymm (Nat.not_lt.mp hnan) (Nat.not_lt.mp hfinite))
        rw [if_neg hnan, if_pos hinfinite]
        split
        · exact .inr (.inl rfl)
        · exact .inr (.inr rfl)
    have hwords : (["NaN", "-Inf", "+Inf"].all fun word =>
        word.toList.all fun c => !isDelimiter c) = true := by decide
    have hword := List.all_eq_true.mp hwords x.text (by simpa using htext)
    exact Bool.not_eq_true' _ |>.mp (List.all_eq_true.mp hword c h)

theorem not_comma_mem_text (x : Binary32) : ',' ∉ x.text.toList := by
  intro h
  exact absurd (isDelimiter_of_mem_text h) (by decide)

theorem not_paren_mem_text (x : Binary32) : '(' ∉ x.text.toList := by
  intro h
  exact absurd (isDelimiter_of_mem_text h) (by decide)

theorem trimChars_text (x : Binary32) : Text.trimChars x.text.toList = x.text.toList := by
  apply Text.trimChars_of_not_blank
  intro c hc
  have h := isDelimiter_of_mem_text hc
  unfold isDelimiter at h
  rw [Bool.or_eq_false_iff] at h
  exact h.2

/-- Cutting the texts at the commas leaves a blank before each but the first. -/
theorem splitChars_texts (x : Binary32) (xs : List Binary32) :
    Text.splitChars ',' (Binary32.texts (x :: xs)).toList =
      x.text.toList :: xs.map fun y => ' ' :: y.text.toList := by
  unfold Binary32.texts
  rw [String.toList_intercalate, List.map_cons, List.map_cons,
    show ", ".toList = [',', ' '] from rfl, Text.splitChars_intercalate (not_comma_mem_text x)]
  · rw [List.map_map, List.map_map]
    rfl
  · intro q hq
    obtain ⟨s, hs, rfl⟩ := List.mem_map.mp hq
    obtain ⟨y, _, rfl⟩ := List.mem_map.mp hs
    exact not_comma_mem_text y

/-- **The fields of a literal are the numbers that were written.** Cutting and trimming give their
texts again, and each text reads back as the number, with one NaN for all. -/
theorem fields_texts (text : String) {comps : List Binary32} (hne : comps ≠ []) :
    fields text (Binary32.texts comps).toList =
      .ok (comps.map fun x => Value.ofFloat x.canonical) := by
  obtain ⟨x, xs, rfl⟩ := List.exists_cons_of_ne_nil hne
  unfold fields
  rw [splitChars_texts, List.mapM_cons, List.mapM_map]
  -- the blank before each piece is trimmed, and the piece reads back
  simp only [trimChars_text, Function.comp_def, Text.trimChars_blank_cons, String.ofList_toList,
    Binary32.read_text]
  rw [mapM_eq_ok fun y _ => rfl]
  rfl

/-! ## Values of literals -/

/-- A number that stands alone has no parenthesis in it and is read as a number. -/
theorem value_text (x : Binary32) : value x.text = .ok (Value.ofFloat x.canonical) := by
  have hdrop : x.text.toList.dropWhile (· != '(') = [] := by
    rw [List.dropWhile_eq_nil_iff]
    intro c hc
    rw [bne_iff_ne]
    rintro rfl
    exact not_paren_mem_text x hc
  unfold value
  simp only [hdrop, Binary32.read_text]

theorem flatMap_comps_ofFloat (xs : List Binary32) :
    (xs.map Value.ofFloat).flatMap Value.comps = xs := by
  induction xs with
  | nil => rfl
  | cons x xs ih =>
      rw [List.map_cons, List.flatMap_cons, ih, Value.comps_ofFloat, List.singleton_append]

/-- Before the first parenthesis stands the name, and between it and the last the body. What the
fields of the body are is left open here. -/
theorem value_eq_construct {s : Shape} {body : String} {args : List Value}
    (h : fields (s.name ++ "(" ++ body ++ ")") body.toList = .ok args) :
    value (s.name ++ "(" ++ body ++ ")") = Value.construct s args := by
  -- no name of a shape has a parenthesis in it
  have hname : ∀ c ∈ s.name.toList, (c != '(') = true := by
    rw [← List.all_eq_true]
    cases s <;> decide
  have htoList : (s.name ++ "(" ++ body ++ ")").toList =
      s.name.toList ++ '(' :: (body.toList ++ [')']) := by
    rw [String.toList_append, String.toList_append, String.toList_append, List.append_assoc,
      List.append_assoc]
    rfl
  have htake : (s.name.toList ++ '(' :: (body.toList ++ [')'])).takeWhile (· != '(') =
      s.name.toList := by
    rw [List.takeWhile_append_of_pos hname, List.takeWhile_cons_of_neg (by decide), List.append_nil]
  have hdrop : (s.name.toList ++ '(' :: (body.toList ++ [')'])).dropWhile (· != '(') =
      '(' :: (body.toList ++ [')']) := by
    rw [List.dropWhile_append_of_pos hname, List.dropWhile_cons_of_neg (by decide)]
  unfold value
  simp only [htoList, htake, hdrop, List.getLast?_concat, bne_self_eq_false, Bool.false_eq_true,
    if_false, String.ofList_toList, Shape.ofName?_name, List.dropLast_concat, h]
  rfl

/-- As many numbers as a shape has components make the value of it that consists of them. -/
theorem construct_ofFloat {s : Shape} {xs : List Binary32} (hlength : xs.length = s.arity) :
    Value.construct s (xs.map Value.ofFloat) = .ok (Value.ofList s xs) := by
  have hsum : ((xs.map Value.ofFloat).map fun v => v.shape.arity).sum = s.arity := by
    rw [← Value.length_flatMap_comps, flatMap_comps_ofFloat, hlength]
  rw [Value.construct_eq_ok hsum, flatMap_comps_ofFloat]

/-- A constructor with as many numbers as its shape has components. There is at least one, which
matters: an empty body still has one field. -/
theorem value_constructor {s : Shape} {comps : List Binary32} (hlength : comps.length = s.arity) :
    value (s.name ++ "(" ++ Binary32.texts comps ++ ")") =
      .ok (Value.ofList s (comps.map Binary32.canonical)) := by
  have hne : comps ≠ [] := by
    rw [← List.length_pos_iff, hlength]
    cases s <;> decide
  rw [value_eq_construct (fields_texts _ hne), ← construct_ofFloat (by rwa [List.length_map]),
    List.map_map]
  rfl

/-- A literal written by components evaluates to the value of its shape with these components. Only
a single `float` is written without its name. -/
theorem value_vectorText {s : Shape} {comps : List Binary32} (hlength : comps.length = s.arity) :
    value (vectorText s.name comps) = .ok (Value.ofList s (comps.map Binary32.canonical)) := by
  by_cases hs : s = .float
  · subst hs
    obtain ⟨x, rfl⟩ := List.length_eq_one_iff.mp hlength
    exact value_text x
  · rw [← value_constructor hlength]
    unfold vectorText
    split
    · next h => exact absurd (Shape.name_injective (t := .float) h) hs
    · rfl

/-! ## Literals of matrices -/

theorem length_columnMajor (dim : Nat) (rows : List Binary32) :
    (columnMajor dim rows).length = dim * dim := by
  unfold columnMajor
  simp [List.length_flatMap]

/-- A function that keeps zero may be applied before or after the entries are put in the order of
columns. Zero is what stands for missing entries. -/
theorem columnMajor_map {f : Binary32 → Binary32} (hf : f 0 = 0) (dim : Nat)
    (rows : List Binary32) : columnMajor dim (rows.map f) = (columnMajor dim rows).map f := by
  unfold columnMajor
  rw [List.map_flatMap]
  congr 1
  funext col
  rw [List.map_map]
  congr 1
  funext row
  rw [Function.comp_apply, List.getD_eq_getElem?_getD, List.getD_eq_getElem?_getD,
    List.getElem?_map]
  cases rows[row * dim + col]? with
  | none => exact hf.symm
  | some x => rfl

/-- **A literal of any shape evaluates to the value with its components**, those of a matrix given
row by row. Both the text and the value put them in the order of columns. -/
theorem value_shapeText {s : Shape} {comps : List Binary32} (hlength : comps.length = s.arity) :
    value (shapeText s comps) = .ok (Value.ofRows s (comps.map Binary32.canonical)) := by
  unfold shapeText Value.ofRows
  by_cases hs : s.isMatrix = true
  · rw [if_pos hs, if_pos hs, columnMajor_map (by decide),
      value_constructor (by rw [length_columnMajor, Value.column_arity_mul hs])]
  · rw [if_neg hs, if_neg hs]
    exact value_vectorText hlength

end Literal

end ShaderExpr
