/-!
# Lines

The lines of a text are what stands before, between and behind its line feeds. A text that ends with a line
feed has no line behind it.
-/

namespace ShaderExpr.Text

/-- The lines of characters. What is read of the first line already is given, last character first. -/
def linesFrom (line : List Char) : List Char → List (List Char)
  | [] => if line.isEmpty then [] else [line.reverse]
  | c :: cs => if c == '\n' then line.reverse :: linesFrom [] cs else linesFrom (c :: line) cs

/-- The lines of a text, without their line feeds. -/
def lines (text : String) : List String := (linesFrom [] text.toList).map String.ofList

/-- Behind a line feed the lines are those of the rest. -/
theorem linesFrom_append (line cs rest : List Char) :
    linesFrom line (cs ++ '\n' :: rest) = linesFrom line (cs ++ ['\n']) ++ linesFrom [] rest := by
  induction cs generalizing line with
  | nil => simp [linesFrom]
  | cons c cs ih =>
      by_cases hc : c = '\n' <;> simp [linesFrom, hc, ih]

/-- A line has characters of the text only, but the first goes on with what was read before. -/
theorem subset_of_mem_linesFrom {line cs x : List Char} (h : x ∈ linesFrom line cs) :
    x ⊆ cs ∨ ∃ y, x = line.reverse ++ y ∧ y ⊆ cs := by
  induction cs generalizing line with
  | nil =>
      rw [linesFrom] at h
      split at h
      · exact absurd h List.not_mem_nil
      · exact .inr ⟨[], by simpa using h, List.nil_subset _⟩
  | cons c cs ih =>
      rw [linesFrom] at h
      split at h
      · rcases List.mem_cons.mp h with rfl | h
        · exact .inr ⟨[], (List.append_nil _).symm, List.nil_subset _⟩
        · -- behind a line end nothing was read before, so the two cases are the same
          rcases ih h with hx | ⟨y, rfl, hy⟩
          · exact .inl (List.subset_cons_of_subset c hx)
          · exact .inl (List.subset_cons_of_subset c hy)
      · rcases ih h with hx | ⟨y, rfl, hy⟩
        · exact .inl (List.subset_cons_of_subset c hx)
        · exact .inr ⟨c :: y, by simp, List.cons_subset_cons c hy⟩

/-- The lines of a text that ends with a line feed, and those of what is behind it. -/
theorem lines_append {s : String} (hs : ∃ s', s = s' ++ "\n") (t : String) : lines (s ++ t) = lines s ++ lines t := by
  obtain ⟨s, rfl⟩ := hs
  have h := linesFrom_append [] s.toList t.toList
  simp only [lines, String.toList_append, List.append_assoc, ← List.map_append]
  exact congrArg _ h

end ShaderExpr.Text
