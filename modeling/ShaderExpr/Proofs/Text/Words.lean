import ShaderExpr.Text.Blank

/-!
# The words of a text

Blanks around a text are no part of any of its words, words are not empty, and a text without blanks
around it begins as its first word does.
-/

namespace ShaderExpr.Text

theorem wordsFrom_blanks {bs : List Char} (h : ∀ c ∈ bs, isBlank c = true) : wordsFrom [] bs = [] := by
  induction bs with
  | nil => rfl
  | cons b bs ih =>
      rw [wordsFrom, if_pos (h b List.mem_cons_self)]
      exact ih fun c hc => h c (List.mem_cons_of_mem _ hc)

/-- Blanks at the end close the last word if it is open, and the end of the text would have done
so. -/
theorem wordsFrom_append_blanks {bs : List Char} (h : ∀ c ∈ bs, isBlank c = true) (word cs : List Char) :
    wordsFrom word (cs ++ bs) = wordsFrom word cs := by
  induction cs generalizing word with
  | nil =>
      rw [List.nil_append, wordsFrom]
      cases word with
      | nil => exact wordsFrom_blanks h
      | cons w ws =>
          -- the first blank closes the word, and the others are no words
          cases bs with
          | nil => rfl
          | cons b bs =>
              rw [wordsFrom, if_pos (h b List.mem_cons_self),
                wordsFrom_blanks fun c hc => h c (List.mem_cons_of_mem _ hc)]
  | cons c cs ih =>
      rw [List.cons_append, wordsFrom, wordsFrom, ih, ih]

/-- Blanks at the beginning close no word. -/
theorem wordsFrom_dropWhile (cs : List Char) :
    wordsFrom [] (cs.dropWhile isBlank) = wordsFrom [] cs := by
  induction cs with
  | nil => rfl
  | cons c cs ih =>
      by_cases hc : isBlank c = true
      · rw [List.dropWhile_cons_of_pos hc, ih, wordsFrom, if_pos hc]
        rfl
      · rw [List.dropWhile_cons_of_neg hc]

/-- The blanks at the end of a text stand after what is left without them. Trimming reverses the
text to find them, so they come out reversed. -/
theorem dropWhile_eq_trimChars_append (cs : List Char) :
    ∃ bs, (∀ c ∈ bs, isBlank c = true) ∧ cs.dropWhile isBlank = trimChars cs ++ bs := by
  refine ⟨((cs.dropWhile isBlank).reverse.takeWhile isBlank).reverse, ?_, ?_⟩
  · intro c hc
    exact List.all_eq_true.mp List.all_takeWhile c (List.mem_reverse.mp hc)
  · rw [trimChars, ← List.reverse_append, List.takeWhile_append_dropWhile, List.reverse_reverse]

/-- **Trimming a text keeps its words**, since it takes away only blanks around it. -/
theorem words_trim (s : String) : words (trim s) = words s := by
  obtain ⟨bs, hbs, hsplit⟩ := dropWhile_eq_trimChars_append s.toList
  unfold words trim
  rw [String.toList_ofList, ← wordsFrom_append_blanks hbs, ← hsplit, wordsFrom_dropWhile]

/-- An open word is the beginning of the first word, however it goes on. -/
theorem wordsFrom_of_ne_nil {word : List Char} (h : word ≠ []) (cs : List Char) :
    ∃ rest more, wordsFrom word cs = (word.reverse ++ rest) :: more := by
  induction cs generalizing word with
  | nil =>
      rw [wordsFrom, if_neg (by simpa using h)]
      exact ⟨[], [], by rw [List.append_nil]⟩
  | cons c cs ih =>
      rw [wordsFrom]
      split
      · rw [if_neg (by simpa using h)]
        exact ⟨[], _, by rw [List.append_nil]⟩
      · obtain ⟨rest, more, heq⟩ := ih (List.cons_ne_nil c word)
        refine ⟨c :: rest, more, ?_⟩
        rw [heq, List.reverse_cons, List.append_assoc, List.singleton_append]

/-- A word is only closed if it has characters. Induction on the text with any open word. -/
theorem ne_nil_of_mem_wordsFrom {word cs w : List Char} (h : w ∈ wordsFrom word cs) : w ≠ [] := by
  induction cs generalizing word with
  | nil =>
      rw [wordsFrom] at h
      split at h
      · cases h
      · next hword =>
          rw [List.mem_singleton.mp h]
          simpa using hword
  | cons c cs ih =>
      rw [wordsFrom] at h
      split at h
      · split at h
        · exact ih h
        · next hword =>
            rcases List.mem_cons.mp h with rfl | h
            · simpa using hword
            · exact ih h
      · exact ih h

theorem ne_empty_of_mem_words {s w : String} (h : w ∈ words s) : w ≠ "" := by
  obtain ⟨cs, hcs, rfl⟩ := List.mem_map.mp h
  intro hempty
  have hnil := congrArg String.toList hempty
  rw [String.toList_ofList] at hnil
  exact ne_nil_of_mem_wordsFrom hcs hnil

/-- A text without the blanks around it begins with the same character as its first word. So what a
line starts with can be told from its words. -/
theorem head?_trim_of_words {s w : String} {ws : List String} (h : words s = w :: ws) :
    (trim s).toList.head? = w.toList.head? := by
  obtain ⟨bs, _, hsplit⟩ := dropWhile_eq_trimChars_append s.toList
  rw [← words_trim] at h
  unfold words at h
  unfold trim at h ⊢
  rw [String.toList_ofList] at h ⊢
  cases hchars : trimChars s.toList with
  | nil =>
      rw [hchars] at h
      cases h
  | cons c cs =>
      -- the first character that is left is no blank, so it opens the first word
      have hblank : isBlank c = false := by
        have hhead := List.head?_dropWhile_not isBlank s.toList
        rwa [hsplit, hchars] at hhead
      obtain ⟨rest, more, hwords⟩ := wordsFrom_of_ne_nil (List.cons_ne_nil c []) cs
      rw [hchars, wordsFrom, hblank, if_neg Bool.false_ne_true, hwords, List.map_cons] at h
      rw [← (List.cons.inj h).1, String.toList_ofList]
      rfl

end ShaderExpr.Text
