import ShaderExpr.Proofs.Binary32.Text

/-!
# Tokens of expressions

The text of an expression as a list of tokens: numbers with a point, names and marks. Words run as far
as their characters do, blanks separate tokens and are dropped, and two marks that would make another
token of the language when they stand together, such as two minus signs, are not read at all.

* **`tokens?`** — the tokens of a text.
* **`Lexes`** — a piece of text gives its tokens, whatever follows it, if what follows ends a word.
* **`Lexes.word`**, **`Lexes.mark_cons`**, **`Lexes.append`** — how pieces are put together.
* **`lexes_text`** — the text of a number without a sign is one token.
-/

namespace ShaderExpr.Grammar

/-- A token of an expression. -/
inductive Token where
  /-- A number: digits, a point and digits. -/
  | number (text : String)
  /-- A name of a variable, a function or a type. -/
  | name (text : String)
  /-- An operator, a parenthesis or a comma. -/
  | mark (text : String)
deriving DecidableEq, Repr

/-! ## Reading tokens -/

/-- A letter, a digit, an underscore or a point. -/
def isWordChar (c : Char) : Bool := c.isAlphanum || c == '_' || c == '.'

/-- A letter or an underscore, and then letters, digits and underscores. -/
def isIdentifier : List Char → Bool
  | [] => false
  | c :: cs => (c.isAlpha || c == '_') && cs.all fun c => c.isAlphanum || c == '_'

/-- Digits, a point and digits. -/
def isNumber (cs : List Char) : Bool :=
  let whole := cs.takeWhile Char.isDigit
  match cs.dropWhile Char.isDigit with
  | '.' :: part => !whole.isEmpty && !part.isEmpty && part.all Char.isDigit
  | _ => false

/-- The token of a word. -/
def word? (cs : List Char) : Option Token :=
  if isIdentifier cs then some (.name (String.ofList cs))
  else if isNumber cs then some (.number (String.ofList cs))
  else none

def isMark (c : Char) : Bool := ['+', '-', '*', '/', '(', ')', ','].contains c

/-- Do two characters make a token together, or start a comment? -/
def joins (c : Char) : List Char → Bool
  | [] => false
  | d :: _ => [('+', '+'), ('-', '-'), ('/', '/'), ('/', '*')].contains (c, d)

/-- Puts the token of a word before tokens, if the word is not empty. -/
def flush (word : List Char) (ts : List Token) : Option (List Token) :=
  if word.isEmpty then some ts else (word? word).map (· :: ts)

/-- The tokens of a text after the characters of an open word, the last of them first. -/
def scan (word : List Char) : List Char → Option (List Token)
  | [] => flush word.reverse []
  | c :: cs =>
    if isWordChar c then scan (c :: word) cs
    else if c == ' ' then (scan [] cs).bind (flush word.reverse)
    else if isMark c && !joins c cs then
      (scan [] cs).bind fun ts => flush word.reverse (.mark (String.singleton c) :: ts)
    else none

/-- The tokens of a text. -/
def tokens? (s : String) : Option (List Token) := scan [] s.toList

/-! ## Pieces of text -/

/-- The text does not go on with a word. -/
def Stops (cs : List Char) : Prop := ∀ c ∈ cs.head?, isWordChar c = false

/-- The piece gives the tokens, whatever comes after it and does not go on with a word. -/
def Lexes (cs : List Char) (ts : List Token) : Prop :=
  ∀ rest us, Stops rest → scan [] rest = some us → scan [] (cs ++ rest) = some (ts ++ us)

theorem stops_nil : Stops [] := nofun

theorem stops_cons {c : Char} (h : isWordChar c = false) (cs : List Char) : Stops (c :: cs) := by
  intro d hd
  cases hd
  exact h

/-- A blank after a mark keeps it apart from whatever follows, which is what the blanks around
operators are for. -/
theorem joins_blank (c : Char) (cs : List Char) : joins c (' ' :: cs) = false := by
  simp [joins]

/-- Parentheses and commas start no longer token, so they need no blank. -/
theorem joins_delimiter {c : Char} (h : c = '(' ∨ c = ')' ∨ c = ',') (cs : List Char) :
    joins c cs = false := by
  cases cs with
  | nil => rfl
  | cons d cs => rcases h with rfl | rfl | rfl <;> simp [joins]

/-- The characters of a word are only collected. Induction on the word, with any characters
collected before it. -/
theorem scan_append_word {w : List Char} (hw : ∀ c ∈ w, isWordChar c = true)
    (word cs : List Char) : scan word (w ++ cs) = scan (w.reverse ++ word) cs := by
  induction w generalizing word with
  | nil => rfl
  | cons c w ih =>
      rw [List.cons_append, scan, if_pos (hw c List.mem_cons_self),
        ih fun d hd => hw d (List.mem_cons_of_mem _ hd), List.reverse_cons, List.append_assoc]
      rfl

/-- Where no word goes on, the open word becomes a token by itself, before the tokens that are there
without it. -/
theorem scan_of_stops {cs : List Char} (h : Stops cs) {ts : List Token} (hcs : scan [] cs = some ts)
    (word : List Char) : scan word cs = flush word.reverse ts := by
  cases cs with
  | nil =>
      cases hcs
      rfl
  | cons c cs =>
      -- with the empty word and with any other the first character is treated alike
      have hc : ¬ isWordChar c = true := Bool.not_eq_true _ |>.mpr (h c rfl)
      unfold scan at hcs ⊢
      rw [if_neg hc] at hcs ⊢
      by_cases hblank : (c == ' ') = true
      · rw [if_pos hblank] at hcs ⊢
        obtain ⟨us, hus, hts⟩ := Option.bind_eq_some_iff.mp hcs
        cases hts
        rw [hus, Option.bind_some]
      · rw [if_neg hblank] at hcs ⊢
        split at hcs
        · next hmark =>
            obtain ⟨us, hus, hts⟩ := Option.bind_eq_some_iff.mp hcs
            cases hts
            rw [if_pos hmark, hus, Option.bind_some]
        · cases hcs

/-! ## Putting pieces together -/

namespace Lexes

/-- A word is the token that it spells, since what follows a piece never goes on with it. -/
theorem word {w : List Char} {t : Token} (hne : w ≠ []) (hw : ∀ c ∈ w, isWordChar c = true)
    (ht : word? w = some t) : Lexes w [t] := by
  intro rest us hstops hus
  rw [scan_append_word hw, List.append_nil, scan_of_stops hstops hus, List.reverse_reverse]
  unfold flush
  rw [if_neg (by rwa [List.isEmpty_iff]), ht]
  rfl

/-- Two pieces, of which the second does not go on with a word. It must not be empty: then the first
piece would meet what follows, which may go on with a word. -/
theorem append {cs ds : List Char} {ts us : List Token} (hcs : Lexes cs ts) (hds : Lexes ds us)
    (hne : ds ≠ []) (hstops : Stops ds) : Lexes (cs ++ ds) (ts ++ us) := by
  intro rest vs hrest hvs
  obtain ⟨d, ds, rfl⟩ := List.exists_cons_of_ne_nil hne
  rw [List.append_assoc, List.append_assoc]
  -- what follows the first piece is the second one and then the rest
  exact hcs _ _ (stops_cons (hstops d rfl) _) (hds rest vs hrest hvs)

/-- A blank before a piece gives no token and does not depend on what the piece starts with. -/
theorem blank_cons {ds : List Char} {us : List Token} (hds : Lexes ds us) : Lexes (' ' :: ds) us := by
  intro rest vs hrest hvs
  rw [List.cons_append, scan, if_neg (by decide), if_pos (by decide), hds rest vs hrest hvs]
  rfl

/-- A mark, if it does not make another token with what comes after it. The condition is on all that
may follow, as the piece may be empty. -/
theorem mark_cons {c : Char} {ds : List Char} {us : List Token} (hc : isMark c = true)
    (hjoins : ∀ rest, joins c (ds ++ rest) = false) (hds : Lexes ds us) :
    Lexes (c :: ds) (.mark (String.singleton c) :: us) := by
  -- there are seven marks, none of them a blank or part of a word
  have hmarks : (['+', '-', '*', '/', '(', ')', ','].all fun c =>
      !isWordChar c && !(c == ' ')) = true := by decide
  have hword := List.all_eq_true.mp hmarks c (List.contains_iff_mem.mp hc)
  rw [Bool.and_eq_true, Bool.not_eq_true', Bool.not_eq_true'] at hword
  intro rest vs hrest hvs
  rw [List.cons_append, scan, if_neg (by rw [hword.1]; exact Bool.false_ne_true),
    if_neg (by rw [hword.2]; exact Bool.false_ne_true), if_pos (by rw [hc, hjoins]; rfl),
    hds rest vs hrest hvs]
  rfl

theorem nil : Lexes [] [] := by
  intro rest us _ hus
  exact hus

end Lexes

/-- A whole text is a piece that nothing follows. -/
theorem tokens?_eq_some {s : String} {ts : List Token} (h : Lexes s.toList ts) :
    tokens? s = some ts := by
  have hnil := h [] [] stops_nil rfl
  rwa [List.append_nil, List.append_nil] at hnil

/-! ## Words of expressions -/

theorem isWordChar_of_isAlphanum {c : Char} (h : (c.isAlphanum || c == '_') = true) :
    isWordChar c = true := by
  unfold isWordChar
  rw [h]
  rfl

/-- An identifier is a name token: all its characters belong to words, and a number would start with
a digit. -/
theorem lexes_identifier {s : String} (h : isIdentifier s.toList = true) :
    Lexes s.toList [.name s] := by
  have hword : word? s.toList = some (.name s) := by
    unfold word?
    rw [if_pos h, String.ofList_toList]
  cases hs : s.toList with
  | nil =>
      -- an identifier has a first character
      rw [hs] at h
      cases h
  | cons c cs =>
      rw [hs] at h hword
      unfold isIdentifier at h
      rw [Bool.and_eq_true, List.all_eq_true] at h
      refine .word (List.cons_ne_nil _ _) ?_ hword
      intro d hd
      rcases List.mem_cons.mp hd with rfl | hd
      · apply isWordChar_of_isAlphanum
        unfold Char.isAlphanum
        rw [Bool.or_right_comm, h.1, Bool.true_or]
      · exact isWordChar_of_isAlphanum (h.2 d hd)

/-- Digits with a point between them are a number: the first run of digits ends at the point, and
both sides have some. -/
theorem isNumber_of_pointed {whole part : List Char} (h : Pointed whole part) :
    isNumber (whole ++ '.' :: part) = true := by
  have htake : (whole ++ '.' :: part).takeWhile Char.isDigit = whole := by
    rw [List.takeWhile_append_of_pos h.isDigit_whole, List.takeWhile_cons_of_neg (by decide),
      List.append_nil]
  have hdrop : (whole ++ '.' :: part).dropWhile Char.isDigit = '.' :: part := by
    rw [List.dropWhile_append_of_pos h.isDigit_whole, List.dropWhile_cons_of_neg (by decide)]
  unfold isNumber
  simp only [htake, hdrop]
  rw [List.isEmpty_eq_false_iff.mpr h.whole_ne_nil, List.isEmpty_eq_false_iff.mpr h.part_ne_nil,
    List.all_eq_true.mpr h.isDigit_part]
  rfl

/-- A digit starts no identifier. -/
theorem isAlpha_eq_false_of_isDigit {c : Char} (h : c.isDigit = true) :
    (c.isAlpha || c == '_') = false := by
  obtain ⟨_, hhigh⟩ := Numeral.toNat_of_isDigit h
  -- the digits come before all letters and the underscore
  have hbelow : ∀ d : Char, 58 ≤ d.toNat → ¬ c.val ≥ d.val := by
    intro d hd hle
    have hnat : d.toNat ≤ c.toNat := UInt32.le_iff_toNat_le.mp hle
    omega
  have hupper : c.isUpper = false :=
    decide_eq_false fun hrange => hbelow 'A' (by decide) hrange.1
  have hlower : c.isLower = false := by
    unfold Char.isLower
    rw [decide_eq_false (hbelow 'a' (by decide)), Bool.false_and]
  have hunderscore : (c == '_') = false := by
    rw [beq_eq_false_iff_ne]
    rintro rfl
    exact absurd h (by decide)
  unfold Char.isAlpha
  rw [hupper, hlower, hunderscore]
  rfl

/-- The text of a finite number without a sign is a number token: it always has a point and digits
on both sides. A sign would be a token of its own. -/
theorem lexes_text {x : Binary32} (hfinite : x.isFinite = true) (hsign : x.isNegative = false) :
    Lexes x.text.toList [.number x.text] := by
  obtain ⟨hpointed, -⟩ := Decimal.positional_spec x.shortest
  generalize hwhole : x.shortest.positional.1 = whole at hpointed
  generalize hpart : Decimal.fraction x.shortest.positional.2 = part at hpointed
  have htext : x.text.toList = whole ++ '.' :: part := by
    have hnone : x.signText = [] := by
      unfold Binary32.signText
      rw [hsign]
      rfl
    rw [Binary32.toList_text hfinite, hnone, hwhole, hpart, List.nil_append]
  -- identifiers are tried first, but a digit starts none
  have hidentifier : isIdentifier x.text.toList = false := by
    obtain ⟨c, cs, rfl⟩ := List.exists_cons_of_ne_nil hpointed.whole_ne_nil
    rw [htext, List.cons_append, isIdentifier,
      isAlpha_eq_false_of_isDigit (hpointed.isDigit_whole c List.mem_cons_self)]
    rfl
  have hword : word? x.text.toList = some (.number x.text) := by
    unfold word?
    rw [hidentifier, if_neg Bool.false_ne_true, htext, if_pos (isNumber_of_pointed hpointed),
      ← htext, String.ofList_toList]
  refine .word ?_ ?_ hword
  · rw [htext]
    exact List.append_ne_nil_of_left_ne_nil hpointed.whole_ne_nil _
  · -- every character is a digit or the point
    intro c hc
    rw [htext, List.mem_append, List.mem_cons] at hc
    have hdigit : ∀ d : Char, d.isDigit = true → isWordChar d = true := by
      intro d hd
      apply isWordChar_of_isAlphanum
      unfold Char.isAlphanum
      rw [hd, Bool.or_true, Bool.true_or]
    rcases hc with hc | rfl | hc
    · exact hdigit c (hpointed.isDigit_whole c hc)
    · decide
    · exact hdigit c (hpointed.isDigit_part c hc)

end ShaderExpr.Grammar
