import Mathlib.Data.List.Forall2
import ShaderExpr.Literal
import ShaderExpr.Proofs.Grammar.Grouping

/-!
# When the text of a tree is read back as the tree

A tree is written with parentheses around operands before an operator and with none after it. Reading
the text gives the regrouped tree, so it gives the tree itself exactly when each right operand binds
tighter than the operator before it.

* **`Spells`** — the trees of the grammar, each with the tree that a reader should find: a vector or
  matrix literal is written as a call of its constructor (**`SpellsLiteral`**) and read as one.
* **`Means`** — the tree that the grammar gives a text.
* **`Spells.shows`** — the text of a tree shows its chain.
* **`Spells.regroup_eq_self_iff`** — regrouping keeps a tree iff every right operand in it binds tighter.
* **`text_means_iff`** — the text has one meaning, which is the tree under the same condition.
-/

namespace ShaderExpr.Grammar

/-! ## Trees of the grammar -/

/-- A finite number that is written without a sign. -/
def Unsigned (x : Binary32) : Prop := x.isFinite = true ∧ x.isNegative = false

/-- The call of a constructor with numbers. -/
def construction (type : String) (comps : List Binary32) : Node :=
  .call type (comps.map fun x => .literal x.text)

/-- The text of a literal of unsigned numbers, and the tree that a reader should find in it. -/
inductive SpellsLiteral : String → Node → Prop where
  | number {x : Binary32} (hx : Unsigned x) : SpellsLiteral x.text (.literal x.text)
  -- one component of the type `float` stands alone and is a number
  | vector {type : String} {comps : List Binary32} (htype : isIdentifier type.toList = true)
      (hcomps : ∀ x ∈ comps, Unsigned x) (hvector : type ≠ "float" ∨ comps.length ≠ 1) :
      SpellsLiteral (Literal.vectorText type comps) (construction type comps)
  | matrix {type text : String} {dim : Int} {rows : List Binary32}
      (htype : isIdentifier type.toList = true) (hrows : ∀ x ∈ rows, Unsigned x)
      (htext : Literal.matrixText type dim rows = .ok text) :
      SpellsLiteral text (construction type (Literal.columnMajor dim.toNat rows))

/-- The first tree has operators of the grammar, identifiers as names and literals of unsigned numbers.
The second is the same tree with its vector and matrix literals as calls of their constructors. -/
inductive Spells : Node → Node → Prop where
  | literal {s : String} {m : Node} (h : SpellsLiteral s m) : Spells (.literal s) m
  | var {s : String} (hs : isIdentifier s.toList = true) : Spells (.var s) (.var s)
  | call {f : String} {args : List (Node × Node)} (hf : isIdentifier f.toList = true)
      (hargs : ∀ p ∈ args, Spells p.1 p.2) :
      Spells (.call f (args.map Prod.fst)) (.call f (args.map Prod.snd))
  | unary {x x' : Node} (hx : Spells x x') : Spells (.unary "-" x) (.unary "-" x')
  | binary {op : String} {x x' y y' : Node} (hop : isMultiplicative op = true ∨ isAdditive op = true)
      (hx : Spells x x') (hy : Spells y y') : Spells (.binary op x y) (.binary op x' y')

/-- The grammar reads the text as the tree. -/
def Means (s : String) (n : Node) : Prop := ∃ ts, tokens? s = some ts ∧ Derives .sum ts n

/-- A text has one list of tokens, and tokens have one derivation. -/
theorem Means.unique {s : String} {n n' : Node} (h : Means s n) (h' : Means s n') : n = n' := by
  obtain ⟨ts, hts, hn⟩ := h
  obtain ⟨us, hus, hn'⟩ := h'
  cases hts.symm.trans hus
  exact hn.unique hn'

/-! ## Text of expressions -/

/-- The text is an expression of the level, wherever no word goes on after it. -/
def Denotes (level : Level) (s : String) (n : Node) : Prop :=
  ∃ ts, Lexes s.toList ts ∧ Derives level ts n

/-- A whole text is a text that nothing goes on after. -/
theorem Denotes.means {s : String} {n : Node} (h : Denotes .sum s n) : Means s n := by
  obtain ⟨ts, hts, hn⟩ := h
  exact ⟨ts, tokens?_eq_some hts, hn⟩

/-- Every operator is one character, which is a mark. -/
theorem exists_mark {op : String} (h : isMultiplicative op = true ∨ isAdditive op = true) :
    ∃ c, op.toList = [c] ∧ isMark c = true ∧ op = String.singleton c := by
  rcases operator_cases h with rfl | rfl | rfl | rfl <;> exact ⟨_, rfl, rfl, rfl⟩

/-- Only a minus sign joins a minus sign, and no primary expression starts with one. So the text of
an operand may stand right after a sign. -/
theorem joins_minus_of_primary {cs : List Char} {ts : List Token} {n : Node} (hcs : Lexes cs ts)
    (h : Derives .primary ts n) (rest : List Char) : joins '-' (cs ++ rest) = false := by
  -- the first token is there and it is no minus sign
  have hhead : ts.head? ≠ none ∧ ts.head? ≠ some (.mark "-") := by
    cases h with
    | number s => exact ⟨nofun, nofun⟩
    | name s => exact ⟨nofun, nofun⟩
    | call f _ => exact ⟨nofun, nofun⟩
    | parentheses _ => exact ⟨nofun, by simp⟩
  have hscan := hcs [] [] stops_nil rfl
  rw [List.append_nil, List.append_nil] at hscan
  cases cs with
  | nil =>
      cases hscan
      exact absurd rfl hhead.1
  | cons c cs =>
      by_cases hc : c = '-'
      · -- a minus sign would have been the first token
        subst hc
        rw [scan, if_neg (by decide), if_neg (by decide)] at hscan
        split at hscan
        · obtain ⟨us, -, hts⟩ := Option.bind_eq_some_iff.mp hscan
          cases hts
          exact absurd rfl hhead.2
        · cases hscan
      · simp [joins, hc]

theorem lexes_close : Lexes [')'] [.mark ")"] :=
  .mark_cons rfl (joins_delimiter (by decide) ·) .nil

/-- Parentheses make a primary expression of any expression. -/
theorem Denotes.parenthesized {s : String} {n : Node} (h : Denotes .sum s n) :
    Denotes .primary (Node.parenthesized s) n := by
  obtain ⟨ts, hts, hn⟩ := h
  have hbody := hts.append lexes_close (List.cons_ne_nil _ _) (stops_cons rfl _)
  refine ⟨_, ?_, .parentheses hn⟩
  unfold Node.parenthesized
  rw [String.toList_append, String.toList_append]
  exact .mark_cons rfl (fun rest => joins_delimiter (by decide) _) hbody

/-- Arguments with commas between them and the parenthesis that closes them. The parenthesis is part
of the statement because a piece is put before another only if that is not empty. -/
theorem lexes_arguments {texts : List String} {ns : List Node}
    (h : List.Forall₂ (Denotes .sum) texts ns) :
    ∃ args : List (List Token × Node), args.map Prod.snd = ns ∧
      (∀ p ∈ args, Derives .sum p.1 p.2) ∧
      Lexes ([',', ' '].intercalate (texts.map String.toList) ++ [')'])
        ([.mark ","].intercalate (args.map Prod.fst) ++ [.mark ")"]) := by
  induction h with
  | nil => exact ⟨[], rfl, nofun, lexes_close⟩
  | @cons s n texts ns hs hrest ih =>
      obtain ⟨ts, hts, hn⟩ := hs
      obtain ⟨args, hsnd, hargs, hlexes⟩ := ih
      refine ⟨(ts, n) :: args, congrArg (n :: ·) hsnd, List.forall_mem_cons.mpr ⟨hn, hargs⟩, ?_⟩
      cases hrest with
      | nil =>
          cases List.map_eq_nil_iff.mp hsnd
          rw [List.map_singleton, List.map_singleton, List.intercalate_singleton,
            List.intercalate_singleton]
          exact hts.append lexes_close (List.cons_ne_nil _ _) (stops_cons rfl _)
      | cons _ _ =>
          -- a comma and a blank, and then the arguments that follow
          obtain ⟨p, args, rfl⟩ := List.exists_cons_of_ne_nil (l := args) (by rintro rfl; cases hsnd)
          have hcomma := Lexes.mark_cons rfl (fun rest => joins_delimiter (c := ',') (by decide) _)
            hlexes.blank_cons
          rw [List.map_cons, List.map_cons, List.intercalate_cons_cons, List.map_cons, List.map_cons,
            List.intercalate_cons_cons, List.append_assoc, List.append_assoc, List.append_assoc,
            List.append_assoc]
          exact hts.append hcomma (List.cons_ne_nil _ _) (stops_cons rfl _)

/-- A call as it is written: the name, and the arguments in parentheses with a comma and a blank
between them. -/
theorem denotes_call {f : String} {texts : List String} {ns : List Node}
    (hf : isIdentifier f.toList = true) (h : List.Forall₂ (Denotes .sum) texts ns) :
    Denotes .primary (f ++ Node.parenthesized (", ".intercalate texts)) (.call f ns) := by
  obtain ⟨args, rfl, hargs, hlexes⟩ := lexes_arguments h
  have hopen := Lexes.mark_cons rfl (fun rest => joins_delimiter (c := '(') (by decide) _) hlexes
  refine ⟨_, ?_, .call f hargs⟩
  unfold Node.parenthesized
  rw [String.toList_append, String.toList_append, String.toList_append, String.toList_intercalate]
  exact (lexes_identifier hf).append hopen (List.cons_ne_nil _ _) (stops_cons rfl _)

theorem denotes_number {x : Binary32} (h : Unsigned x) : Denotes .primary x.text (.literal x.text) :=
  ⟨_, lexes_text h.1 h.2, .number _⟩

/-- A constructor with numbers is read as a call with these numbers as arguments. -/
theorem denotes_construction {type : String} {comps : List Binary32}
    (htype : isIdentifier type.toList = true) (hcomps : ∀ x ∈ comps, Unsigned x) :
    Denotes .primary (type ++ Node.parenthesized (Binary32.texts comps))
      (construction type comps) := by
  apply denotes_call htype
  rw [List.forall₂_map_left_iff, List.forall₂_map_right_iff, List.forall₂_same]
  intro x hx
  obtain ⟨ts, hts, hx⟩ := denotes_number (hcomps x hx)
  exact ⟨ts, hts, .ofProduct (.ofFactor (.ofPrimary hx))⟩

/-! ## Literals -/

theorem append_parenthesized (s t : String) : s ++ Node.parenthesized t = s ++ "(" ++ t ++ ")" := by
  rw [Node.parenthesized, String.append_assoc, String.append_assoc, String.append_assoc]

/-- The text of a vector is a call of its type; only a single `float` is written without. -/
theorem vectorText_eq {type : String} {comps : List Binary32}
    (h : type ≠ "float" ∨ comps.length ≠ 1) :
    Literal.vectorText type comps = type ++ Node.parenthesized (Binary32.texts comps) := by
  unfold Literal.vectorText
  split
  · rcases h with h | h <;> exact absurd rfl h
  · rw [append_parenthesized]

/-- What holds of zero and of the entries of a matrix holds of them column by column. Zero is what
stands for an entry that is not there. -/
theorem forall_mem_columnMajor {P : Binary32 → Prop} (hzero : P 0) {dim : Nat} {rows : List Binary32}
    (hrows : ∀ x ∈ rows, P x) : ∀ x ∈ Literal.columnMajor dim rows, P x := by
  intro x hx
  obtain ⟨col, -, hx⟩ := List.mem_flatMap.mp hx
  obtain ⟨row, -, rfl⟩ := List.mem_map.mp hx
  rw [List.getD_eq_getElem?_getD]
  cases hentry : rows[row * dim + col]? with
  | none => exact hzero
  | some x => exact hrows x (List.mem_of_getElem? hentry)

/-- The text of a literal is read as the tree that it spells, one case for each kind. -/
theorem SpellsLiteral.denotes {s : String} {m : Node} (h : SpellsLiteral s m) :
    Denotes .primary s m := by
  cases h with
  | number hx => exact denotes_number hx
  | vector htype hcomps hvector =>
      rw [vectorText_eq hvector]
      exact denotes_construction htype hcomps
  | matrix htype hrows htext =>
      -- a matrix is written only if its dimension fits, column by column
      unfold Literal.matrixText at htext
      split at htext
      · cases htext
        rw [← append_parenthesized]
        exact denotes_construction htype (forall_mem_columnMajor ⟨by decide, by decide⟩ hrows)
      · cases htext

/-- A literal spells no operators, so regrouping leaves it alone. -/
theorem SpellsLiteral.regroup_eq {s : String} {m : Node} (h : SpellsLiteral s m) :
    (chain m).2 = [] ∧ regroup m = m := by
  have hconstruction : ∀ (type : String) (comps : List Binary32),
      regroup (construction type comps) = construction type comps := by
    intro type comps
    rw [construction, regroup_call_eq_self_iff, List.forall_mem_map]
    exact fun _ _ => rfl
  cases h with
  | number _ => exact ⟨rfl, rfl⟩
  | vector _ _ _ => exact ⟨rfl, hconstruction _ _⟩
  | matrix _ _ _ => exact ⟨rfl, hconstruction _ _⟩

/-! ## The text of a tree shows its chain -/

/-- The text of the first tree is an operand and operators with operands after them, which are the chain
of the second. If it is written without parentheses as an operand, it is closed in itself. -/
structure Shows (n : Node) (s : String) (m : Node) : Prop where
  inner : n.inner = .ok s
  chain : ∃ ts us, Lexes s.toList (ts ++ us) ∧ Derives .factor ts (chain m).1 ∧ Tail us (chain m).2
  atomic : n.isAtomic = true → Denotes .primary s (regroup m)

namespace Shows

variable {n m : Node} {s : String}

/-- A tree that shows no operator, as a factor. -/
theorem of_factor (hinner : n.inner = .ok s) (htail : (Grammar.chain m).2 = [])
    (h : Denotes .factor s (regroup m)) (hatomic : n.isAtomic = true → Denotes .primary s (regroup m)) :
    Shows n s m := by
  obtain ⟨ts, hts, hm⟩ := h
  refine ⟨hinner, ⟨ts, [], ?_, ?_, ?_⟩, hatomic⟩
  · rwa [List.append_nil]
  · rwa [regroup_of_tail_eq_nil htail] at hm
  · rw [htail]
    exact .nil

/-- A tree that shows no operator and is closed in itself. -/
theorem of_primary (hinner : n.inner = .ok s) (htail : (Grammar.chain m).2 = [])
    (h : Denotes .primary s (regroup m)) : Shows n s m := by
  refine of_factor hinner htail ?_ fun _ => h
  obtain ⟨ts, hts, hm⟩ := h
  exact ⟨ts, hts, .ofPrimary hm⟩

/-- The grammar groups the operands that a text shows, so it reads the text as the regrouped
tree. -/
theorem denotes (h : Shows n s m) : Denotes .sum s (regroup m) := by
  obtain ⟨ts, us, hlexes, hfirst, htail⟩ := h.chain
  exact ⟨ts ++ us, hlexes, htail.derives .none (.ofFactor hfirst)⟩

/-- An operand before an operator, or after a sign, is closed in itself, by parentheses if need
be. -/
theorem operand (h : Shows n s m) :
    Denotes .primary (if n.isAtomic then s else Node.parenthesized s) (regroup m) := by
  split
  · next hatomic => exact h.atomic hatomic
  · exact h.denotes.parenthesized

/-- A sign before an operand. The operand does not start with another sign, since it is closed in
itself. -/
theorem unary (h : Shows n s m) :
    Shows (.unary "-" n) ("-" ++ if n.isAtomic then s else Node.parenthesized s) (.unary "-" m) := by
  obtain ⟨ts, hts, hm⟩ := h.operand
  -- a sign makes a factor that no operand is taken for without parentheses
  refine of_factor ?_ rfl ⟨.mark "-" :: ts, ?_, .minus (.ofPrimary hm)⟩ nofun
  · rw [Node.inner, h.inner]
    rfl
  · rw [String.toList_append]
    exact .mark_cons rfl (joins_minus_of_primary hts hm) hts

/-- An operation: the left operand is closed, and the right one goes on the chain with the operators
that it shows. -/
theorem binary {op : String} {n' m' : Node} {s' : String}
    (hop : isMultiplicative op = true ∨ isAdditive op = true) (h : Shows n s m)
    (h' : Shows n' s' m') :
    Shows (.binary op n n')
      ((if n.isAtomic then s else Node.parenthesized s) ++ " " ++ op ++ " " ++ s')
      (.binary op m m') := by
  obtain ⟨ts, hts, hm⟩ := h.operand
  obtain ⟨us, vs, hlexes, hfirst, htail⟩ := h'.chain
  obtain ⟨c, hc, hmark, rfl⟩ := exists_mark hop
  -- the blanks around the operator end the left operand and keep the operator apart
  have hright := (Lexes.mark_cons hmark (fun rest => joins_blank c _) hlexes.blank_cons).blank_cons
  refine ⟨?_, ⟨ts, .mark (.singleton c) :: (us ++ vs), ?_, .ofPrimary hm, .cons hop hfirst htail⟩,
    nofun⟩
  · rw [Node.inner, h.inner, h'.inner]
    rfl
  · rw [String.append_assoc, String.append_assoc, String.append_assoc, String.toList_append,
      String.toList_append, String.toList_append, String.toList_append, hc]
    exact hts.append hright (List.cons_ne_nil _ _) (stops_cons rfl _)

end Shows

/-- Arguments are written one by one, each as an expression of its own. -/
theorem inners_of_shows {args : List (Node × Node)} (h : ∀ p ∈ args, ∃ s, Shows p.1 s p.2) :
    ∃ texts, Node.inners (args.map Prod.fst) = .ok texts ∧
      List.Forall₂ (Denotes .sum) texts ((args.map Prod.snd).map regroup) := by
  induction args with
  | nil => exact ⟨[], rfl, .nil⟩
  | cons p args ih =>
      obtain ⟨⟨s, hs⟩, hargs⟩ := List.forall_mem_cons.mp h
      obtain ⟨texts, hinners, htexts⟩ := ih hargs
      refine ⟨s :: texts, ?_, .cons hs.denotes htexts⟩
      rw [List.map_cons, Node.inners, hs.inner, hinners]
      rfl

/-- **The text of a tree shows its chain.** Induction on the tree, with the lemma for its
constructor in each case. -/
theorem Spells.shows {n m : Node} (h : Spells n m) : ∃ s, Shows n s m := by
  induction h with
  | @literal s m h =>
      obtain ⟨htail, hregroup⟩ := h.regroup_eq
      exact ⟨s, .of_primary rfl htail (by rw [hregroup]; exact h.denotes)⟩
  | @var s hs => exact ⟨s, .of_primary rfl rfl ⟨_, lexes_identifier hs, .name s⟩⟩
  | @call f args hf _ ih =>
      obtain ⟨texts, hinners, htexts⟩ := inners_of_shows ih
      refine ⟨f ++ Node.parenthesized (", ".intercalate texts), .of_primary ?_ rfl ?_⟩
      · rw [Node.inner, hinners]
        rfl
      · -- the arguments are regrouped one by one
        rw [regroup_of_tail_eq_nil rfl, chain, regroups_eq_map]
        exact denotes_call hf htexts
  | unary _ ih =>
      obtain ⟨s, hs⟩ := ih
      exact ⟨_, hs.unary⟩
  | binary hop _ _ ihx ihy =>
      obtain ⟨s, hs⟩ := ihx
      obtain ⟨t, ht⟩ := ihy
      exact ⟨_, hs.binary hop ht⟩

/-! ## Faithful text -/

/-- Literals written as calls are no operators, so both trees have the same right operands. -/
theorem Spells.bindsTighter_eq {n m : Node} (h : Spells n m) (op : String) :
    m.bindsTighter op = n.bindsTighter op := by
  cases h with
  | literal h => cases h <;> rfl
  | var _ => rfl
  | call _ _ => rfl
  | unary _ => rfl
  | binary _ _ _ => rfl

/-- Regrouping keeps what a tree spells iff every right operand in the tree binds tighter. Induction
on the tree; the only condition of its own is that of an operation between two operands. -/
theorem Spells.regroup_eq_self_iff {n m : Node} (h : Spells n m) :
    regroup m = m ↔ n.rightOperandsBind = true := by
  induction h with
  | literal h => exact ⟨fun _ => rfl, fun _ => h.regroup_eq.2⟩
  | var hs => exact ⟨fun _ => rfl, fun _ => rfl⟩
  | call hf _ ih =>
      rw [regroup_call_eq_self_iff, Node.rightOperandsBind, Node.allRightOperandsBind_iff,
        List.forall_mem_map, List.forall_mem_map]
      exact forall₂_congr ih
  | unary _ ih => exact regroup_unary_eq_self_iff.trans ih
  | @binary op x x' y y' hop _ hy ihx ihy =>
      rw [regroup_binary_eq_self_iff hop, Node.rightOperandsBind, Bool.and_eq_true, Bool.and_eq_true,
        and_assoc, hy.bindsTighter_eq]
      exact and_congr_right fun _ => and_congr ihx ihy

/-- **When the text of a tree means the tree.** The text has one meaning, and this is what the tree
spells iff every right operand of an operator between two is no such operation itself, or is a
product in a sum. -/
theorem text_means_iff {n m : Node} (h : Spells n m) :
    ∃ s, n.text = .ok s ∧ (∃! t, Means s t) ∧ (Means s m ↔ n.rightOperandsBind = true) := by
  obtain ⟨s, hs⟩ := h.shows
  -- only the tree that is missing has no text, and it spells nothing
  have htext : n.text = n.inner := by
    cases h <;> rfl
  -- the text always means the regrouped tree, so the question is whether this is `m`
  have hmeans : Means s (regroup m) := hs.denotes.means
  refine ⟨s, htext.trans hs.inner, ⟨regroup m, hmeans, fun t ht => ht.unique hmeans⟩, ?_⟩
  rw [← h.regroup_eq_self_iff]
  constructor
  · intro hm
    exact hmeans.unique hm
  · intro hm
    rwa [hm] at hmeans

/-- An operation whose right operand is an operation. -/
def nested (op op' : String) (y : Node) : Node :=
  .binary op (.unary "-" (.var "a")) (.binary op' y (.call "f" [.var "b"]))

theorem spells_nested (op op' : String) (hop : isMultiplicative op = true ∨ isAdditive op = true)
    (hop' : isMultiplicative op' = true ∨ isAdditive op' = true) :
    Spells (nested op op' (.literal (Literal.vectorText "vec2" [1, 2])))
      (nested op op' (construction "vec2" [1, 2])) := by
  have hcomps : ∀ x ∈ ([1, 2] : List Binary32), x.isFinite = true ∧ x.isNegative = false := by decide
  have hcall : Spells (.call "f" [.var "b"]) (.call "f" [.var "b"]) :=
    @Spells.call "f" [(.var "b", .var "b")] (by decide) (by simpa using .var (by decide))
  exact .binary hop (.unary (.var (by decide)))
    (.binary hop' (.literal (.vector (by decide) hcomps (.inl (by decide)))) hcall)

/-- A product in a sum is read back, a difference in a difference is not. -/
theorem text_means_iff_nested :
    (∃ s, (nested "+" "*" (.literal (Literal.vectorText "vec2" [1, 2]))).text = .ok s ∧
        Means s (nested "+" "*" (construction "vec2" [1, 2]))) ∧
      ∃ s, (nested "-" "-" (.literal (Literal.vectorText "vec2" [1, 2]))).text = .ok s ∧
        ¬Means s (nested "-" "-" (construction "vec2" [1, 2])) := by
  obtain ⟨s, hs, -, hmeans⟩ := text_means_iff (spells_nested "+" "*" (by decide) (by decide))
  obtain ⟨t, ht, -, hmeans'⟩ := text_means_iff (spells_nested "-" "-" (by decide) (by decide))
  exact ⟨⟨s, hs, hmeans.mpr rfl⟩, t, ht, fun h => nomatch hmeans'.mp h⟩

end ShaderExpr.Grammar
