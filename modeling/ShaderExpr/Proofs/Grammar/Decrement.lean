import Mathlib.Data.List.Chain
import ShaderExpr.Proofs.Evaluator.Typing
import ShaderExpr.Proofs.Grammar.Emission

/-!
# Minus signs side by side

Two minus signs without anything between them are one token, which decrements. Minus signs come from numbers, from the
sign before an operand and from differences. Differences have blanks around them, and operands are put in
parentheses unless they are atomic; but a literal counts as atomic even if it is a negative number. So a text
has two minus signs side by side exactly where a sign stands before such a literal.

* **`Separated`** — texts without that token. Any other character keeps two parts of a text apart.
* **`Node.negated`** — the operands that have a sign before them.
* **`Marked`** — what is known of the text of a tree; one lemma for each way to make a tree.
* **`Expr.Composed`** — the expressions that can be composed of variables, finite literals and operations.
* **`Expr.decrement_in_text_iff`** — when the text of an expression has the token.
-/

namespace ShaderExpr

/-! ## Texts -/

namespace Grammar

/-- No two minus signs stand side by side. -/
def Separated (cs : List Char) : Prop := cs.IsChain fun c d => ¬ (c = '-' ∧ d = '-')

/-- The definition by neighbours is the one by parts of the text. The first is local and carries the
proofs, the second is what a reader looks for. -/
theorem separated_iff {cs : List Char} : Separated cs ↔ ¬ ['-', '-'] <:+: cs := by
  unfold Separated
  rw [List.isChain_iff_forall_rel_of_append_cons_cons]
  constructor
  · rintro h ⟨l, r, hlr⟩
    rw [List.append_assoc] at hlr
    exact h hlr.symm ⟨rfl, rfl⟩
  · rintro h c d l r rfl ⟨rfl, rfl⟩
    exact h ⟨l, r, by simp⟩

@[simp] theorem separated_nil : Separated [] := .nil

theorem separated_of_not_mem {cs : List Char} (h : '-' ∉ cs) : Separated cs := by
  rw [separated_iff]
  exact fun hpair => h (hpair.subset List.mem_cons_self)

/-- Only a minus sign at the front makes a difference to what follows it. -/
theorem separated_minus_cons {cs : List Char} :
    Separated ('-' :: cs) ↔ cs.head? ≠ some '-' ∧ Separated cs := by
  unfold Separated
  rw [List.isChain_cons]
  refine and_congr_left fun _ => ⟨fun h hhead => h '-' hhead ⟨rfl, rfl⟩, ?_⟩
  rintro h c hc ⟨-, rfl⟩
  exact h hc

/-- Any other character keeps two parts apart, so each can be looked at by itself. -/
theorem separated_append_cons {c : Char} (hc : c ≠ '-') {cs ds : List Char} :
    Separated (cs ++ c :: ds) ↔ Separated cs ∧ Separated ds := by
  unfold Separated
  rw [List.isChain_append, List.isChain_cons]
  constructor
  · rintro ⟨hcs, ⟨-, hds⟩, -⟩
    exact ⟨hcs, hds⟩
  · rintro ⟨hcs, hds⟩
    refine ⟨hcs, ⟨fun d _ h => hc h.1, hds⟩, fun d _ e he h => ?_⟩
    cases he
    exact hc h.2

theorem separated_cons {c : Char} (hc : c ≠ '-') {cs : List Char} :
    Separated (c :: cs) ↔ Separated cs := by
  rw [← List.nil_append (c :: cs), separated_append_cons hc]
  exact and_iff_right separated_nil

theorem toList_parenthesized (s : String) :
    (Node.parenthesized s).toList = '(' :: (s.toList ++ ')' :: []) := by
  unfold Node.parenthesized
  rw [String.toList_append, String.toList_append]
  rfl

theorem separated_parenthesized {s : String} :
    Separated (Node.parenthesized s).toList ↔ Separated s.toList := by
  rw [toList_parenthesized, separated_cons (by decide), separated_append_cons (by decide)]
  exact and_iff_left separated_nil

/-- A comma and a blank keep arguments apart. Induction on the arguments. -/
theorem separated_intercalate {texts : List String} :
    Separated (", ".intercalate texts).toList ↔ ∀ t ∈ texts, Separated t.toList := by
  rw [String.toList_intercalate]
  show Separated ([',', ' '].intercalate (texts.map String.toList)) ↔ _
  induction texts with
  | nil => simp
  | cons s texts ih =>
      rw [List.forall_mem_cons, ← ih]
      cases texts with
      | nil => simp
      | cons t texts =>
          rw [List.map_cons, List.map_cons, List.intercalate_cons_cons, List.append_assoc]
          -- what follows the first argument is behind a comma and a blank
          generalize [',', ' '].intercalate (t.toList :: texts.map String.toList) = rest
          show Separated (s.toList ++ ',' :: ' ' :: rest) ↔ _
          rw [separated_append_cons (by decide), separated_cons (by decide)]

/-- A call is as good as its arguments, if there is no minus sign in its name. -/
theorem separated_call {f : String} (hf : '-' ∉ f.toList) {texts : List String} :
    Separated (f ++ Node.parenthesized (", ".intercalate texts)).toList ↔
      ∀ t ∈ texts, Separated t.toList := by
  rw [String.toList_append, toList_parenthesized, separated_append_cons (by decide),
    separated_append_cons (by decide), separated_intercalate]
  simp [separated_of_not_mem hf]

/-- A finite number has its minus sign in front, if any, and no other: behind the sign there are
digits and a point. -/
theorem separated_text {x : Binary32} (hx : x.isFinite = true) :
    Separated x.text.toList ∧ (x.text.toList.head? = some '-' ↔ x.isNegative = true) := by
  obtain ⟨hpointed, -⟩ := Decimal.positional_spec x.shortest
  rw [Binary32.toList_text hx]
  generalize x.shortest.positional.1 = whole at hpointed
  generalize Decimal.fraction x.shortest.positional.2 = part at hpointed
  -- behind the sign there are digits and a point
  have hdigits : '-' ∉ whole ++ '.' :: part := by
    intro hmem
    rcases List.mem_append.mp hmem with hmem | hmem
    · exact absurd (hpointed.isDigit_whole _ hmem) (by decide)
    · rcases List.mem_cons.mp hmem with hmem | hmem
      · exact absurd hmem (by decide)
      · exact absurd (hpointed.isDigit_part _ hmem) (by decide)
  have hseparated := separated_of_not_mem hdigits
  have hhead : (whole ++ '.' :: part).head? ≠ some '-' := fun h => hdigits (List.mem_of_mem_head? h)
  unfold Binary32.signText
  cases x.isNegative with
  | false => exact ⟨hseparated, iff_of_false hhead Bool.false_ne_true⟩
  | true => exact ⟨separated_minus_cons.mpr ⟨hhead, hseparated⟩, by simp⟩

/-- Identifiers are made of letters, digits and underscores. -/
theorem not_mem_of_isIdentifier {cs : List Char} (h : isIdentifier cs = true) : '-' ∉ cs := by
  cases cs with
  | nil => cases h
  | cons c cs =>
      unfold isIdentifier at h
      rw [Bool.and_eq_true, List.all_eq_true] at h
      intro hmem
      rcases List.mem_cons.mp hmem with rfl | hmem
      · exact absurd h.1 (by decide)
      · exact absurd (h.2 _ hmem) (by decide)

end Grammar

/-! ## Trees -/

namespace Node

mutual

/-- The operands of operators before them, as signs are. -/
def negated : Node → List Node
  | .call _ args => negatedAll args
  | .unary _ x => x :: negated x
  | .binary _ x y => negated x ++ negated y
  | .literal _ | .var _ | .missing => []

def negatedAll : List Node → List Node
  | [] => []
  | n :: ns => negated n ++ negatedAll ns

end

/-- A literal that is a negative number. -/
def IsNegative (n : Node) : Prop :=
  ∃ x : Binary32, x.isFinite = true ∧ x.isNegative = true ∧ n = .literal x.text

end Node

namespace Grammar

/-- What is known of the text of a tree: where it has minus signs side by side, and which of the texts that are
written without parentheses start with one. -/
structure Marked (n : Node) (s : String) : Prop where
  inner : n.inner = .ok s
  separated : Separated s.toList ↔ ∀ m ∈ n.negated, ¬ m.IsNegative
  atomic : n.isAtomic = true → s.toList.head? = some '-' → n.IsNegative

namespace Marked

variable {n n' : Node} {s s' : String}

/-- A tree without operands before which a sign stands, and without minus signs in its text. -/
theorem of_not_mem (hinner : n.inner = .ok s) (hnegated : n.negated = []) (hs : '-' ∉ s.toList) :
    Marked n s := by
  refine ⟨hinner, ?_, fun _ hhead => absurd (List.mem_of_mem_head? hhead) hs⟩
  rw [hnegated]
  exact iff_of_true (separated_of_not_mem hs) (List.forall_mem_nil _)

/-- A number that is written alone. It is atomic, and may start with a minus sign. -/
theorem number {x : Binary32} (hx : x.isFinite = true) : Marked (.literal x.text) x.text := by
  obtain ⟨hseparated, hhead⟩ := separated_text hx
  exact ⟨rfl, iff_of_true hseparated (List.forall_mem_nil _), fun _ h => ⟨x, hx, hhead.mp h, rfl⟩⟩

/-- A constructor with numbers: each number is behind a parenthesis or a blank, and in front there
is a name. -/
theorem construction {type : String} (htype : isIdentifier type.toList = true) {xs : List Binary32}
    (hxs : ∀ x ∈ xs, x.isFinite = true) :
    Marked (.literal (type ++ Node.parenthesized (Binary32.texts xs)))
      (type ++ Node.parenthesized (Binary32.texts xs)) := by
  have hname := not_mem_of_isIdentifier htype
  refine ⟨rfl, ?_, fun _ hhead => ?_⟩
  · have hseparated : Separated (type ++ Node.parenthesized (Binary32.texts xs)).toList :=
      (separated_call hname).mpr (List.forall_mem_map.mpr fun x hx => (separated_text (hxs x hx)).1)
    exact iff_of_true hseparated (List.forall_mem_nil _)
  · -- the text starts like the name of the type, and that is a word
    cases hcs : type.toList with
    | nil =>
        rw [hcs] at htype
        cases htype
    | cons c cs =>
        rw [String.toList_append, hcs, List.cons_append, List.head?_cons] at hhead
        cases hhead
        rw [hcs] at hname
        exact absurd List.mem_cons_self hname

/-- A literal is a number, or a constructor with numbers between parentheses. Matrices have theirs
in another order, which is of no matter. -/
theorem literal {shape : Shape} {comps : List Binary32} (hlength : comps.length = shape.arity)
    (hcomps : ∀ x ∈ comps, x.isFinite = true) :
    Marked (.literal (Literal.shapeText shape comps)) (Literal.shapeText shape comps) := by
  have hname : isIdentifier shape.name.toList = true := by cases shape <;> decide
  unfold Literal.shapeText
  split
  · rw [← append_parenthesized]
    exact construction hname (forall_mem_columnMajor (by decide) hcomps)
  · by_cases hfloat : shape = .float
    · subst hfloat
      obtain ⟨x, rfl⟩ := List.length_eq_one_iff.mp hlength
      exact number (hcomps x List.mem_cons_self)
    · rw [vectorText_eq (.inl fun h => hfloat (Shape.name_injective h))]
      exact construction hname hcomps

/-- The text of an operand before or after which an operator stands. Parentheses change nothing
inside. -/
theorem separated_operand (h : Marked n s) :
    Separated (if n.isAtomic then s else Node.parenthesized s).toList ↔
      ∀ m ∈ n.negated, ¬ m.IsNegative := by
  rw [← h.separated]
  split
  · rfl
  · exact separated_parenthesized

/-- An operand starts with a minus sign iff it is a negative number: everything else that could
start with one is put in parentheses. -/
theorem head?_operand (h : Marked n s) :
    (if n.isAtomic then s else Node.parenthesized s).toList.head? = some '-' ↔ n.IsNegative := by
  split
  · next hatomic =>
      -- without parentheses: the operand is known to be a negative number, or it starts with
      -- something else
      refine ⟨h.atomic hatomic, ?_⟩
      rintro ⟨x, hx, hsign, rfl⟩
      cases h.inner
      exact (separated_text hx).2.mpr hsign
  · next hatomic =>
      -- with parentheses the first character is one, and no literal is written so
      rw [toList_parenthesized, List.head?_cons]
      constructor
      · intro hhead
        exact absurd hhead (by decide)
      · rintro ⟨x, -, -, rfl⟩
        exact absurd rfl hatomic

/-- **A sign before an operand** adds the operand to those that have one, and makes two minus signs
side by side iff the operand starts with one. -/
theorem unary (h : Marked n s) :
    Marked (.unary "-" n) ("-" ++ if n.isAtomic then s else Node.parenthesized s) := by
  refine ⟨?_, ?_, fun hatomic => absurd hatomic Bool.false_ne_true⟩
  · rw [Node.inner, h.inner]
    rfl
  · rw [String.toList_append, Node.negated, List.forall_mem_cons, ← h.separated_operand,
      ← h.head?_operand]
    exact separated_minus_cons

/-- An operator between two operands has blanks around it, so it adds no minus signs side by side, a
minus sign included. -/
theorem binary {op : String} {c : Char} (hop : op.toList = [c]) (h : Marked n s) (h' : Marked n' s') :
    Marked (.binary op n n')
      ((if n.isAtomic then s else Node.parenthesized s) ++ " " ++ op ++ " " ++ s') := by
  refine ⟨?_, ?_, fun hatomic => absurd hatomic Bool.false_ne_true⟩
  · rw [Node.inner, h.inner, h'.inner]
    rfl
  · rw [String.append_assoc, String.append_assoc, String.append_assoc, String.toList_append,
      String.toList_append, String.toList_append, String.toList_append, hop, Node.negated,
      List.forall_mem_append, ← h.separated_operand, ← h'.separated]
    -- the blanks keep the operator apart from both operands
    show Separated (_ ++ ' ' :: ([c] ++ ' ' :: s'.toList)) ↔ _
    rw [separated_append_cons (by decide), separated_append_cons (by decide)]
    exact and_congr_right fun _ => and_iff_right (List.isChain_singleton c)

end Marked

/-- Trees that can be written one by one can be written together, and what is known of their texts
is known of all of them. -/
theorem exists_inners_of_marked {ns : List Node} (h : ∀ n ∈ ns, ∃ s, Marked n s) :
    ∃ texts, Node.inners ns = .ok texts ∧
      ((∀ t ∈ texts, Separated t.toList) ↔ ∀ m ∈ Node.negatedAll ns, ¬ m.IsNegative) := by
  induction ns with
  | nil => exact ⟨[], rfl, by simp [Node.negatedAll]⟩
  | cons n ns ih =>
      obtain ⟨⟨s, hs⟩, hns⟩ := List.forall_mem_cons.mp h
      obtain ⟨texts, hinners, htexts⟩ := ih hns
      refine ⟨s :: texts, ?_, ?_⟩
      · rw [Node.inners, hs.inner, hinners]
        rfl
      · rw [List.forall_mem_cons, Node.negatedAll, List.forall_mem_append, hs.separated, htexts]

/-- A call with arguments that can be written can be written, and has no minus signs side by side
but those of its arguments. -/
theorem exists_marked_call {f : String} (hf : '-' ∉ f.toList) {args : List Node}
    (h : ∀ n ∈ args, ∃ s, Marked n s) : ∃ s, Marked (.call f args) s := by
  obtain ⟨texts, hinners, htexts⟩ := exists_inners_of_marked h
  refine ⟨f ++ Node.parenthesized (", ".intercalate texts), ?_, ?_,
    fun hatomic => absurd hatomic Bool.false_ne_true⟩
  · rw [Node.inner, hinners]
    rfl
  · rw [separated_call hf, Node.negated]
    exact htexts

/-- The only operator that stands before its operand is the minus sign. -/
theorem symbol_of_before {op : Operation} (h : op.entry.form = .before) : op.symbol = "-" := by
  revert h
  cases op <;> decide

theorem symbol_of_between {op : Operation} (h : op.entry.form = .between) :
    ∃ c, op.symbol.toList = [c] := by
  cases op <;> first | exact ⟨_, rfl⟩ | cases h

/-- No function of the catalog has a minus sign in its name. -/
theorem symbol_of_isCall {op : Operation} (h : op.entry.form.isCall = true) :
    '-' ∉ op.symbol.toList := by
  revert h
  cases op <;> decide

/-- Every operation of the catalog makes a tree that can be written of such trees. The form of the
operation tells how, and there are four. -/
theorem exists_marked_build {op : Operation} {recv : Node} {args : List Node}
    (hlength : args.length = op.entry.args.length) (hrecv : ∃ s, Marked recv s)
    (hargs : ∀ n ∈ args, ∃ s, Marked n s) : ∃ s, Marked (op.build recv args) s := by
  cases hform : op.entry.form with
  | call =>
      rw [Operation.build, hform]
      exact exists_marked_call (symbol_of_isCall (by rw [hform]; rfl))
        (List.forall_mem_cons.mpr ⟨hrecv, hargs⟩)
  | callLast =>
      rw [Operation.build, hform]
      refine exists_marked_call (symbol_of_isCall (by rw [hform]; rfl)) ?_
      rw [List.forall_mem_append]
      exact ⟨hargs, List.forall_mem_singleton.mpr hrecv⟩
  | between =>
      obtain ⟨c, hc⟩ := symbol_of_between hform
      rw [Operation.length_args_of_between hform] at hlength
      obtain ⟨y, rfl⟩ := List.length_eq_one_iff.mp hlength
      obtain ⟨s, hs⟩ := hrecv
      obtain ⟨t, ht⟩ := hargs y List.mem_cons_self
      rw [Operation.build, hform]
      exact ⟨_, hs.binary hc ht⟩
  | before =>
      obtain ⟨s, hs⟩ := hrecv
      rw [Operation.build, hform, symbol_of_before hform]
      exact ⟨_, hs.unary⟩

end Grammar

/-! ## Expressions -/

namespace Expr

/-- The expressions composed of variables, literals with finite components, operations of the catalog and
constructors. -/
inductive Composed : Expr → Prop where
  | var {name : String} (h : Grammar.isIdentifier name.toList = true) (shape : Shape) :
      Composed (.var name shape)
  | literal {code : ShapeCode} {comps : List Binary32} {e : Expr}
      (hcomps : ∀ x ∈ comps, x.isFinite = true) (h : Expr.literal code comps = .ok e) : Composed e
  | apply {code : OpCode} {recv : Option Expr} {args : List (Option Expr)} {e : Expr}
      (hrecv : ∀ r, recv = some r → Composed r) (hargs : ∀ x, some x ∈ args → Composed x)
      (h : Expr.apply code recv args = .ok e) : Composed e
  | combine {parts : List (Option Expr)} {c : Combiner} {code : ShapeCode} {e : Expr}
      (hparts : ∀ x, some x ∈ parts → Composed x) (hc : Combiner.ofOptions parts = .ok c)
      (h : c.toCode code = .ok e) : Composed e

/-- What is known of texts is known of every composed expression. Induction on how it was
composed. -/
theorem Composed.exists_marked {e : Expr} (h : e.Composed) : ∃ s, Grammar.Marked e.node s := by
  induction h with
  | @var name h shape => exact ⟨name, .of_not_mem rfl rfl (Grammar.not_mem_of_isIdentifier h)⟩
  | literal hcomps h =>
      obtain ⟨shape, hlength, rfl⟩ := literal_eq_ok h
      exact ⟨_, .literal hlength hcomps⟩
  | apply _ _ h ihrecv ihargs =>
      -- an application that succeeds had all its operands
      obtain ⟨op, r, es, sig, -, rfl, rfl, hsig, hshapes, rfl⟩ := apply_eq_ok h
      refine Grammar.exists_marked_build ?_ (ihrecv r rfl) ?_
      · obtain ⟨-, rfl⟩ := Operation.signature?_eq_some_iff.mp hsig
        have hlengths := congrArg List.length hshapes
        simpa using hlengths
      · rw [List.forall_mem_map]
        exact fun x hx => ihargs x (List.mem_map_of_mem hx)
  | combine _ hc h ihparts =>
      obtain ⟨t, es, rfl, -, rfl⟩ := Combiner.toCode_eq_ok hc h
      have hname : '-' ∉ t.name.toList := by cases t <;> decide
      refine Grammar.exists_marked_call hname ?_
      rw [List.forall_mem_map]
      exact fun x hx => ihparts x (List.mem_map_of_mem hx)

/-- **Where a text has two minus signs side by side.** Every expression composed of variables, finite literals,
operations and constructors has a text. There are two minus signs side by side in it iff somewhere in the
expression a sign stands before a literal that is a negative number. -/
theorem decrement_in_text_iff {e : Expr} (h : e.Composed) :
    ∃ s, e.text = .ok s ∧ (['-', '-'] <:+: s.toList ↔
      ∃ x : Binary32, x.isFinite = true ∧ x.isNegative = true ∧ .literal x.text ∈ e.node.negated) := by
  obtain ⟨s, hs⟩ := h.exists_marked
  refine ⟨s, ?_, ?_⟩
  · -- only a missing tree has no text
    unfold text Node.text
    split
    · next hmissing =>
        rw [hmissing] at hs
        cases hs.inner
    · exact hs.inner
  · rw [← not_iff_not, ← Grammar.separated_iff, hs.separated]
    constructor
    · rintro hnone ⟨x, hx, hsign, hmem⟩
      exact hnone _ hmem ⟨x, hx, hsign, rfl⟩
    · rintro hnone m hm ⟨x, hx, hsign, rfl⟩
      exact hnone ⟨x, hx, hsign, hm⟩

/-- An operation of the catalog on composed expressions, where the shapes fit. The general rule has
optional operands, which are all there in this case. -/
theorem Composed.operation {op : Operation} {recv : Expr} {es : List Expr} {sig : Signature}
    (hrecv : recv.Composed) (hes : ∀ e ∈ es, e.Composed) (hsig : op.signature? recv.shape = some sig)
    (hshapes : es.map shape = sig.args) :
    Composed ⟨sig.result, op.build recv.node (es.map node)⟩ := by
  refine .apply (fun r hr => ?_) (fun x hx => ?_) (apply_code hsig hshapes)
  · cases hr
    exact hrecv
  · obtain ⟨e, he, heq⟩ := List.mem_map.mp hx
    cases heq
    exact hes _ he

theorem composed_minusOne : (literalOf .float [-1]).Composed :=
  @Composed.literal Shape.float.code [-1] _ (List.forall_mem_singleton.mpr (by decide)) rfl

/-- The difference of a negated variable and a negative number. -/
def minusMinus : Expr :=
  ⟨.float, .binary "-" (.unary "-" (.var "x")) (literalOf .float [-1]).node⟩

/-- Three minus signs, and no two of them side by side. -/
theorem decrement_in_text_iff_minusMinus :
    minusMinus.Composed ∧ ∃ s, minusMinus.text = .ok s ∧ ¬ ['-', '-'] <:+: s.toList := by
  have hx : (Expr.var "x" .float).Composed := .var (by decide) .float
  have hneg : Composed ⟨.float, .unary "-" (.var "x")⟩ :=
    @Composed.operation .neg _ [] ⟨[], .float⟩ hx (List.forall_mem_nil _) rfl rfl
  have hcomposed : minusMinus.Composed :=
    @Composed.operation .sub _ [_] ⟨[.float], .float⟩ hneg
      (List.forall_mem_singleton.mpr composed_minusOne) rfl rfl
  obtain ⟨s, hs, hiff⟩ := decrement_in_text_iff hcomposed
  refine ⟨hcomposed, s, hs, ?_⟩
  -- the only operand with a sign before it is the variable
  rw [hiff]
  rintro ⟨x, -, -, hmem⟩
  cases List.mem_singleton.mp hmem

/-- A sign before a negative number. -/
def signedMinusOne : Expr := ⟨.float, .unary "-" (literalOf .float [-1]).node⟩

/-- A sign before a negative number is composed as any other, and its text has the token. -/
theorem signedMinusOne_decrements :
    signedMinusOne.Composed ∧ signedMinusOne.text = .ok "--1.0" ∧ ['-', '-'] <:+: "--1.0".toList :=
  ⟨@Composed.operation .neg _ [] ⟨[], .float⟩ composed_minusOne (List.forall_mem_nil _) rfl rfl, rfl,
    [], ['1', '.', '0'], rfl⟩

end Expr

end ShaderExpr
