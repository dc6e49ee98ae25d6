import ShaderExpr.Proofs.Grammar.Derivation
import ShaderExpr.Proofs.Node

/-!
# How operators without parentheses group

Text that puts parentheses around left operands and never around right ones shows a tree as a chain:
operands that are closed in themselves with operators between them. The grammar groups a chain by
precedence and from the left, whatever the tree was.

* **`group`** — the grouping of a chain.
* **`regroup`** — the tree that the chains of a tree are read as.
* **`Tail.derives`** — the grammar derives the grouping from the tokens of a chain.
* **`size_regroup`** — regrouping moves operators and loses nothing.
* **`regroup_binary_eq_self_iff`** — it keeps an operation iff it keeps both operands and the right one
  binds tighter than the operator.
-/

namespace ShaderExpr

/-! ## Trees -/

namespace Node

mutual

/-- How many nodes a tree has. -/
def size : Node → Nat
  | .literal _ | .var _ | .missing => 1
  | .call _ args => 1 + sizes args
  | .unary _ x => 1 + size x
  | .binary _ x y => 1 + size x + size y

def sizes : List Node → Nat
  | [] => 0
  | n :: ns => size n + sizes ns

end

/-- A right operand that needs no parentheses: it is no operation between two operands, or a product
in a sum. -/
def bindsTighter (op : String) : Node → Bool
  | .binary op' _ _ => Grammar.isAdditive op && Grammar.isMultiplicative op'
  | _ => true

mutual

/-- Every right operand in the tree needs no parentheses. -/
def rightOperandsBind : Node → Bool
  | .literal _ | .var _ | .missing => true
  | .call _ args => allRightOperandsBind args
  | .unary _ x => rightOperandsBind x
  | .binary op x y => bindsTighter op y && rightOperandsBind x && rightOperandsBind y

def allRightOperandsBind : List Node → Bool
  | [] => true
  | n :: ns => rightOperandsBind n && allRightOperandsBind ns

end

theorem allRightOperandsBind_iff {ns : List Node} :
    allRightOperandsBind ns = true ↔ ∀ n ∈ ns, rightOperandsBind n = true := by
  induction ns with
  | nil => exact ⟨nofun, fun _ => rfl⟩
  | cons n ns ih => rw [allRightOperandsBind, Bool.and_eq_true, ih, List.forall_mem_cons]

end Node

namespace Grammar

/-! ## Chains -/

/-- The grouping of a chain after a part of a sum: products first, all from the left. -/
def group : Pending → Node → List (String × Node) → Node
  | left, n, [] => left.join n
  | left, n, (op, u) :: rest =>
    if isMultiplicative op then group left (.binary op n u) rest
    else group (some (left.join n, op)) u rest

mutual

/-- The first operand of the chain that a tree is shown as, and the operators with the operands after
them. The operands are grouped as the grammar reads them. -/
def chain : Node → Node × List (String × Node)
  | .binary op x y =>
    (group none (chain x).1 (chain x).2, (op, (chain y).1) :: (chain y).2)
  | .call f args => (.call f (regroups args), [])
  | .unary op x => (.unary op (group none (chain x).1 (chain x).2), [])
  | .literal s => (.literal s, [])
  | .var s => (.var s, [])
  | .missing => (.missing, [])

/-- The trees that the chains of trees are read as. -/
def regroups : List Node → List Node
  | [] => []
  | n :: ns => group none (chain n).1 (chain n).2 :: regroups ns

end

/-- The tree that the chain of a tree is read as. -/
def regroup (n : Node) : Node := group none (chain n).1 (chain n).2

theorem regroups_eq_map (ns : List Node) : regroups ns = ns.map regroup := by
  induction ns with
  | nil => rw [regroups, List.map_nil]
  | cons n ns ih => rw [regroups, List.map_cons, ih, regroup]

/-- A tree that shows no operator is read as its first and only operand. -/
theorem regroup_of_tail_eq_nil {n : Node} (h : (chain n).2 = []) : regroup n = (chain n).1 := by
  rw [regroup, h, group, Pending.join]

/-! ## The grammar groups chains -/

/-- Operators and the operands after them, as tokens. -/
inductive Tail : List Token → List (String × Node) → Prop where
  | nil : Tail [] []
  | cons {op : String} {ts us : List Token} {u : Node} {rest : List (String × Node)}
      (hop : isMultiplicative op = true ∨ isAdditive op = true) (hu : Derives .factor ts u)
      (hrest : Tail us rest) : Tail (.mark op :: (ts ++ us)) ((op, u) :: rest)

/-- The tokens of a part of a sum before a product. -/
inductive Before : Pending → List Token → Prop where
  | none : Before none []
  | some {op : String} {ts : List Token} {x : Node} (hop : isAdditive op = true)
      (hx : Derives .sum ts x) : Before (some (x, op)) (ts ++ [.mark op])

/-- A part of a sum and the product after it are a sum, as the rules have it. -/
theorem Before.join {left : Pending} {ts us : List Token} {n : Node} (h : Before left ts)
    (hn : Derives .product us n) : Derives .sum (ts ++ us) (left.join n) := by
  cases h with
  | none => exact .ofProduct hn
  | some hop hx =>
      rw [List.append_assoc, List.singleton_append]
      exact .sum hop hx hn

/-- The grammar derives the grouping of a chain. Induction on the operators: each extends the product
before it or ends it. -/
theorem Tail.derives {vs : List Token} {rest : List (String × Node)} (h : Tail vs rest)
    {left : Pending} {ts us : List Token} {n : Node} (hleft : Before left ts)
    (hn : Derives .product us n) : Derives .sum (ts ++ (us ++ vs)) (group left n rest) := by
  induction h generalizing left ts us n with
  | nil =>
      rw [List.append_nil, group]
      exact hleft.join hn
  | @cons op ts' us' u rest hop hu _ ih =>
      rw [group]
      by_cases hmul : isMultiplicative op = true
      · -- the product before the operator goes on with the next operand
        rw [if_pos hmul]
        have hproduct := ih hleft (.product hmul hn hu)
        rwa [List.append_assoc, List.cons_append] at hproduct
      · -- the product ends and joins the sum, and the next operand starts a product
        rw [if_neg hmul]
        have hsum := ih (.some (hop.resolve_left hmul) (hleft.join hn)) (.ofFactor hu)
        rwa [List.append_assoc, List.append_assoc, List.singleton_append] at hsum

/-! ## Sizes -/

def Pending.size : Pending → Nat
  | none => 0
  | some (x, _) => x.size + 1

/-- Joining an operand to what waits before it loses no node. -/
theorem Pending.size_join (left : Pending) (n : Node) :
    (left.join n).size = left.size + n.size := by
  cases left with
  | none => rw [join, size, Nat.zero_add]
  | some p =>
      rw [join, size, Node.size]
      omega

/-- How much operators and operands add to a tree. -/
def tailSize : List (String × Node) → Nat
  | [] => 0
  | (_, u) :: rest => 1 + u.size + tailSize rest

/-- Grouping keeps all operands and operators. Induction on the operators, with any part of a sum
and any product before them. -/
theorem size_group (left : Pending) (n : Node) (rest : List (String × Node)) :
    (group left n rest).size = left.size + n.size + tailSize rest := by
  induction rest generalizing left n with
  | nil => rw [group, Pending.size_join, tailSize, Nat.add_zero]
  | cons p rest ih =>
      obtain ⟨op, u⟩ := p
      rw [group, tailSize]
      split
      · rw [ih, Node.size]
        omega
      · rw [ih, Pending.size, Pending.size_join]
        omega

/-- Trees that keep their sizes one by one keep them together. -/
theorem sizes_map {f : Node → Node} {ns : List Node} (h : ∀ n ∈ ns, (f n).size = n.size) :
    Node.sizes (ns.map f) = Node.sizes ns := by
  induction ns with
  | nil => rfl
  | cons n ns ih =>
      rw [List.map_cons, Node.sizes, Node.sizes, h n List.mem_cons_self,
        ih fun m hm => h m (List.mem_cons_of_mem _ hm)]

/-- A chain has all nodes of the tree that it shows, and so has its grouping. This is what tells a
tree from its regrouping below: operators that moved to the left leave a left operand that is too
large. -/
theorem size_regroup (n : Node) : (regroup n).size = n.size := by
  -- the size of a chain is that of its first operand and of what follows
  have hchain : ∀ n : Node, (regroup n).size = (chain n).1.size + tailSize (chain n).2 := by
    intro n
    rw [regroup, size_group, Pending.size, Nat.zero_add]
  induction n using Node.induction with
  | literal s => rfl
  | var s => rfl
  | missing => rfl
  | call f args ih =>
      rw [hchain, chain, tailSize, Node.size, Node.size, regroups_eq_map, sizes_map ih]
      rfl
  | unary op x ih =>
      rw [hchain, chain, tailSize, Node.size, Node.size, ← regroup, ih]
      rfl
  | binary op x y ihx ihy =>
      -- the right operand is not closed: its chain goes on that of the tree
      rw [hchain] at ihy
      rw [hchain, chain, tailSize, Node.size, ← regroup, ihx]
      omega

/-! ## Trees that are read as they are -/

/-- Products after a part of a sum are its last summand, grouped as they would be without the sum
before them. -/
theorem group_some_of_multiplicative (x : Node) (op : String) (n : Node)
    {rest : List (String × Node)} (h : ∀ p ∈ rest, isMultiplicative p.1 = true) :
    group (some (x, op)) n rest = .binary op x (group none n rest) := by
  induction rest generalizing n with
  | nil => rfl
  | cons p rest ih =>
      obtain ⟨hp, hrest⟩ := List.forall_mem_cons.mp h
      rw [group, group, if_pos hp, if_pos hp, ih _ hrest]

/-- Either only products follow a part of a sum, or some other operator moves it down into the left
operand, which then has more nodes than it. -/
theorem group_some_cases (x : Node) (op : String) (n : Node) (rest : List (String × Node)) :
    (∀ p ∈ rest, isMultiplicative p.1 = true) ∨
      ∃ op' l r, group (some (x, op)) n rest = .binary op' l r ∧ x.size < l.size := by
  induction rest generalizing x op n with
  | nil => exact .inl nofun
  | cons p rest ih =>
      obtain ⟨o, u⟩ := p
      by_cases hmul : isMultiplicative o = true
      · rw [group, if_pos hmul, List.forall_mem_cons]
        exact (ih x op (.binary o n u)).imp_left fun hall => ⟨hmul, hall⟩
      · -- an operator of a sum: the part before it is inside the new part
        rw [group, if_neg hmul, Pending.join]
        have hlt : x.size < (Node.binary op x n).size := by
          rw [Node.size]
          omega
        rcases ih (.binary op x n) o u with hall | ⟨op', l, r, hgroup, hl⟩
        · exact .inr ⟨o, .binary op x n, _, group_some_of_multiplicative _ _ _ hall, hlt⟩
        · exact .inr ⟨op', l, r, hgroup, hlt.trans hl⟩

/-- The first operand of a chain lies in the left operand of its grouping, whatever operators there
are. Induction on the operators behind the first. -/
theorem exists_group_cons (n : Node) (op : String) (u : Node) (rest : List (String × Node)) :
    ∃ op' l r, group none n ((op, u) :: rest) = .binary op' l r ∧ n.size ≤ l.size := by
  induction rest generalizing n op u with
  | nil =>
      rw [group]
      split
      · exact ⟨op, n, u, rfl, le_rfl⟩
      · exact ⟨op, n, u, rfl, le_rfl⟩
  | cons p rest ih =>
      obtain ⟨o, v⟩ := p
      rw [group]
      split
      · obtain ⟨op', l, r, hgroup, hl⟩ := ih (.binary op n u) o v
        rw [Node.size] at hl
        exact ⟨op', l, r, hgroup, by omega⟩
      · rcases group_some_cases n op u ((o, v) :: rest) with hall | ⟨op', l, r, hgroup, hl⟩
        · exact ⟨op, n, _, group_some_of_multiplicative _ _ _ hall, le_rfl⟩
        · exact ⟨op', l, r, hgroup, hl.le⟩

/-- A call is kept iff all arguments are: its parentheses and commas close them off. -/
theorem regroup_call_eq_self_iff {f : String} {args : List Node} :
    regroup (.call f args) = .call f args ↔ ∀ a ∈ args, regroup a = a := by
  have hmap := List.map_inj_left (f := regroup) (g := id) (l := args)
  rw [List.map_id] at hmap
  rw [regroup_of_tail_eq_nil rfl, chain, regroups_eq_map, Node.call.injEq]
  exact ⟨fun h => hmap.mp h.2, fun h => ⟨rfl, hmap.mpr h⟩⟩

/-- A sign shows no operator of its operand, which stands in parentheses or is atomic. -/
theorem regroup_unary_eq_self_iff {op : String} {x : Node} :
    regroup (.unary op x) = .unary op x ↔ regroup x = x := by
  rw [regroup_of_tail_eq_nil rfl, chain, ← regroup, Node.unary.injEq]
  exact ⟨And.right, fun h => ⟨rfl, h⟩⟩

/-- A product is kept iff its right operand shows no operator: any operator it shows would take the
product as its left operand. -/
theorem regroup_product_eq_self_iff {op : String} {x y : Node} (hop : isMultiplicative op = true) :
    regroup (.binary op x y) = .binary op x y ↔
      (chain y).2 = [] ∧ regroup x = x ∧ regroup y = y := by
  rw [regroup, chain, group, if_pos hop, ← regroup]
  constructor
  · intro h
    cases htail : (chain y).2 with
    | nil =>
        -- the product is all that the chain shows
        rw [htail, group, Pending.join, Node.binary.injEq] at h
        rw [regroup_of_tail_eq_nil htail]
        exact ⟨rfl, h.2⟩
    | cons p rest =>
        obtain ⟨op', l, r, hgroup, hl⟩ :=
          exists_group_cons (.binary op (regroup x) (chain y).1) p.1 p.2 rest
        rw [htail, hgroup, Node.binary.injEq] at h
        -- then `x` would be as large as a tree that has `x` and `y` in it
        rw [h.2.1, Node.size, size_regroup] at hl
        omega
  · rintro ⟨htail, hx, hy⟩
    rw [regroup_of_tail_eq_nil htail] at hy
    rw [htail, group, Pending.join, hx, hy]

/-- A sum is kept iff its right operand shows no operator of a sum. Products in it bind tighter, so
they stay on the right. -/
theorem regroup_sum_eq_self_iff {op : String} {x y : Node} (hop : isMultiplicative op = false) :
    regroup (.binary op x y) = .binary op x y ↔
      (∀ p ∈ (chain y).2, isMultiplicative p.1 = true) ∧ regroup x = x ∧ regroup y = y := by
  rw [regroup, chain, group, hop, if_neg Bool.false_ne_true, ← regroup, Pending.join]
  constructor
  · intro h
    rcases group_some_cases (regroup x) op (chain y).1 (chain y).2 with hall | ⟨op', l, r, hgroup, hl⟩
    · rw [group_some_of_multiplicative _ _ _ hall, ← regroup, Node.binary.injEq] at h
      exact ⟨hall, h.2⟩
    · -- the left operand would have more nodes than itself
      rw [hgroup, Node.binary.injEq] at h
      rw [h.2.1, size_regroup] at hl
      exact absurd hl (lt_irrefl _)
  · rintro ⟨hall, hx, hy⟩
    rw [group_some_of_multiplicative _ _ _ hall, ← regroup, hx, hy]

/-- What the operators that a right operand shows have to do with its own. The operand is kept
itself, so a product shows only its own operator. -/
theorem bindsTighter_iff {op : String} {n : Node} (hn : regroup n = n) :
    n.bindsTighter op = true ↔
      (chain n).2 = [] ∨ isAdditive op = true ∧ ∀ p ∈ (chain n).2, isMultiplicative p.1 = true := by
  cases n with
  | binary op' x y =>
      rw [Node.bindsTighter, Bool.and_eq_true, chain, List.forall_mem_cons]
      constructor
      · rintro ⟨hop, hop'⟩
        -- as a product that is read as it is, `n` shows no operator but its own
        have hy := ((regroup_product_eq_self_iff hop').mp hn).1
        exact .inr ⟨hop, hop', by rw [hy]; nofun⟩
      · rintro (h | ⟨hop, hop', -⟩)
        · nomatch h
        · exact ⟨hop, hop'⟩
  | literal s => exact ⟨fun _ => .inl rfl, fun _ => rfl⟩
  | var s => exact ⟨fun _ => .inl rfl, fun _ => rfl⟩
  | call f args => exact ⟨fun _ => .inl rfl, fun _ => rfl⟩
  | unary op' x => exact ⟨fun _ => .inl rfl, fun _ => rfl⟩
  | missing => exact ⟨fun _ => .inl rfl, fun _ => rfl⟩

/-- **An operation is read as it is iff its operands are and the right one binds tighter.** Products
and sums are the two cases from above, with the operators that the operand shows told from the
operand itself. -/
theorem regroup_binary_eq_self_iff {op : String} {x y : Node}
    (hop : isMultiplicative op = true ∨ isAdditive op = true) :
    regroup (.binary op x y) = .binary op x y ↔
      y.bindsTighter op = true ∧ regroup x = x ∧ regroup y = y := by
  by_cases hmul : isMultiplicative op = true
  · have hadd : ¬isAdditive op = true := fun h => by
      rw [isMultiplicative_of_isAdditive h] at hmul
      exact Bool.false_ne_true hmul
    rw [regroup_product_eq_self_iff hmul]
    refine and_congr_left fun ⟨_, hy⟩ => ?_
    rw [bindsTighter_iff hy]
    exact ⟨.inl, fun h => h.resolve_right fun h => hadd h.1⟩
  · have hadd := hop.resolve_left hmul
    rw [regroup_sum_eq_self_iff (isMultiplicative_of_isAdditive hadd)]
    refine and_congr_left fun ⟨_, hy⟩ => ?_
    rw [bindsTighter_iff hy]
    refine ⟨fun h => .inr ⟨hadd, h⟩, ?_⟩
    rintro (h | h)
    · rw [h]
      nofun
    · exact h.2

end Grammar

end ShaderExpr
