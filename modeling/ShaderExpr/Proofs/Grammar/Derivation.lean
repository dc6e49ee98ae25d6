import ShaderExpr.Node
import ShaderExpr.Proofs.Grammar.Token

/-!
# The grammar of expressions

Sums of products of factors: a minus sign before a factor binds tightest, then multiplication and
division, then addition and subtraction, both from the left; calls and parentheses are closed in
themselves. The grammar is stated as rules, one constructor each.

* **`Derives`** — the rules.
* **`reading`** — a reader that goes through the tokens once and keeps the open parentheses on a stack.
* **`Derives.reading_eq`** — it finds whatever the rules derive.
* **`Derives.unique`** — so no list of tokens is derived in two ways.
-/

namespace ShaderExpr.Grammar

/-- How tightly a part of an expression binds. -/
inductive Level where
  | sum
  | product
  | factor
  | primary
deriving DecidableEq, Repr

def isAdditive (op : String) : Bool := op == "+" || op == "-"

def isMultiplicative (op : String) : Bool := op == "*" || op == "/"

/-- The tokens are an expression of the level, and the tree is what they mean. -/
inductive Derives : Level → List Token → Node → Prop where
  | number (s : String) : Derives .primary [.number s] (.literal s)
  | name (s : String) : Derives .primary [.name s] (.var s)
  | call (f : String) {args : List (List Token × Node)} (h : ∀ p ∈ args, Derives .sum p.1 p.2) :
      Derives .primary
        (.name f :: .mark "(" :: ([.mark ","].intercalate (args.map Prod.fst) ++ [.mark ")"]))
        (.call f (args.map Prod.snd))
  | parentheses {ts : List Token} {n : Node} (h : Derives .sum ts n) :
      Derives .primary (.mark "(" :: (ts ++ [.mark ")"])) n
  | minus {ts : List Token} {n : Node} (h : Derives .factor ts n) :
      Derives .factor (.mark "-" :: ts) (.unary "-" n)
  | ofPrimary {ts : List Token} {n : Node} (h : Derives .primary ts n) : Derives .factor ts n
  | product {op : String} {ts us : List Token} {x y : Node} (hop : isMultiplicative op = true)
      (hx : Derives .product ts x) (hy : Derives .factor us y) :
      Derives .product (ts ++ .mark op :: us) (.binary op x y)
  | ofFactor {ts : List Token} {n : Node} (h : Derives .factor ts n) : Derives .product ts n
  | sum {op : String} {ts us : List Token} {x y : Node} (hop : isAdditive op = true)
      (hx : Derives .sum ts x) (hy : Derives .product us y) :
      Derives .sum (ts ++ .mark op :: us) (.binary op x y)
  | ofProduct {ts : List Token} {n : Node} (h : Derives .product ts n) : Derives .sum ts n

/-! ## Reading from left to right

An operand is joined to what stands before it as soon as it is complete, since operators group from
the left; only what stands before an addition has to wait until a product ends. -/

/-- A left operand and the operator after it, if there is one. -/
abbrev Pending := Option (Node × String)

def Pending.join : Pending → Node → Node
  | none, n => n
  | some (x, op), n => .binary op x n

/-- What stands before an operand: part of a sum, part of a product, and minus signs. -/
structure Frame where
  sum : Pending
  product : Pending
  minuses : Nat

namespace Frame

def empty : Frame := ⟨none, none, 0⟩

/-- Minus signs before a tree. -/
def negate : Nat → Node → Node
  | 0, n => n
  | k + 1, n => negate k (.unary "-" n)

/-- The product that an operand completes. -/
def complete (fr : Frame) (n : Node) : Node := fr.product.join (negate fr.minuses n)

end Frame

/-- What an open parenthesis was opened for. -/
inductive Opener where
  | parentheses
  /-- A call of a function with the arguments before this one. -/
  | call (f : String) (args : List Node)

/-- The open parentheses, each with what stands before it. -/
abbrev Stack := List (Frame × Opener)

/-- What a closing parenthesis after a tree completes, and what stood before it. -/
def close : Stack → Node → Option (Frame × Node × Stack)
  | (fr, .parentheses) :: st, n => some (fr, n, st)
  | (fr, .call f args) :: st, n => some (fr, .call f (args ++ [n]), st)
  | [], _ => none

/-- What a closing parenthesis completes right after it was opened: a call without arguments. -/
def closeEmpty : Frame → Stack → Option (Frame × Node × Stack)
  | ⟨none, none, 0⟩, (fr, .call f []) :: st => some (fr, .call f [], st)
  | _, _ => none

/-- The open call after a comma has ended an argument. -/
def separate : Stack → Node → Option Stack
  | (fr, .call f args) :: st, n => some ((fr, .call f (args ++ [n])) :: st)
  | _, _ => none

mutual

/-- Reads on where an operand is expected. -/
def operand : List Token → Frame → Stack → Option Node
  | [], _, _ => none
  | .number s :: ts, fr, st => after ts fr.sum (fr.complete (.literal s)) st
  | .name s :: ts, fr, st =>
    match ts with
    | .mark "(" :: us => operand us .empty ((fr, .call s []) :: st)
    | ts => after ts fr.sum (fr.complete (.var s)) st
  | .mark m :: ts, fr, st =>
    if m = "-" then operand ts { fr with minuses := fr.minuses + 1 } st
    else if m = "(" then operand ts .empty ((fr, .parentheses) :: st)
    else if m = ")" then
      (closeEmpty fr st).bind fun (fr, n, st) => after ts fr.sum (fr.complete n) st
    else none

/-- Reads on after a product that may go on. -/
def after : List Token → Pending → Node → Stack → Option Node
  | [], left, n, st => if st.isEmpty then some (left.join n) else none
  | .number _ :: _, _, _, _ => none
  | .name _ :: _, _, _, _ => none
  | .mark m :: ts, left, n, st =>
    if isMultiplicative m then operand ts ⟨left, some (n, m), 0⟩ st
    else if isAdditive m then operand ts ⟨some (left.join n, m), none, 0⟩ st
    else if m = ")" then
      (close st (left.join n)).bind fun (fr, n, st) => after ts fr.sum (fr.complete n) st
    else if m = "," then (separate st (left.join n)).bind fun st => operand ts .empty st
    else none

end

/-- The tree that tokens mean, if they are an expression. -/
def reading (ts : List Token) : Option Node := operand ts .empty []

/-! ## Single steps -/

/-- Do the tokens go on with an opening parenthesis? -/
def opens : List Token → Bool
  | .mark m :: _ => m == "("
  | _ => false

/-- Do the tokens go on with a multiplication or a division? -/
def multiplies : List Token → Bool
  | .mark m :: _ => isMultiplicative m
  | _ => false

/-- A name is a variable if no parenthesis follows it. With one it would be read as a call. -/
theorem operand_name {ts : List Token} (h : opens ts = false) (s : String) (fr : Frame)
    (st : Stack) : operand (.name s :: ts) fr st = after ts fr.sum (fr.complete (.var s)) st := by
  rw [operand]
  rintro us rfl
  cases h

/-- A multiplication keeps the product so far waiting for its other factor. -/
theorem after_multiplicative {op : String} (h : isMultiplicative op = true) (ts : List Token)
    (left : Pending) (n : Node) (st : Stack) :
    after (.mark op :: ts) left n st = operand ts ⟨left, some (n, op), 0⟩ st := by
  rw [after, if_pos h]

/-- No operator is of both kinds, so the order in which they are tried is of no matter. -/
theorem isMultiplicative_of_isAdditive {op : String} (h : isAdditive op = true) :
    isMultiplicative op = false := by
  unfold isAdditive at h
  rw [Bool.or_eq_true, beq_iff_eq, beq_iff_eq] at h
  rcases h with rfl | rfl <;> decide

theorem operator_cases {op : String} (h : isMultiplicative op = true ∨ isAdditive op = true) :
    op = "*" ∨ op = "/" ∨ op = "+" ∨ op = "-" := by
  unfold isMultiplicative isAdditive at h
  rwa [Bool.or_eq_true, Bool.or_eq_true, beq_iff_eq, beq_iff_eq, beq_iff_eq, beq_iff_eq,
    or_assoc] at h

/-- After an operand that an operator follows, no call is opened. -/
theorem opens_operator {op : String} (h : isMultiplicative op = true ∨ isAdditive op = true)
    (ts : List Token) : opens (.mark op :: ts) = false := by
  rcases operator_cases h with rfl | rfl | rfl | rfl <;> rfl

/-- An addition ends the product so far, which is joined to the sum before it. -/
theorem after_additive {op : String} (h : isAdditive op = true) (ts : List Token)
    (left : Pending) (n : Node) (st : Stack) :
    after (.mark op :: ts) left n st = operand ts ⟨some (left.join n, op), none, 0⟩ st := by
  rw [after, isMultiplicative_of_isAdditive h, if_neg Bool.false_ne_true, if_pos h]

/-- A sum may be joined before the next token is looked at, if that goes on no product: all other
tokens join it first. -/
theorem after_join {ts : List Token} (h : multiplies ts = false) (left : Pending) (n : Node)
    (st : Stack) : after ts left n st = after ts none (left.join n) st := by
  cases ts with
  | nil => rw [after, after, Pending.join]
  | cons t ts =>
      cases t with
      | number s => rw [after, after]
      | name s => rw [after, after]
      | mark m =>
          have hm : isMultiplicative m = false := h
          rw [after, after, hm, if_neg Bool.false_ne_true, if_neg Bool.false_ne_true]
          rfl

/-- A closing parenthesis joins what is inside and goes on as after an operand. -/
theorem after_close (ts : List Token) (left : Pending) (n : Node) (st : Stack) :
    after (.mark ")" :: ts) left n st =
      (close st (left.join n)).bind fun (fr, n, st) => after ts fr.sum (fr.complete n) st := by
  rw [after, if_neg (by decide), if_neg (by decide), if_pos rfl]

/-- A comma joins the argument before it and goes on with the next, inside the same call. -/
theorem after_comma (ts : List Token) (left : Pending) (n : Node) (st : Stack) :
    after (.mark "," :: ts) left n st =
      (separate st (left.join n)).bind fun st => operand ts .empty st := by
  rw [after, if_neg (by decide), if_neg (by decide), if_neg (by decide), if_pos rfl]

/-! ## The reader finds what the rules derive -/

/-- What the reader does on the tokens of an expression of a level, whatever comes after them and
does not go on with it. -/
def Reads : Level → List Token → Node → Prop
  | .sum, ts, n => ∀ rest st, opens rest = false → multiplies rest = false →
      operand (ts ++ rest) .empty st = after rest none n st
  | .product, ts, n => ∀ rest left st, opens rest = false →
      operand (ts ++ rest) ⟨left, none, 0⟩ st = after rest left n st
  | _, ts, n => ∀ rest fr st, opens rest = false →
      operand (ts ++ rest) fr st = after rest fr.sum (fr.complete n) st

/-- The arguments of a call are read one after the other into the open call. Induction on those that
are left; `done` are the ones before them. -/
theorem operand_arguments {args : List (List Token × Node)} (hne : args ≠ [])
    (h : ∀ p ∈ args, Reads .sum p.1 p.2) (f : String) (done : List Node) (rest : List Token)
    (fr : Frame) (st : Stack) :
    operand ([.mark ","].intercalate (args.map Prod.fst) ++ .mark ")" :: rest) .empty
        ((fr, .call f done) :: st) =
      after rest fr.sum (fr.complete (.call f (done ++ args.map Prod.snd))) st := by
  induction args generalizing done with
  | nil => exact absurd rfl hne
  | cons p args ih =>
      have hp := h p List.mem_cons_self
      cases args with
      | nil =>
          -- the last argument is ended by the parenthesis, every other by a comma
          rw [List.map_singleton, List.intercalate_singleton, hp _ _ rfl rfl, after_close]
          rfl
      | cons q args =>
          -- the argument is put into the open call, and the others follow in it
          have hrest := ih (List.cons_ne_nil _ _) (fun r hr => h r (List.mem_cons_of_mem _ hr))
            (done ++ [p.2])
          rw [List.append_assoc] at hrest
          rw [List.map_cons, List.map_cons, List.intercalate_cons_cons, List.append_assoc,
            List.append_assoc, List.singleton_append, hp _ _ rfl rfl, after_comma]
          exact hrest

/-- Whatever the rules derive is found by the reader. Induction on the derivation, one case for each
rule. The statement at each level is about any tokens that may follow and about any frame that the level
can stand in. -/
theorem Derives.reads {l : Level} {ts : List Token} {n : Node} (h : Derives l ts n) :
    Reads l ts n := by
  induction h with
  | number s =>
      intro rest fr st _
      show operand (.number s :: rest) fr st = _
      rw [operand]
  | name s =>
      intro rest fr st hopens
      exact operand_name hopens s fr st
  | @call f args _ ih =>
      intro rest fr st _
      rw [List.cons_append, List.cons_append, operand, List.append_assoc]
      -- a call without arguments closes before any operand was read
      by_cases hargs : args = []
      · subst hargs
        show operand (.mark ")" :: rest) .empty _ = _
        rw [operand, if_neg (by decide), if_neg (by decide), if_pos rfl]
        rfl
      · exact operand_arguments hargs ih f [] rest fr st
  | @parentheses ts n _ ih =>
      -- inside the parentheses reading starts anew, with the frame kept on the stack
      intro rest fr st hopens
      show operand (.mark "(" :: (ts ++ [.mark ")"] ++ rest)) fr st = _
      rw [operand, if_neg (by decide), if_pos rfl, List.append_assoc, ih _ _ rfl rfl]
      exact after_close rest none n _
  | @minus ts n _ ih =>
      intro rest fr st hopens
      show operand (.mark "-" :: (ts ++ rest)) fr st = _
      rw [operand, if_pos rfl, ih _ _ _ hopens]
      rfl
  | ofPrimary _ ih => exact ih
  | @product op ts us x y hop _ _ ihx ihy =>
      intro rest left st hopens
      -- the left factors come first and are joined, so products group from the left
      rw [List.append_assoc, List.cons_append, ihx _ _ _ (opens_operator (.inl hop) _),
        after_multiplicative hop, ihy _ _ _ hopens]
      rfl
  | ofFactor _ ih =>
      intro rest left st hopens
      exact ih rest ⟨left, none, 0⟩ st hopens
  | @sum op ts us x y hop _ _ ihx ihy =>
      intro rest st hopens hmultiplies
      -- the sum before the operator waits in the frame until the product after it ends
      rw [List.append_assoc, List.cons_append,
        ihx _ _ (opens_operator (.inr hop) _) (isMultiplicative_of_isAdditive hop),
        after_additive hop, ihy _ _ _ hopens, after_join hmultiplies]
      rfl
  | ofProduct _ ih =>
      -- a sum of one product has nothing waiting before it
      intro rest st hopens _
      exact ih rest none st hopens

/-- **The reader finds what the rules derive**: for a whole expression nothing follows and nothing
stands before. -/
theorem Derives.reading_eq {ts : List Token} {n : Node} (h : Derives .sum ts n) :
    reading ts = some n := by
  have hread := h.reads [] [] rfl rfl
  rw [List.append_nil] at hread
  unfold reading
  rw [hread, after]
  rfl

/-- **No tokens mean two different trees**, since the reader is a function that finds each of
them. -/
theorem Derives.unique {ts : List Token} {m n : Node} (hm : Derives .sum ts m)
    (hn : Derives .sum ts n) : m = n :=
  Option.some.inj (hm.reading_eq.symm.trans hn.reading_eq)

end ShaderExpr.Grammar
