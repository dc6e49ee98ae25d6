import ShaderExpr.Proofs.Description.Reading
import ShaderExpr.Proofs.Evaluator.Typing
import ShaderExpr.Proofs.Node

/-!
# The shape of a tree

A tree carries no shapes, but its shape can be computed from its leaves up: from the text of literals,
the shapes of the variables, the signatures of the catalog, the components of constructors, and the
parameters and return types of functions. A tree that has a shape in this sense is closed: it names
nothing but the variables and functions that it was given. Whatever is read from a document has the
shape that it was read with.

* **`Node.shape?`** — the shape of a tree, computed.
* **`Node.vars`** — the variables in a tree.
* **`Node.closed_of_shape?`** — they and the calls are all known, if the tree has a shape.
* **`Operation.operatorShape?_eq`** — operations that share an operator never disagree on a result.
* **`Vocabulary.shape?_of_made`** — the shape of what was read is the computed one.
-/

namespace ShaderExpr

/-! ## Operations as they are written -/

/-- The receiver and the other operands, out of the operands in the order in which they are written. -/
def Form.receiver? {α : Type} : Form → List α → Option (α × List α)
  | .callLast, xs => xs.getLast?.map fun x => (x, xs.dropLast)
  | _, xs => xs.head?.map fun x => (x, xs.tail)

namespace Operation

/-- The shape of the result on operands of some shapes, in the order in which they are written. -/
def result? (op : Operation) (shapes : List Shape) : Option Shape := do
  let (recv, args) ← op.entry.form.receiver? shapes
  let sig ← op.signature? recv
  if args = sig.args then some sig.result else none

/-- The operation that is written as a call of a function. -/
def ofFunction? (f : String) : Option Operation :=
  all.find? fun op => op.entry.form.isCall && op.symbol == f

/-- The shape of the result of an operator. Several operations may be written with it. -/
def operatorShape? (form : Form) (symbol : String) (shapes : List Shape) : Option Shape :=
  (all.filter fun op => op.entry.form = form && op.symbol == symbol).findSome? (·.result? shapes)

theorem result?_of_receiver? {op : Operation} {shapes : List Shape} {recv : Shape} {sig : Signature}
    (hrecv : op.entry.form.receiver? shapes = some (recv, sig.args))
    (hsig : op.signature? recv = some sig) : op.result? shapes = some sig.result := by
  simp [result?, hrecv, hsig]

/-- Operations that are written as calls are told apart by their functions: no two of them share
one. -/
theorem ofFunction?_symbol {op : Operation} (h : op.entry.form.isCall = true) :
    ofFunction? op.symbol = some op := by
  revert h
  cases op <;> decide

theorem ofFunction?_eq_some {f : String} {op : Operation} (h : ofFunction? f = some op) :
    op.entry.form.isCall = true ∧ op.symbol = f := by
  have hop := List.find?_some h
  rw [Bool.and_eq_true] at hop
  exact ⟨hop.1, eq_of_beq hop.2⟩

/-- The function of an operation that is written as a call has the name of the operation. -/
theorem symbol_eq_name {op : Operation} (h : op.entry.form.isCall = true) : op.symbol = op.name := by
  revert h
  cases op <;> decide

/-- What is the name of no operation is no function of one either, since the functions have the
names of their operations. -/
theorem ofFunction?_eq_none {f : String} (h : ofName? f = none) : ofFunction? f = none := by
  unfold ofFunction? ofName? at *
  rw [List.find?_eq_none] at h ⊢
  intro op hop hf
  rw [Bool.and_eq_true] at hf
  refine h op hop ?_
  rw [← symbol_eq_name hf.1]
  exact hf.2

/-- **Operations that share an operator never disagree**: on any two operands, one that has a result
has the result that the operator has. There are finitely many operations and shapes, and all of them
are tried. -/
theorem operatorShape?_eq {op : Operation} (hform : op.entry.form = .between) {x y t : Shape}
    (h : op.result? [x, y] = some t) : operatorShape? .between op.symbol [x, y] = some t := by
  have hagree : ∀ op ∈ all, op.entry.form = .between → ∀ x ∈ Shape.all, ∀ y ∈ Shape.all,
      (op.result? [x, y]).isSome → operatorShape? .between op.symbol [x, y] = op.result? [x, y] := by
    decide +kernel
  rw [hagree op (mem_all op) hform x (Shape.mem_all x) y (Shape.mem_all y) (by rw [h]; rfl), h]

/-- There is one operation that is written before its operand. -/
theorem eq_neg_of_before {op : Operation} (h : op.entry.form = .before) : op = .neg := by
  revert h
  cases op <;> decide

theorem operatorShape?_neg (s : Shape) : operatorShape? .before neg.symbol [s] = some s := by
  cases s <;> decide

end Operation

/-! ## The shape of a tree -/

namespace Node

/-- The shape of a call of a function on arguments of some shapes: an operation, a constructor, or one of
some functions. -/
def callShape? (fns : List Function) (f : String) (shapes : List Shape) : Option Shape :=
  match Operation.ofFunction? f with
  | some op => op.result? shapes
  | none =>
    match Shape.ofName? f with
    | some s => if (shapes.map Shape.arity).sum = s.arity then some s else none
    | none => do
      let fn ← fns.find? (·.name == f)
      if shapes.map Shape.name = fn.params.map Param.type then Shape.ofName? fn.returnType else none

mutual

/-- The shape of a tree over some functions and variables. -/
def shape? (fns : List Function) (names : List Input) : Node → Option Shape
  | .literal text => (Literal.value text).toOption.map Value.shape
  | .var name => (names.find? (name == ·.name)).map Input.shape
  | .call f args => do callShape? fns f (← shapes? fns names args)
  | .unary symbol x => do Operation.operatorShape? .before symbol [← shape? fns names x]
  | .binary symbol x y => do
    Operation.operatorShape? .between symbol [← shape? fns names x, ← shape? fns names y]
  | .missing => none

/-- The shapes of trees. -/
def shapes? (fns : List Function) (names : List Input) : List Node → Option (List Shape)
  | [] => some []
  | n :: ns => do return (← shape? fns names n) :: (← shapes? fns names ns)

end

mutual

/-- The variables in a tree. -/
def vars : Node → List String
  | .var name => [name]
  | .call _ args => varsAll args
  | .unary _ x => vars x
  | .binary _ x y => vars x ++ vars y
  | .literal _ | .missing => []

/-- The variables in trees. -/
def varsAll : List Node → List String
  | [] => []
  | n :: ns => vars n ++ varsAll ns

end

/-- A call is of a function of the catalog, of a constructor, or of one of some functions with as many
parameters as the call has arguments. -/
def Callable (fns : List Function) (c : String × Nat) : Prop :=
  (∃ op : Operation, op.entry.form.isCall = true ∧ op.symbol = c.1) ∨ (∃ s : Shape, s.name = c.1) ∨
    ∃ fn ∈ fns, fn.name = c.1 ∧ fn.params.length = c.2

variable {fns : List Function} {names : List Input}

/-- Trees have shapes together iff each of them has one, and there are as many. -/
theorem shapes?_eq_some {ns : List Node} {ss : List Shape} (h : shapes? fns names ns = some ss) :
    ns.length = ss.length ∧ ∀ n ∈ ns, ∃ s, shape? fns names n = some s := by
  induction ns generalizing ss with
  | nil =>
      cases h
      exact ⟨rfl, nofun⟩
  | cons n ns ih =>
      obtain ⟨s, hs, h⟩ := Option.bind_eq_some_iff.mp h
      obtain ⟨rest, hrest, hss⟩ := Option.bind_eq_some_iff.mp h
      cases hss
      obtain ⟨hlength, hns⟩ := ih hrest
      exact ⟨congrArg (· + 1) hlength, List.forall_mem_cons.mpr ⟨⟨s, hs⟩, hns⟩⟩

/-- The trees of expressions that have their computed shapes have them together. -/
theorem shapes?_map {es : List Expr} (h : ∀ e ∈ es, e.node.shape? fns names = some e.shape) :
    shapes? fns names (es.map Expr.node) = some (es.map Expr.shape) := by
  induction es with
  | nil => rfl
  | cons e es ih =>
      obtain ⟨he, hes⟩ := List.forall_mem_cons.mp h
      rw [List.map_cons, shapes?, he, ih hes]
      rfl

theorem mem_varsAll {ns : List Node} {x : String} : x ∈ varsAll ns ↔ ∃ n ∈ ns, x ∈ n.vars := by
  induction ns with
  | nil => simp [varsAll]
  | cons n ns ih => simp [varsAll, ih]

/-- A call that has a shape is one of the three kinds, and a function has as many parameters as the
call has arguments. -/
theorem callable_of_callShape? {f : String} {shapes : List Shape} {t : Shape}
    (h : callShape? fns f shapes = some t) : Callable fns (f, shapes.length) := by
  unfold callShape? at h
  split at h
  · next op hop => exact .inl ⟨op, Operation.ofFunction?_eq_some hop⟩
  · split at h
    · next s hs =>
        have hname := List.find?_some hs
        exact .inr (.inl ⟨s, eq_of_beq hname⟩)
    · obtain ⟨fn, hfn, h⟩ := Option.bind_eq_some_iff.mp h
      split at h
      · next htypes =>
          have hname := List.find?_some hfn
          have hlength := congrArg List.length htypes
          rw [List.length_map, List.length_map] at hlength
          exact .inr (.inr ⟨fn, List.mem_of_find?_eq_some hfn, eq_of_beq hname, hlength.symm⟩)
      · cases h

/-- **A tree that has a shape is closed**: its variables and its calls are known. Induction over the
tree, as its shape is computed; what is not known has no shape. -/
theorem closed_of_shape? {n : Node} {t : Shape} (h : n.shape? fns names = some t) :
    (∀ x ∈ n.vars, x ∈ names.map Input.name) ∧ ∀ c ∈ n.calls, Callable fns c := by
  induction n using Node.induction generalizing t with
  | literal text => exact ⟨nofun, nofun⟩
  | missing => cases h
  | var name =>
      obtain ⟨i, hi, _⟩ := Option.map_eq_some_iff.mp h
      have hname := List.find?_some hi
      refine ⟨fun x hx => ?_, nofun⟩
      rw [List.mem_singleton.mp hx, eq_of_beq hname]
      exact List.mem_map_of_mem (List.mem_of_find?_eq_some hi)
  | unary symbol x ih =>
      obtain ⟨s, hs, _⟩ := Option.bind_eq_some_iff.mp h
      exact ih hs
  | binary symbol x y ihx ihy =>
      obtain ⟨s, hs, h⟩ := Option.bind_eq_some_iff.mp h
      obtain ⟨u, hu, _⟩ := Option.bind_eq_some_iff.mp h
      obtain ⟨hvarsx, hcallsx⟩ := ihx hs
      obtain ⟨hvarsy, hcallsy⟩ := ihy hu
      exact ⟨List.forall_mem_append.mpr ⟨hvarsx, hvarsy⟩,
        List.forall_mem_append.mpr ⟨hcallsx, hcallsy⟩⟩
  | call f args ih =>
      obtain ⟨shapes, hshapes, hcall⟩ := Option.bind_eq_some_iff.mp h
      obtain ⟨hlength, hsome⟩ := shapes?_eq_some hshapes
      -- every argument has a shape, so the induction hypothesis speaks of it
      have hargs : ∀ a ∈ args, (∀ x ∈ a.vars, x ∈ names.map Input.name) ∧
          ∀ c ∈ a.calls, Callable fns c := by
        intro a ha
        obtain ⟨s, hs⟩ := hsome a ha
        exact ih a ha hs
      refine ⟨fun x hx => ?_, List.forall_mem_cons.mpr ⟨?_, fun c hc => ?_⟩⟩
      · obtain ⟨a, ha, hx⟩ := mem_varsAll.mp hx
        exact (hargs a ha).1 x hx
      · rw [hlength]
        exact callable_of_callShape? hcall
      · obtain ⟨a, ha, hc⟩ := mem_callsAll.mp hc
        exact (hargs a ha).2 c hc

/-! ## Shapes of what is made -/

theorem callShape?_operation {op : Operation} (h : op.entry.form.isCall = true)
    (shapes : List Shape) : callShape? fns op.symbol shapes = op.result? shapes := by
  unfold callShape?
  rw [Operation.ofFunction?_symbol h]

/-- No operation has the name of a shape, so a constructor is found. -/
theorem callShape?_constructor {s : Shape} {shapes : List Shape}
    (h : (shapes.map Shape.arity).sum = s.arity) : callShape? fns s.name shapes = some s := by
  have hnone : Operation.ofFunction? s.name = none := by cases s <;> decide
  unfold callShape?
  rw [hnone, Shape.ofName?_name]
  exact if_pos h

/-- A function is found if its name is that of no operation and no shape. Reading makes calls of
functions only then. -/
theorem callShape?_function {fn : Function} {shapes : List Shape} {t : Shape}
    (hop : Operation.ofName? fn.name = none) (hshape : Shape.ofName? fn.name = none)
    (hfn : fns.find? (·.name == fn.name) = some fn)
    (htypes : shapes.map Shape.name = fn.params.map Param.type)
    (hresult : Shape.ofName? fn.returnType = some t) : callShape? fns fn.name shapes = some t := by
  unfold callShape?
  rw [Operation.ofFunction?_eq_none hop, hshape, hfn]
  exact (if_pos htypes).trans hresult

/-- A call on expressions that have their computed shapes has the shape that is computed from
them. -/
theorem shape?_call {f : String} {es : List Expr} {t : Shape}
    (hes : ∀ e ∈ es, e.node.shape? fns names = some e.shape)
    (h : callShape? fns f (es.map Expr.shape) = some t) :
    (Node.call f (es.map Expr.node)).shape? fns names = some t := by
  rw [shape?, shapes?_map hes]
  exact h

/-- **An operation on operands of the shapes that its signature asks for has the shape of its
result.** The four forms of operations make different trees, from which the operands have to be
found again. -/
theorem shape?_build {op : Operation} {recv : Expr} {args : List Expr} {sig : Signature}
    (hrecv : recv.node.shape? fns names = some recv.shape)
    (hargs : ∀ e ∈ args, e.node.shape? fns names = some e.shape)
    (hsig : op.signature? recv.shape = some sig) (hshapes : args.map Expr.shape = sig.args) :
    (op.build recv.node (args.map Expr.node)).shape? fns names = some sig.result := by
  have hlength : args.length = op.entry.args.length := by
    have hcount := congrArg List.length hshapes
    rw [(Operation.signature?_eq_some_iff.mp hsig).2, List.length_map, List.length_map] at hcount
    exact hcount
  unfold Operation.build
  split
  · next hform =>
      refine @shape?_call fns names op.symbol (recv :: args) _
        (List.forall_mem_cons.mpr ⟨hrecv, hargs⟩) ?_
      rw [callShape?_operation (by rw [hform]; rfl)]
      refine Operation.result?_of_receiver? ?_ hsig
      rw [hform, ← hshapes]
      rfl
  · next hform =>
      -- the receiver comes last
      rw [← List.map_singleton, ← List.map_append]
      refine shape?_call (List.forall_mem_append.mpr ⟨hargs, List.forall_mem_singleton.mpr hrecv⟩) ?_
      rw [callShape?_operation (by rw [hform]; rfl)]
      refine Operation.result?_of_receiver? ?_ hsig
      rw [hform, ← hshapes]
      simp [Form.receiver?]
  · next hform =>
      -- an operator between two operands: other operations may share it, but agree on the result
      obtain ⟨arg, rfl⟩ :=
        List.length_eq_one_iff.mp (hlength.trans (Operation.length_args_of_between hform))
      have harg := hargs arg List.mem_cons_self
      have hresult : op.result? [recv.shape, arg.shape] = some sig.result := by
        refine Operation.result?_of_receiver? ?_ hsig
        rw [hform, ← hshapes]
        rfl
      rw [List.map_singleton, List.headD_cons, shape?, hrecv, harg]
      exact Operation.operatorShape?_eq hform hresult
  · next hform =>
      -- the sign before its operand
      obtain rfl := Operation.eq_neg_of_before hform
      obtain rfl := List.length_eq_zero_iff.mp hlength
      have hresult : sig.result = recv.shape := by
        rw [(Operation.signature?_eq_some_iff.mp hsig).2]
        rfl
      rw [shape?, hrecv, hresult]
      exact Operation.operatorShape?_neg recv.shape

end Node

namespace Vocabulary

variable {v : Vocabulary} {fns : List Function} {names : List Input}

/-- A key that stands for a function is the name of no operation and of no shape. -/
theorem head?_eq_function {key : String} {fn : Function} (h : v.head? key = some (.function fn)) :
    Operation.ofName? key = none ∧ Shape.ofName? key = none ∧ v.functions.get? key = some fn := by
  unfold head? at h
  split at h
  · cases h
  · next hop =>
      split at h
      · cases h
      · next hshape =>
          obtain ⟨fn', hfn, heq⟩ := Option.map_eq_some_iff.mp h
          cases heq
          exact ⟨hop, hshape, hfn⟩

/-- An operation was applied to a receiver that may receive it and to arguments of the shapes of its
signature. -/
theorem applyHead_operation_eq_ok {op : Operation} {es : List Expr} {e : Expr}
    (h : applyHead (.operation op) es = .ok e) :
    ∃ (recv : Expr) (args : List Expr) (sig : Signature), es = recv :: args ∧
      op.signature? recv.shape = some sig ∧ args.map Expr.shape = sig.args ∧
        e = ⟨sig.result, op.build recv.node (args.map Expr.node)⟩ := by
  obtain ⟨recv, args, rfl, happly⟩ := applyHead_operation_eq_ok_iff.mp h
  obtain ⟨op', recv', args', sig, hop, hrecv, hargs, hsig, hshapes, rfl⟩ := Expr.apply_eq_ok happly
  have hop' : op' = op := by simpa [Operation.op?_code] using hop.symm
  subst hop'
  cases hrecv
  obtain rfl := List.map_injective_iff.mpr (Option.some_injective _) hargs
  exact ⟨recv, args, sig, rfl, hsig, hshapes, rfl⟩

/-- Operands of a shape have as many components as it, and make a call of its constructor. -/
theorem applyHead_shape_eq_ok {s : Shape} {es : List Expr} {e : Expr} (h : applyHead (.shape s) es = .ok e) :
    (es.map fun e => e.shape.arity).sum = s.arity ∧ e = ⟨s, .call s.name (es.map Expr.node)⟩ := by
  rw [applyHead_shape] at h
  exact Combiner.toShape_ofList_eq_ok_iff.mp (mapError_eq_ok_iff.mp h)

/-- A function was called with arguments of the types of its parameters, and has a result type that
is a shape. -/
theorem applyHead_function_eq_ok {fn : Function} {es : List Expr} {e : Expr}
    (h : applyHead (.function fn) es = .ok e) :
    ∃ t, Shape.ofName? fn.returnType = some t ∧
      es.map (fun e => e.shape.name) = fn.params.map Param.type ∧
        e = ⟨t, .call fn.name (es.map Expr.node)⟩ := by
  obtain ⟨t, args, hargs, hresult, htypes, rfl⟩ := Expr.call_eq_ok (mapError_eq_ok_iff.mp h)
  obtain rfl := List.map_injective_iff.mpr (Option.some_injective _) hargs
  exact ⟨t, hresult, htypes, rfl⟩

/-- **What is made has the computed shape**, if so have the names in scope, and the functions are
those of a list. Induction over how it was made. -/
theorem shape?_of_made
    (hfns : ∀ key fn, v.functions.get? key = some fn → fns.find? (·.name == key) = some fn)
    (hnames : ∀ name e, v.scope.get? name = some e → e.node.shape? fns names = some e.shape)
    {e : Expr} (h : v.Made e) : e.node.shape? fns names = some e.shape := by
  induction h with
  | literal h =>
      -- the text of a literal is read back with the shape that it was written for
      show (Literal.value _).toOption.map Value.shape = _
      rw [Literal.value_shapeText h]
      exact congrArg some (Value.shape_ofRows _ _)
  | name h => exact hnames _ _ h
  | @apply key head es e _ hhead happly ih =>
      cases head with
      | operation op =>
          obtain ⟨recv, args, sig, rfl, hsig, hshapes, rfl⟩ := applyHead_operation_eq_ok happly
          obtain ⟨ihrecv, ihargs⟩ := List.forall_mem_cons.mp ih
          exact Node.shape?_build ihrecv ihargs hsig hshapes
      | shape s =>
          obtain ⟨harity, rfl⟩ := applyHead_shape_eq_ok happly
          refine Node.shape?_call ih (Node.callShape?_constructor ?_)
          rw [List.map_map]
          exact harity
      | function fn =>
          -- a key stands for a function only if it is the name of nothing built in
          obtain ⟨hop, hshape, hget⟩ := head?_eq_function hhead
          have hfind := hfns key fn hget
          have hkey := List.find?_some hfind
          obtain rfl : fn.name = key := eq_of_beq hkey
          obtain ⟨t, hresult, htypes, rfl⟩ := applyHead_function_eq_ok happly
          refine Node.shape?_call ih (Node.callShape?_function hop hshape hfind ?_ hresult)
          rw [List.map_map]
          exact htypes

end Vocabulary

end ShaderExpr
