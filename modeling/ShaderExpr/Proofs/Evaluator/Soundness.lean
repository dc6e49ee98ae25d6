import Mathlib.Data.List.Perm.Subperm
import ShaderExpr.Proofs.Evaluator.Typing

/-!
# Evaluation of typed blocks

A typed expression evaluates to a value of its shape, in every environment that holds values of the
right shapes under the names in scope. From there the argument follows the evaluator: the declarations
of a block run one after the other, a function runs the declarations of the block that it was made
from, and functions that call only earlier ones never run out of the depth that calls may nest to.

* **`Conforms`** — the environment holds a value of the right shape under every name in scope.
* **`Answers`** — calls by name reach the functions, which give values of their result types, and leave
  the names of the language alone.
* **`Node.eval_yields`** — typed expressions evaluate.
* **`Declared.evaluates`** — so do typed declarations, and the environment after them conforms.
* **`Library`** — functions made from blocks that call earlier functions only.
* **`Library.answers`** — calls of such functions give values, at every depth from their number on.
* **`Evaluator.run_sound`** — a block runs to its end and every name holds a value of its shape.
-/

namespace ShaderExpr

/-! ## Constructors -/

namespace Value

/-- A constructor gives a value of its shape on as many components as it has. -/
theorem construct_yields {s : Shape} {vs : List Value}
    (h : (vs.map fun v => v.shape.arity).sum = s.arity) : Yields (construct s vs) s := by
  rw [construct_eq_ok h]
  exact .ok (shape_ofList _ _)

end Value

/-! ## Environments and calls -/

/-- Every name in scope has a value of its shape. -/
def Conforms (env : Env) (s : Scope) : Prop :=
  ∀ name e, s.get? name = some e → ∃ v, env.get? name = some v ∧ v.shape = e.shape

theorem conforms_empty : Conforms .empty .empty := nofun

/-- A new value under a name conforms to the scope in which the name is bound to its shape, also if
the name was bound before. -/
theorem Conforms.insert {env : Env} {s : Scope} (h : Conforms env s) (key : String) (v : Value) :
    Conforms (env.insert key v) (s.bind key v.shape) := by
  intro name e hget
  rw [Scope.get?_bind] at hget
  rw [Table.get?_insert]
  split at hget
  · next hname =>
      cases hget
      rw [if_pos hname]
      exact ⟨v, rfl, rfl⟩
  · next hname =>
      rw [if_neg hname]
      exact h name e hget

/-- The name of a shape or the symbol of an operation. -/
def Reserved (name : String) : Prop :=
  (∃ s : Shape, s.name = name) ∨ ∃ op : Operation, op.symbol = name

/-- Calls by name reach functions that give values of their result types on arguments of their
parameter types, and do not reach for the names of the language. -/
structure Answers (fns : List Function) (call : String → Option (List Value → Outcome Value)) :
    Prop where
  function : ∀ fn ∈ fns, ∃ run, call fn.name = some run ∧ ∀ (vs : List Value) (t : Shape),
    vs.map (fun v => v.shape.name) = fn.params.map Param.type →
      Shape.ofName? fn.returnType = some t → Yields (run vs) t
  reserved : ∀ name, Reserved name → call name = none

/-! ## Expressions -/

namespace Node

variable {a : Arith} {call : String → Option (List Value → Outcome Value)} {env : Env}

theorem evals_append_singleton {ns : List Node} {n : Node} {vs : List Value} {v : Value}
    (hns : evals a call env ns = .ok vs) (hn : eval a call env n = .ok v) :
    evals a call env (ns ++ [n]) = .ok (vs ++ [v]) := by
  induction ns generalizing vs with
  | nil =>
      cases hns
      rw [List.nil_append, evals, hn, evals]
      rfl
  | cons m ns ih =>
      rw [evals] at hns
      obtain ⟨w, hw, hrest⟩ := bind_eq_ok_iff.mp hns
      obtain ⟨ws, hws, heq⟩ := bind_eq_ok_iff.mp hrest
      cases heq
      rw [List.cons_append, evals, hw, ih hws]
      rfl

/-- Arguments that yield values of their shapes one by one do so together. -/
theorem evals_yields {args : List Expr} (h : ∀ e ∈ args, Yields (e.node.eval a call env) e.shape) :
    ∃ vs, evals a call env (args.map Expr.node) = .ok vs ∧
      vs.map Value.shape = args.map Expr.shape := by
  induction args with
  | nil => exact ⟨[], by rw [List.map_nil, evals], rfl⟩
  | cons e args ih =>
      obtain ⟨v, hv, hshape⟩ := h e List.mem_cons_self
      obtain ⟨vs, hvs, hshapes⟩ := ih fun x hx => h x (List.mem_cons_of_mem _ hx)
      refine ⟨v :: vs, ?_, ?_⟩
      · rw [List.map_cons, evals, hv, hvs]
        rfl
      · rw [List.map_cons, List.map_cons, hshape, hshapes]

/-- Values of the shapes of expressions agree with them in all that depends on the shape. -/
theorem map_of_map_shape {β : Type} (f : Shape → β) {vs : List Value} {args : List Expr}
    (h : vs.map Value.shape = args.map Expr.shape) :
    vs.map (fun v => f v.shape) = args.map fun e => f e.shape := by
  have hmap := congrArg (List.map f) h
  rwa [List.map_map, List.map_map] at hmap

/-- The tree of an operation evaluates to what the operation computes on the values of its parts, if
no function has its symbol as a name. The four forms of operations are trees of different kinds. -/
theorem eval_build {op : Operation} {recv : Node} {args : List Node} {x : Value} {vs : List Value}
    (hsymbol : op.entry.form.isCall = true → call op.symbol = none) (hrecv : recv.eval a call env = .ok x)
    (hargs : evals a call env args = .ok vs) (hlength : args.length = op.entry.args.length) :
    (op.build recv args).eval a call env = Outcome.ofError (op.compute a x vs) := by
  unfold Operation.build Operation.compute
  cases hform : op.entry.form with
  | call =>
      have hall : evals a call env (recv :: args) = .ok (x :: vs) := by
        rw [evals, hrecv, hargs]
        rfl
      simp only [eval, hall, hsymbol (by rw [hform]; rfl)]
      rfl
  | callLast =>
      simp only [eval, evals_append_singleton hargs hrecv, hsymbol (by rw [hform]; rfl)]
      rfl
  | between =>
      rw [Operation.length_args_of_between hform] at hlength
      obtain ⟨n, rfl⟩ := List.length_eq_one_iff.mp hlength
      rw [evals, evals] at hargs
      obtain ⟨y, hy, hrest⟩ := bind_eq_ok_iff.mp hargs
      cases hrest
      simp only [eval, hrecv, List.headD_cons, hy]
      rfl
  | before =>
      simp only [eval, hrecv]
      rfl

/-- **Typed expressions evaluate.** In an environment that conforms to the scope, the tree of a typed
expression gives a value of its shape. -/
theorem eval_yields {fns : List Function} {s : Scope} (hcall : Answers fns call)
    (henv : Conforms env s) {e : Expr} (h : Expr.Typed fns s e) :
    Yields (e.node.eval a call env) e.shape := by
  induction h with
  | literal h =>
      obtain ⟨v, hv, hshape⟩ := h
      exact ⟨v, by rw [eval, hv]; rfl, hshape⟩
  | var h =>
      obtain ⟨v, hv, hshape⟩ := henv _ _ h
      refine ⟨v, ?_, hshape⟩
      show eval a call env (.var _) = _
      rw [eval, Env.lookup, hv]
      rfl
  | @operation op recv args sig _ _ hsig hshapes ihrecv ihargs =>
      -- the catalog speaks of shapes, so it applies to the values of the parts as to the parts
      obtain ⟨x, hx, hxshape⟩ := ihrecv
      obtain ⟨vs, hvs, hvshapes⟩ := evals_yields ihargs
      have hlength : (args.map Expr.node).length = op.entry.args.length := by
        rw [List.length_map, ← List.length_map Expr.shape, hshapes,
          (Operation.signature?_eq_some_iff.mp hsig).2, List.length_map]
      rw [← hxshape] at hsig
      obtain ⟨v, hv, hshape⟩ := Operation.compute_yields a hsig (hvshapes.trans hshapes)
      refine ⟨v, ?_, hshape⟩
      rw [eval_build (fun _ => hcall.reserved _ (.inr ⟨op, rfl⟩)) hx hvs hlength, hv]
      rfl
  | @construct t args _ harity ihargs =>
      obtain ⟨vs, hvs, hshapes⟩ := evals_yields ihargs
      have hsum : (vs.map fun v => v.shape.arity).sum = t.arity := by
        rw [← harity, map_of_map_shape Shape.arity hshapes]
      obtain ⟨v, hv, hshape⟩ := Value.construct_yields hsum
      refine ⟨v, ?_, hshape⟩
      -- no function has the name of a shape, so the call is one of the constructor
      simp only [eval, hvs, hcall.reserved _ (.inl ⟨t, rfl⟩)]
      show Outcome.ofError (Builtin.call a t.name vs) = _
      unfold Builtin.call
      rw [Shape.ofName?_name]
      simp only [hv]
      rfl
  | @call fn args t hfn _ htypes hresult ihargs =>
      obtain ⟨vs, hvs, hshapes⟩ := evals_yields ihargs
      obtain ⟨run, hrun, hyields⟩ := hcall.function fn hfn
      have hnames : vs.map (fun v => v.shape.name) = fn.params.map Param.type := by
        rw [← htypes, map_of_map_shape Shape.name hshapes]
      obtain ⟨v, hv, hshape⟩ := hyields vs t hnames hresult
      refine ⟨v, ?_, hshape⟩
      simp only [eval, hvs, hrun]
      exact hv

end Node

/-! ## Declarations

Blocks and functions run declarations by loops of their own. Both loops do what the relation
`Evaluates` says, so that it is proved once that typed declarations run to the end. -/

/-- The declarations evaluate one after the other to values of their shapes, and lead from one
environment to another. -/
inductive Evaluates (eval : Env → Node → Outcome Value) : Env → List Declaration → Env → Prop where
  | nil {env : Env} : Evaluates eval env [] env
  | cons {env env' : Env} {d : Declaration} {ds : List Declaration} {v : Value}
      (hv : eval env d.value = .ok v) (hshape : v.shape = d.shape)
      (h : Evaluates eval (env.insert d.name v) ds env') : Evaluates eval env (d :: ds) env'

/-- **Typed declarations evaluate**, and the environment after them conforms. Induction on the
declarations: each is typed in the scope of those before it. -/
theorem Declared.evaluates {a : Arith} {call : String → Option (List Value → Outcome Value)}
    {fns : List Function} (hcall : Answers fns call) {ds : List Declaration} {s : Scope} {env : Env}
    (hds : Declared fns s ds) (henv : Conforms env s) :
    ∃ env', Evaluates (Node.eval a call) env ds env' ∧
      Conforms env' (s.bindAll (ds.map Declaration.input)) := by
  induction ds generalizing s env with
  | nil => exact ⟨env, .nil, henv⟩
  | cons d ds ih =>
      obtain ⟨htyped, hrest⟩ := hds
      obtain ⟨v, hv, hshape⟩ := Node.eval_yields (a := a) hcall henv htyped
      have hnext := henv.insert d.name v
      rw [hshape] at hnext
      obtain ⟨env', hevaluates, hconforms⟩ := ih hrest hnext
      exact ⟨env', .cons hv hshape hevaluates, hconforms⟩

/-- The loop of a run does what `Evaluates` says, shape checks included. -/
theorem Evaluates.runDeclarations {a : Arith} {fns : Table Function} {env env' : Env}
    {ds : List Declaration} (h : Evaluates (Evaluator.evalIn a fns) env ds env') :
    Evaluator.runDeclarations a fns ds env = (env', .ok ()) := by
  induction h with
  | nil => rfl
  | cons hv hshape _ ih =>
      unfold Evaluator.runDeclarations
      simp only [hv, hshape, if_true]
      exact ih

/-- So does the loop of a function, which checks no shapes. -/
theorem Evaluates.runBody {eval : Env → Node → Outcome Value} {env env' : Env}
    {ds : List Declaration} (h : Evaluates eval env ds env') (fn : Function) :
    fn.runBody eval (ds.map Declaration.statement) env = .ok env' := by
  induction h with
  | nil => rfl
  | cons hv _ _ ih =>
      rw [List.map_cons, Function.runBody]
      exact bind_eq_ok_iff.mpr ⟨_, Outcome.inside_eq_ok_iff.mpr hv, ih⟩

/-! ## Inputs and arguments -/

/-- Values of the right shapes are taken as inputs, and the environment conforms to the scope of the
inputs. -/
theorem takeInputs_conforms {values : Table Value} {is : List Input} {s : Scope} {env : Env}
    (hvalues : ∀ i ∈ is, ∃ v, values.get? i.name = some v ∧ v.shape = i.shape) (henv : Conforms env s) :
    ∃ env', Evaluator.takeInputs values is env = (env', .ok ()) ∧ Conforms env' (s.bindAll is) := by
  induction is generalizing s env with
  | nil => exact ⟨env, rfl, henv⟩
  | cons i is ih =>
      obtain ⟨v, hv, hshape⟩ := hvalues i List.mem_cons_self
      have hnext := henv.insert i.name v
      rw [hshape] at hnext
      obtain ⟨env', htake, hconforms⟩ := ih (fun j hj => hvalues j (List.mem_cons_of_mem _ hj)) hnext
      refine ⟨env', ?_, hconforms⟩
      unfold Evaluator.takeInputs
      simp only [hv, hshape, if_true]
      exact htake

/-- Arguments of the shapes of inputs are bound to the parameters that the inputs become. -/
theorem bindArguments_conforms (fn : Function) {is : List Input} {vs : List Value} {s : Scope}
    {env : Env} (hshapes : vs.map Value.shape = is.map Input.shape) (henv : Conforms env s) :
    ∃ env', fn.bindArguments (is.map Input.param) vs env = .ok env' ∧
      Conforms env' (s.bindAll is) := by
  induction is generalizing vs s env with
  | nil => exact ⟨env, rfl, henv⟩
  | cons i is ih =>
      obtain ⟨v, vs, rfl, hshape, hrest⟩ := List.map_eq_cons_iff.mp hshapes
      have hnext := henv.insert i.name v
      rw [hshape] at hnext
      obtain ⟨env', hbind, hconforms⟩ := ih hrest hnext
      refine ⟨env', ?_, hconforms⟩
      have htype : v.shape.name = i.param.type := congrArg Shape.name hshape
      rw [List.map_cons, Function.bindArguments, if_pos htype]
      exact hbind

/-! ## Functions -/

namespace Block

/-- A function made from a block runs the declarations of the block on its arguments, so it gives
a value if they evaluate. Types of parameters are names of shapes, and the result is a declared
name. -/
theorem Consistent.run_yields {b : Block} (hb : b.Consistent) {name : String} {fn : Function}
    (hfn : b.function name = .ok fn) {a : Arith}
    {call : String → Option (List Value → Outcome Value)}
    (hdecls : ∀ env, Conforms env (Scope.empty.bindAll b.inputs) →
      ∃ env', Evaluates (Node.eval a call) env b.declarations env' ∧ Conforms env' b.scope)
    {vs : List Value} {t : Shape}
    (htypes : vs.map (fun v => v.shape.name) = fn.params.map Param.type)
    (hresult : Shape.ofName? fn.returnType = some t) :
    Yields (fn.run (Node.eval a call) vs) t := by
  obtain ⟨t', hdeclares, rfl⟩ := hb.function_eq_ok hfn
  rw [Shape.ofName?_name, Option.some.injEq] at hresult
  subst hresult
  -- parameter types are names of shapes, and no two shapes have one name
  have hshapes : vs.map Value.shape = b.inputs.map Input.shape := by
    refine (List.map_inj_right fun _ _ => Shape.name_injective).mp ?_
    rw [List.map_map, List.map_map]
    exact htypes.trans (List.map_map ..)
  have hlength : vs.length = (b.inputs.map Input.param).length := by
    have h := congrArg List.length hshapes
    rwa [List.length_map, List.length_map, ← List.length_map Input.param] at h
  obtain ⟨env, hbind, henv⟩ := bindArguments_conforms
    ⟨name, t'.name, b.inputs.map Input.param, b.statements, .var returnName⟩ hshapes conforms_empty
  -- after the declarations the result is in scope with the shape that it was declared with
  obtain ⟨env', hbody, henv'⟩ := hdecls env henv
  obtain ⟨v, hv, hshape⟩ := henv' _ _ (hb.get?_eq_some_iff.mpr ⟨t', hdeclares, rfl⟩)
  refine ⟨v, ?_, hshape⟩
  unfold Function.run
  simp only [hlength, ne_eq, not_true, if_false, hbind]
  refine bind_eq_ok_iff.mpr ⟨env, rfl, bind_eq_ok_iff.mpr ⟨env', hbody.runBody _, ?_⟩⟩
  rw [Node.eval, Env.lookup, hv]
  rfl

/-- The declarations of a block that was built evaluate, and the environment conforms to its
scope. -/
theorem Built.evaluates {fns : List Function} {b : Block} (hb : b.Built fns) {a : Arith}
    {call : String → Option (List Value → Outcome Value)} (hcall : Answers fns call) (env : Env)
    (henv : Conforms env (Scope.empty.bindAll b.inputs)) :
    ∃ env', Evaluates (Node.eval a call) env b.declarations env' ∧ Conforms env' b.scope := by
  obtain ⟨env', hevaluates, hconforms⟩ := hb.declared.evaluates (a := a) hcall henv
  refine ⟨env', hevaluates, fun name e hget => hconforms name e ?_⟩
  rw [hb.consistent.get?_bindAll]
  exact hget

end Block

/-- Functions made from blocks in which every call is one of an earlier function. Their names are
distinct and none is a name of the language. -/
inductive Library : List Function → Prop where
  | nil : Library []
  | snoc {fns : List Function} {b : Block} {name : String} {fn : Function} (hfns : Library fns)
      (hb : b.Built fns) (hfn : b.function name = .ok fn) (hreserved : ¬ Reserved name)
      (hfresh : name ∉ fns.map Function.name) : Library (fns ++ [fn])

namespace Library

variable {fns : List Function}

theorem name_eq {b : Block} (hb : b.Built fns) {name : String} {fn : Function}
    (h : b.function name = .ok fn) : fn.name = name := by
  obtain ⟨t, _, rfl⟩ := hb.consistent.function_eq_ok h
  rfl

theorem not_reserved (h : Library fns) : ∀ fn ∈ fns, ¬ Reserved fn.name := by
  induction h with
  | nil => exact nofun
  | snoc _ hb hfn hreserved _ ih =>
      intro fn hmem
      rcases List.mem_append.mp hmem with hmem | hmem
      · exact ih fn hmem
      · rw [List.mem_singleton.mp hmem, name_eq hb hfn]
        exact hreserved

theorem nodup_names (h : Library fns) : (fns.map Function.name).Nodup := by
  induction h with
  | nil => exact List.nodup_nil
  | snoc _ hb hfn _ hfresh ih =>
      rw [List.map_append, List.map_singleton, name_eq hb hfn, List.nodup_append]
      refine ⟨ih, List.pairwise_singleton _ _, ?_⟩
      rintro x hx y hy rfl
      rw [List.mem_singleton.mp hy] at hx
      exact hfresh hx

theorem callAt_eq_none {a : Arith} {table : Table Function} {name : String}
    (h : table.get? name = none) (depth : Nat) : Function.callAt a table depth name = none := by
  cases depth with
  | zero => rw [Function.callAt, h, Option.map_none]
  | succ depth => rw [Function.callAt, h, Option.map_none]

/-- **Calls of the functions of a library give values**, at every depth that leaves a level for
each. -/
theorem answers (h : Library fns) {a : Arith} {table : Table Function}
    (htable : ∀ fn ∈ fns, table.get? fn.name = some fn)
    (hreserved : ∀ name, Reserved name → table.get? name = none) {depth : Nat}
    (hdepth : fns.length ≤ depth) : Answers fns (Function.callAt a table depth) := by
  -- along the library: the last function runs one level deeper, where those before it answer
  induction h generalizing depth with
  | nil => exact ⟨nofun, fun name hname => callAt_eq_none (hreserved name hname) depth⟩
  | @snoc fns b name last _ hb hlast _ _ ih =>
      rw [List.length_append, List.length_singleton] at hdepth
      obtain ⟨depth, rfl⟩ : ∃ d, depth = d + 1 := ⟨depth - 1, by omega⟩
      have hbelow : ∀ d, fns.length ≤ d → Answers fns (Function.callAt a table d) := fun d hd =>
        ih (fun fn hfn => htable fn (List.mem_append_left _ hfn)) hd
      refine ⟨fun fn hmem => ?_, (hbelow (depth + 1) (by omega)).reserved⟩
      rcases List.mem_append.mp hmem with hmem | hmem
      · exact (hbelow (depth + 1) (by omega)).function fn hmem
      · obtain rfl := List.mem_singleton.mp hmem
        refine ⟨fn.run (Node.eval a (Function.callAt a table depth)), ?_, ?_⟩
        · rw [Function.callAt, htable fn (List.mem_append_right _ (List.mem_singleton_self _)),
            Option.map_some]
        · intro vs t htypes hresult
          exact hb.consistent.run_yields hlast (hb.evaluates (hbelow depth (by omega))) htypes hresult

end Library

namespace Evaluator

/-- An evaluator has depth for one call of each of its functions. -/
theorem length_le_depth {fns : List Function} (h : Library fns) {table : Table Function}
    (htable : ∀ fn ∈ fns, table.get? fn.name = some fn) : fns.length ≤ depth table := by
  -- the functions have distinct names, and each is a name of the table
  have hsubset : fns.map Function.name ⊆ table.names := by
    intro name hname
    obtain ⟨fn, hfn, rfl⟩ := List.mem_map.mp hname
    exact Table.mem_names_of_get? (htable fn hfn)
  have hle := (List.subperm_of_subset h.nodup_names hsubset).length_le
  rw [List.length_map] at hle
  unfold Table.names at hle
  rw [List.length_map] at hle
  exact Nat.le_succ_of_le hle

/-- A block runs to its end if its declarations evaluate from values for its inputs, and then every name
that it declares holds a value of its shape. -/
theorem run_of_evaluates {b : Block} (hb : b.Consistent) {a : Arith} {ev : Evaluator}
    {values : Table Value}
    (hvalues : ∀ i ∈ b.inputs, ∃ v, values.get? i.name = some v ∧ v.shape = i.shape)
    (hdecls : ∀ env, takeInputs values b.inputs .empty = (env, .ok ()) →
      Conforms env (Scope.empty.bindAll b.inputs) →
      ∃ env', Evaluates (evalIn a ev.functions) env b.declarations env' ∧ Conforms env' b.scope) :
    (ev.run a b values).2 = .ok () ∧
      ∀ name s, b.Declares name s → ∃ v, (ev.run a b values).1.lookup name = .ok v ∧ v.shape = s := by
  obtain ⟨env, htake, henv⟩ := takeInputs_conforms hvalues conforms_empty
  obtain ⟨env', hrundecls, henv'⟩ := hdecls env htake henv
  have hrun : ev.run a b values = (⟨env', ev.functions⟩, .ok ()) := by
    unfold run runBlock
    rw [htake]
    simp only []
    rw [hrundecls.runDeclarations]
  rw [hrun]
  refine ⟨rfl, fun name s hdeclares => ?_⟩
  obtain ⟨v, hv, hshape⟩ := henv' name _ (hb.get?_eq_some_iff.mpr ⟨s, hdeclares, rfl⟩)
  refine ⟨v, ?_, hshape⟩
  unfold lookup Env.lookup
  rw [hv]

/-- **Type soundness.** A block whose expressions are built from what its steps see and from the
functions of a library runs without failure on every evaluator that has exactly these functions, from
any values of the right shapes for its inputs and with any lane arithmetic. Afterwards every name in
its scope holds a value of the shape that the block declares. -/
theorem run_sound {fns : List Function} (hfns : Library fns) {b : Block} (hb : b.Built fns)
    {ev : Evaluator}
    (hev : ∀ name fn, ev.functions.get? name = some fn ↔ fn ∈ fns ∧ fn.name = name)
    {values : Table Value}
    (hvalues : ∀ i ∈ b.inputs, ∃ v, values.get? i.name = some v ∧ v.shape = i.shape) (a : Arith) :
    (ev.run a b values).2 = .ok () ∧
      ∀ name ∈ b.scope.names, ∃ s, b.Declares name s ∧
        ∃ v, (ev.run a b values).1.lookup name = .ok v ∧ v.shape = s := by
  have hconsistent := hb.consistent
  have htable : ∀ fn ∈ fns, ev.functions.get? fn.name = some fn := fun fn hfn =>
    (hev fn.name fn).mpr ⟨hfn, rfl⟩
  have hreserved : ∀ name, Reserved name → ev.functions.get? name = none := by
    intro name hname
    rw [Option.eq_none_iff_forall_ne_some]
    intro fn hget
    obtain ⟨hfn, rfl⟩ := (hev name fn).mp hget
    exact hfns.not_reserved fn hfn hname
  -- the depth that the evaluator gives to calls is enough for the library
  have hcall : Answers fns (Function.callAt a ev.functions (depth ev.functions)) :=
    hfns.answers htable hreserved (length_le_depth hfns htable)
  obtain ⟨hok, hdeclared⟩ := run_of_evaluates hconsistent hvalues fun env _ =>
    hb.evaluates hcall env
  refine ⟨hok, fun name hname => ?_⟩
  obtain ⟨e, hget⟩ := hconsistent.agrees.mem_names_iff.mp hname
  obtain ⟨s, hdeclares, _⟩ := hconsistent.get?_eq_some_iff.mp hget
  exact ⟨s, hdeclares, hdeclared name s hdeclares⟩

/-- The block of the square of a number. -/
def squareBlock : Block :=
  (Block.empty.withInput "x" .float).withDeclaration "returns"
    ⟨.float, .binary "*" (.var "x") (.var "x")⟩

def square : Function :=
  ⟨"square", "float", [⟨"float", "x"⟩], squareBlock.statements, .var "returns"⟩

/-- A block that calls `square` on a product of vectors and puts the result beside a number. -/
def squareUser : Block :=
  ((Block.empty.withInput "p" .vec2).withDeclaration "d"
    ⟨.float, .call "dot" [.var "p", .var "p"]⟩).withDeclaration "returns"
      ⟨.vec2, .call "vec2" [.call "square" [.var "d"], (Expr.literalOf .float [1]).node]⟩

/-- The product of an input with itself. -/
theorem built_squareBlock : squareBlock.Built [] := by
  have hinput : (Block.empty.withInput "x" .float).Built [] :=
    @Block.Built.ofRequests [] [⟨"x", Shape.float.code⟩] _ rfl
  refine @Block.Built.define [] _ _
    (fun _ => ⟨[], [⟨"returns", some ⟨.float, .binary "*" (.var "x") (.var "x")⟩⟩], none⟩)
    hinput rfl ?_
  intro bd hbd e he
  obtain rfl := List.mem_singleton.mp hbd
  cases he
  have hx : Expr.Built [] (Block.empty.withInput "x" .float).scope [] (.var "x" .float) :=
    @Expr.Built.name [] _ [] "x" _ rfl
  refine @Expr.Built.apply [] _ _ Operation.mult.code (some (.var "x" .float))
    [some (.var "x" .float)] _ ?_ ?_ rfl
  · intro r hr
    cases hr
    exact hx
  · intro y hy
    cases List.mem_singleton.mp hy
    exact hx

/-- A function whose name is not one of the language, without calls. -/
theorem library_square : Library [square] := by
  refine @Library.snoc [] squareBlock "square" square .nil built_squareBlock rfl ?_ nofun
  rintro (⟨s, hs⟩ | ⟨op, hop⟩)
  · cases s <;> exact absurd hs (by decide)
  · cases op <;> exact absurd hop (by decide)

/-- A call of a function in scope, inside a constructor, after a product of vectors. -/
theorem built_squareUser : squareUser.Built [square] := by
  have hinput : (Block.empty.withInput "p" .vec2).Built [square] :=
    @Block.Built.ofRequests [square] [⟨"p", Shape.vec2.code⟩] _ rfl
  have hdot : ((Block.empty.withInput "p" .vec2).withDeclaration "d"
      ⟨.float, .call "dot" [.var "p", .var "p"]⟩).Built [square] := by
    refine @Block.Built.define [square] _ _ (fun _ => ⟨[⟨"p", .vec2⟩],
      [⟨"d", some ⟨.float, .call "dot" [.var "p", .var "p"]⟩⟩], none⟩) hinput rfl ?_
    intro bd hbd e he
    obtain rfl := List.mem_singleton.mp hbd
    cases he
    refine @Expr.Built.apply [square] _ _ Operation.dot.code (some (.var "p" .vec2))
      [some (.var "p" .vec2)] _ ?_ ?_ rfl
    · intro r hr
      cases hr
      exact .lookup (List.mem_singleton_self _)
    · intro y hy
      cases List.mem_singleton.mp hy
      exact .lookup (List.mem_singleton_self _)
  refine @Block.Built.define [square] _ _ (fun _ => ⟨[], [⟨"returns", some ⟨.vec2,
    .call "vec2" [.call "square" [.var "d"], (Expr.literalOf .float [1]).node]⟩⟩], none⟩)
    hdot rfl ?_
  intro bd hbd e he
  obtain rfl := List.mem_singleton.mp hbd
  cases he
  refine @Expr.Built.combine [square] _ _ [some ⟨.float, .call "square" [.var "d"]⟩,
    some (Expr.literalOf .float [1])] _ Shape.vec2.code _ ?_ rfl rfl
  intro y hy
  rcases List.mem_cons.mp hy with hy | hy
  · cases hy
    refine @Expr.Built.call [square] _ _ square [some (.var "d" .float)] _
      (List.mem_singleton_self _) ?_ rfl
    intro z hz
    cases List.mem_singleton.mp hz
    exact @Expr.Built.name [square] _ _ "d" _ rfl
  · cases List.mem_singleton.mp hy
    exact @Expr.Built.literal [square] _ _ Shape.float.code [1] _ rfl

/-- The block that calls the function runs with any arithmetic. -/
theorem run_sound_squareUser :
    Library [square] ∧ squareUser.Built [square] ∧
      ∀ a : Arith, (run a ⟨.empty, ⟨[("square", square)]⟩⟩ squareUser
          ⟨[("p", .zero .vec2)]⟩).2 = .ok () ∧
        ∃ v, (run a ⟨.empty, ⟨[("square", square)]⟩⟩ squareUser
          ⟨[("p", .zero .vec2)]⟩).1.lookup "returns" = .ok v ∧ v.shape = .vec2 := by
  refine ⟨library_square, built_squareUser, fun a => ?_⟩
  have hev : ∀ name fn, (⟨[("square", square)]⟩ : Table Function).get? name = some fn ↔
      fn ∈ [square] ∧ fn.name = name := by
    intro name fn
    constructor
    · intro h
      cases List.mem_singleton.mp (Table.mem_of_find?_eq_some h)
      exact ⟨List.mem_singleton_self _, rfl⟩
    · rintro ⟨hfn, rfl⟩
      cases List.mem_singleton.mp hfn
      rfl
  have hvalues : ∀ i ∈ squareUser.inputs,
      ∃ v, (⟨[("p", .zero .vec2)]⟩ : Table Value).get? i.name = some v ∧ v.shape = i.shape := by
    intro i hi
    cases List.mem_singleton.mp hi
    exact ⟨_, rfl, Value.shape_build _ _⟩
  obtain ⟨hok, hnames⟩ := @run_sound [square] library_square squareUser built_squareUser
    ⟨.empty, ⟨[("square", square)]⟩⟩ hev _ hvalues a
  refine ⟨hok, ?_⟩
  obtain ⟨s, hdeclares, v, hv, rfl⟩ := hnames "returns" (by decide)
  refine ⟨v, hv, ?_⟩
  rcases hdeclares with hi | ⟨d, hd, hname, hshape⟩
  · exact absurd (Input.mk.inj (List.mem_singleton.mp hi)).1 (by decide)
  · rcases List.mem_cons.mp hd with rfl | hd
    · exact absurd hname (by decide)
    · rw [← hshape, List.mem_singleton.mp hd]

end Evaluator

end ShaderExpr
