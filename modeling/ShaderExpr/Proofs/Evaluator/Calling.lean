import ShaderExpr.Proofs.Evaluator.Depth
import ShaderExpr.Proofs.Evaluator.Inlining

/-!
# Calling the function of a block

The declarations of a block are interpreted in two places. A run of the block takes values by the names of its
inputs and checks the shape of every declaration; a call of the function that the block becomes takes
arguments in order, checks the types of its parameters, and trusts its declarations. Where the run succeeds
the call gives the same result: both begin with the same environment, and both evaluate the same trees in it.

* **`takeInputs_bindArguments`** — inputs by name and arguments in order make the same environment.
* **`Evaluates.covers`** — a run of declarations depends on evaluation only through the values it gives.
* **`Evaluator.call_runs_block`** — the call and the run side by side.
-/

namespace ShaderExpr

/-- Arguments in the order of inputs, and the same values under their names, are taken into the same
environment. Induction on the inputs; the shape that the one checks has the name of the type that
the other checks. -/
theorem takeInputs_bindArguments (fn : Function) {values : Table Value} {is : List Input}
    {vs : List Value} (hshapes : vs.map Value.shape = is.map Input.shape)
    (hvalues : is.map (fun i => values.get? i.name) = vs.map some) (env : Env) :
    ∃ env', Evaluator.takeInputs values is env = (env', .ok ()) ∧
      fn.bindArguments (is.map Input.param) vs env = .ok env' := by
  induction is generalizing vs env with
  | nil => exact ⟨env, rfl, rfl⟩
  | cons i is ih =>
      -- there is an argument for this input, of its shape
      obtain ⟨v, vs, rfl, hshape, hshapes⟩ := List.map_eq_cons_iff.mp hshapes
      obtain ⟨hvalue, hvalues⟩ := List.cons.inj hvalues
      obtain ⟨env', htake, hbind⟩ := ih hshapes hvalues (env.insert i.name v)
      refine ⟨env', ?_, ?_⟩
      · unfold Evaluator.takeInputs
        simp only [hvalue, hshape, if_true]
        exact htake
      · have htype : v.shape.name = i.param.type := congrArg Shape.name hshape
        rw [List.map_cons, Function.bindArguments, if_pos htype]
        exact hbind

namespace Evaluates

variable {eval eval' : Env → Node → Outcome Value} {env env' : Env} {ds : List Declaration}

/-- A run of declarations depends on evaluation only through the values it gives, so any evaluation
that gives them will do. -/
theorem covers (heval : ∀ env n v, eval' env n = .ok v → eval env n = .ok v)
    (h : Evaluates eval' env ds env') : Evaluates eval env ds env' := by
  induction h with
  | nil => exact .nil
  | cons hv hshape _ ih => exact .cons (heval _ _ _ hv) hshape ih

/-- Every declared name holds a value in the end: that of its last declaration, if there are
several. -/
theorem exists_get? {name : String} (h : Evaluates eval env ds env')
    (hname : name ∈ ds.map Declaration.name) : ∃ v, env'.get? name = some v := by
  induction h with
  | nil => exact absurd hname List.not_mem_nil
  | @cons env env' d ds v _ _ hrest ih =>
      by_cases hlater : name ∈ ds.map Declaration.name
      · exact ih hlater
      · -- declared here and not again
        have hhere : d.name = name := ((List.mem_cons.mp hname).resolve_right hlater).symm
        refine ⟨v, ?_⟩
        rw [hrest.get?_eq hlater, Table.get?_insert, if_pos hhere]

end Evaluates

namespace Evaluator

variable {a : Arith} {ev : Evaluator}

theorem evals_eq_ok {args : List Node} {vs : List Value}
    (h : List.Forall₂ (fun n v => ev.eval a n = .ok v) args vs) :
    Node.evals a (Function.callAt a ev.functions (depth ev.functions)) ev.env args = .ok vs := by
  induction h with
  | nil => rw [Node.evals]
  | cons hv _ ih =>
      rw [Node.evals]
      exact bind_eq_ok_iff.mpr ⟨_, hv, bind_eq_ok_iff.mpr ⟨_, ih, rfl⟩⟩

/-- The value of a call of a function that is defined is that of running it one level deeper, which
leaves as many levels as there are functions. -/
theorem eval_call {f : String} {fn : Function} (hdef : ev.functions.get? f = some fn)
    {args : List Node} {vs : List Value}
    (hargs : List.Forall₂ (fun n v => ev.eval a n = .ok v) args vs) :
    ev.eval a (.call f args) =
      fn.run (Node.eval a (Function.callAt a ev.functions ev.functions.entries.length)) vs := by
  have hcall : Function.callAt a ev.functions (depth ev.functions) f =
      some (fn.run (Node.eval a (Function.callAt a ev.functions ev.functions.entries.length))) := by
    rw [depth, Function.callAt, hdef]
    rfl
  unfold eval evalIn
  rw [Node.eval, evals_eq_ok hargs]
  simp only [bind, Except.bind, hcall]

/-- A run that succeeds evaluates the declarations of the block from the environment of its arguments. -/
theorem evaluates_of_run {b : Block} {values : Table Value} {env : Env}
    (htake : takeInputs values b.inputs .empty = (env, .ok ())) (hrun : (ev.run a b values).2 = .ok ()) :
    Evaluates (evalIn a ev.functions) env b.declarations (ev.run a b values).1.env := by
  have hblock : runBlock a ev.functions b values = runDeclarations a ev.functions b.declarations env := by
    unfold runBlock
    rw [htake]
  have hdeclarations : runDeclarations a ev.functions b.declarations env =
      ((ev.run a b values).1.env, .ok ()) := by
    rw [← hblock]
    exact Prod.ext rfl hrun
  exact evaluates_of_runDeclarations hdeclarations

/-- **Calling a function is running its block.** Take a function made from a block and defined under its
name, argument trees whose values have the shapes of the block's inputs, and an evaluator with the same
functions that runs the block on these values. If the run succeeds then so does the call, whatever the
variables of the caller hold, and its value is the one that the run leaves for the result; if the call fails
then so does the run. The functions may be any, also ones that call each other without end. -/
theorem call_runs_block {b : Block} (hb : b.Reachable) {f : String} {fn : Function}
    (hfn : b.function f = .ok fn) {a : Arith} {ev : Evaluator} (hdef : ev.functions.get? f = some fn)
    {args : List Node} {vs : List Value}
    (hargs : List.Forall₂ (fun n v => ev.eval a n = .ok v) args vs)
    (hshapes : vs.map Value.shape = b.inputs.map Input.shape) {ev' : Evaluator}
    (hfunctions : ev'.functions = ev.functions) {values : Table Value}
    (hvalues : b.inputs.map (fun i => values.get? i.name) = vs.map some) :
    ((ev'.run a b values).2 = .ok () →
      ∃ v, ev.eval a (.call f args) = .ok v ∧ (ev'.run a b values).1.lookup returnName = .ok v) ∧
    ∀ e, ev.eval a (.call f args) = .error e → ∃ e', (ev'.run a b values).2 = .error e' := by
  have hcall : (ev'.run a b values).2 = .ok () →
      ∃ v, ev.eval a (.call f args) = .ok v ∧ (ev'.run a b values).1.lookup returnName = .ok v := by
    intro hrun
    obtain ⟨env, htake, hbind⟩ := takeInputs_bindArguments fn hshapes hvalues .empty
    have hevaluates := evaluates_of_run htake hrun
    -- the body of the function is one level deeper than the declarations of the run
    have hdeeper : Evaluates
        (Node.eval a (Function.callAt a ev.functions ev.functions.entries.length)) env b.declarations
        (ev'.run a b values).1.env := by
      refine hevaluates.covers fun env n v hv => ?_
      rw [hfunctions] at hv
      exact Node.eval_covers (Function.callAt_covers_of_succ (Nat.le_refl _)) hv
    -- the result is declared, so it holds a value in the end
    obtain ⟨v, hv⟩ : ∃ v, (ev'.run a b values).1.env.get? returnName = some v := by
      obtain ⟨e, he, _⟩ := bind_eq_ok_iff.mp hfn
      obtain ⟨d, hd, hname, _⟩ := hb.consistent.returns_eq_ok_iff.mp (mapError_eq_ok_iff.mp he)
      exact hevaluates.exists_get? (hname ▸ List.mem_map_of_mem hd)
    have hlookup : (ev'.run a b values).1.env.lookup returnName = .ok v := by
      rw [Env.lookup, hv]
    obtain ⟨t, _, rfl⟩ := hb.consistent.function_eq_ok hfn
    have hlength : vs.length = (b.inputs.map Input.param).length := by
      have h := congrArg List.length hshapes
      rwa [List.length_map, List.length_map, ← List.length_map Input.param] at h
    refine ⟨v, ?_, hlookup⟩
    rw [eval_call hdef hargs]
    refine Function.run_eq_ok_iff.mpr ⟨hlength, env, _, hbind, hdeeper.runBody _, ?_⟩
    rw [Node.eval, hlookup]
    rfl
  refine ⟨hcall, fun e he => ?_⟩
  cases hrun : (ev'.run a b values).2 with
  | error e' => exact ⟨e', rfl⟩
  | ok _ =>
      obtain ⟨v, hv, _⟩ := hcall hrun
      rw [he] at hv
      cases hv

/-- The block of the sum of two squares. -/
def squareSumBlock : Block :=
  ((Block.empty.withInput "x" .float).withInput "y" .float).withDeclaration "returns"
    ⟨.float, .binary "+" (.call "square" [.var "x"]) (.call "square" [.var "y"])⟩

def squareSum : Function :=
  ⟨"squareSum", "float", [⟨"float", "x"⟩, ⟨"float", "y"⟩], squareSumBlock.statements, .var "returns"⟩

/-- An evaluator that knows both functions, and whose own `x` is a vector. -/
def squareSumCaller : Evaluator :=
  ⟨⟨[("x", .zero .vec3), ("w", .zero .float)]⟩, ⟨[("square", square), ("squareSum", squareSum)]⟩⟩

/-- The function calls another one, and the caller has a variable of the name of a parameter. -/
theorem call_runs_block_squareSum :
    squareSumBlock.Reachable ∧ squareSumBlock.function "squareSum" = .ok squareSum ∧ ∀ a : Arith,
      (squareSumCaller.run a squareSumBlock ⟨[("x", .zero .float), ("y", .zero .float)]⟩).2 = .ok () ∧
      ∃ v, squareSumCaller.eval a (.call "squareSum" [.var "w", .var "w"]) = .ok v ∧
        (squareSumCaller.run a squareSumBlock
          ⟨[("x", .zero .float), ("y", .zero .float)]⟩).1.lookup "returns" = .ok v := by
  have hinputs : ((Block.empty.withInput "x" .float).withInput "y" .float).Reachable :=
    @Block.Reachable.ofRequests [⟨"x", Shape.float.code⟩, ⟨"y", Shape.float.code⟩] _ rfl
  have hreachable : squareSumBlock.Reachable :=
    .define hinputs (some fun _ => ⟨[], [⟨"returns", some ⟨.float,
      .binary "+" (.call "square" [.var "x"]) (.call "square" [.var "y"])⟩⟩], none⟩)
  have hfn : squareSumBlock.function "squareSum" = .ok squareSum := rfl
  refine ⟨hreachable, hfn, fun a => ?_⟩
  have hrun : (squareSumCaller.run a squareSumBlock
      ⟨[("x", .zero .float), ("y", .zero .float)]⟩).2 = .ok () := rfl
  have hargs : List.Forall₂ (fun n v => squareSumCaller.eval a n = .ok v) [.var "w", .var "w"]
      [.zero .float, .zero .float] := .cons rfl (.cons rfl .nil)
  exact ⟨hrun, (call_runs_block hreachable hfn rfl hargs rfl rfl rfl).1 hrun⟩

end Evaluator

end ShaderExpr
