import ShaderExpr.Proofs.Description.Closure
import ShaderExpr.Proofs.Evaluator.Environment

/-!
# When descriptions evaluate

Everything in a description that can be built has the shape that is computed from its leaves up, and one
would expect that it evaluates to a value of this shape. Names stand in the way. Reading takes a key for an
operation or a constructor first and for a function of the description last, and evaluation looks at calls
the other way round. A description may give a function the name of an operation, and then whoever calls the
operation runs the function instead: on arguments that it was not made for, or for ever, if it is the
function itself that calls the operation. Nothing else can go wrong, and whether it does can be told from a
single run.

* **`isBuiltin`** — the names that operations and constructors are called by.
* **`Node.eval_of_shape?`** — a tree evaluates to a value of its computed shape, if calls that are built in
  reach no function.
* **`Shaped`** — declarations of which each has the shape that is computed from what comes before it.
* **`Assembled.serves`** — calls of the functions of a description give values.
* **`Unshadowed`** — no tree of a description calls something built in that a function has the name of.
* **`run_build`** — the blocks of such a description run on all values for their inputs, and so does a block
  of any other description that runs on some.
-/

namespace ShaderExpr

/-! ## Operations on values -/

theorem Yields.ofError {r : Except Error Value} {t : Shape} (h : Yields r t) :
    Yields (Outcome.ofError r) t := by
  obtain ⟨v, rfl, hv⟩ := h
  exact .ok hv

/-- Taking the receiver out of the operands does not look at them. -/
theorem Form.receiver?_map {α β : Type} (g : α → β) (form : Form) (xs : List α) :
    form.receiver? (xs.map g) = (form.receiver? xs).map fun p => (g p.1, p.2.map g) := by
  cases form <;> simp [receiver?, Function.comp_def]

/-- An operation that is written as a call is called on the receiver and the other operands as they are
written. -/
theorem Form.call_of_receiver? {α : Type} {form : Form} {xs rest : List α} {x : α}
    (hcall : form.isCall = true) (h : form.receiver? xs = some (x, rest)) :
    xs = if form = .call then x :: rest else rest ++ [x] := by
  cases form with
  | call =>
      cases xs with
      | nil => cases h
      | cons y ys =>
          cases h
          rfl
  | callLast =>
      obtain ⟨y, hy, heq⟩ := Option.map_eq_some_iff.mp h
      cases heq
      exact (List.dropLast_append_getLast? _ hy).symm
  | between => cases hcall
  | before => cases hcall

namespace Operation

variable {a : Arith} {op : Operation} {t : Shape}

/-- An operation gives a value of its result's shape on values in the order in which they are
written. The receiver is found among the values as it was among their shapes. -/
theorem compute_of_result? {vs : List Value} (h : op.result? (vs.map Value.shape) = some t) :
    ∃ x rest, op.entry.form.receiver? vs = some (x, rest) ∧ Yields (op.compute a x rest) t := by
  obtain ⟨⟨recv, args⟩, hrecv, hrest⟩ := Option.bind_eq_some_iff.mp h
  obtain ⟨sig, hsig, hresult⟩ := Option.bind_eq_some_iff.mp hrest
  rw [Form.receiver?_map] at hrecv
  obtain ⟨⟨x, rest⟩, hvalues, heq⟩ := Option.map_eq_some_iff.mp hrecv
  cases heq
  refine ⟨x, rest, hvalues, ?_⟩
  split at hresult
  · next hargs =>
      cases hresult
      exact compute_yields a hsig hargs
  · cases hresult

/-- An operation that is written as a call gives its value when it is called by name, with the
operands as they are written. -/
theorem call_yields {vs : List Value} (hcall : op.entry.form.isCall = true)
    (h : op.result? (vs.map Value.shape) = some t) : Yields (Builtin.call a op.symbol vs) t := by
  obtain ⟨x, rest, hrecv, hyields⟩ := @compute_of_result? a op t vs h
  have hvs := Form.call_of_receiver? hcall hrecv
  unfold compute at hyields
  cases hform : op.entry.form with
  | call => simpa [hform, hvs] using hyields
  | callLast => simpa [hform, hvs] using hyields
  | between => simp [hform, Form.isCall] at hcall
  | before => simp [hform, Form.isCall] at hcall

theorem unary_yields {x : Value} (hform : op.entry.form = .before)
    (h : op.result? [x.shape] = some t) : Yields (Value.unary a op.symbol x) t := by
  obtain ⟨_, _, hrecv, hyields⟩ := @compute_of_result? a op t [x] h
  rw [hform] at hrecv
  cases hrecv
  simpa [compute, hform] using hyields

theorem binary_yields {x y : Value} (hform : op.entry.form = .between)
    (h : op.result? [x.shape, y.shape] = some t) : Yields (Value.binary a op.symbol x y) t := by
  obtain ⟨_, _, hrecv, hyields⟩ := @compute_of_result? a op t [x, y] h
  rw [hform] at hrecv
  cases hrecv
  simpa [compute, hform] using hyields

/-- A symbol may belong to several operations; the shape of an operator comes from one that takes
the operands. -/
theorem operatorShape?_eq_some {form : Form} {symbol : String} {shapes : List Shape}
    (h : operatorShape? form symbol shapes = some t) :
    ∃ op : Operation, op.entry.form = form ∧ op.symbol = symbol ∧ op.result? shapes = some t := by
  obtain ⟨op, hop, hresult⟩ := List.exists_of_findSome?_eq_some h
  have hfilter := List.mem_filter.mp hop
  simp only [Bool.and_eq_true, decide_eq_true_eq, beq_iff_eq] at hfilter
  exact ⟨op, hfilter.2.1, hfilter.2.2, hresult⟩

end Operation

/-! ## Trees -/

/-- Do operations or constructors have calls of this name? -/
def isBuiltin (f : String) : Bool := (Operation.ofFunction? f).isSome || (Shape.ofName? f).isSome

/-- Calls by name reach functions, which give values of their result types on arguments of their parameter
types. -/
def Serves (fns : List Function) (call : String → Option (List Value → Outcome Value)) : Prop :=
  ∀ fn ∈ fns, ∃ run, call fn.name = some run ∧ ∀ (vs : List Value) (t : Shape),
    vs.map (fun v => v.shape.name) = fn.params.map Param.type →
      Shape.ofName? fn.returnType = some t → Yields (run vs) t

namespace Node

variable {a : Arith} {call : String → Option (List Value → Outcome Value)} {env : Env}
  {fns : List Function} {names : List Input}

/-- Arguments evaluate one after the other, each to a value of its shape. -/
theorem evals_of_shapes? {ns : List Node} {ss : List Shape}
    (ih : ∀ n ∈ ns, ∀ t, n.shape? fns names = some t → Yields (n.eval a call env) t)
    (h : shapes? fns names ns = some ss) :
    ∃ vs, evals a call env ns = .ok vs ∧ vs.map Value.shape = ss := by
  induction ns generalizing ss with
  | nil =>
      cases h
      exact ⟨[], by rw [evals], rfl⟩
  | cons n ns ihns =>
      obtain ⟨s, hs, h⟩ := Option.bind_eq_some_iff.mp h
      obtain ⟨rest, hrest, heq⟩ := Option.bind_eq_some_iff.mp h
      cases heq
      obtain ⟨v, hv, hshape⟩ := ih n List.mem_cons_self s hs
      obtain ⟨vs, hvs, hshapes⟩ := ihns (fun m hm => ih m (List.mem_cons_of_mem _ hm)) hrest
      refine ⟨v :: vs, ?_, by simp [hshape, hshapes]⟩
      rw [evals, hv, hvs]
      rfl

/-- **A call gives a value of its computed shape.** The shape takes a name for an operation first,
then for a constructor and last for a function. Evaluation asks the functions first, so what is
built in must not be one of them. -/
theorem call_of_callShape? (hserves : Serves fns call) {f : String} {vs : List Value} {t : Shape}
    (hfree : isBuiltin f = true → call f = none)
    (h : callShape? fns f (vs.map Value.shape) = some t) :
    Yields (match call f with
      | some run => run vs
      | none => Outcome.ofError (Builtin.call a f vs)) t := by
  unfold callShape? at h
  split at h
  · next op hop =>
      -- an operation
      obtain ⟨hcall, rfl⟩ := Operation.ofFunction?_eq_some hop
      rw [hfree (by simp [isBuiltin, hop])]
      exact (Operation.call_yields hcall h).ofError
  · split at h
    · next s hs =>
        -- a constructor, with as many components as its shape has
        split at h
        · next harity =>
            cases h
            have hsum : (vs.map fun v => v.shape.arity).sum = t.arity := by
              simpa [Function.comp_def] using harity
            rw [hfree (by simp [isBuiltin, hs])]
            refine Yields.ofError ?_
            unfold Builtin.call
            rw [hs]
            exact Value.construct_yields hsum
        · cases h
    · -- a function, which the call reaches whatever its name is
      obtain ⟨fn, hfn, hresult⟩ := Option.bind_eq_some_iff.mp h
      have hname := List.find?_some hfn
      obtain rfl : fn.name = f := eq_of_beq hname
      obtain ⟨run, hrun, hyields⟩ := hserves fn (List.mem_of_find?_eq_some hfn)
      split at hresult
      · next htypes =>
          rw [hrun]
          exact hyields vs t (by simpa [Function.comp_def] using htypes) hresult
      · cases hresult

/-- **A tree evaluates to a value of its computed shape.** Induction over the tree, as its shape is
computed. Only calls can go wrong, and only where a function has the name of something built in. -/
theorem eval_of_shape? (hserves : Serves fns call) (henv : Holds env names) {n : Node} {t : Shape}
    (hfree : ∀ c ∈ n.calls, isBuiltin c.1 = true → call c.1 = none)
    (h : n.shape? fns names = some t) : Yields (n.eval a call env) t := by
  induction n using Node.induction generalizing t with
  | literal text =>
      obtain ⟨v, hv, rfl⟩ := Option.map_eq_some_iff.mp h
      refine ⟨v, ?_, rfl⟩
      cases hvalue : Literal.value text with
      | error e => simp [hvalue, Except.toOption] at hv
      | ok w =>
          have hw : w = v := by simpa [hvalue, Except.toOption] using hv
          rw [eval, hvalue, hw]
          rfl
  | missing => cases h
  | var name =>
      -- the variable is one of the names that have a value of their shape
      obtain ⟨i, hi, rfl⟩ := Option.map_eq_some_iff.mp h
      have hname := List.find?_some hi
      obtain rfl : name = i.name := eq_of_beq hname
      obtain ⟨v, hv, hshape⟩ := henv i (List.mem_of_find?_eq_some hi)
      refine ⟨v, ?_, hshape⟩
      rw [eval, Env.lookup, hv]
      rfl
  | unary symbol x ih =>
      obtain ⟨s, hs, hoperator⟩ := Option.bind_eq_some_iff.mp h
      obtain ⟨v, hv, rfl⟩ := ih hfree hs
      obtain ⟨op, hform, rfl, hresult⟩ := Operation.operatorShape?_eq_some hoperator
      rw [eval, hv]
      exact (Operation.unary_yields hform hresult).ofError
  | binary symbol x y ihx ihy =>
      obtain ⟨s, hs, hrest⟩ := Option.bind_eq_some_iff.mp h
      obtain ⟨u, hu, hoperator⟩ := Option.bind_eq_some_iff.mp hrest
      obtain ⟨hfreex, hfreey⟩ := List.forall_mem_append.mp hfree
      obtain ⟨v, hv, rfl⟩ := ihx hfreex hs
      obtain ⟨w, hw, rfl⟩ := ihy hfreey hu
      obtain ⟨op, hform, rfl, hresult⟩ := Operation.operatorShape?_eq_some hoperator
      rw [eval, hv, hw]
      exact (Operation.binary_yields hform hresult).ofError
  | call f args ih =>
      obtain ⟨shapes, hshapes, hcall⟩ := Option.bind_eq_some_iff.mp h
      obtain ⟨hfreef, hfreeargs⟩ := List.forall_mem_cons.mp hfree
      have hargs : ∀ n ∈ args, ∀ t, n.shape? fns names = some t → Yields (n.eval a call env) t := by
        intro n hn t ht
        exact ih n hn (fun c hc => hfreeargs c (mem_callsAll.mpr ⟨n, hn, hc⟩)) ht
      obtain ⟨vs, hvs, rfl⟩ := evals_of_shapes? hargs hshapes
      rw [eval, hvs]
      exact call_of_callShape? hserves hfreef hcall

end Node

/-! ## Declarations -/

/-- Declarations of which each has the shape that is computed from inputs and declarations before it. -/
inductive Shaped (fns : List Function) (inputs : List Input) : List Declaration → Prop where
  | nil : Shaped fns inputs []
  | snoc {ds : List Declaration} {d : Declaration} {names : List Input} (hds : Shaped fns inputs ds)
      (hnames : names ⊆ inputs ++ ds.map Declaration.input)
      (hd : d.value.shape? fns names = some d.shape) : Shaped fns inputs (ds ++ [d])

/-- The declarations of one step are shaped over what comes before the step, so they may be added
one by one. -/
theorem Shaped.append {fns : List Function} {inputs names : List Input}
    {ds group : List Declaration} (h : Shaped fns inputs ds)
    (hnames : names ⊆ inputs ++ ds.map Declaration.input)
    (hgroup : ∀ d ∈ group, d.value.shape? fns names = some d.shape) :
    Shaped fns inputs (ds ++ group) := by
  induction group generalizing ds with
  | nil => rwa [List.append_nil]
  | cons d group ih =>
      obtain ⟨hd, hrest⟩ := List.forall_mem_cons.mp hgroup
      rw [List.append_cons]
      refine ih (.snoc h hnames hd) (fun i hi => ?_) hrest
      have hi := hnames hi
      simp only [List.map_append, List.mem_append] at hi ⊢
      exact hi.imp_right .inl

/-- The declarations of a block that is built are shaped: an invariant of its define steps. -/
theorem Description.buildBlock_shaped {anchors : Yaml.Anchors} {fns : List Function}
    {inputs : List Input} {steps : List Yaml.Node} {b : Block}
    (h : buildBlock anchors (.ofFunctions fns) inputs steps = .ok b) :
    Shaped fns b.inputs b.declarations := by
  obtain ⟨b₀, hb₀, hnone, hsteps⟩ := buildBlock_eq_ok h
  have hstart : b₀.Consistent ∧ Shaped fns b₀.inputs b₀.declarations := ⟨hb₀, hnone ▸ .nil⟩
  refine (foldlM_induction (P := fun b => b.Consistent ∧ Shaped fns b.inputs b.declarations)
    ?_ hstart hsteps).2
  rintro b step b' _ ⟨hb, hshaped⟩ hstep
  obtain ⟨group, hinputs, hdeclarations, _, hgroup⟩ := hb.defineStep_shaped hstep
  refine ⟨hb.defineStep hstep, ?_⟩
  rw [hinputs, hdeclarations]
  exact hshaped.append (fun _ hi => hi) hgroup

theorem Scope.bindAll_append (s : Scope) (is js : List Input) :
    s.bindAll (is ++ js) = (s.bindAll is).bindAll js :=
  List.foldl_append ..

/-- Declarations that evaluate may be followed by one more. -/
theorem Evaluates.concat {eval : Env → Node → Outcome Value} {env env' : Env} {ds : List Declaration}
    {d : Declaration} {v : Value} (h : Evaluates eval env ds env') (hv : eval env' d.value = .ok v)
    (hshape : v.shape = d.shape) : Evaluates eval env (ds ++ [d]) (env'.insert d.name v) := by
  induction h with
  | nil => exact .cons hv hshape .nil
  | cons hw hwshape _ ih => exact .cons hw hwshape (ih hv)

/-- Declarations evaluate one after the other. The names of the environment are those of the inputs
and of the declarations so far, with values of their shapes; this is what the induction carries. -/
theorem Shaped.evaluates {fns : List Function} {inputs : List Input} {ds : List Declaration}
    (h : Shaped fns inputs ds) {a : Arith} {call : String → Option (List Value → Outcome Value)}
    (hserves : Serves fns call)
    (hfree : ∀ d ∈ ds, ∀ c ∈ d.value.calls, isBuiltin c.1 = true → call c.1 = none)
    (hnodup : (inputs.map Input.name ++ (ds.map Declaration.input).map Input.name).Nodup) {env : Env}
    (henv : Conforms env (Scope.empty.bindAll inputs)) :
    ∃ env', Evaluates (Node.eval a call) env ds env' := by
  induction h with
  | nil => exact ⟨env, .nil⟩
  | @snoc ds d names _ hnames hd ih =>
      rw [List.map_append, List.map_append, ← List.append_assoc] at hnodup
      have hbefore := (List.nodup_append.mp hnodup).1
      obtain ⟨env', hds⟩ := ih (fun d hd => hfree d (List.mem_append_left _ hd)) hbefore
      -- the environment after the declarations so far has a value for every name before this one
      have hholds : Holds env' (inputs ++ ds.map Declaration.input) := by
        refine Conforms.holds (by rwa [List.map_append]) ?_
        rw [Scope.bindAll_append]
        exact hds.conforms henv
      obtain ⟨v, hv, hshape⟩ := Node.eval_of_shape? (a := a) hserves
        (fun i hi => hholds i (hnames hi)) (hfree d (by simp)) hd
      exact ⟨_, hds.concat hv hshape⟩

namespace Description

variable {anchors : Yaml.Anchors} {fns : List Function}

/-- The declarations of a block that is built over functions evaluate, if calls reach these
functions. Afterwards every name in scope has a value of its shape. -/
theorem buildBlock_evaluates {inputs : List Input} {steps : List Yaml.Node} {b : Block}
    (h : buildBlock anchors (.ofFunctions fns) inputs steps = .ok b) {a : Arith}
    {call : String → Option (List Value → Outcome Value)} (hserves : Serves fns call)
    (hfree : ∀ d ∈ b.declarations, ∀ c ∈ d.value.calls, isBuiltin c.1 = true → call c.1 = none)
    (env : Env) (henv : Conforms env (Scope.empty.bindAll b.inputs)) :
    ∃ env', Evaluates (Node.eval a call) env b.declarations env' ∧ Conforms env' b.scope := by
  have hb := buildBlock_consistent h
  have hnodup := hb.nodup
  rw [hb.names_eq, show Declaration.name = Input.name ∘ Declaration.input from rfl, ← List.map_map]
    at hnodup
  obtain ⟨env', hdeclarations⟩ := (buildBlock_shaped h).evaluates hserves hfree hnodup henv
  exact ⟨env', hdeclarations, hb.conforms hdeclarations henv⟩

/-! ## Functions -/

/-- **Calls of the functions of a description give values**, at every depth that leaves a level for
each. A function calls only those before it, so as many levels as there are functions are enough. -/
theorem Assembled.serves (h : Assembled anchors fns) {a : Arith} {table : Table Function}
    (htable : ∀ fn ∈ fns, table.get? fn.name = some fn)
    (hfree : ∀ fn ∈ fns, ∀ st ∈ fn.body, ∀ c ∈ st.value.calls, isBuiltin c.1 = true →
      table.get? c.1 = none)
    {depth : Nat} (hdepth : fns.length ≤ depth) : Serves fns (Function.callAt a table depth) := by
  -- the last function runs one level deeper, where those before it give values
  induction h generalizing depth with
  | nil => exact nofun
  | @snoc fns inputs steps b name last _ hb hlast _ ih =>
      rw [List.length_append, List.length_singleton] at hdepth
      obtain ⟨depth, rfl⟩ : ∃ d, depth = d + 1 := ⟨depth - 1, by omega⟩
      have hbelow : ∀ d, fns.length ≤ d → Serves fns (Function.callAt a table d) := fun d hd =>
        ih (fun fn hfn => htable fn (List.mem_append_left _ hfn))
          (fun fn hfn => hfree fn (List.mem_append_left _ hfn)) hd
      intro fn hmem
      rcases List.mem_append.mp hmem with hmem | hmem
      · exact hbelow (depth + 1) (by omega) fn hmem
      · obtain rfl := List.mem_singleton.mp hmem
        refine ⟨fn.run (Node.eval a (Function.callAt a table depth)), ?_, fun vs t htypes hresult => ?_⟩
        · rw [Function.callAt, htable fn (by simp), Option.map_some]
        · -- the last function itself: its block evaluates over the functions before it
          have hconsistent := buildBlock_consistent hb
          have hbody : fn.body = b.statements := by
            obtain ⟨_, _, heq⟩ := hconsistent.function_eq_ok hlast
            rw [heq]
          refine hconsistent.run_yields hlast (buildBlock_evaluates hb (hbelow depth (by omega)) ?_)
            htypes hresult
          intro d hd c hc hbuiltin
          have hst : d.statement ∈ fn.body := hbody ▸ List.mem_map_of_mem hd
          exact Library.callAt_eq_none (hfree fn (by simp) d.statement hst c hc hbuiltin) depth

/-- An evaluator takes all functions of a description: each passes the check, since it comes from a
block. -/
theorem Assembled.defineAll (h : Assembled anchors fns) :
    Evaluator.empty.defineAll fns = .ok ⟨.empty, .ofFunctions fns⟩ := by
  induction h with
  | nil => rfl
  | @snoc fns inputs steps b name fn _ _ hfn hfresh ih =>
      rw [← name_of_function hfn] at hfresh
      have hlast : Evaluator.define ⟨.empty, .ofFunctions fns⟩ fn =
          .ok ⟨.empty, .ofFunctions (fns ++ [fn])⟩ := by
        rw [Evaluator.define, Block.check_of_function hfn, ← Table.insert_ofFunctions hfresh]
        rfl
      unfold Evaluator.defineAll at ih ⊢
      rw [List.foldlM_append, ih]
      show (Evaluator.define _ fn >>= pure) = _
      rw [hlast]
      rfl

/-! ## Descriptions -/

/-- The trees in functions and blocks. -/
def trees (d : Description) : List Node :=
  d.functions.flatMap (fun fn => fn.body.map Statement.value) ++
    d.blocks.flatMap fun b => b.declarations.map Declaration.value

/-- No function of the description has the name of something built in that a tree of it calls. -/
def Unshadowed (d : Description) : Prop :=
  ∀ n ∈ d.trees, ∀ c ∈ n.calls, isBuiltin c.1 = true → c.1 ∉ d.functions.map Function.name

instance (d : Description) : Decidable d.Unshadowed :=
  inferInstanceAs (Decidable (∀ n ∈ d.trees, ∀ c ∈ n.calls, isBuiltin c.1 = true →
    c.1 ∉ d.functions.map Function.name))

/-- Without shadowing, the functions of a description answer all calls in a block of it, so the
block runs. -/
theorem Assembled.run_of_unshadowed {d : Description} (hfns : Assembled anchors d.functions)
    (hfree : d.Unshadowed) {b : Block} (hb : b ∈ d.blocks) {inputs : List Input}
    {steps : List Yaml.Node}
    (hblock : buildBlock anchors (.ofFunctions d.functions) inputs steps = .ok b) {a : Arith}
    {values : Table Value} (hvalues : Holds values b.inputs) :
    let ran := Evaluator.run a ⟨.empty, .ofFunctions d.functions⟩ b values
    ran.2 = .ok () ∧ ∀ name s, b.Declares name s → ∃ v, ran.1.lookup name = .ok v ∧ v.shape = s := by
  have hnone : ∀ n ∈ d.trees, ∀ c ∈ n.calls, isBuiltin c.1 = true →
      (Table.ofFunctions d.functions).get? c.1 = none := fun n hn c hc hbuiltin =>
    Table.get?_ofFunctions_eq_none_iff.mpr (hfree n hn c hc hbuiltin)
  -- an evaluator has a level for each of its functions
  have hserves : Serves d.functions (Function.callAt a (.ofFunctions d.functions)
      (Evaluator.depth (.ofFunctions d.functions))) := by
    refine hfns.serves (fun fn => Table.get?_ofFunctions_of_mem hfns.nodup_names) ?_ ?_
    · intro fn hfn st hst
      refine hnone st.value (List.mem_append_left _ ?_)
      exact List.mem_flatMap.mpr ⟨fn, hfn, List.mem_map_of_mem hst⟩
    · simp [Evaluator.depth, Table.ofFunctions]
  refine Evaluator.run_of_evaluates (buildBlock_consistent hblock) hvalues fun env _ =>
    buildBlock_evaluates hblock hserves ?_ env
  intro dcl hdcl c hc hbuiltin
  refine Library.callAt_eq_none (hnone dcl.value (List.mem_append_right _ ?_) c hc hbuiltin) _
  exact List.mem_flatMap.mpr ⟨b, hb, List.mem_map_of_mem hdcl⟩

/-- A block of a description runs from any values for its inputs, if nothing is shadowed, and also
if it has run from some. Whether a run comes to its end depends on shapes alone, which is why one
run tells for all. -/
theorem run_of_build {o : Outline} {d : Description} (h : build anchors o = .ok d) {b : Block}
    (hb : b ∈ d.blocks) {a : Arith} {values : Table Value} (hvalues : Holds values b.inputs)
    (hcase : d.Unshadowed ∨ ∃ a values, Holds values b.inputs ∧
      (Evaluator.run a ⟨.empty, .ofFunctions d.functions⟩ b values).2 = .ok ()) :
    let ran := Evaluator.run a ⟨.empty, .ofFunctions d.functions⟩ b values
    ran.2 = .ok () ∧ ∀ name s, b.Declares name s → ∃ v, ran.1.lookup name = .ok v ∧ v.shape = s := by
  obtain ⟨inputs, steps, hblock⟩ := exists_buildBlock h hb
  rcases hcase with hfree | ⟨a₀, values₀, hvalues₀, hrun⟩
  · exact (build_eq_ok h).1.run_of_unshadowed hfree hb hblock hvalues
  · exact Evaluator.run_transfer (buildBlock_consistent hblock) hvalues₀ hrun hvalues

/-- **Descriptions evaluate, unless a function takes the place of something built in.** For every
description that can be built, from whatever nodes, an evaluator takes its functions, and each of its blocks
then runs to its end from any values of the right shapes for its inputs, with any lane arithmetic. Afterwards
every name that the block declares holds a value of its shape. Where functions do take the place of something
built in, all this holds of every block that has run to its end from some values. -/
theorem run_build {o : Outline} {d : Description} (h : build anchors o = .ok d) :
    ∃ ev, Evaluator.empty.defineAll d.functions = .ok ev ∧
      ∀ b ∈ d.blocks,
        (d.Unshadowed ∨ ∃ a values, Holds values b.inputs ∧ (ev.run a b values).2 = .ok ()) →
          ∀ (a : Arith) (values : Table Value), Holds values b.inputs →
            (ev.run a b values).2 = .ok () ∧
              ∀ name s, b.Declares name s →
                ∃ v, (ev.run a b values).1.lookup name = .ok v ∧ v.shape = s :=
  ⟨_, (build_eq_ok h).1.defineAll, fun _ hb hcase _ _ hvalues => run_of_build h hb hvalues hcase⟩

/-- A function of two parameters with the name of an operation of one operand, and a block that is the
value of an operation on a number. -/
def absolute (operation : String) : Outline :=
  { Outline.bare with
    steps := [assignment "returns" operation (.scalar 1 .int "1")]
    functions := [⟨"abs", .mapping 1 [.word "x", .word "float", .word "y", .word "float"],
      [assignment "returns" "add" (.sequence 1 [.word "x", .word "y"])]⟩] }

/-- The name of the function does no harm to another operation. -/
theorem run_build_absolute :
    ∃ d ev, build #[] (absolute "sin") = .ok d ∧ d.Unshadowed ∧
      d.functions.map Function.name = ["abs"] ∧ Evaluator.empty.defineAll d.functions = .ok ev ∧
      ∃ b ∈ d.blocks, ∀ a, (ev.run a b .empty).2 = .ok () ∧
        ∃ v, (ev.run a b .empty).1.lookup "returns" = .ok v ∧ v.shape = .float := by
  have hfunctions : (build #[] (absolute "sin")).toOption.map (fun d =>
      (decide d.Unshadowed, d.functions.map Function.name)) = some (true, ["abs"]) := by
    decide +kernel
  have hcontent : (build #[] (absolute "sin")).toOption.map (fun d => (d.blocks.map Block.inputs,
      d.blocks.map fun b => b.declarations.map fun x => (x.name, x.shape))) =
      some ([[]], [[("returns", .float)]]) := by
    decide +kernel
  cases hbuild : build #[] (absolute "sin") with
  | error e =>
      rw [hbuild] at hcontent
      cases hcontent
  | ok d =>
      rw [hbuild] at hfunctions hcontent
      simp only [Except.toOption, Option.map_some, Option.some.injEq, Prod.mk.injEq,
        decide_eq_true_eq] at hfunctions hcontent
      obtain ⟨hfree, hnames⟩ := hfunctions
      obtain ⟨hblocks, hdeclarations⟩ := hcontent
      obtain ⟨b, hb, hinputs⟩ := List.map_eq_singleton_iff.mp hblocks
      rw [hb, List.map_singleton, List.singleton_inj] at hdeclarations
      obtain ⟨dcl, hdcl, heq⟩ := List.map_eq_singleton_iff.mp hdeclarations
      have hmem : b ∈ d.blocks := hb ▸ List.mem_singleton_self b
      obtain ⟨ev, hev, hrun⟩ := run_build hbuild
      refine ⟨d, ev, rfl, hfree, hnames, hev, b, hmem, fun a => ?_⟩
      obtain ⟨hok, hvalues⟩ := hrun b hmem (.inl hfree) a .empty (by simp [Holds, hinputs])
      refine ⟨hok, hvalues "returns" .float (.inr ⟨dcl, by simp [hdcl], ?_⟩)⟩
      simpa using heq

/-- The same description with the operation that the function has the name of is built as well, but does
not run. -/
theorem run_absolute_fails :
    (build #[] (absolute "abs")).toOption.map (fun d => (d.block.inputs,
      (Evaluator.empty.defineAll d.functions).toOption.map fun ev =>
        (ev.run .standard d.block .empty).2.isOk)) = some ([], some false) := by
  decide +kernel

/-- Descriptions that are read from texts evaluate under the same condition. -/
theorem run_read {text : String} {d : Description} (h : read text = .ok d) :
    ∃ ev, Evaluator.empty.defineAll d.functions = .ok ev ∧
      (d.Unshadowed → ∀ b ∈ d.blocks, ∀ (a : Arith) (values : Table Value), Holds values b.inputs →
        (ev.run a b values).2 = .ok () ∧
          ∀ name s, b.Declares name s → ∃ v, (ev.run a b values).1.lookup name = .ok v ∧ v.shape = s) := by
  obtain ⟨anchors, o, _, hbuild⟩ := read_eq_ok_iff.mp h
  exact ⟨_, (build_eq_ok hbuild).1.defineAll, fun hfree _ hb _ _ hvalues =>
    run_of_build hbuild hb hvalues (.inl hfree)⟩

end Description

end ShaderExpr
