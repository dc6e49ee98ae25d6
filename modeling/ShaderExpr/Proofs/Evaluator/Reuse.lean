import ShaderExpr.Proofs.Evaluator.Soundness

/-!
# Evaluators that are used again

An evaluator keeps its values and its functions from one use to the next. A run forgets the values, so all that it can
see of the past are the functions; and of the values it is given it sees those of its inputs only. What it leaves
behind is what it came to before the first failure, in the order of the block.

* **`after`** — an evaluator with a history of uses, failed ones included.
* **`functions_foldl_act`** — the functions come from the definitions in the history alone.
* **`process`** — a run as one pass over inputs and declarations; **`runBlock_eq_process`** says that it is one.
* **`Processed`**, **`Stopped`** — what has been processed, and how far a run came.
* **`run_reused`** — a run after any history is a run on a fresh evaluator.
-/

namespace ShaderExpr

namespace Table

variable {α : Type}

/-- The table with only some of its names. -/
def restrict (t : Table α) (names : List String) : Table α := ⟨t.entries.filter (·.1 ∈ names)⟩

theorem get?_restrict {names : List String} {name : String} (h : name ∈ names) (t : Table α) :
    (t.restrict names).get? name = t.get? name := by
  obtain ⟨entries⟩ := t
  unfold restrict get?
  induction entries with
  | nil => rfl
  | cons e es ih =>
      obtain ⟨key, v⟩ := e
      by_cases hkey : key = name
      · simp [find?, hkey, h]
      · -- another name is passed over, whether it is kept or not
        by_cases hmem : key ∈ names <;> simpa [find?, hkey, hmem] using ih

theorem insert_of_not_mem {t : Table α} {name : String} (h : name ∉ t.names) (v : α) :
    t.insert name v = ⟨t.entries ++ [(name, v)]⟩ := by
  have hnone : t.get? name = none := by
    rw [Option.eq_none_iff_forall_ne_some]
    exact fun w hw => h (mem_names_of_get? hw)
  exact congrArg Table.mk (put_of_find?_eq_none hnone v)

end Table

namespace Evaluator

variable {a : Arith}

/-! ## Histories -/

/-- One use of an evaluator. -/
inductive Action where
  | set (name : String) (v : Value)
  | define (fn : Function)
  | eval (n : Node)
  | run (b : Block) (values : Table Value)

def Action.isDefine : Action → Bool
  | .define _ => true
  | _ => false

/-- The evaluator after a use, whether or not it succeeds. -/
def act (a : Arith) (ev : Evaluator) : Action → Evaluator
  | .set name v => ev.set name v
  | .define fn =>
    match ev.define fn with
    | .ok ev' => ev'
    | .error _ => ev
  | .eval _ => ev
  | .run b values => (ev.run a b values).1

/-- The evaluator after a history that begins with the empty one. -/
def after (a : Arith) (actions : List Action) : Evaluator := actions.foldl (act a) empty

/-- A definition neither reads nor changes the values. -/
theorem act_define (ev : Evaluator) (fn : Function) :
    act a ev (.define fn) = ⟨ev.env, (act a ⟨.empty, ev.functions⟩ (.define fn)).functions⟩ := by
  simp only [act, define]
  cases fn.check <;> rfl

/-- Only a definition changes the functions. -/
theorem functions_act_of_not_isDefine (ev : Evaluator) {x : Action} (h : x.isDefine = false) :
    (act a ev x).functions = ev.functions := by
  cases x with
  | set name v => rfl
  | define fn => cases h
  | eval n => rfl
  | run b values => rfl

/-- **The functions come from the definitions in the history alone.** Definitions do not read the
values, and nothing else changes the functions. Induction on the history, with any two evaluators of
the same functions. -/
theorem functions_foldl_act {ev ev' : Evaluator} (h : ev.functions = ev'.functions)
    (actions : List Action) :
    (actions.foldl (act a) ev).functions =
      ((actions.filter Action.isDefine).foldl (act a) ev').functions := by
  induction actions generalizing ev ev' with
  | nil => exact h
  | cons x actions ih =>
      cases hx : x.isDefine with
      | false =>
          rw [List.filter_cons_of_neg (by simp [hx]), List.foldl_cons]
          exact ih ((functions_act_of_not_isDefine ev hx).trans h)
      | true =>
          rw [List.filter_cons_of_pos hx, List.foldl_cons, List.foldl_cons]
          refine ih ?_
          -- the values of the two evaluators may differ, but a definition does not see them
          cases x with
          | define fn => rw [act_define, act_define ev', h]
          | _ => cases hx

theorem env_foldl_act {actions : List Action} (h : ∀ x ∈ actions, x.isDefine = true) (ev : Evaluator) :
    (actions.foldl (act a) ev).env = ev.env := by
  induction actions generalizing ev with
  | nil => rfl
  | cons x actions ih =>
      rw [List.forall_mem_cons] at h
      rw [List.foldl_cons, ih h.2]
      cases x with
      | define fn => rw [act_define]
      | _ => cases h.1

/-! ## A run as one pass -/

/-- What a run processes, one after the other. -/
inductive Item where
  | input (i : Input)
  | declaration (d : Declaration)

def Item.name : Item → String
  | .input i => i.name
  | .declaration d => d.name

/-- The value of an input or of a declaration, if there is one and it has the declared shape. -/
def Item.value (a : Arith) (fns : Table Function) (values : Table Value) (env : Env) :
    Item → Outcome Value
  | .input i =>
    match values.get? i.name with
    | none => Outcome.fail (.missingInput i.name)
    | some v =>
      if v.shape = i.shape then .ok v else Outcome.fail (.inputShape i.name i.shape v.shape)
  | .declaration d =>
    match evalIn a fns env d.value with
    | .error e => .error (e.within (.evaluating d.name))
    | .ok v =>
      if v.shape = d.shape then .ok v else Outcome.fail (.statementShape d.name d.shape v.shape)

/-- Inputs and then declarations. -/
def items (b : Block) : List Item := b.inputs.map .input ++ b.declarations.map .declaration

variable {fns : Table Function} {values : Table Value} {env : Env}

/-- Processes items in order, as far as they have values. -/
def process (a : Arith) (fns : Table Function) (values : Table Value) :
    List Item → Env → Env × Outcome Unit
  | [], env => (env, .ok ())
  | x :: xs, env =>
    match x.value a fns values env with
    | .error e => (env, .error e)
    | .ok v => process a fns values xs (env.insert x.name v)

/-- Declarations are processed as a run does it after its inputs. -/
theorem process_declarations (ds : List Declaration) (env : Env) :
    process a fns values (ds.map .declaration) env = runDeclarations a fns ds env := by
  induction ds generalizing env with
  | nil => rfl
  | cons d ds ih =>
      rw [List.map_cons, process, runDeclarations, Item.value]
      cases evalIn a fns env d.value with
      | error e => rfl
      | ok v =>
          by_cases hshape : v.shape = d.shape
          · simp only [if_pos hshape]
            exact ih _
          · simp only [if_neg hshape]
            rfl

/-- **A run is one pass** over the inputs and the declarations. -/
theorem runBlock_eq_process (b : Block) :
    runBlock a fns b values = process a fns values (items b) .empty := by
  unfold runBlock items
  generalize Table.empty = env
  -- induction on the inputs; after the last of them the declarations are next
  induction b.inputs generalizing env with
  | nil => exact (process_declarations b.declarations env).symm
  | cons i is ih =>
      rw [List.map_cons, List.cons_append, process, takeInputs, Item.value]
      cases values.get? i.name with
      | none => rfl
      | some v =>
          by_cases hshape : v.shape = i.shape
          · simp only [if_pos hshape]
            exact ih _
          · simp only [if_neg hshape]
            rfl

/-- Processing depends on the values that it is given only through the values of the items. -/
theorem process_congr {values' : Table Value} {xs : List Item}
    (h : ∀ x ∈ xs, ∀ env, x.value a fns values env = x.value a fns values' env) (env : Env) :
    process a fns values xs env = process a fns values' xs env := by
  induction xs generalizing env with
  | nil => rfl
  | cons x xs ih =>
      rw [List.forall_mem_cons] at h
      rw [process, process, h.1]
      cases x.value a fns values' env with
      | error e => rfl
      | ok v => exact ih h.2 _

/-- Of the values that it is given a run sees those of its inputs: declarations are evaluated in the
environment. -/
theorem runBlock_restrict (b : Block) :
    runBlock a fns b (values.restrict (b.inputs.map Input.name)) = runBlock a fns b values := by
  rw [runBlock_eq_process, runBlock_eq_process]
  refine process_congr (fun x hx env => ?_) _
  rcases List.mem_append.mp hx with hx | hx
  · obtain ⟨i, hi, rfl⟩ := List.mem_map.mp hx
    rw [Item.value, Item.value, Table.get?_restrict (List.mem_map_of_mem hi)]
  · obtain ⟨d, _, rfl⟩ := List.mem_map.mp hx
    rfl

/-! ## How far a run comes -/

/-- All of some items have been processed: the environment holds their values in order and nothing else. -/
inductive Processed (a : Arith) (fns : Table Function) (values : Table Value) : List Item → Env → Prop
  | nil : Processed a fns values [] .empty
  | snoc {xs : List Item} {env : Env} {x : Item} {v : Value} (h : Processed a fns values xs env)
      (hv : x.value a fns values env = .ok v) :
      Processed a fns values (xs ++ [x]) ⟨env.entries ++ [(x.name, v)]⟩

/-- The environment has the names of what was processed, in order. -/
theorem Processed.names {xs : List Item} (h : Processed a fns values xs env) :
    env.names = xs.map Item.name := by
  induction h with
  | nil => rfl
  | snoc _ _ ih =>
      rw [Table.names, List.map_append, List.map_append]
      exact congrArg (· ++ _) ih

/-- How far a run came: all items are processed, or all those before one that has no value. -/
inductive Stopped (a : Arith) (fns : Table Function) (values : Table Value) (xs : List Item) (env : Env) :
    Outcome Unit → Prop
  | finished (h : Processed a fns values xs env) : Stopped a fns values xs env (.ok ())
  | failed {done rest : List Item} {x : Item} {e : Failure} (hxs : xs = done ++ x :: rest)
      (h : Processed a fns values done env) (hx : x.value a fns values env = .error e) :
      Stopped a fns values xs env (.error e)

/-- **A run comes to its end or to an item without a value.** Induction on the items that are left. Each one that is
processed comes last in the environment, since no name repeats. -/
theorem Processed.stopped {done xs : List Item} (h : Processed a fns values done env)
    (hnodup : ((done ++ xs).map Item.name).Nodup) :
    Stopped a fns values (done ++ xs) (process a fns values xs env).1
      (process a fns values xs env).2 := by
  induction xs generalizing done env with
  | nil =>
      rw [List.append_nil]
      exact .finished h
  | cons x xs ih =>
      cases hx : x.value a fns values env with
      | error e =>
          simp only [process, hx]
          exact .failed rfl h hx
      | ok v =>
          -- the environment has the names of the items before
          have hfresh : x.name ∉ env.names := by
            rw [List.map_append, List.map_cons, List.nodup_append] at hnodup
            rw [h.names]
            exact fun hmem => hnodup.2.2 _ hmem _ List.mem_cons_self rfl
          simp only [process, hx, Table.insert_of_not_mem hfresh]
          rw [List.append_cons] at hnodup ⊢
          exact ih (h.snoc hx) hnodup

/-- What a run processes has the names in scope, so none of them repeats. -/
theorem map_name_items {b : Block} (hb : b.Consistent) : (items b).map Item.name = b.scope.names := by
  rw [hb.names_eq, items, List.map_append, List.map_map, List.map_map]
  rfl

/-- **Nothing is left over from earlier uses.** Take an evaluator after any history, a block that can be built and any
values. The evaluator with the definitions of the history only has no values and the same functions. On it the
block runs alike, to the same result and the same environment, from the values of its inputs alone. And the
environment afterwards holds the values of the inputs and declarations that were processed, in order: all of
them if the run succeeds, and then its names are those in scope; otherwise those before the one that
gives the error. -/
theorem run_reused {b : Block} (hb : b.Reachable) (a : Arith) (actions : List Action) (values : Table Value) :
    (after a (actions.filter Action.isDefine)).env = .empty ∧
      (after a (actions.filter Action.isDefine)).functions = (after a actions).functions ∧
      (after a actions).run a b values =
        (after a (actions.filter Action.isDefine)).run a b
          (values.restrict (b.inputs.map Input.name)) ∧
      Stopped a (after a actions).functions values (items b) ((after a actions).run a b values).1.env
        ((after a actions).run a b values).2 ∧
      (((after a actions).run a b values).2 = .ok () →
        ((after a actions).run a b values).1.env.names = b.scope.names) := by
  have hfunctions := functions_foldl_act (a := a) (rfl : empty.functions = empty.functions) actions
  have hnames := map_name_items hb.consistent
  -- the names of the items are distinct, so each comes last when it is processed
  have hstopped : Stopped a (after a actions).functions values (items b)
      ((after a actions).run a b values).1.env ((after a actions).run a b values).2 := by
    have hnodup := hb.consistent.nodup
    rw [← hnames] at hnodup
    unfold run
    rw [runBlock_eq_process]
    exact Processed.nil.stopped hnodup
  refine ⟨env_foldl_act (fun x hx => (List.mem_filter.mp hx).2) _, hfunctions.symm, ?_, hstopped, ?_⟩
  · unfold run
    rw [runBlock_restrict]
    simp only [after, hfunctions]
  · intro hok
    rw [hok] at hstopped
    cases hstopped with
    | finished h => rw [h.names, hnames]

/-- A value of another shape, a run without values that fails, and a function. -/
def squareHistory : List Action :=
  [.set "p" (.zero .vec3), .run squareUser .empty, .define square, .eval (.var "d")]

/-- After the history, `squareUser` runs as if nothing but `square` had been defined, and no other value had been
given than that of its input. -/
theorem run_reused_squareHistory :
    squareUser.Reachable ∧ ∀ a : Arith,
      (after a squareHistory).run a squareUser ⟨[("q", .zero .vec4), ("p", .zero .vec2)]⟩ =
        run a ⟨.empty, ⟨[("square", square)]⟩⟩ squareUser ⟨[("p", .zero .vec2)]⟩ := by
  have hinput : (Block.empty.withInput "p" .vec2).Reachable :=
    @Block.Reachable.ofRequests [⟨"p", Shape.vec2.code⟩] _ rfl
  have hreachable : squareUser.Reachable :=
    .define (.define hinput (some fun _ => ⟨[⟨"p", .vec2⟩],
      [⟨"d", some ⟨.float, .call "dot" [.var "p", .var "p"]⟩⟩], none⟩)) (some fun _ => ⟨[],
        [⟨"returns", some ⟨.vec2, .call "vec2" [.call "square" [.var "d"],
          (Expr.literalOf .float [1]).node]⟩⟩], none⟩)
  refine ⟨hreachable, fun a => ?_⟩
  obtain ⟨_, _, hrun, _⟩ := run_reused hreachable a squareHistory ⟨[("q", .zero .vec4), ("p", .zero .vec2)]⟩
  exact hrun

end Evaluator

end ShaderExpr
