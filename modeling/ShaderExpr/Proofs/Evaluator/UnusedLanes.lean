import Mathlib.Data.List.Forall2
import ShaderExpr.Proofs.Evaluator.Signature
import ShaderExpr.Proofs.Node
import ShaderExpr.Proofs.Outcome

/-!
# Lanes that a shape does not use stay zero

A value has sixteen lanes, and most shapes use fewer. Operators that change the components of an operand in place
keep its other lanes, the others build their result anew, so where the operands have zeros in the lanes that they
do not use, the result has too. With user functions this is an invariant of evaluation, and it is proved as one:
for any property that literals have and that operators and built-in functions keep.

* **`Ensures`** — if a computation gives a result, the result has a property; `Ensures.bind` chains it.
* **`Kept`** — a property of values that the single steps of evaluation keep.
* **`Evaluator.eval_ensures`** — then evaluation keeps it.
* **`Value.Padded`** — the unused lanes are zero.
* **`Evaluator.result_padded`** — what evaluation gives is padded, so values are the same if their shapes and
  components are.
-/

namespace ShaderExpr

/-! ## Results with a property -/

/-- If a computation gives a result, the result has a property. -/
def Ensures {ε α : Type} (P : α → Prop) (r : Except ε α) : Prop := ∀ x, r = .ok x → P x

namespace Ensures

variable {ε ε' α β : Type} {P : α → Prop} {Q : β → Prop}

theorem ok {x : α} (h : P x) : Ensures P (.ok x : Except ε α) := by
  intro y hy
  rw [← Except.ok.inj hy]
  exact h

theorem error (e : ε) : Ensures P (.error e : Except ε α) := by
  intro y hy
  cases hy

/-- Results may be chained, if what follows ensures its property on all that have the first. -/
theorem bind {r : Except ε α} {f : α → Except ε β} (h : Ensures P r) (hf : ∀ x, P x → Ensures Q (f x)) :
    Ensures Q (r >>= f) := by
  intro y hy
  obtain ⟨x, hx, hy⟩ := bind_eq_ok_iff.mp hy
  exact hf x (h x hx) y hy

/-- What the first part gives does not matter. -/
theorem bind_of_forall {r : Except ε α} {f : α → Except ε β} (hf : ∀ x, Ensures Q (f x)) :
    Ensures Q (r >>= f) :=
  bind (P := fun _ => True) (fun _ _ => trivial) fun x _ => hf x

theorem mapError {r : Except ε α} (h : Ensures P r) (f : ε → ε') : Ensures P (r.mapError f) :=
  fun x hx => h x (mapError_eq_ok_iff.mp hx)

end Ensures

/-! ## Invariants of evaluation -/

/-- A property of values that literals have and that operators and built-in functions keep. -/
structure Kept (a : Arith) (P : Value → Prop) : Prop where
  literal (text : String) : Ensures P (Literal.value text)
  unary (op : String) {x : Value} : P x → Ensures P (Value.unary a op x)
  binary (op : String) {x y : Value} : P x → P y → Ensures P (Value.binary a op x y)
  call (f : String) {args : List Value} : (∀ v ∈ args, P v) → Ensures P (Builtin.call a f args)

/-- Every value of an environment has a property. -/
def Env.All (P : Value → Prop) (env : Env) : Prop := ∀ name v, env.get? name = some v → P v

variable {a : Arith} {P : Value → Prop}

theorem Env.all_empty : Env.All P .empty := by
  intro name v h
  cases h

theorem Env.All.insert {env : Env} (h : env.All P) (key : String) {v : Value} (hv : P v) :
    Env.All P (env.insert key v) := by
  intro name w hw
  rw [Table.get?_insert] at hw
  split at hw
  · rw [← Option.some.inj hw]
    exact hv
  · exact h name w hw

/-- Calls of user functions on values with a property give values with it. -/
def CallsKeep (P : Value → Prop) (call : String → Option (List Value → Outcome Value)) : Prop :=
  ∀ f run, call f = some run → ∀ args, (∀ v ∈ args, P v) → Ensures P (run args)

namespace Node

variable {call : String → Option (List Value → Outcome Value)} {env : Env}

theorem evals_ensures {ns : List Node} (h : ∀ n ∈ ns, Ensures P (n.eval a call env)) :
    Ensures (fun vs => ∀ v ∈ vs, P v) (evals a call env ns) := by
  induction ns with
  | nil =>
      rw [evals]
      exact .ok (List.forall_mem_nil _)
  | cons n ns ih =>
      rw [evals]
      refine (h n List.mem_cons_self).bind fun v hv => ?_
      refine (ih fun k hk => h k (List.mem_cons_of_mem _ hk)).bind fun vs hvs => ?_
      exact .ok (List.forall_mem_cons.mpr ⟨hv, hvs⟩)

/-- **Trees evaluate to values with the property**, if calls of user functions keep it. Induction
over the tree: each kind of node is one of the steps that keep it. -/
theorem eval_ensures (hkept : Kept a P) (hcall : CallsKeep P call) (henv : env.All P) (n : Node) :
    Ensures P (n.eval a call env) := by
  induction n using Node.induction with
  | literal text =>
      rw [eval]
      exact (hkept.literal text).mapError _
  | var name =>
      rw [eval, Env.lookup]
      split
      · next v hv => exact .ok (henv name v hv)
      · exact .error _
  | call f args ih =>
      rw [eval]
      refine (evals_ensures ih).bind fun vs hvs => ?_
      split
      · -- a function comes before what is built in
        next run hrun => exact hcall f run hrun vs hvs
      · exact (hkept.call f hvs).mapError _
  | unary op x ih =>
      rw [eval]
      exact ih.bind fun v hv => (hkept.unary op hv).mapError _
  | binary op x y ihx ihy =>
      rw [eval]
      exact ihx.bind fun v hv => ihy.bind fun w hw => (hkept.binary op hv hw).mapError _
  | missing =>
      rw [eval]
      exact .error _

end Node

namespace Function

variable {eval : Env → Node → Outcome Value}

theorem bindArguments_ensures (fn : Function) {ps : List Param} {args : List Value} {env : Env}
    (hargs : ∀ v ∈ args, P v) (henv : env.All P) : Ensures (Env.All P) (fn.bindArguments ps args env) := by
  induction ps generalizing args env with
  | nil => exact .ok henv
  | cons p ps ih =>
      cases args with
      | nil => exact .ok henv
      | cons v vs =>
          obtain ⟨hv, hvs⟩ := List.forall_mem_cons.mp hargs
          rw [bindArguments]
          split
          · exact ih hvs (henv.insert p.name hv)
          · exact .error _

theorem runBody_ensures (fn : Function) (heval : ∀ env, Env.All P env → ∀ n, Ensures P (eval env n))
    {sts : List Statement} {env : Env} (henv : env.All P) :
    Ensures (Env.All P) (fn.runBody eval sts env) := by
  induction sts generalizing env with
  | nil => exact .ok henv
  | cons st sts ih =>
      rw [runBody]
      exact ((heval env henv st.value).mapError _).bind fun v hv => ih (henv.insert st.name hv)

/-- A function keeps the property, as its body and its result do. -/
theorem run_ensures (fn : Function) (heval : ∀ env, Env.All P env → ∀ n, Ensures P (eval env n))
    {args : List Value} (hargs : ∀ v ∈ args, P v) : Ensures P (fn.run eval args) := by
  unfold run
  split
  · exact .error _
  · refine ((fn.bindArguments_ensures hargs Env.all_empty).mapError _).bind fun env henv => ?_
    refine (fn.runBody_ensures heval henv).bind fun env henv => ?_
    exact heval env henv fn.result

/-- Calls keep the property at every depth, by induction on it: a call evaluates the body one level
deeper. -/
theorem callAt_keeps (hkept : Kept a P) (fns : Table Function) (depth : Nat) :
    CallsKeep P (callAt a fns depth) := by
  induction depth with
  | zero =>
      intro f run hrun args _
      obtain ⟨fn, _, rfl⟩ := Option.map_eq_some_iff.mp hrun
      exact .error _
  | succ depth ih =>
      intro f run hrun args hargs
      obtain ⟨fn, _, rfl⟩ := Option.map_eq_some_iff.mp hrun
      exact fn.run_ensures (fun _ henv n => Node.eval_ensures hkept ih henv n) hargs

end Function

/-- **Evaluation keeps what its single steps keep,** whatever the functions and the tree. -/
theorem Evaluator.eval_ensures (hkept : Kept a P) {ev : Evaluator} (henv : ev.env.All P) (n : Node) :
    Ensures P (ev.eval a n) :=
  Node.eval_ensures hkept (Function.callAt_keeps hkept ev.functions _) henv n

/-! ## Unused lanes -/

namespace Value

variable {v w x y z : Value}

/-- The lanes that the shape does not use are zero. -/
def Padded (v : Value) : Prop := ∀ i, v.shape.arity ≤ i → v.lane i = 0

theorem padded_build (s : Shape) (f : Nat → Binary32) : (build s f).Padded := by
  intro i hi
  rw [shape_build] at hi
  exact lane_build_of_le hi f

theorem padded_ofList (s : Shape) (xs : List Binary32) : (ofList s xs).Padded := padded_build _ _

theorem padded_ofRows (s : Shape) (xs : List Binary32) : (ofRows s xs).Padded := by
  unfold ofRows
  split
  · exact padded_ofList _ _
  · exact padded_ofList _ _

/-- A value that was made from components is padded, if it was made at all. -/
theorem padded_ofComponents (code : ShapeCode) (xs : List Binary32) :
    Ensures Padded (ofComponents code xs) := by
  unfold ofComponents
  split
  · exact .error _
  · split
    · exact .ok (padded_ofList _ _)
    · exact .error _

/-- Changing components in place leaves the other lanes as they are, so the zeros stay there. -/
theorem Padded.mapIdx (h : v.Padded) (f : Nat → Binary32 → Binary32) : (v.mapIdx f).Padded := by
  intro i hi
  rw [shape_mapIdx] at hi
  -- beyond the shape the lane is not touched, and beyond the last there is none
  have hkeep : (v.mapIdx f).lane i = v.lane i := by
    unfold lane Value.mapIdx
    by_cases hlane : i < laneCount
    · rw [Vector.getElem?_eq_getElem hlane, Option.getD_some, Vector.getElem_ofFn,
        if_neg (Nat.not_lt.mpr hi)]
      rfl
    · rw [Vector.getElem?_eq_none (Nat.not_lt.mp hlane), Vector.getElem?_eq_none (Nat.not_lt.mp hlane)]
  rw [hkeep]
  exact h i hi

theorem Padded.map (h : v.Padded) (f : Binary32 → Binary32) : (v.map f).Padded := h.mapIdx fun _ => f

/-- The first lanes of a padded value are its components and zeros behind them. Compared place by
place: within the components, behind them, and beyond the lanes that were asked for. -/
theorem Padded.leading_eq (h : v.Padded) (n : Nat) :
    v.leading n = (v.comps ++ List.replicate n 0).take n := by
  apply List.ext_getElem?
  intro i
  unfold leading
  by_cases hi : i < n
  · rw [List.getElem?_map, List.getElem?_range hi, Option.map_some, List.getElem?_take_of_lt hi]
    -- a component, or a zero behind them
    by_cases harity : i < v.shape.arity
    · rw [List.getElem?_append_left (by rw [length_comps]; exact harity), getElem?_comps harity]
    · rw [List.getElem?_append_right (by rw [length_comps]; omega), length_comps,
        List.getElem?_replicate_of_lt (by omega), h i (Nat.not_lt.mp harity)]
  · rw [List.getElem?_eq_none (by simpa using hi), List.getElem?_eq_none (by simpa using hi)]

/-- Padded values of one shape are related in every lane as soon as their components are, since both
have zeros elsewhere. -/
theorem Padded.lanes_related (hv : v.Padded) (hw : w.Padded) {R : Binary32 → Binary32 → Prop}
    (hzero : R 0 0) (hshape : v.shape = w.shape) (hcomps : List.Forall₂ R v.comps w.comps) (i : Nat) :
    R (v.lane i) (w.lane i) := by
  by_cases hi : i < v.shape.arity
  · have hlane := hcomps.get (by rw [length_comps]; exact hi)
      (by rw [length_comps, ← hshape]; exact hi)
    simpa only [comps, List.get_eq_getElem, List.getElem_map, List.getElem_range] using hlane
  · rw [hv i (Nat.not_lt.mp hi), hw i (by rw [← hshape]; exact Nat.not_lt.mp hi)]
    exact hzero

/-- Joining changes one of the operands in place, so both have to be padded. -/
theorem padded_zip (f : Binary32 → Binary32 → Binary32) (hx : x.Padded) (hy : y.Padded) :
    Ensures Padded (zip f x y) := by
  unfold zip
  split
  · exact .ok (hx.mapIdx _)
  · split
    · exact .ok (hx.map _)
    · split
      · exact .ok (hy.map _)
      · exact .error _

theorem padded_matMul : (matMul a x y).Padded := by
  rw [matMul]
  exact padded_build _ _

theorem padded_matVec : (matVec a x y).Padded := by
  rw [matVec]
  exact padded_build _ _

theorem padded_vecMat : (vecMat a x y).Padded := by
  rw [vecMat]
  exact padded_build _ _

/-- Products of matrices are built anew, all others are joins. -/
theorem padded_mult (hx : x.Padded) (hy : y.Padded) : Ensures Padded (mult a x y) := by
  unfold mult
  split
  · exact .ok padded_matMul
  · split
    · exact .ok padded_matVec
    · split
      · exact .ok padded_vecMat
      · exact padded_zip _ hx hy

theorem padded_binary (op : String) (hx : x.Padded) (hy : y.Padded) : Ensures Padded (binary a op x y) := by
  unfold binary
  split
  · exact padded_zip _ hx hy
  · exact padded_zip _ hx hy
  · exact padded_zip _ hx hy
  · exact padded_mult hx hy
  · exact .error _

theorem padded_unary (op : String) (hx : x.Padded) : Ensures Padded (unary a op x) := by
  unfold unary
  split
  · exact .ok (hx.map _)
  · exact .error _

theorem padded_spread (s : Shape) (f : Binary32) : (spread s f).Padded := by
  unfold spread
  split
  · exact padded_build _ _
  · exact padded_build _ _

/-- Constructors build their values anew, whatever the arguments are. -/
theorem padded_construct (s : Shape) (args : List Value) : Ensures Padded (construct s args) := by
  have hconcat : Ensures Padded (concat s args) := by
    unfold concat
    simp only
    split
    · exact .error _
    · split
      · exact .error _
      · exact .ok (padded_ofList _ _)
  unfold construct
  split
  · split
    · -- a number is spread over a new value
      exact .ok (padded_spread _ _)
    · exact hconcat
  · exact hconcat

end Value

/-- The value of a literal is made by a constructor. -/
theorem Literal.padded_value (text : String) : Ensures Value.Padded (Literal.value text) := by
  unfold Literal.value
  simp only
  split
  · split
    · exact .ok (Value.padded_ofList _ _)
    · exact .error _
  · split
    · exact .error _
    · split
      · exact .error _
      · exact .bind_of_forall fun args => Value.padded_construct _ args

namespace Builtin

open Value

variable {x y z : Value}

theorem padded_clamp (hx : x.Padded) (hy : y.Padded) (hz : z.Padded) : Ensures Padded (clamp a x y z) :=
  (padded_zip _ hx hy).bind fun _ hlow => padded_zip _ hlow hz

theorem padded_mix (hx : x.Padded) (hy : y.Padded) (hz : z.Padded) : Ensures Padded (mix a x y z) :=
  (padded_zip _ hy hx).bind fun _ hd => (padded_zip _ hd hz).bind fun _ hd => padded_zip _ hx hd

theorem padded_smoothstep : Ensures Padded (smoothstep a x y z) := by
  unfold smoothstep
  split
  · exact .ok (padded_build _ _)
  · exact .error _

theorem padded_refract (hx : x.Padded) (hy : y.Padded) : Ensures Padded (refract a x y z) := by
  unfold refract
  split
  · simp only
    split
    · exact .ok (padded_build _ _)
    · exact padded_zip _ hx hy
  · exact .error _

theorem padded_matrixCompMult (hx : x.Padded) (hy : y.Padded) : Ensures Padded (matrixCompMult a x y) := by
  unfold matrixCompMult
  split
  · exact padded_zip _ hx hy
  · exact .error _

theorem padded_cross : Ensures Padded (cross a x y) := by
  unfold cross
  split
  · exact .ok (padded_ofList _ _)
  · exact .error _

theorem padded_faceforward (hx : x.Padded) : (faceforward a x y z).Padded := by
  unfold faceforward
  split
  · exact hx
  · exact hx.map _

theorem padded_reflect (hx : x.Padded) (hy : y.Padded) : Ensures Padded (reflect a x y) := by
  unfold reflect
  exact padded_zip _ hx hy

theorem padded_mixed (f : String) {args : List Value} (h : ∀ v ∈ args, v.Padded) :
    Ensures Padded (mixed a f args) := by
  unfold mixed
  split
  · simp only [List.forall_mem_cons] at h
    exact padded_clamp h.1 h.2.1 h.2.2.1
  · simp only [List.forall_mem_cons] at h
    exact padded_mix h.1 h.2.1 h.2.2.1
  · -- its result is built anew, so nothing is asked of the operands
    exact padded_smoothstep
  · simp only [List.forall_mem_cons] at h
    exact padded_refract h.1 h.2.1
  · simp only [List.forall_mem_cons] at h
    exact padded_matrixCompMult h.1 h.2.1
  · exact .error _

/-- Functions of vectors give numbers, vectors that are built anew, or changed operands. -/
theorem padded_geometric (f : String) {args : List Value} (h : ∀ v ∈ args, v.Padded) :
    Ensures Padded (geometric a f args) := by
  unfold geometric
  split
  · exact .ok (padded_ofList _ _)
  · exact .ok (padded_ofList _ _)
  · exact .bind_of_forall fun _ => .ok (padded_ofList _ _)
  · exact .ok ((h _ List.mem_cons_self).map _)
  · exact padded_cross
  · exact .ok (padded_faceforward (h _ List.mem_cons_self))
  · simp only [List.forall_mem_cons] at h
    exact padded_reflect h.1 h.2.1
  · exact .error _

/-- **Built-in functions keep values padded.** The families of functions are gone through in the
order in which a name is looked for among them. -/
theorem padded_call (f : String) {args : List Value} (h : ∀ v ∈ args, v.Padded) :
    Ensures Padded (call a f args) := by
  unfold call
  split
  · -- constructors come first
    exact padded_construct _ _
  · split
    · split
      · exact .ok ((h _ List.mem_cons_self).map _)
      · exact .error _
    · split
      · split
        · simp only [List.forall_mem_cons] at h
          exact padded_zip _ h.1 h.2.1
        · exact .error _
      · split
        · split
          · exact padded_mixed f h
          · exact .error _
        · split
          · split
            · exact .bind_of_forall fun _ => padded_geometric f h
            · exact .error _
          · exact .error _

end Builtin

/-- Literals are padded, and operators and built-in functions keep it. -/
theorem kept_padded (a : Arith) : Kept a Value.Padded where
  literal := Literal.padded_value
  unary op _ := Value.padded_unary op
  binary op _ _ := Value.padded_binary op
  call := Builtin.padded_call

/-! ## Results -/

namespace Evaluator

/-- A value that evaluation gives where the values of the environment are padded, or that a literal has. -/
inductive Result : Value → Prop where
  | eval {a : Arith} {ev : Evaluator} {n : Node} {v : Value} (henv : ev.env.All Value.Padded)
      (h : ev.eval a n = .ok v) : Result v
  | literal {text : String} {v : Value} (h : Literal.value text = .ok v) : Result v

theorem Result.padded {v : Value} (h : Result v) : v.Padded := by
  cases h with
  | eval henv h => exact eval_ensures (kept_padded _) henv _ v h
  | literal h => exact Literal.padded_value _ v h

/-- **Unused lanes stay zero.** The values that constructors make have zeros in the lanes that their shape does
not use. So have all values that evaluation gives in an environment of such values, whatever the tree and the
functions are, and the values of literals. Lanes that are read as a vector of any length are then the components
and zeros behind them, and two such values of one shape are the same if their components are: bit by bit, or under
any comparison of numbers that finds zero the same as zero. -/
theorem result_padded :
    (∀ code xs v, Value.ofComponents code xs = .ok v → v.Padded) ∧
    (∀ s xs, (Value.ofRows s xs).Padded) ∧
    ∀ v, Result v → v.Padded ∧
      (∀ n, v.leading n = (v.comps ++ List.replicate n 0).take n) ∧
      ∀ w, Result w → v.shape = w.shape →
        (v.comps = w.comps → v = w) ∧
        ∀ R : Binary32 → Binary32 → Prop, R 0 0 → List.Forall₂ R v.comps w.comps →
          ∀ i, R (v.lane i) (w.lane i) := by
  refine ⟨Value.padded_ofComponents, Value.padded_ofRows, fun v hv => ⟨hv.padded, hv.padded.leading_eq, ?_⟩⟩
  intro w hw hshape
  refine ⟨fun hcomps => ?_, fun R hzero => hv.padded.lanes_related hw.padded hzero hshape⟩
  -- equality is the relation under which all components are the same
  refine Value.eq_of_lanes hshape (hv.padded.lanes_related hw.padded rfl hshape ?_)
  rw [hcomps]
  exact List.forall₂_same.mpr fun _ _ => rfl

/-- A number from a vector of four components, through a function. -/
def extent : Function :=
  ⟨"extent", "float", [⟨"vec4", "p"⟩], [], .call "length" [.var "p"]⟩

/-- A number that a function makes from a vector of four components has zeros in the three lanes
behind its own. -/
theorem result_padded_extent :
    Env.All Value.Padded ⟨[("v", .ofList .vec4 [1, 2, 3, 4])]⟩ ∧
    ∀ a : Arith, ∃ w,
      eval a ⟨⟨[("v", .ofList .vec4 [1, 2, 3, 4])]⟩, ⟨[("extent", extent)]⟩⟩
        (.call "extent" [.var "v"]) = .ok w ∧
      w.leading 3 = [w.lane 0, 0, 0] := by
  have henv : Env.All Value.Padded ⟨[("v", .ofList .vec4 [1, 2, 3, 4])]⟩ :=
    Env.all_empty.insert "v" (Value.padded_ofList _ _)
  refine ⟨henv, fun a => ?_⟩
  obtain ⟨w, hw⟩ : ∃ w, eval a ⟨⟨[("v", .ofList .vec4 [1, 2, 3, 4])]⟩, ⟨[("extent", extent)]⟩⟩
      (.call "extent" [.var "v"]) = .ok w ∧ w.shape = .float := ⟨_, rfl, rfl⟩
  obtain ⟨-, hleading, -⟩ := result_padded.2.2 w (.eval henv hw.1)
  refine ⟨w, hw.1, ?_⟩
  rw [hleading, Value.comps, hw.2]
  rfl

end Evaluator

end ShaderExpr
