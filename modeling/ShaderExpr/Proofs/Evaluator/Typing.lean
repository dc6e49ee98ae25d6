import ShaderExpr.Proofs.Block.Representation
import ShaderExpr.Proofs.Evaluator.Signature
import ShaderExpr.Proofs.Literal.Value

/-!
# Typed expressions

A tree carries no shapes, so a typing judgement says which shape a tree has in a scope: one rule for
each kind of node, with the signatures of the catalog, the components of constructors and the
parameters of functions as side conditions. Whatever is made through the checked constructors of
expressions obeys it.

* **`Expr.Typed`** — the judgement. It looks at the tree and at nothing that the constructors checked.
* **`Expr.Built`** — what can be made from literals, powers, look-ups, operations, combinations and
  calls, to any depth.
* **`Expr.Built.typed`** — what can be made is typed.
* **`Declared`** — each declaration of a list is typed in the scope of what comes before it.
* **`Block.Built.declared`** — so are the declarations of a block made by define steps.
-/

namespace ShaderExpr

namespace Expr

/-- The tree of the expression has its shape, where a scope says what variables are and a list what
functions there are. -/
inductive Typed (fns : List Function) (s : Scope) : Expr → Prop where
  | literal {text : String} {t : Shape} (h : Yields (Literal.value text) t) :
      Typed fns s ⟨t, .literal text⟩
  | var {name : String} {e : Expr} (h : s.get? name = some e) : Typed fns s (.var name e.shape)
  | operation {op : Operation} {recv : Expr} {args : List Expr} {sig : Signature}
      (hrecv : Typed fns s recv) (hargs : ∀ e ∈ args, Typed fns s e)
      (hsig : op.signature? recv.shape = some sig) (hshapes : args.map shape = sig.args) :
      Typed fns s ⟨sig.result, op.build recv.node (args.map node)⟩
  | construct {t : Shape} {args : List Expr} (hargs : ∀ e ∈ args, Typed fns s e)
      (harity : (args.map fun e => e.shape.arity).sum = t.arity) :
      Typed fns s ⟨t, .call t.name (args.map node)⟩
  | call {fn : Function} {args : List Expr} {t : Shape} (hfn : fn ∈ fns)
      (hargs : ∀ e ∈ args, Typed fns s e)
      (htypes : args.map (fun e => e.shape.name) = fn.params.map Param.type)
      (hresult : Shape.ofName? fn.returnType = some t) :
      Typed fns s ⟨t, .call fn.name (args.map node)⟩

/-- More names in scope change nothing. Induction on the typing. -/
theorem Typed.weaken {fns : List Function} {s s' : Scope} {e : Expr} (h : Typed fns s e)
    (hs : ∀ name e, s.get? name = some e → s'.get? name = some e) : Typed fns s' e := by
  induction h with
  | literal h => exact .literal h
  | var h => exact .var (hs _ _ h)
  | operation _ _ hsig hshapes ihrecv ihargs => exact .operation ihrecv ihargs hsig hshapes
  | construct _ harity ihargs => exact .construct ihargs harity
  | call hfn _ htypes hresult ihargs => exact .call hfn ihargs htypes hresult

/-! ## What the checked constructors accept -/

/-- A literal is made only of as many components as its shape has. -/
theorem literal_eq_ok {code : ShapeCode} {comps : List Binary32} {e : Expr}
    (h : literal code comps = .ok e) :
    ∃ s : Shape, comps.length = s.arity ∧ e = literalOf s comps := by
  unfold literal at h
  split at h
  · cases h
  · next s _ =>
      split at h
      · next hlength =>
          rw [Literal.sizedText_eq hlength] at h
          cases h
          exact ⟨s, hlength, rfl⟩
      · cases h

/-- Operands pass the check if none is absent and their shapes are the wanted ones. Induction on the
wanted shapes, as the check goes. -/
theorem checkOperands_eq_ok {op : OpCode} {recv : Shape} {wants : List Shape}
    {args : List (Option Expr)} {nodes : List Node} {i : Nat} (hlength : args.length = wants.length)
    (h : checkOperands op recv i wants args = .ok nodes) :
    ∃ es : List Expr, args = es.map some ∧ es.map shape = wants ∧ nodes = es.map node := by
  induction wants generalizing args nodes i with
  | nil =>
      rw [List.length_eq_zero_iff.mp hlength] at h ⊢
      cases h
      exact ⟨[], rfl, rfl, rfl⟩
  | cons want wants ih =>
      -- there are as many operands as shapes, so there is one for this
      obtain ⟨arg, args, rfl⟩ := List.exists_cons_of_length_eq_add_one hlength
      cases arg with
      | none => cases h
      | some e =>
          unfold checkOperands at h
          simp only at h
          split at h
          · next hshape =>
              obtain ⟨rest, hrest, hnodes⟩ := bind_eq_ok_iff.mp h
              obtain ⟨es, rfl, rfl, rfl⟩ := ih (Nat.succ.inj hlength) hrest
              cases hnodes
              exact ⟨e :: es, rfl, by rw [List.map_cons, hshape], rfl⟩
          · cases h

/-- Arguments pass the check if none is absent and the parameters have the names of their shapes as
types. -/
theorem checkArguments_eq_ok {f : String} {ps : List Param} {args : List (Option Expr)}
    {nodes : List Node} {i : Nat} (hlength : args.length = ps.length)
    (h : checkArguments f i ps args = .ok nodes) :
    ∃ es : List Expr, args = es.map some ∧ es.map (fun e => e.shape.name) = ps.map Param.type ∧
      nodes = es.map node := by
  induction ps generalizing args nodes i with
  | nil =>
      rw [List.length_eq_zero_iff.mp hlength] at h ⊢
      cases h
      exact ⟨[], rfl, rfl, rfl⟩
  | cons p ps ih =>
      obtain ⟨arg, args, rfl⟩ := List.exists_cons_of_length_eq_add_one hlength
      cases arg with
      | none => cases h
      | some e =>
          unfold checkArguments at h
          simp only at h
          split at h
          · next htype =>
              obtain ⟨rest, hrest, hnodes⟩ := bind_eq_ok_iff.mp h
              obtain ⟨es, rfl, htypes, rfl⟩ := ih (Nat.succ.inj hlength) hrest
              cases hnodes
              exact ⟨e :: es, rfl, by rw [List.map_cons, List.map_cons, htype, htypes], rfl⟩
          · cases h

/-- **What an application that succeeds has checked**: the number is that of an operation, the
receiver is there and may receive it, and the operands are there and of the shapes of the
signature. -/
theorem apply_eq_ok {code : OpCode} {recv : Option Expr} {args : List (Option Expr)} {e : Expr}
    (h : apply code recv args = .ok e) :
    ∃ (op : Operation) (r : Expr) (es : List Expr) (sig : Signature), code.op? = some op ∧
      recv = some r ∧ args = es.map some ∧ op.signature? r.shape = some sig ∧
        es.map shape = sig.args ∧ e = ⟨sig.result, op.build r.node (es.map node)⟩ := by
  unfold apply at h
  split at h
  · cases h
  · next r =>
      split at h
      · cases h
      · next op hop =>
          split at h
          · cases h
          · next sig hsig =>
              -- the number of operands is checked before their shapes
              unfold applySignature at h
              split at h
              · next hlength =>
                  obtain ⟨nodes, hnodes, he⟩ := bind_eq_ok_iff.mp h
                  obtain ⟨es, hargs, hshapes, rfl⟩ := checkOperands_eq_ok hlength hnodes
                  cases he
                  exact ⟨op, r, es, sig, hop, rfl, hargs, hsig, hshapes, rfl⟩
              · cases h

/-- Operands of the wanted shapes pass the check. -/
theorem checkOperands_map_some (op : OpCode) (recv : Shape) (i : Nat) (es : List Expr) :
    checkOperands op recv i (es.map shape) (es.map some) = .ok (es.map node) := by
  induction es generalizing i with
  | nil => rfl
  | cons e es ih =>
      simp only [List.map_cons, checkOperands, if_true, ih]
      rfl

/-- An operation applies to a receiver and operands of the shapes of its signature, so `apply_eq_ok`
loses nothing. -/
theorem apply_code {op : Operation} {recv : Expr} {es : List Expr} {sig : Signature}
    (hsig : op.signature? recv.shape = some sig) (hshapes : es.map shape = sig.args) :
    apply op.code (some recv) (es.map some) = .ok ⟨sig.result, op.build recv.node (es.map node)⟩ := by
  have hlength : (es.map some).length = sig.args.length := by
    rw [← hshapes, List.length_map, List.length_map]
  unfold apply
  simp only [Operation.op?_code, hsig, applySignature, hlength, if_true]
  rw [← hshapes, checkOperands_map_some]
  rfl

/-- What a call that succeeds has checked: the result type names a shape, and the arguments are
there and of the types of the parameters. -/
theorem call_eq_ok {fn : Function} {args : List (Option Expr)} {e : Expr}
    (h : call fn args = .ok e) :
    ∃ (t : Shape) (es : List Expr), args = es.map some ∧ Shape.ofName? fn.returnType = some t ∧
      es.map (fun e => e.shape.name) = fn.params.map Param.type ∧
        e = ⟨t, .call fn.name (es.map node)⟩ := by
  unfold call at h
  split at h
  · cases h
  · next t hresult =>
      split at h
      · next hlength =>
          obtain ⟨nodes, hnodes, he⟩ := bind_eq_ok_iff.mp h
          -- with as many arguments as parameters the check goes through both lists
          obtain ⟨es, hargs, htypes, rfl⟩ := checkArguments_eq_ok hlength hnodes
          cases he
          exact ⟨t, es, hargs, hresult, htypes, rfl⟩
      · cases h

end Expr

namespace Combiner

/-- Lining up expressions adds their arities and keeps their trees in order. Induction on the parts,
with anything lined up before. -/
theorem foldlM_push?_eq_ok {parts : List (Option Expr)} {c c' : Combiner}
    (h : parts.foldlM push? c = .ok c') :
    ∃ es : List Expr, parts = es.map some ∧
      c'.arity = c.arity + (es.map fun e => e.shape.arity).sum ∧
        c'.parts = c.parts ++ es.map Expr.node := by
  induction parts generalizing c with
  | nil =>
      cases h
      exact ⟨[], rfl, rfl, (List.append_nil _).symm⟩
  | cons part parts ih =>
      rw [List.foldlM_cons] at h
      obtain ⟨c₁, h₁, h₂⟩ := bind_eq_ok_iff.mp h
      cases part with
      | none => cases h₁
      | some e =>
          cases h₁
          obtain ⟨es, rfl, harity, hparts⟩ := ih h₂
          refine ⟨e :: es, rfl, ?_, ?_⟩
          · rw [harity, List.map_cons, List.sum_cons]
            exact Nat.add_assoc _ _ _
          · rw [hparts, List.map_cons]
            exact List.append_assoc _ _ _

theorem foldl_push_eq (es : List Expr) (c : Combiner) :
    es.foldl push c =
      ⟨c.arity + (es.map fun e => e.shape.arity).sum, c.parts ++ es.map Expr.node⟩ := by
  induction es generalizing c with
  | nil => simp
  | cons e es ih => simp [ih, push, Nat.add_assoc]

@[simp] theorem toCode_code (c : Combiner) (s : Shape) : c.toCode s.code = c.toShape s := by
  rw [toCode, Shape.shape?_code]

/-- Expressions are combined as a shape iff they have as many components together, and the result is a call of
its constructor. -/
theorem toShape_ofList_eq_ok_iff {es : List Expr} {s : Shape} {e : Expr} :
    (ofList es).toShape s = .ok e ↔
      (es.map fun e => e.shape.arity).sum = s.arity ∧ e = ⟨s, .call s.name (es.map Expr.node)⟩ := by
  rw [ofList, foldl_push_eq, toShape]
  by_cases h : (es.map fun e => e.shape.arity).sum = s.arity
  · simp [empty, h, eq_comm]
  · simp [empty, h]

/-- What a combination that succeeds has checked: all parts are there and fill the shape. -/
theorem toCode_eq_ok {parts : List (Option Expr)} {c : Combiner} {code : ShapeCode} {e : Expr}
    (hc : ofOptions parts = .ok c) (h : c.toCode code = .ok e) :
    ∃ (t : Shape) (es : List Expr), parts = es.map some ∧
      (es.map fun e => e.shape.arity).sum = t.arity ∧
        e = ⟨t, .call t.name (es.map Expr.node)⟩ := by
  obtain ⟨es, hes, harity, hparts⟩ := foldlM_push?_eq_ok hc
  unfold toCode at h
  split at h
  · cases h
  · next t _ =>
      unfold toShape at h
      split at h
      · next hfit =>
          -- lining up began with nothing, so the arity is that of the parts
          cases h
          refine ⟨t, es, hes, ?_, ?_⟩
          · rw [← hfit, harity]
            exact (Nat.zero_add _).symm
          · rw [hparts]
            rfl
      · cases h

end Combiner

/-! ## What can be made is typed -/

namespace Expr

/-- The expressions that can be made inside a define step from the names in scope, the typed look-ups
of the step and some functions. -/
inductive Built (fns : List Function) (s : Scope) (ls : List Lookup) : Expr → Prop where
  | literal {code : ShapeCode} {comps : List Binary32} {e : Expr}
      (h : Expr.literal code comps = .ok e) : Built fns s ls e
  | powN {x : Expr} (hx : Built fns s ls x) (exponent : Binary32) :
      Built fns s ls (x.powN exponent)
  | name {name : String} {e : Expr} (h : s.get? name = some e) : Built fns s ls e
  | lookup {l : Lookup} (h : l ∈ ls) : Built fns s ls l.expr
  | apply {code : OpCode} {recv : Option Expr} {args : List (Option Expr)} {e : Expr}
      (hrecv : ∀ r, recv = some r → Built fns s ls r)
      (hargs : ∀ x, some x ∈ args → Built fns s ls x)
      (h : Expr.apply code recv args = .ok e) : Built fns s ls e
  | combine {parts : List (Option Expr)} {c : Combiner} {code : ShapeCode} {e : Expr}
      (hparts : ∀ x, some x ∈ parts → Built fns s ls x)
      (hc : Combiner.ofOptions parts = .ok c) (h : c.toCode code = .ok e) : Built fns s ls e
  | call {fn : Function} {args : List (Option Expr)} {e : Expr} (hfn : fn ∈ fns)
      (hargs : ∀ x, some x ∈ args → Built fns s ls x) (h : Expr.call fn args = .ok e) :
      Built fns s ls e

theorem typed_literalOf (fns : List Function) (s : Scope) {t : Shape} {comps : List Binary32}
    (h : comps.length = t.arity) : Typed fns s (literalOf t comps) :=
  .literal ⟨_, Literal.value_shapeText h, Value.shape_ofRows _ _⟩

theorem typed_splat (fns : List Function) (s : Scope) (t : Shape) (x : Binary32) :
    Typed fns s (splat t x) :=
  .literal ⟨_, Literal.value_vectorText List.length_replicate, Value.shape_ofList _ _⟩

/-- A power with a number: the exponent is a literal of the shape of the base. -/
theorem Typed.powN {fns : List Function} {s : Scope} {x : Expr} (hx : Typed fns s x)
    (exponent : Binary32) : Typed fns s (x.powN exponent) := by
  have hsig : Operation.pow.signature? x.shape = some ⟨[x.shape], x.shape⟩ :=
    Operation.signature?_eq_some_iff.mpr ⟨Shape.mem_all _, rfl⟩
  refine @Typed.operation fns s .pow x [splat x.shape exponent] _ hx ?_ hsig rfl
  intro e he
  rw [List.mem_singleton.mp he]
  exact typed_splat fns s x.shape exponent

/-- **Everything that can be made is typed**, if names in scope stand for themselves and the typed
look-ups do not fail. Induction on how it was made; each constructor has checked what its rule asks
for. -/
theorem Built.typed {fns : List Function} {s : Scope} {ls : List Lookup}
    (hs : ∀ name e, s.get? name = some e → e = .var name e.shape)
    (hls : ∀ l ∈ ls, s.lookupError? l = none) {e : Expr} (h : Built fns s ls e) :
    Typed fns s e := by
  induction h with
  | literal h =>
      obtain ⟨t, hlength, rfl⟩ := literal_eq_ok h
      exact typed_literalOf fns s hlength
  | powN _ exponent ih => exact ih.powN exponent
  | name h =>
      rw [hs _ _ h]
      exact .var h
  | @lookup l h =>
      -- a look-up that does not fail found the name with the shape that it asks for
      have hnone := hls l h
      unfold Scope.lookupError? at hnone
      split at hnone
      · cases hnone
      · next e hget =>
          split at hnone
          · next hshape =>
              unfold Lookup.expr
              rw [← hshape]
              exact .var hget
          · cases hnone
  | apply _ _ h ihrecv ihargs =>
      obtain ⟨op, r, es, sig, _, rfl, rfl, hsig, hshapes, rfl⟩ := apply_eq_ok h
      exact .operation (ihrecv r rfl) (fun x hx => ihargs x (List.mem_map_of_mem hx)) hsig hshapes
  | combine _ hc h ihparts =>
      obtain ⟨t, es, rfl, harity, rfl⟩ := Combiner.toCode_eq_ok hc h
      exact .construct (fun x hx => ihparts x (List.mem_map_of_mem hx)) harity
  | call hfn _ h ihargs =>
      obtain ⟨t, es, rfl, hresult, htypes, rfl⟩ := call_eq_ok h
      exact .call hfn (fun x hx => ihargs x (List.mem_map_of_mem hx)) htypes hresult

end Expr

/-! ## Declarations

A declaration sees the inputs and the declarations before it, so a list of them is typed in scopes that
grow by one name at a time. -/

/-- The name and the shape of a declaration. -/
def Declaration.input (d : Declaration) : Input := ⟨d.name, d.shape⟩

namespace Scope

/-- Binds names in order. -/
def bindAll (s : Scope) (is : List Input) : Scope :=
  is.foldl (fun s i => s.bind i.name i.shape) s

theorem names_bindAll (s : Scope) (is : List Input) :
    (s.bindAll is).names = s.names ++ is.map Input.name := by
  induction is generalizing s with
  | nil => exact (List.append_nil _).symm
  | cons i is ih =>
      show ((s.bind i.name i.shape).bindAll is).names = _
      rw [ih, names_bind, List.map_cons]
      exact List.append_assoc _ _ _

/-- Distinct names go to the end of the table one after the other. Without this they would replace
entries in their places. -/
theorem entries_bindAll {s : Scope} {is : List Input} (h : (s.table.names ++ is.map Input.name).Nodup) :
    (s.bindAll is).table.entries = s.table.entries ++ is.map fun i => (i.name, .var i.name i.shape) := by
  induction is generalizing s with
  | nil => exact (List.append_nil _).symm
  | cons i is ih =>
      -- the first name is none of the table yet, and the others are none of the table with it
      have hfresh : s.table.get? i.name = none := by
        rw [← Option.not_isSome_iff_eq_none, Option.isSome_iff_exists, ← Table.mem_names_iff]
        exact fun hmem => (List.nodup_append.mp h).2.2 _ hmem _ List.mem_cons_self rfl
      have hentries := Table.entries_insert hfresh (Expr.var i.name i.shape)
      show ((s.bind i.name i.shape).bindAll is).table.entries = _
      rw [ih, table_bind, hentries, List.map_cons]
      · exact List.append_assoc _ _ _
      · rw [table_bind, Table.names, hentries, List.map_append, List.append_assoc]
        exact h

end Scope

/-- Each declaration is typed in the scope before it. -/
def Declared (fns : List Function) : Scope → List Declaration → Prop
  | _, [] => True
  | s, d :: ds => Expr.Typed fns s ⟨d.shape, d.value⟩ ∧ Declared fns (s.bind d.name d.shape) ds

/-- Declarations that are typed may be followed by one that is typed in the scope after them. -/
theorem Declared.concat {fns : List Function} {s : Scope} {ds : List Declaration} {d : Declaration}
    (h : Declared fns s ds)
    (htyped : Expr.Typed fns (s.bindAll (ds.map Declaration.input)) ⟨d.shape, d.value⟩) :
    Declared fns s (ds ++ [d]) := by
  induction ds generalizing s with
  | nil => exact ⟨htyped, trivial⟩
  | cons d' ds ih => exact ⟨h.1, ih h.2 htyped⟩

namespace Block

/-- The scope of a consistent block is what binding its inputs and declarations gives, but for the table that
the empty block lacks. -/
theorem Consistent.scope_eq {b : Block} (hb : b.Consistent) :
    b.scope.opened =
      ((Scope.empty.bindAll b.inputs).bindAll (b.declarations.map Declaration.input)).opened := by
  have hnames := hb.nodup
  rw [hb.names_eq] at hnames
  -- the table lists the inputs and then the declarations, since no name repeats
  have hfirst := @Scope.entries_bindAll .empty b.inputs (List.nodup_append.mp hnames).1
  have hsecond := @Scope.entries_bindAll (Scope.empty.bindAll b.inputs)
    (b.declarations.map Declaration.input) (by
      rw [Table.names, hfirst, List.map_append, List.map_map, List.map_map]
      exact hnames)
  rw [hfirst, List.map_map] at hsecond
  unfold Scope.opened
  congr 1
  · rw [hb.names_eq, Scope.names_bindAll, Scope.names_bindAll, List.map_map]
    rfl
  · exact congrArg (fun es => some (Table.mk es)) (hb.entries_eq.trans hsecond.symm)

/-- Look-ups do not see whether there is a table. -/
theorem Consistent.get?_bindAll {b : Block} (hb : b.Consistent) (name : String) :
    ((Scope.empty.bindAll b.inputs).bindAll (b.declarations.map Declaration.input)).get? name =
      b.scope.get? name := by
  rw [← Scope.get?_opened, ← hb.scope_eq, Scope.get?_opened]

/-- The blocks that define steps can make in which every bound expression is built from what its step
sees and from some functions. -/
inductive Built (fns : List Function) : Block → Prop where
  | ofRequests {rs : List InputRequest} {b : Block} (h : Block.ofRequests rs = .ok ⟨b, none⟩) : Built fns b
  | define {b b' : Block} {step : Scope → Draft} (hb : Built fns b)
      (h : b.define (some step) = ⟨b', none⟩)
      (hbuilt : ∀ bd ∈ (step b.scope).bindings, ∀ e, bd.value = some e →
        Expr.Built fns b.scope (step b.scope).lookups e) : Built fns b'

/-- A block that was built is consistent, since its inputs are and every step keeps it so. -/
theorem Built.consistent {fns : List Function} {b : Block} (hb : b.Built fns) : b.Consistent := by
  induction hb with
  | ofRequests h => exact (consistent_of_ofRequests h).1
  | define _ h _ ih => exact ih.define h

/-- Where a draft has no error, none of its look-ups has one. -/
theorem lookupError?_of_draftError? {b : Block} {d : Draft} (h : b.draftError? d = none)
    {l : Lookup} (hl : l ∈ d.lookups) : b.scope.lookupError? l = none := by
  unfold draftError? Error.join? at h
  split at h
  · next hempty =>
      have hnil := (List.append_eq_nil_iff.mp (List.isEmpty_iff.mp hempty)).2
      exact List.filterMap_eq_nil_iff.mp hnil l hl
  · cases h

/-- **The declarations of a block that was built are typed** one after the other. Induction on the
steps. The expressions of a step are typed in the scope before it, and stay so while its bindings
are added. -/
theorem Built.declared {fns : List Function} {b : Block} (hb : b.Built fns) :
    Declared fns (Scope.empty.bindAll b.inputs) b.declarations := by
  induction hb with
  | ofRequests h =>
      rw [(consistent_of_ofRequests h).2]
      trivial
  | @define b b' step hb h hbuilt ih =>
      obtain ⟨draft, hdraft, herror, hadd⟩ := define_eq_ok_iff.mp h
      cases hdraft
      have hself : ∀ name e, b.scope.get? name = some e → e = .var name e.shape := by
        intro name e hget
        obtain ⟨t, _, rfl⟩ := hb.consistent.get?_eq_some_iff.mp hget
        rfl
      have htyped : ∀ bd ∈ (step b.scope).bindings, ∀ e, bd.value = some e →
          Expr.Typed fns b.scope e := fun bd hbd e he =>
        (hbuilt bd hbd e he).typed hself fun l => lookupError?_of_draftError? herror
      -- while the bindings are added, the names that the step saw stay what they were
      refine (addBindings_induction (P := fun b₁ => b₁.Consistent ∧
        Declared fns (Scope.empty.bindAll b₁.inputs) b₁.declarations ∧
        ∀ name e, b.scope.get? name = some e → b₁.scope.get? name = some e) ?_
        ⟨hb.consistent.opened, ih, fun name _ hget => (b.scope.get?_opened name).trans hget⟩ hadd).2.1
      rintro b₁ bd e hbd he hname hfresh hcomplete ⟨hconsistent, hdeclared, hkept⟩
      refine ⟨hconsistent.withDeclaration hname hfresh hcomplete, hdeclared.concat ?_, ?_⟩
      · refine (htyped bd hbd e he).weaken fun name e' hget => ?_
        rw [hconsistent.get?_bindAll]
        exact hkept name e' hget
      · intro name e' hget
        have hbound := hkept name e' hget
        have hne : bd.name ≠ name := by
          rintro rfl
          rw [hfresh] at hbound
          cases hbound
        show (b₁.scope.bind bd.name e.shape).get? name = _
        rw [Scope.get?_bind, if_neg hne, hbound]

end Block

end ShaderExpr
