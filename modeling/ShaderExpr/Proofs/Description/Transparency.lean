import ShaderExpr.Proofs.Description.Shaping
import ShaderExpr.Proofs.Description.Termination

/-!
# When an alias may stand for a copy

An alias denotes what the node that it refers to denotes, so one would expect that a node denotes the same
with every alias replaced by a copy. It does, but for two places that look at the form of a node instead
of what it denotes. The node after a key is taken for a list of operands only if it is itself a sequence.
And the operands of a shape make a literal, matrices row by row, only if they are themselves numbers; else
they are combined, matrices column by column. So an alias to a list of operands is refused, and one alias
among the numbers of a matrix transposes it.

* **`Transparent`** — no alias that reading a node may come to stands in such a place.
* **`readAt_graft`** — such a node is read the same with its aliases replaced, errors included.
* **`transparent_of_readAt`** — a node that is not transparent denotes a different tree with its aliases
  replaced, if both trees exist.
* **`read_expand_iff`** — the two together.
-/

namespace ShaderExpr

/-! ## Trees give back their operands -/

/-- The tree of an operation has all its operands in it, in an order that depends only on the form
of the operation. -/
theorem Operation.build_injective {op : Operation} {x y : Node} {xs ys : List Node}
    (hxs : xs.length = op.entry.args.length) (hys : ys.length = op.entry.args.length)
    (h : op.build x xs = op.build y ys) : x :: xs = y :: ys := by
  unfold build at h
  split at h
  · exact (Node.call.inj h).2
  · -- the receiver is written last, and both lists have the length that the entry gives
    have hlists : xs ++ [x] = ys ++ [y] := (Node.call.inj h).2
    have hparts := List.append_inj hlists (by omega)
    simp_all
  · next hform =>
      -- an operator has one operand besides the receiver
      have hlength := length_args_of_between hform
      obtain ⟨a, rfl⟩ := List.length_eq_one_iff.mp (hxs.trans hlength)
      obtain ⟨b, rfl⟩ := List.length_eq_one_iff.mp (hys.trans hlength)
      have hparts := Node.binary.inj h
      simp_all
  · next hform =>
      -- negation is the only operator that stands before, and it has none
      obtain rfl := eq_neg_of_before hform
      obtain rfl := List.length_eq_zero_iff.mp hxs
      obtain rfl := List.length_eq_zero_iff.mp hys
      have hparts := Node.unary.inj h
      simp_all

namespace Vocabulary

variable {v : Vocabulary}

/-- What a head makes of operands of the same shapes has the same shape, and the same tree only if
the operands have. The shape of the result depends on those of the operands alone. -/
theorem applyHead_injective {head : Head} {es es' : List Expr} {e e' : Expr}
    (hshapes : es.map Expr.shape = es'.map Expr.shape) (h : applyHead head es = .ok e)
    (h' : applyHead head es' = .ok e') :
    e.shape = e'.shape ∧ (e.node = e'.node → es.map Expr.node = es'.map Expr.node) := by
  cases head with
  | operation op =>
      obtain ⟨recv, args, sig, rfl, hsig, hargs, rfl⟩ := applyHead_operation_eq_ok h
      obtain ⟨recv', args', sig', rfl, hsig', hargs', rfl⟩ := applyHead_operation_eq_ok h'
      have hrecv : recv.shape = recv'.shape := (List.cons.inj hshapes).1
      -- receivers of one shape have one signature, and so as many operands on both sides
      have hsame : sig = sig' := by simpa [hrecv, hsig'] using hsig.symm
      subst hsame
      have hcount : sig.args.length = op.entry.args.length := by
        simp [(Operation.signature?_eq_some_iff.mp hsig).2]
      refine ⟨rfl, fun hnode => Operation.build_injective ?_ ?_ hnode⟩
      · rw [List.length_map, ← hcount, ← hargs, List.length_map]
      · rw [List.length_map, ← hcount, ← hargs', List.length_map]
  | shape s =>
      cases (applyHead_shape_eq_ok h).2
      cases (applyHead_shape_eq_ok h').2
      exact ⟨rfl, fun hnode => (Node.call.inj hnode).2⟩
  | function fn =>
      obtain ⟨t, ht, _, rfl⟩ := applyHead_function_eq_ok h
      obtain ⟨t', ht', _, rfl⟩ := applyHead_function_eq_ok h'
      have hsame : t = t' := by simpa [ht'] using ht.symm
      exact ⟨hsame, fun hnode => (Node.call.inj hnode).2⟩

/-! ## Places where an alias is not what it denotes -/

/-- Nothing that reading a node may come to looks different with its aliases replaced: no alias to a
sequence stands after a key, and no operands of a shape make a literal of it only after their aliases are
replaced. -/
inductive Transparent (v : Vocabulary) : Yaml.Node → Prop where
  | leaf {n : Yaml.Node} (hreference : ∀ line name target, n ≠ .alias line name target)
      (hpair : ∀ line key value, n ≠ .mapping line [key, value]) : Transparent v n
  | reference {line : Nat} {name : String} {i : Nat} {n : Yaml.Node} (hn : v.anchors[i]? = some n)
      (h : Transparent v n) : Transparent v (.alias line name (some i))
  | pair {line : Nat} {key value : Yaml.Node}
      (hlist : ∀ line nodes, v.anchors.expand? value = some (.sequence line nodes) →
        ∃ line' nodes', value = .sequence line' nodes')
      (hcomps : ∀ s nodes, v.head? key.text = some (.shape s) →
        v.anchors.expandAll? (operandNodes value) = some nodes →
          components? s nodes = components? s (operandNodes value))
      (hoperands : ∀ n ∈ operandNodes value, Transparent v n) :
      Transparent v (.mapping line [key, value])

theorem transparent_scalar {line : Nat} {tag : Yaml.Tag} {text : String} :
    v.Transparent (.scalar line tag text) :=
  .leaf nofun nofun

/-- A mapping looks at its operand nodes only for their number and for the components of a
literal. -/
theorem mapping_congr {key : Yaml.Node} {nodes nodes' : List Yaml.Node}
    (hlength : nodes'.length = nodes.length)
    (hcomps : ∀ s, v.head? key.text = some (.shape s) → components? s nodes' = components? s nodes)
    (operands : Outcome (List Expr)) :
    v.mapping key nodes' operands = v.mapping key nodes operands := by
  have hempty : nodes'.isEmpty = nodes.isEmpty := by
    rw [Bool.eq_iff_iff, List.isEmpty_iff_length_eq_zero, List.isEmpty_iff_length_eq_zero, hlength]
  unfold mapping
  rw [hempty]
  cases hhead : v.head? key.text with
  | none => rfl
  | some head =>
      cases head with
      | operation op => rfl
      | function fn => rfl
      -- only a constructor looks at the nodes themselves, to see whether they are components
      | shape s => simp only [hcomps s hhead]

section Grafting

variable {copy : Option Nat → Option Yaml.Node} {follow : Option Nat → Outcome Expr}

/-- The operands of the copy are the copies of the operands, unless the copy of the value is a
sequence and the value was not. -/
theorem graftAll_operandNodes {value value' : Yaml.Node}
    (hlist : ∀ line nodes, value' = .sequence line nodes → ∃ line' nodes', value = .sequence line' nodes')
    (h : value.graft copy = some value') :
    Yaml.Node.graftAll copy (operandNodes value) = some (operandNodes value') := by
  by_cases hvalue : ∃ line nodes, value = .sequence line nodes
  · obtain ⟨line, nodes, rfl⟩ := hvalue
    obtain ⟨nodes', hnodes, rfl⟩ := Option.map_eq_some_iff.mp h
    exact hnodes
  · have hvalue' : ∀ line nodes, value' = .sequence line nodes → False :=
      fun line nodes heq => hvalue (hlist line nodes heq)
    rw [operandNodes_of_ne_sequence fun line nodes heq => hvalue ⟨line, nodes, heq⟩,
      operandNodes_of_ne_sequence hvalue']
    simp [Yaml.Node.graftAll, h]

theorem exists_scalar_of_mapM_number? {nodes : List Yaml.Node} {comps : List Binary32}
    (h : nodes.mapM number? = some comps) : ∀ n ∈ nodes, ∃ line tag text, n = .scalar line tag text := by
  induction nodes generalizing comps with
  | nil => exact nofun
  | cons n nodes ih =>
      rw [List.mapM_cons] at h
      obtain ⟨x, hx, h⟩ := Option.bind_eq_some_iff.mp h
      obtain ⟨rest, hrest, _⟩ := Option.bind_eq_some_iff.mp h
      refine List.forall_mem_cons.mpr ⟨?_, ih hrest⟩
      unfold number? at hx
      split at hx
      · exact ⟨_, _, _, rfl⟩
      · cases hx

/-- Components of a literal are scalars: there is nothing to replace in them. -/
theorem exists_scalar_of_components? {s : Shape} {nodes : List Yaml.Node} {comps : List Binary32}
    (h : components? s nodes = some comps) :
    ∀ n ∈ nodes, ∃ line tag text, n = .scalar line tag text := by
  unfold components? at h
  split at h
  · next hnumbers => exact exists_scalar_of_mapM_number? hnumbers
  · cases h

/-- Components are scalars, so their copies are the same. -/
theorem graftAll_of_components? {s : Shape} {nodes : List Yaml.Node} {comps : List Binary32}
    (h : components? s nodes = some comps) : Yaml.Node.graftAll copy nodes = some nodes := by
  rw [Yaml.Node.graftAll_eq_some_iff, List.forall₂_same]
  intro n hn
  obtain ⟨line, tag, text, rfl⟩ := exists_scalar_of_components? h n hn
  rfl

/-- Operands that are read like their copies one by one are so together. -/
theorem readAllAt_graftAll {f : Option Nat → Outcome Expr} {ns ns' : List Yaml.Node}
    (ih : ∀ n ∈ ns, ∀ n', n.graft copy = some n' → v.readAt f n' = v.readAt follow n)
    (h : Yaml.Node.graftAll copy ns = some ns') : v.readAllAt f ns' = v.readAllAt follow ns := by
  induction ns generalizing ns' with
  | nil =>
      cases h
      rfl
  | cons n ns ihns =>
      cases Yaml.Node.graftAll_eq_some_iff.mp h with
      | cons hn hns =>
          have hrest := ihns (fun m hm => ih m (List.mem_cons_of_mem _ hm))
            (Yaml.Node.graftAll_eq_some_iff.mpr hns)
          rw [readAllAt, readAllAt, ih n List.mem_cons_self _ hn, hrest]

/-- **A transparent node is read the same with its aliases replaced**, if so are the aliases
themselves. Induction on the node. A copy has no aliases, so it does not matter how aliases in it
are followed. -/
theorem readAt_graft
    (hcopy : ∀ t n, copy t = some n → v.anchors.copy v.anchors.size t = some n)
    (hfollow : ∀ line name t n, copy t = some n → v.Transparent (.alias line name t) →
      ∀ f, v.readAt f n = follow t)
    {n n' : Yaml.Node} (h : n.graft copy = some n') (ht : v.Transparent n)
    (f : Option Nat → Outcome Expr) : v.readAt f n' = v.readAt follow n := by
  induction n using node_induction generalizing n' with
  | scalar line tag text =>
      cases h
      rw [readAt, readAt]
  | reference line name target =>
      rw [hfollow line name target n' h ht f, readAt]
  | pair line key value ih =>
      obtain ⟨value', hvalue, rfl⟩ := Yaml.Node.graft_pair_eq_some h
      cases ht with
      | leaf _ hpair => exact absurd rfl (hpair line key value)
      | pair hlist hcomps hoperands =>
          have hexpand : v.anchors.expand? value = some value' := Yaml.Node.graft_mono hcopy hvalue
          have hnodes : Yaml.Node.graftAll copy (operandNodes value) = some (operandNodes value') :=
            graftAll_operandNodes (fun line nodes heq => hlist line nodes (heq ▸ hexpand)) hvalue
          have hread := readAllAt_graftAll (fun n hn n' hg => ih n hn hg (hoperands n hn)) hnodes
          have hlength := (Yaml.Node.graftAll_eq_some_iff.mp hnodes).length_eq
          have hexpandAll : v.anchors.expandAll? (operandNodes value) = some (operandNodes value') :=
            Yaml.Node.graftAll_mono (fun _ _ _ => Yaml.Node.graft_mono hcopy) hnodes
          -- same operands, and the two places that look at nodes see the same
          rw [readAt_mapping, readAt_mapping, hread]
          exact mapping_congr hlength.symm (fun s hs => hcomps s _ hs hexpandAll) _
  | manyKeys line content hlength =>
      obtain ⟨content', hcontent, rfl⟩ := Option.map_eq_some_iff.mp h
      have hlength' : content'.length ≠ 2 := by
        rwa [Yaml.Node.length_graftValues hcontent]
      rw [readAt_manyKeys _ _ hlength, readAt_manyKeys _ _ hlength']
  | sequence line content | document line content =>
      obtain ⟨content', _, rfl⟩ := Option.map_eq_some_iff.mp h
      rw [readAt, readAt]
  | absent line =>
      cases h
      rw [readAt, readAt]

/-! ## Replaced aliases that are not transparent -/

/-- What operands denote has the same shapes with their aliases replaced, and the same trees only if
they are transparent. Induction on the operands and their copies side by side. -/
theorem transparent_of_readAllAt {f : Option Nat → Outcome Expr} {ns ns' : List Yaml.Node}
    {es es' : List Expr}
    (ih : ∀ n ∈ ns, ∀ n' e e', n.graft copy = some n' → v.readAt follow n = .ok e →
      v.readAt f n' = .ok e' → e.shape = e'.shape ∧ (e.node = e'.node → v.Transparent n))
    (hg : Yaml.Node.graftAll copy ns = some ns') (h : v.readAllAt follow ns = .ok es)
    (h' : v.readAllAt f ns' = .ok es') :
    es.map Expr.shape = es'.map Expr.shape ∧
      (es.map Expr.node = es'.map Expr.node → ∀ n ∈ ns, v.Transparent n) := by
  rw [Yaml.Node.graftAll_eq_some_iff] at hg
  rw [readAllAt_eq_ok_iff] at h h'
  induction hg generalizing es es' with
  | nil =>
      cases h
      cases h'
      exact ⟨rfl, fun _ => nofun⟩
  | cons hn _ ihns =>
      cases h with
      | cons he hes =>
          cases h' with
          | cons he' hes' =>
              obtain ⟨hshape, hnode⟩ := ih _ List.mem_cons_self _ _ _ hn he he'
              obtain ⟨hshapes, hnodes⟩ :=
                ihns (fun n hn => ih n (List.mem_cons_of_mem _ hn)) hes hes'
              refine ⟨by simp [hshape, hshapes], fun hall => ?_⟩
              -- equal lists of trees are equal part by part
              have hparts := List.cons.inj hall
              exact List.forall_mem_cons.mpr ⟨hnode hparts.1, hnodes hparts.2⟩

/-- A sequence denotes nothing, and neither does an alias that leads to one. -/
theorem readAt_ne_ok_of_graft_eq_sequence
    (hsequence : ∀ t line nodes e, copy t = some (.sequence line nodes) → follow t ≠ .ok e)
    {n : Yaml.Node} {line : Nat} {nodes : List Yaml.Node}
    (hg : n.graft copy = some (.sequence line nodes)) (e : Expr) : v.readAt follow n ≠ .ok e := by
  induction n using Yaml.Node.induction with
  | reference line' name target =>
      rw [readAt]
      exact hsequence target line nodes e hg
  | sequence line' content =>
      -- a sequence is never read as an expression
      rw [readAt]
      intro h
      cases h
  | scalar => cases hg
  | absent => cases hg
  | mapping | document =>
      obtain ⟨_, _, heq⟩ := Option.map_eq_some_iff.mp hg
      cases heq

theorem exists_of_readAllAt_eq_ok {ns : List Yaml.Node} {es : List Expr}
    (h : v.readAllAt follow ns = .ok es) : ∀ n ∈ ns, ∃ e, v.readAt follow n = .ok e := by
  rw [readAllAt_eq_ok_iff] at h
  induction h with
  | nil => exact nofun
  | cons he _ ih => exact List.forall_mem_cons.mpr ⟨⟨_, he⟩, ih⟩

/-- The operands of a mapping that denotes something denote something, unless they are numbers of a
literal. -/
theorem scalar_or_ok_of_mapping_eq_ok {key : Yaml.Node} {nodes : List Yaml.Node} {e : Expr}
    (h : v.mapping key nodes (v.readAllAt follow nodes) = .ok e) {n : Yaml.Node} (hn : n ∈ nodes) :
    (∃ line tag text, n = .scalar line tag text) ∨ ∃ e, v.readAt follow n = .ok e := by
  obtain ⟨_, head, _, hliteral | ⟨_, es, hes, _⟩⟩ := mapping_eq_ok_iff.mp h
  · cases head with
    | operation op => cases hliteral
    | function fn => cases hliteral
    | shape s =>
        obtain ⟨comps, hcomps, _⟩ := Option.map_eq_some_iff.mp hliteral
        exact .inl (exists_scalar_of_components? hcomps n hn)
  · exact .inr (exists_of_readAllAt_eq_ok hes n hn)

/-- A mapping with an alias to a sequence after its key denotes nothing: the alias is the only
operand, and a sequence is no operand. -/
theorem exists_sequence_of_mapping_eq_ok
    (hsequence : ∀ t line nodes e, copy t = some (.sequence line nodes) → follow t ≠ .ok e)
    {key value value' : Yaml.Node} {e : Expr} (hvalue : value.graft copy = some value')
    (h : v.mapping key (operandNodes value) (v.readAllAt follow (operandNodes value)) = .ok e) :
    ∀ line nodes, value' = .sequence line nodes → ∃ line' nodes', value = .sequence line' nodes' := by
  rintro line nodes rfl
  by_contra hnot
  have hone : operandNodes value = [value] :=
    operandNodes_of_ne_sequence fun line nodes heq => hnot ⟨line, nodes, heq⟩
  have hmem : value ∈ operandNodes value := by simp [hone]
  rcases scalar_or_ok_of_mapping_eq_ok h hmem with ⟨_, _, _, rfl⟩ | ⟨e, he⟩
  · cases hvalue
  · exact readAt_ne_ok_of_graft_eq_sequence hsequence hvalue e he

/-- What makes a mapping transparent, said of its copy instead of all copies: there is only one. -/
theorem transparent_pair {line : Nat} {key value value' : Yaml.Node}
    (hexpand : v.anchors.expand? value = some value')
    (hlist : ∀ line nodes, value' = .sequence line nodes → ∃ line' nodes', value = .sequence line' nodes')
    (hcomps : ∀ s, v.head? key.text = some (.shape s) →
      components? s (operandNodes value') = components? s (operandNodes value))
    (hoperands : ∀ n ∈ operandNodes value, v.Transparent n) :
    v.Transparent (.mapping line [key, value]) := by
  refine .pair (fun line nodes hsequence => hlist line nodes ?_) (fun s nodes hs hnodes => ?_) hoperands
  · exact Option.some.inj (hexpand.symm.trans hsequence)
  · have hall := graftAll_operandNodes hlist hexpand
    rw [← hcomps s hs, ← Option.some.inj (hall.symm.trans hnodes)]

/-- **A node that is not transparent denotes another tree with its aliases replaced**, if both
denote something. The shapes are the same in any case, which the induction needs: a head that is
applied to operands of the same shapes makes the same of them. -/
theorem transparent_of_readAt
    (hcopy : ∀ t n, copy t = some n → v.anchors.copy v.anchors.size t = some n)
    (hsequence : ∀ t line nodes e, copy t = some (.sequence line nodes) → follow t ≠ .ok e)
    {f : Option Nat → Outcome Expr}
    (hfollow : ∀ line name t n e e', copy t = some n → follow t = .ok e → v.readAt f n = .ok e' →
      e.shape = e'.shape ∧ (e.node = e'.node → v.Transparent (.alias line name t)))
    {n n' : Yaml.Node} {e e' : Expr} (hg : n.graft copy = some n') (h : v.readAt follow n = .ok e)
    (h' : v.readAt f n' = .ok e') : e.shape = e'.shape ∧ (e.node = e'.node → v.Transparent n) := by
  induction n using node_induction generalizing n' e e' with
  | scalar line tag text =>
      cases hg
      rw [readAt] at h h'
      rw [h] at h'
      cases h'
      exact ⟨rfl, fun _ => transparent_scalar⟩
  | reference line name target =>
      rw [readAt] at h
      exact hfollow line name target n' e e' hg h h'
  | pair line key value ih =>
      obtain ⟨value', hvalue, rfl⟩ := Yaml.Node.graft_pair_eq_some hg
      rw [readAt_mapping] at h h'
      have hexpand : v.anchors.expand? value = some value' := Yaml.Node.graft_mono hcopy hvalue
      -- the mapping denotes something, so its list of operands is no alias
      have hlist := exists_sequence_of_mapping_eq_ok hsequence hvalue h
      have hnodes := graftAll_operandNodes hlist hvalue
      obtain ⟨_, head, hhead, hmade⟩ := mapping_eq_ok_iff.mp h
      obtain ⟨_, head', hhead', hmade'⟩ := mapping_eq_ok_iff.mp h'
      have hsame : head' = head := by simpa [hhead] using hhead'.symm
      subst hsame
      rcases hmade with hliteral | ⟨hnone, es, hes, happly⟩
      · -- a literal, which has no aliases among its numbers
        cases head' with
        | operation op => cases hliteral
        | function fn => cases hliteral
        | shape s =>
            obtain ⟨comps, hcomps, rfl⟩ := Option.map_eq_some_iff.mp hliteral
            have hsame : operandNodes value' = operandNodes value := by
              rw [graftAll_of_components? hcomps] at hnodes
              exact (Option.some.inj hnodes).symm
            have he : e' = .literalOf s comps := by
              simpa [literal?, hsame, hcomps, eq_comm] using hmade'
            subst he
            refine ⟨rfl, fun _ => transparent_pair hexpand hlist (fun _ _ => by rw [hsame]) ?_⟩
            intro n hn
            obtain ⟨_, _, _, rfl⟩ := exists_scalar_of_components? hcomps n hn
            exact transparent_scalar
      · rcases hmade' with hliteral' | ⟨hnone', es', hes', happly'⟩
        · -- a literal only with the aliases replaced: a call is no literal
          cases head' with
          | operation op => cases hliteral'
          | function fn => cases hliteral'
          | shape s =>
              obtain ⟨comps, _, rfl⟩ := Option.map_eq_some_iff.mp hliteral'
              cases (applyHead_shape_eq_ok happly).2
              refine ⟨rfl, fun hnode => ?_⟩
              cases hnode
        · -- both apply the head, to operands of the same shapes
          obtain ⟨hshapes, hoperands⟩ := transparent_of_readAllAt
            (fun n hn n' e e' hg h h' => ih n hn hg h h') hnodes hes hes'
          obtain ⟨hshape, hnode⟩ := applyHead_injective hshapes happly happly'
          refine ⟨hshape, fun heq => transparent_pair hexpand hlist (fun s hs => ?_)
            (hoperands (hnode heq))⟩
          obtain rfl : head' = .shape s := by simpa [hhead] using hs
          simp_all [literal?]
  | manyKeys line content hlength =>
      rw [readAt_manyKeys _ _ hlength] at h
      cases h
  | sequence => cases h
  | document => cases h
  | absent => cases h

end Grafting

/-! ## Copies of anchored nodes

Copying and following go through the same aliases, each one step less deep. -/

/-- A copy of an anchored node at some depth, and what an alias to it denotes at that depth. -/
theorem copy_succ_eq_some {depth : Nat} {t : Option Nat} {n : Yaml.Node}
    (h : v.anchors.copy (depth + 1) t = some n) :
    ∃ i m, t = some i ∧ v.anchors[i]? = some m ∧ m.graft (v.anchors.copy depth) = some n ∧
      v.follow (depth + 1) t = v.readAt (v.follow depth) m := by
  obtain ⟨m, hm, hgraft⟩ := Option.bind_eq_some_iff.mp h
  obtain ⟨i, rfl, hi⟩ := Option.bind_eq_some_iff.mp hm
  exact ⟨i, m, rfl, hi, hgraft, by simp [follow, hi]⟩

/-- An alias that is transparent denotes what the copy of its node denotes. Induction on the depth
to which both are followed. -/
theorem readAt_copy {depth : Nat} (hle : depth ≤ v.anchors.size) {line : Nat} {name : String}
    {t : Option Nat} {n : Yaml.Node} (h : v.anchors.copy depth t = some n)
    (ht : v.Transparent (.alias line name t)) (f : Option Nat → Outcome Expr) :
    v.readAt f n = v.follow depth t := by
  induction depth generalizing line name t n f with
  | zero => cases h
  | succ depth ih =>
      obtain ⟨i, m, rfl, hm, hgraft, hfollow⟩ := copy_succ_eq_some h
      have hle' : depth ≤ v.anchors.size := by omega
      cases ht with
      -- an alias is not a leaf
      | leaf hreference _ => exact absurd rfl (hreference line name (some i))
      | reference hn ht =>
          rw [hm] at hn
          cases hn
          rw [hfollow]
          -- the node behind the alias is read with one level less, on both sides
          exact readAt_graft (fun _ _ => Yaml.Anchors.copy_mono hle')
            (fun _ _ _ _ hcopy ht f => ih hle' hcopy ht f) hgraft ht f

/-- An alias to a sequence denotes nothing, also through other aliases. -/
theorem follow_ne_ok_of_copy_eq_sequence {depth : Nat} {t : Option Nat} {line : Nat}
    {nodes : List Yaml.Node} {e : Expr} (h : v.anchors.copy depth t = some (.sequence line nodes)) :
    v.follow depth t ≠ .ok e := by
  induction depth generalizing t line nodes e with
  | zero => cases h
  | succ depth ih =>
      obtain ⟨i, m, rfl, _, hgraft, hfollow⟩ := copy_succ_eq_some h
      rw [hfollow]
      exact readAt_ne_ok_of_graft_eq_sequence (fun _ _ _ _ => ih) hgraft e

/-- An alias that denotes what the copy of its node denotes is transparent. Induction on the
depth. -/
theorem transparent_of_follow {depth : Nat} (hle : depth ≤ v.anchors.size) {line : Nat}
    {name : String} {t : Option Nat} {n : Yaml.Node} {f : Option Nat → Outcome Expr} {e e' : Expr}
    (hcopy : v.anchors.copy depth t = some n) (h : v.follow depth t = .ok e)
    (h' : v.readAt f n = .ok e') :
    e.shape = e'.shape ∧ (e.node = e'.node → v.Transparent (.alias line name t)) := by
  induction depth generalizing line name t n e e' with
  | zero => cases hcopy
  | succ depth ih =>
      obtain ⟨i, m, rfl, hm, hgraft, hfollow⟩ := copy_succ_eq_some hcopy
      have hle' : depth ≤ v.anchors.size := by omega
      rw [hfollow] at h
      obtain ⟨hshape, htransparent⟩ :=
        transparent_of_readAt (fun _ _ => Yaml.Anchors.copy_mono hle')
          (fun _ _ _ _ => follow_ne_ok_of_copy_eq_sequence)
          (fun _ _ _ _ _ _ hcopy h h' => ih hle' hcopy h h') hgraft h h'
      exact ⟨hshape, fun hnode => .reference hm (htransparent hnode)⟩

/-- **When a node denotes the same with its aliases replaced.** A node whose aliases lead to no cycle has a
copy without aliases. A transparent node is read like its copy, errors included; and the node denotes what
its copy denotes exactly if it is transparent or neither of them denotes anything. -/
theorem read_expand_iff {n : Yaml.Node} (hr : v.anchors.Resolved n) (hc : v.anchors.Acyclic n) :
    ∃ n', v.anchors.expand? n = some n' ∧ n'.aliases = [] ∧
      (v.Transparent n → v.read n' = v.read n) ∧
      ((∀ e, v.read n = .ok e ↔ v.read n' = .ok e) ↔
        v.Transparent n ∨ ∀ e, v.read n ≠ .ok e ∧ v.read n' ≠ .ok e) := by
  obtain ⟨n', hn'⟩ := hc.expand?_eq_some hr
  have hsame : v.Transparent n → v.read n' = v.read n := fun ht =>
    readAt_graft (fun _ _ h => h) (fun _ _ _ _ hcopy ht f => readAt_copy le_rfl hcopy ht f) hn' ht _
  refine ⟨n', hn', Yaml.Node.aliases_graft (fun _ _ => Yaml.Anchors.aliases_copy) hn', hsame, ?_⟩
  constructor
  · intro hagree
    by_cases hnone : ∀ e, v.read n ≠ .ok e
    · exact .inr fun e => ⟨hnone e, fun h' => hnone e ((hagree e).mpr h')⟩
    · push Not at hnone
      -- both denote the same expression, hence the same tree
      obtain ⟨e, he⟩ := hnone
      have hread := transparent_of_readAt (fun _ _ h => h)
        (fun _ _ _ _ => follow_ne_ok_of_copy_eq_sequence)
        (fun _ _ _ _ _ _ hcopy h h' => transparent_of_follow le_rfl hcopy h h') hn' he
        ((hagree e).mp he)
      exact .inl (hread.2 rfl)
  · rintro (ht | hnone) e
    · rw [hsame ht]
    · exact ⟨fun h => absurd h (hnone e).1, fun h => absurd h (hnone e).2⟩

/-- The node of `{mult: [*s, *s]}` beside `&s {sin: 1}`. -/
def squaredSine : Yaml.Node :=
  .mapping 2 [.scalar 2 .str "mult", .sequence 2 [.alias 2 "s" (some 0), .alias 2 "s" (some 0)]]

def sharedSine : Vocabulary := ⟨#[.mapping 1 [.scalar 1 .str "sin", .scalar 1 .int "1"]], .empty, .empty⟩

/-- Both aliases are operands in a list, and lead to no number of a shape. -/
theorem transparent_squaredSine : sharedSine.Transparent squaredSine := by
  have hsine : sharedSine.Transparent (.mapping 1 [.scalar 1 .str "sin", .scalar 1 .int "1"]) := by
    refine .pair nofun (fun s nodes hs _ => nomatch hs) fun n hn => ?_
    rw [List.mem_singleton.mp hn]
    exact transparent_scalar
  refine .pair (fun line nodes _ => ⟨2, _, rfl⟩) (fun s nodes hs _ => nomatch hs) fun n hn => ?_
  have hn : n = .alias 2 "s" (some 0) := by simpa [operandNodes] using hn
  rw [hn]
  exact .reference rfl hsine

/-- Two aliases of one node may be replaced by two copies of it. -/
theorem read_expand_iff_squaredSine :
    sharedSine.anchors.Resolved squaredSine ∧ sharedSine.anchors.Acyclic squaredSine ∧
      ∃ n', sharedSine.anchors.expand? squaredSine = some n' ∧
        sharedSine.read n' = sharedSine.read squaredSine := by
  have hr : sharedSine.anchors.Resolved squaredSine := .singleton rfl (by decide)
  have hc : sharedSine.anchors.Acyclic squaredSine := .singleton rfl
  obtain ⟨n', hexpand, _, hsame, _⟩ := read_expand_iff hr hc
  exact ⟨hr, hc, n', hexpand, hsame transparent_squaredSine⟩

/-- The node of `{mat2: [1, *k, 3, 4]}` beside `&k 2`. -/
def aliasedMatrix : Yaml.Node :=
  .mapping 2 [.scalar 2 .str "mat2", .sequence 2 [.scalar 2 .int "1", .alias 2 "k" (some 0),
    .scalar 2 .int "3", .scalar 2 .int "4"]]

def sharedTwo : Vocabulary := ⟨#[.scalar 1 .int "2"], .empty, .empty⟩

/-- One alias among the numbers of a matrix transposes it. -/
theorem read_aliasedMatrix_transposed :
    sharedTwo.anchors.Resolved aliasedMatrix ∧ sharedTwo.anchors.Acyclic aliasedMatrix ∧
      (sharedTwo.read aliasedMatrix).toOption.map (·.text.toOption) =
        some (some "mat2(1.0, 2.0, 3.0, 4.0)") ∧
      (sharedTwo.anchors.expand? aliasedMatrix).map
          (fun n' => (sharedTwo.read n').toOption.map (·.text.toOption)) =
        some (some (some "mat2(1.0, 3.0, 2.0, 4.0)")) := by
  have hr : sharedTwo.anchors.Resolved aliasedMatrix := .singleton rfl (by decide)
  exact ⟨hr, .singleton rfl, by decide +kernel, by decide +kernel⟩

end Vocabulary

end ShaderExpr
