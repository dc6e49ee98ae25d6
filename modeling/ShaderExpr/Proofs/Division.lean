/-!
# Lists that marks divide

Some elements of a list are marks, and each of them starts a part that goes on to the next mark. Every list
is divided in this way, into what stands before the first mark and the parts.
-/

namespace ShaderExpr

variable {α β : Type}

/-- The list is what stands before the first mark and then parts, each of them a mark and what stands between
it and the next. -/
structure Divided (mark : β → α) (l before : List α) (parts : List (β × List α)) : Prop where
  eq_append : l = before ++ parts.flatMap fun p => mark p.1 :: p.2
  before_plain : ∀ x ∈ before, ∀ b, x ≠ mark b
  parts_plain : ∀ p ∈ parts, ∀ x ∈ p.2, ∀ b, x ≠ mark b

namespace Divided

variable {mark : β → α} {l before : List α} {parts : List (β × List α)}

theorem nil : Divided mark [] [] [] :=
  ⟨rfl, List.forall_mem_nil _, List.forall_mem_nil _⟩

/-- A mark starts a part, and takes what stood before the first mark. -/
theorem cons_mark (h : Divided mark l before parts) (b : β) :
    Divided mark (mark b :: l) [] ((b, before) :: parts) where
  eq_append := congrArg (mark b :: ·) h.eq_append
  before_plain := List.forall_mem_nil _
  parts_plain := List.forall_mem_cons.mpr ⟨h.before_plain, h.parts_plain⟩

/-- Anything else goes before the first mark. -/
theorem cons_plain (h : Divided mark l before parts) {x : α} (hx : ∀ b, x ≠ mark b) :
    Divided mark (x :: l) (x :: before) parts where
  eq_append := congrArg (x :: ·) h.eq_append
  before_plain := List.forall_mem_cons.mpr ⟨hx, h.before_plain⟩
  parts_plain := h.parts_plain

end Divided

/-- **Marks divide every list.** Induction on the list from its end, so that a mark finds its part
complete. -/
theorem exists_divided (mark : β → α) (l : List α) : ∃ before parts, Divided mark l before parts := by
  induction l with
  | nil => exact ⟨[], [], .nil⟩
  | cons x l ih =>
      obtain ⟨before, parts, h⟩ := ih
      by_cases hx : ∃ b, x = mark b
      · -- the part of a mark is what stood before the first mark of the rest
        obtain ⟨b, rfl⟩ := hx
        exact ⟨[], (b, before) :: parts, h.cons_mark b⟩
      · exact ⟨x :: before, parts, h.cons_plain fun b hb => hx ⟨b, hb⟩⟩

end ShaderExpr
