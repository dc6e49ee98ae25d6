import ShaderExpr.Error

/-!
# Outcomes that are results

A computation that may fail is a chain of binds, and a proof about its result starts from "the whole
chain gave a result". The lemmas here take such a chain apart: a bind gave a result iff its first part
did and the second part did on it, and putting errors into a context changes no result. Faults pass
through a chain in the same way, and putting errors into a context changes no fault. A computation that
changes a state besides comes apart in the same way, with the state between its parts.
-/

namespace ShaderExpr

variable {ε ε' α β : Type}

theorem bind_eq_ok_iff {x : Except ε α} {f : α → Except ε β} {b : β} :
    (x >>= f) = .ok b ↔ ∃ a, x = .ok a ∧ f a = .ok b := by
  cases x with
  | error e =>
      constructor
      · intro h
        cases h
      · rintro ⟨a, ha, _⟩
        cases ha
  | ok a =>
      constructor
      · intro h
        exact ⟨a, rfl, h⟩
      · rintro ⟨a', ha, hb⟩
        cases ha
        exact hb

/-- A bind has a result iff its first part has one on which the second has one. This is for
questions about whether there is a result, where its value need not be named. -/
theorem exists_bind_eq_ok_iff {x : Except ε α} {f : α → Except ε β} :
    (∃ b, (x >>= f) = .ok b) ↔ ∃ a, x = .ok a ∧ ∃ b, f a = .ok b := by
  simp only [bind_eq_ok_iff, exists_and_left.symm]
  exact exists_comm

/-- A second part that always has a result does not matter to whether there is one. -/
theorem exists_bind_pure_eq_ok_iff {x : Except ε α} {g : α → β} :
    (∃ b, (x >>= fun a => pure (g a)) = .ok b) ↔ ∃ a, x = .ok a := by
  rw [exists_bind_eq_ok_iff]
  exact exists_congr fun a => and_iff_left ⟨g a, rfl⟩

/-- A bind fails iff its first part does, or the second does on the result of the first. -/
theorem bind_eq_error_iff {x : Except ε α} {f : α → Except ε β} {e : ε} :
    (x >>= f) = .error e ↔ x = .error e ∨ ∃ a, x = .ok a ∧ f a = .error e := by
  cases x with
  | error e' => simp [bind, Except.bind]
  | ok a => simp [bind, Except.bind]

/-- Changing the errors of a computation changes none of its results. -/
theorem mapError_eq_ok_iff {x : Except ε α} {f : ε → ε'} {a : α} :
    x.mapError f = .ok a ↔ x = .ok a := by
  cases x with
  | error e => exact ⟨nofun, nofun⟩
  | ok a' =>
      rw [show Except.mapError f (.ok a' : Except ε α) = .ok a' from rfl, Except.ok.injEq,
        Except.ok.injEq]

/-- A function that gives a result on every element gives all of them, in order. -/
theorem mapM_eq_ok {f : α → Except ε β} {g : α → β} {l : List α} (h : ∀ x ∈ l, f x = .ok (g x)) :
    l.mapM f = .ok (l.map g) := by
  induction l with
  | nil => rfl
  | cons x l ih =>
      rw [List.mapM_cons, h x List.mem_cons_self, ih fun y hy => h y (List.mem_cons_of_mem _ hy)]
      rfl

/-- A function that gives some result on every element gives a list of results. -/
theorem exists_mapM_eq_ok {f : α → Except ε β} {l : List α} (h : ∀ x ∈ l, ∃ y, f x = .ok y) :
    ∃ ys, l.mapM f = .ok ys := by
  induction l with
  | nil => exact ⟨[], rfl⟩
  | cons x l ih =>
      obtain ⟨y, hy⟩ := h x List.mem_cons_self
      obtain ⟨ys, hys⟩ := ih fun z hz => h z (List.mem_cons_of_mem _ hz)
      refine ⟨y :: ys, ?_⟩
      rw [List.mapM_cons, hy, hys]
      rfl

/-- A list of results is there iff there is a result on every element. -/
theorem exists_mapM_eq_ok_iff {f : α → Except ε β} {l : List α} :
    (∃ ys, l.mapM f = .ok ys) ↔ ∀ x ∈ l, ∃ y, f x = .ok y := by
  refine ⟨?_, exists_mapM_eq_ok⟩
  induction l with
  | nil => exact fun _ => List.forall_mem_nil _
  | cons x l ih =>
      rw [List.mapM_cons, exists_bind_eq_ok_iff]
      rintro ⟨y, hy, hrest⟩
      obtain ⟨ys, hys, _⟩ := exists_bind_eq_ok_iff.mp hrest
      exact List.forall_mem_cons.mpr ⟨⟨y, hy⟩, ih ⟨ys, hys⟩⟩

/-- A list of results has the result on every element in its place. Both sides say this with lists,
which carries over length and order without indices. -/
theorem mapM_eq_ok_iff {f : α → Except ε β} {l : List α} {ys : List β} :
    l.mapM f = .ok ys ↔ l.map f = ys.map .ok := by
  induction l generalizing ys with
  | nil =>
      rw [List.mapM_nil, List.map_nil, List.nil_eq, List.map_eq_nil_iff]
      exact ⟨fun h => (Except.ok.inj h).symm, fun h => congrArg _ h.symm⟩
  | cons x l ih =>
      rw [List.mapM_cons, bind_eq_ok_iff, List.map_cons]
      simp only [bind_eq_ok_iff, ih]
      constructor
      · rintro ⟨y, hy, ys, hys, h⟩
        cases h
        rw [hy, hys, List.map_cons]
      · intro h
        -- the results begin with that of the first element
        obtain ⟨y, ys, rfl, hy, hys⟩ := List.map_eq_cons_iff.mp h.symm
        exact ⟨y, hy.symm, ys, hys.symm, rfl⟩

theorem exists_of_mapM_eq_ok {f : α → Except ε β} {l : List α} {ys : List β}
    (h : l.mapM f = .ok ys) {y : β} (hy : y ∈ ys) : ∃ x ∈ l, f x = .ok y := by
  induction l generalizing ys with
  | nil =>
      rw [List.mapM_nil] at h
      cases h
      exact absurd hy List.not_mem_nil
  | cons x l ih =>
      rw [List.mapM_cons] at h
      obtain ⟨z, hz, h⟩ := bind_eq_ok_iff.mp h
      obtain ⟨zs, hzs, h⟩ := bind_eq_ok_iff.mp h
      cases h
      rcases List.mem_cons.mp hy with rfl | hy
      · exact ⟨x, List.mem_cons_self, hz⟩
      · obtain ⟨x', hx', hy⟩ := ih hzs hy
        exact ⟨x', List.mem_cons_of_mem _ hx', hy⟩

/-- A property that every step of a fold keeps is kept by the whole fold. The steps may use which element
it is. -/
theorem foldlM_induction {P : β → Prop} {f : β → α → Except ε β} {l : List α}
    (hstep : ∀ b a b', a ∈ l → P b → f b a = .ok b' → P b') {b b' : β} (hb : P b)
    (h : l.foldlM f b = .ok b') : P b' := by
  induction l generalizing b with
  | nil =>
      rw [List.foldlM_nil] at h
      cases h
      exact hb
  | cons a l ih =>
      rw [List.foldlM_cons] at h
      obtain ⟨b₁, h₁, h₂⟩ := bind_eq_ok_iff.mp h
      exact ih (fun b a b' ha => hstep b a b' (List.mem_cons_of_mem _ ha))
        (hstep b a b₁ List.mem_cons_self hb h₁) h₂

@[simp] theorem Outcome.inside_eq_ok_iff {context : Context} {x : Outcome α} {a : α} :
    inside context x = .ok a ↔ x = .ok a :=
  mapError_eq_ok_iff

/-! ## Faults -/

theorem bind_eq_fault_iff {x : Outcome α} {g : α → Outcome β} {f : Fault} :
    (x >>= g) = .error (.fault f) ↔
      x = .error (.fault f) ∨ ∃ a, x = .ok a ∧ g a = .error (.fault f) :=
  bind_eq_error_iff

@[simp] theorem Outcome.ofError_ne_fault {x : Except Error α} {f : Fault} :
    ofError x ≠ .error (.fault f) := by
  intro h
  cases x with
  | error e => cases h
  | ok a => cases h

/-- Putting errors into a context leaves faults alone, since a fault is no error and has no
context. -/
@[simp] theorem Outcome.inside_eq_fault_iff {context : Context} {x : Outcome α} {f : Fault} :
    inside context x = .error (.fault f) ↔ x = .error (.fault f) := by
  cases x with
  | ok a => exact ⟨nofun, nofun⟩
  | error failure =>
      cases failure with
      | error e => exact ⟨nofun, nofun⟩
      | fault g => exact Iff.rfl

namespace Outcome

/-- The computation gives a result or fails with an error. -/
def Faultless (x : Outcome α) : Prop := ∀ f, x ≠ .error (.fault f)

theorem faultless_ok (a : α) : Faultless (.ok a : Outcome α) := fun _ => nofun

theorem faultless_error (e : Error) : Faultless (.error (.error e) : Outcome α) := fun _ => nofun

theorem faultless_ofError (x : Except Error α) : Faultless (ofError x) := fun _ => ofError_ne_fault

namespace Faultless

theorem inside {x : Outcome α} (h : Faultless x) (context : Context) :
    Faultless (Outcome.inside context x) := fun f hf =>
  h f (inside_eq_fault_iff.mp hf)

/-- A bind is not at fault if its parts are not, the second on any result of the first. -/
theorem bind {x : Outcome α} {g : α → Outcome β} (hx : Faultless x) (hg : ∀ a, Faultless (g a)) :
    Faultless (x >>= g) := by
  intro f hf
  rcases bind_eq_fault_iff.mp hf with hf | ⟨a, _, hf⟩
  · exact hx f hf
  · exact hg a f hf

/-- A fold is not at fault if no step is, whatever it has gathered by then. -/
theorem foldlM {g : β → α → Outcome β} {l : List α} (h : ∀ a ∈ l, ∀ b, Faultless (g b a)) (b : β) :
    Faultless (l.foldlM g b) := by
  induction l generalizing b with
  | nil => exact faultless_ok b
  | cons a l ih =>
      rw [List.foldlM_cons]
      exact (h a List.mem_cons_self b).bind (ih fun x hx => h x (List.mem_cons_of_mem _ hx))

/-- A computation that is not at fault and gives no result fails with an error: there is no third
way to end. -/
theorem exists_error {x : Outcome α} (h : Faultless x) (hx : ∀ a, x ≠ .ok a) :
    ∃ e, x = .error (.error e) := by
  cases x with
  | ok a => exact absurd rfl (hx a)
  | error failure =>
      cases failure with
      | error e => exact ⟨e, rfl⟩
      | fault f => exact absurd rfl (h f)

end Faultless

end Outcome

/-! ## Actions

An action that fails leaves a state too, the one that it has made by then. -/

/-- A bind of actions gives a result iff both of its parts do, the second from the state that the first
leaves. -/
theorem run_bind_eq_ok_iff {σ : Type} {x : EStateM ε σ α} {g : α → EStateM ε σ β} {s s' : σ} {b : β} :
    (x >>= g).run s = .ok b s' ↔ ∃ a s₁, x.run s = .ok a s₁ ∧ (g a).run s₁ = .ok b s' := by
  unfold EStateM.run
  cases h : x s with
  | ok a s₁ => simp [bind, EStateM.bind, h, and_assoc]
  | error e s₁ => simp [bind, EStateM.bind, h]

/-- A bind of actions fails iff one of its parts does, and leaves the state that this part leaves. -/
theorem run_bind_eq_error_iff {σ : Type} {x : EStateM ε σ α} {g : α → EStateM ε σ β} {s s' : σ} {e : ε} :
    (x >>= g).run s = .error e s' ↔
      x.run s = .error e s' ∨ ∃ a s₁, x.run s = .ok a s₁ ∧ (g a).run s₁ = .error e s' := by
  unfold EStateM.run
  cases h : x s with
  | ok a s₁ => simp [bind, EStateM.bind, h, and_assoc]
  | error e s₁ => simp [bind, EStateM.bind, h]

end ShaderExpr
