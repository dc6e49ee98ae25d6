/-!
# Tables

A table holds values under names, each name once, in the order in which the names came first.
-/

namespace ShaderExpr

/-- Values under names. -/
structure Table (α : Type) where
  entries : List (String × α)
deriving Repr

namespace Table

variable {α : Type}

/-- The table without names. -/
def empty : Table α := ⟨[]⟩

instance : Inhabited (Table α) := ⟨empty⟩

/-- The value under a name in a list of entries. -/
def find? (name : String) : List (String × α) → Option α
  | [] => none
  | (key, v) :: rest => if key = name then some v else find? name rest

/-- Replaces the value under a name, or adds the name at the end. -/
def put (name : String) (v : α) : List (String × α) → List (String × α)
  | [] => [(name, v)]
  | (key, w) :: rest => if key = name then (key, v) :: rest else (key, w) :: put name v rest

/-- The value under a name. -/
def get? (t : Table α) (name : String) : Option α := find? name t.entries

/-- The table with a value under a name. -/
def insert (t : Table α) (name : String) (v : α) : Table α := ⟨put name v t.entries⟩

def contains (t : Table α) (name : String) : Bool := (t.get? name).isSome

/-- The names of the table in order. -/
def names (t : Table α) : List String := t.entries.map Prod.fst

/-- The table of a list of entries; of two values under one name the later stays. -/
def ofList (entries : List (String × α)) : Table α :=
  entries.foldl (fun t (name, v) => t.insert name v) empty

@[simp] theorem get?_empty (name : String) : (empty : Table α).get? name = none := rfl

theorem find?_put (name key : String) (v : α) (es : List (String × α)) :
    find? name (put key v es) = if key = name then some v else find? name es := by
  induction es with
  | nil => rfl
  | cons e es ih =>
    obtain ⟨k, w⟩ := e
    by_cases hk : k = key
    · subst hk
      by_cases hn : k = name <;> simp [put, find?, hn]
    · by_cases hn : k = name
      · subst hn
        simp [put, find?, hk, Ne.symm hk]
      · simp [put, find?, hk, hn, ih]

/-- A name that is not there yet comes last. -/
theorem put_of_find?_eq_none {name : String} {es : List (String × α)}
    (h : find? name es = none) (v : α) : put name v es = es ++ [(name, v)] := by
  induction es with
  | nil => rfl
  | cons e es ih =>
      obtain ⟨key, w⟩ := e
      by_cases hkey : key = name
      · rw [find?, if_pos hkey] at h
        cases h
      · rw [find?, if_neg hkey] at h
        rw [put, if_neg hkey, ih h]
        rfl

/-- Looking up a name after an insertion. -/
theorem get?_insert (t : Table α) (name key : String) (v : α) :
    (t.insert key v).get? name = if key = name then some v else t.get? name :=
  find?_put name key v t.entries

theorem put_put (name : String) (v w : α) (es : List (String × α)) :
    put name w (put name v es) = put name w es := by
  induction es with
  | nil => simp [put]
  | cons e es ih =>
      obtain ⟨key, u⟩ := e
      by_cases hkey : key = name <;> simp [put, hkey, ih]

/-- Of two values that are put under one name the later stays. -/
theorem insert_insert (t : Table α) (name : String) (v w : α) :
    (t.insert name v).insert name w = t.insert name w :=
  congrArg Table.mk (put_put name v w t.entries)

theorem mem_of_find?_eq_some {name : String} {v : α} {es : List (String × α)}
    (h : find? name es = some v) : (name, v) ∈ es := by
  induction es with
  | nil => cases h
  | cons e es ih =>
      unfold find? at h
      split at h
      · next hname =>
          cases h
          rw [← hname]
          exact List.mem_cons_self
      · exact List.mem_cons_of_mem _ (ih h)

/-- A name that some entry has is found, there or before. -/
theorem exists_find?_of_mem {name : String} {v : α} {es : List (String × α)}
    (h : (name, v) ∈ es) : ∃ w, find? name es = some w := by
  induction es with
  | nil => cases h
  | cons e es ih =>
      obtain ⟨key, w⟩ := e
      by_cases hkey : key = name
      · exact ⟨w, if_pos hkey⟩
      · rw [find?, if_neg hkey]
        rcases List.mem_cons.mp h with heq | hmem
        · exact absurd (congrArg Prod.fst heq).symm hkey
        · exact ih hmem

theorem mem_names_of_get? {t : Table α} {name : String} {v : α} (h : t.get? name = some v) :
    name ∈ t.names :=
  List.mem_map.mpr ⟨_, mem_of_find?_eq_some h, rfl⟩

end Table

end ShaderExpr
