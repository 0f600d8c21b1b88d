import Hcl.Reduction

/-!
# Storing a finished object

A block could be reduced in two strokes: its body first, into an object of its own, and then this
object is stored in the scope around the block, at the end of the path of labels. What is on the way
to there decides alone whether the path is in conflict with the scope.
-/

namespace Hcl.Object

/-- The conflict that the path `names` runs into. -/
def conflict? (p : Position) : (names : List String) → (scope : Object) → Option Error
  | [], _ => none
  | name :: names, scope =>
    match scope.lookup name with
    | none => none
    | some (.object o) => conflict? p names o
    | some (.array _) => if names = [] then none else some (.scopeConflict .array name p)
    | some _ => some (.scopeConflict .value name p)

/-- What is at the end of a path once `body` has joined what was there. -/
def joined (body : Object) : Option Value → Value
  | none => .object body
  | some (.array elements) => .array (elements ++ [.object body])
  | some first => .array [first, .object body]

/-- The object at `name`, an empty one if there is none. -/
def child (name : String) (scope : Object) : Object :=
  ((scope.lookup name).bind Value.object?).getD []

/-- Stores `body` at the end of the path `names`. Objects that are missing on the way are made. -/
def store (body : Object) : (names : List String) → (scope : Object) → Object
  | [], scope => scope
  | [name], scope => put name (joined body (scope.lookup name)) scope
  | name :: names, scope => put name (.object (store body names (scope.child name))) scope

/-! ## Putting -/

theorem put_lookup {name : String} {v : Value} {o : Object} (h : o.lookup name = some v) :
    put name v o = o := by
  induction o with
  | nil => cases h
  | cons entry entries ih =>
    obtain ⟨k, w⟩ := entry
    rw [put]
    by_cases hk : k = name
    · subst hk
      have hw : w = v := by simpa using h
      rw [if_pos rfl, hw]
    · rw [List.lookup_cons, beq_false_of_ne (Ne.symm hk)] at h
      rw [if_neg hk, ih h]

theorem mem_put {key : String} {v : Value} {o : Object} {e : String × Value}
    (h : e ∈ put key v o) : e = (key, v) ∨ e ∈ o := by
  induction o with
  | nil => exact .inl (List.mem_singleton.mp h)
  | cons entry entries ih =>
    rw [put] at h
    split at h
    · rename_i hk
      rcases List.mem_cons.mp h with rfl | hmem
      · exact .inl (by rw [hk])
      · exact .inr (List.mem_cons_of_mem _ hmem)
    · rcases List.mem_cons.mp h with rfl | hmem
      · exact .inr List.mem_cons_self
      · exact (ih hmem).imp_right (List.mem_cons_of_mem _)

theorem mem_of_lookup {key : String} {v : Value} {o : Object} (h : o.lookup key = some v) : (key, v) ∈ o := by
  obtain ⟨before, behind, rfl, -⟩ := List.lookup_eq_some_iff.mp h
  simp

theorem child_of_lookup_none {name : String} {scope : Object} (h : scope.lookup name = none) :
    scope.child name = [] := by
  rw [child, h]
  rfl

theorem child_of_lookup {name : String} {scope o : Object}
    (h : scope.lookup name = some (.object o)) : scope.child name = o := by
  rw [child, h]
  rfl

@[simp] theorem conflict?_empty (p : Position) (names : List String) :
    conflict? p names [] = none := by
  cases names <;> rfl

theorem conflict?_of_lookup_none {name : String} {scope : Object} (p : Position)
    (names : List String) (h : scope.lookup name = none) :
    conflict? p (name :: names) scope = none := by
  rw [conflict?, h]

theorem conflict?_of_lookup {name : String} {scope o : Object} (p : Position)
    (names : List String) (h : scope.lookup name = some (.object o)) :
    conflict? p (name :: names) scope = conflict? p names o := by
  rw [conflict?, h]

theorem store_cons_cons (body : Object) (name label : String) (names : List String)
    (scope : Object) :
    store body (name :: label :: names) scope =
      put name (.object (store body (label :: names) (scope.child name))) scope := rfl

/-! ## Writing in place -/

/-- What is written at the end of a path is written into a new object; a conflict on the way leaves
the scope alone and nothing is written. -/
theorem within_eq (p : Position) (write : Object → Reduced) {names : List String}
    (hnames : names ≠ []) (scope : Object) :
    within p write names scope =
      match conflict? p names scope with
      | some e => ⟨scope, .error e⟩
      | none => ⟨store (write []).scope names scope, (write []).result⟩ := by
  induction names generalizing scope with
  | nil => exact absurd rfl hnames
  | cons name names ih =>
    cases names with
    | nil =>
      cases hlookup : scope.lookup name with
      | none => simp [within, conflict?, hlookup, store, joined]
      | some v => cases v <;> simp [within, conflict?, hlookup, store, joined]
    | cons label names =>
      have ih := ih (List.cons_ne_nil label names)
      rw [within.eq_def, store_cons_cons]
      cases hlookup : scope.lookup name with
      | none =>
        rw [conflict?_of_lookup_none p _ hlookup, child_of_lookup_none hlookup]
        simp only [hlookup, ih [], conflict?_empty]
      | some v =>
        cases v with
        | object o =>
          rw [conflict?_of_lookup p _ hlookup, child_of_lookup hlookup]
          simp only [hlookup, ih o]
          cases conflict? p (label :: names) o with
          | none => rfl
          | some e => simp only [put_lookup hlookup]
        | _ => simp [conflict?, hlookup]

end Hcl.Object
