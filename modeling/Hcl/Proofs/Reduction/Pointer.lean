import Hcl.Proofs.Reduction.Store

/-!
# Pointers into a scope

What a pointer finds in a scope once an object is stored there: at the path of the object, on the way
to it, and elsewhere.
-/

namespace Hcl

namespace Value

@[simp] theorem pointer?_nil (v : Value) : v.pointer? [] = some v := rfl

theorem pointer?_cons (key : String) (path : List String) (v : Value) :
    v.pointer? (key :: path) = (v.get? key).bind (·.pointer? path) := rfl

@[simp] theorem get?_object (key : String) (o : Object) : (object o).get? key = o.lookup key := rfl

theorem pointer?_append (path rest : List String) (v : Value) :
    v.pointer? (path ++ rest) = (v.pointer? path).bind (·.pointer? rest) := by
  rw [pointer?, List.foldlM_append]
  rfl

end Value

open Value

namespace Object

variable {scope o : Object} {name : String} {names path : List String} {p : Position}

/-! ## Keys -/

theorem mem_keys_put {key : String} {v : Value} (h : key ∈ keys (put name v o)) :
    key = name ∨ key ∈ keys o := by
  obtain ⟨e, he, rfl⟩ := List.mem_map.mp h
  exact (mem_put he).imp (congrArg Prod.fst) List.mem_map_of_mem

theorem mem_keys_of_lookup {v : Value} (h : o.lookup name = some v) : name ∈ keys o :=
  List.mem_map.mpr ⟨(name, v), mem_of_lookup h, rfl⟩

/-! ## Steps of a pointer -/

theorem pointer?_of_lookup {v : Value} (h : scope.lookup name = some v) (path : List String) :
    (object scope).pointer? (name :: path) = v.pointer? path := by
  rw [pointer?_cons, get?_object, h, Option.bind_some]

theorem pointer?_of_lookup_none (h : scope.lookup name = none) (path : List String) :
    (object scope).pointer? (name :: path) = none := by
  rw [pointer?_cons, get?_object, h, Option.bind_none]

theorem pointer?_put_self (v : Value) (path : List String) :
    (object (put name v scope)).pointer? (name :: path) = v.pointer? path :=
  pointer?_of_lookup (lookup_put_self name v scope) path

theorem pointer?_put_of_ne {key : String} (h : key ≠ name) (v : Value) (path : List String) :
    (object (put name v scope)).pointer? (key :: path) =
      (object scope).pointer? (key :: path) := by
  rw [pointer?_cons, pointer?_cons, get?_object, get?_object, lookup_put_of_ne h]

/-- A path without a conflict that goes on behind a label finds an object there or nothing. -/
theorem lookup_of_conflict?_none {label : String}
    (h : conflict? p (name :: label :: names) scope = none) :
    (scope.lookup name = none ∨ ∃ o, scope.lookup name = some (.object o)) := by
  rw [conflict?] at h
  split at h
  · next hlookup => exact .inl hlookup
  · next o hlookup => exact .inr ⟨o, hlookup⟩
  · simp at h
  · cases h

theorem conflict?_child {label : String}
    (h : conflict? p (name :: label :: names) scope = none) :
    conflict? p (label :: names) (scope.child name) = none := by
  rcases lookup_of_conflict?_none h with hlookup | ⟨o, hlookup⟩
  · rw [child_of_lookup_none hlookup, conflict?_empty]
  · rw [child_of_lookup hlookup, ← conflict?_of_lookup p _ hlookup]
    exact h

theorem pointer?_child {label key : String}
    (h : conflict? p (name :: label :: names) scope = none) (path : List String) :
    (object (scope.child name)).pointer? (key :: path) =
      (object scope).pointer? (name :: key :: path) := by
  rcases lookup_of_conflict?_none h with hlookup | ⟨o, hlookup⟩
  · rw [child_of_lookup_none hlookup, pointer?_of_lookup_none hlookup]
    exact pointer?_of_lookup_none rfl path
  · rw [child_of_lookup hlookup, pointer?_of_lookup hlookup]

/-! ## Pointers after storing -/

/-- At the end of its path the body has joined what was there. -/
theorem pointer?_store (body : Object) (hnames : names ≠ [])
    (h : conflict? p names scope = none) :
    (object (store body names scope)).pointer? names =
      some (joined body ((object scope).pointer? names)) := by
  induction names generalizing scope with
  | nil => exact absurd rfl hnames
  | cons name names ih =>
    cases names with
    | nil =>
      rw [store, pointer?_put_self, pointer?_nil, pointer?_cons, get?_object]
      cases scope.lookup name <;> rfl
    | cons label names =>
      rw [store_cons_cons, pointer?_put_self,
        ih (List.cons_ne_nil label names) (conflict?_child h), pointer?_child h]

/-- Where neither path leads through the end of the other nothing changes. -/
theorem pointer?_store_of_not_prefix (body : Object) (h : conflict? p names scope = none)
    (hpath : ¬names <+: path) (hnames : ¬path <+: names) :
    (object (store body names scope)).pointer? path = (object scope).pointer? path := by
  induction names generalizing scope path with
  | nil => exact absurd List.nil_prefix hpath
  | cons name names ih =>
    cases path with
    | nil => exact absurd List.nil_prefix hnames
    | cons key path =>
      by_cases hkey : key = name
      · subst hkey
        rw [List.cons_prefix_cons] at hpath hnames
        cases names with
        | nil => exact absurd ⟨rfl, List.nil_prefix⟩ hpath
        | cons label names =>
          cases path with
          | nil => exact absurd ⟨rfl, List.nil_prefix⟩ hnames
          | cons other path =>
            rw [store_cons_cons, pointer?_put_self, ← pointer?_child h]
            exact ih (conflict?_child h) (fun hp => hpath ⟨rfl, hp⟩) fun hp => hnames ⟨rfl, hp⟩
      · cases names with
        | nil => rw [store, pointer?_put_of_ne hkey]
        | cons label names => rw [store_cons_cons, pointer?_put_of_ne hkey]

/-- On the way to the body stands an object, with no new key but the next label. -/
theorem pointer?_store_prefix (body : Object) (key : String) (rest : List String)
    (h : conflict? p (path ++ key :: rest) scope = none) :
    ∃ o, (object (store body (path ++ key :: rest) scope)).pointer? path = some (.object o) ∧
      ∀ k ∈ keys o, k = key ∨
        ∃ before, (object scope).pointer? path = some (.object before) ∧ k ∈ keys before := by
  induction path generalizing scope with
  | nil =>
    refine ⟨_, rfl, fun k hk => ?_⟩
    have hk' : k = key ∨ k ∈ keys scope := by
      cases rest with
      | nil => exact mem_keys_put hk
      | cons label rest => exact mem_keys_put hk
    exact hk'.imp_right fun hk => ⟨scope, rfl, hk⟩
  | cons name path ih =>
    obtain ⟨label, names, hcons⟩ : ∃ label names, path ++ key :: rest = label :: names :=
      List.exists_cons_of_ne_nil (by simp)
    rw [List.cons_append, hcons] at h
    obtain ⟨o, ho, hkeys⟩ := ih (by rw [hcons]; exact conflict?_child h)
    rw [List.cons_append, hcons, store_cons_cons, pointer?_put_self, ← hcons]
    refine ⟨o, ho, fun k hk => (hkeys k hk).imp_right ?_⟩
    rintro ⟨before, hbefore, hmem⟩
    refine ⟨before, ?_, hmem⟩
    cases path with
    | nil =>
      rcases lookup_of_conflict?_none h with hlookup | ⟨b, hlookup⟩
      · rw [child_of_lookup_none hlookup, pointer?_nil] at hbefore
        cases hbefore
        cases hmem
      · rw [child_of_lookup hlookup] at hbefore
        rw [pointer?_of_lookup hlookup, hbefore]
    | cons other path => rw [← hbefore, pointer?_child h]

/-- A path is free of conflicts if it leads through objects as far as it leads at all. -/
theorem conflict?_eq_none
    (h : ∀ q v, q ≠ [] → q <+: names → (object scope).pointer? q = some v →
      (∃ o, v = .object o) ∨ (q = names ∧ ∃ elements, v = .array elements)) :
    conflict? p names scope = none := by
  induction names generalizing scope with
  | nil => rfl
  | cons name names ih =>
    cases hlookup : scope.lookup name with
    | none => exact conflict?_of_lookup_none p names hlookup
    | some v =>
      have hv := h [name] v (List.cons_ne_nil name [])
        (List.cons_prefix_cons.mpr ⟨rfl, List.nil_prefix⟩) (pointer?_of_lookup hlookup [])
      rcases hv with ⟨o, rfl⟩ | ⟨hend, elements, rfl⟩
      · rw [conflict?_of_lookup p names hlookup]
        refine ih fun q v _ hq hpointer => ?_
        have hstep := h (name :: q) v (List.cons_ne_nil name q)
          (List.cons_prefix_cons.mpr ⟨rfl, hq⟩) ((pointer?_of_lookup hlookup q).trans hpointer)
        refine hstep.imp_right fun ⟨hend, harray⟩ => ⟨?_, harray⟩
        injection hend
      · have hnames : names = [] := by
          injection hend with _ hnames
          exact hnames.symm
        rw [conflict?, hlookup]
        exact if_pos hnames

end Object

end Hcl
