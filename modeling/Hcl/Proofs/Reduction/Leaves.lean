import Hcl.Proofs.Reduction.Pointer
import Mathlib.Algebra.Order.Group.Multiset
import Mathlib.Data.Multiset.Filter

/-!
# Leaves

The values of a document that hold no other values. Putting a value into an object replaces at most
the leaves of the one value that was there; storing the body of a block replaces nothing.
-/

namespace Hcl

namespace Value

mutual
/-- The values at any depth that are neither arrays nor objects. -/
def leaves : Value → Multiset Value
  | array elements => elementLeaves elements
  | object entries => entryLeaves entries
  | v => {v}

def elementLeaves : List Value → Multiset Value
  | [] => 0
  | v :: vs => v.leaves + elementLeaves vs

def entryLeaves : List (String × Value) → Multiset Value
  | [] => 0
  | (_, v) :: entries => v.leaves + entryLeaves entries
end

@[simp] theorem leaves_array (vs : List Value) : (array vs).leaves = elementLeaves vs := rfl
@[simp] theorem leaves_object (o : Object) : (object o).leaves = entryLeaves o := rfl
@[simp] theorem elementLeaves_nil : elementLeaves [] = 0 := rfl
@[simp] theorem elementLeaves_cons (v : Value) (vs : List Value) :
    elementLeaves (v :: vs) = v.leaves + elementLeaves vs := rfl
@[simp] theorem entryLeaves_nil : entryLeaves [] = 0 := rfl
@[simp] theorem entryLeaves_cons (key : String) (v : Value) (entries : List (String × Value)) :
    entryLeaves ((key, v) :: entries) = v.leaves + entryLeaves entries := rfl

@[simp] theorem elementLeaves_append (vs ws : List Value) :
    elementLeaves (vs ++ ws) = elementLeaves vs + elementLeaves ws := by
  induction vs with
  | nil => simp
  | cons v vs ih => rw [List.cons_append, elementLeaves_cons, ih, elementLeaves_cons, add_assoc]

/-- The expression that a leaf is. -/
def eval? : Value → Option Eval
  | eval e => some e
  | _ => none

mutual
/-- The expressions of a value are among its leaves. -/
theorem filterMap_eval?_leaves : (v : Value) →
    v.leaves.filterMap eval? = (v.evals : Multiset Eval)
  | array vs => by rw [leaves_array, filterMap_eval?_elementLeaves vs, evals]
  | object entries => by rw [leaves_object, filterMap_eval?_entryLeaves entries, evals]
  | eval e => rfl
  | null | boolean _ | number _ | string _ | keyword _ => rfl

theorem filterMap_eval?_elementLeaves : (vs : List Value) →
    (elementLeaves vs).filterMap eval? = (elementEvals vs : Multiset Eval)
  | [] => rfl
  | v :: vs => by
    rw [elementLeaves_cons, Multiset.filterMap_add, filterMap_eval?_leaves v,
      filterMap_eval?_elementLeaves vs, Multiset.coe_add, elementEvals]

theorem filterMap_eval?_entryLeaves : (entries : List (String × Value)) →
    (entryLeaves entries).filterMap eval? = (entryEvals entries : Multiset Eval)
  | [] => rfl
  | (_, v) :: entries => by
    rw [entryLeaves_cons, Multiset.filterMap_add, filterMap_eval?_leaves v,
      filterMap_eval?_entryLeaves entries, Multiset.coe_add, entryEvals]
end

end Value

open Value

namespace Object

variable {scope : Object} {name : String} {names : List String} {p : Position}

/-- A value at a new key adds its leaves. -/
theorem entryLeaves_put_new (h : scope.lookup name = none) (v : Value) :
    entryLeaves (put name v scope) = entryLeaves scope + v.leaves := by
  induction scope with
  | nil => simp [put]
  | cons entry entries ih =>
    obtain ⟨k, w⟩ := entry
    by_cases hk : name = k
    · rw [hk, List.lookup_cons_self] at h
      cases h
    · rw [List.lookup_cons, beq_false_of_ne hk] at h
      rw [put, if_neg (Ne.symm hk), entryLeaves_cons, ih h, entryLeaves_cons, add_assoc]

/-- A value at a key that is there takes the place of the leaves of the old value. -/
theorem entryLeaves_put_old {old : Value} (h : scope.lookup name = some old) (v : Value) :
    entryLeaves (put name v scope) + old.leaves = entryLeaves scope + v.leaves := by
  induction scope with
  | nil => cases h
  | cons entry entries ih =>
    obtain ⟨k, w⟩ := entry
    by_cases hk : name = k
    · rw [hk, List.lookup_cons_self, Option.some.injEq] at h
      rw [put, if_pos hk.symm, entryLeaves_cons, entryLeaves_cons, h, add_assoc, add_comm]
      congr 1
      exact add_comm _ _
    · rw [List.lookup_cons, beq_false_of_ne hk] at h
      rw [put, if_neg (Ne.symm hk), entryLeaves_cons, entryLeaves_cons, add_assoc, ih h, add_assoc]

/-- What replaces a value and has more leaves adds these. -/
theorem entryLeaves_put_add {old v : Value} {more : Multiset Value}
    (h : scope.lookup name = some old) (hv : v.leaves = old.leaves + more) :
    entryLeaves (put name v scope) = entryLeaves scope + more := by
  have hput := entryLeaves_put_old h v
  rw [hv, ← add_assoc, add_right_comm] at hput
  exact add_right_cancel hput

/-- A body that is stored leaves everything else as it is. -/
theorem entryLeaves_store (body : Object) (hnames : names ≠ [])
    (h : conflict? p names scope = none) :
    entryLeaves (store body names scope) = entryLeaves scope + entryLeaves body := by
  induction names generalizing scope with
  | nil => exact absurd rfl hnames
  | cons name names ih =>
    cases names with
    | nil =>
      rw [store]
      cases hlookup : scope.lookup name with
      | none => exact entryLeaves_put_new hlookup _
      | some old =>
        refine entryLeaves_put_add hlookup ?_
        cases old with
        | object o => simp [joined]
        | array elements => simp [joined]
        | _ => simp [conflict?, hlookup] at h
    | cons label names =>
      have hbelow := ih (List.cons_ne_nil label names) (conflict?_child h)
      rw [store_cons_cons]
      rcases lookup_of_conflict?_none h with hlookup | ⟨o, hlookup⟩
      · rw [child_of_lookup_none hlookup] at hbelow ⊢
        rw [entryLeaves_put_new hlookup, leaves_object, hbelow, entryLeaves_nil, zero_add]
      · rw [child_of_lookup hlookup] at hbelow ⊢
        exact entryLeaves_put_add hlookup hbelow

/-- The only new key on the first level is the first name. -/
theorem mem_keys_store {body : Object} {key : String} (h : key ∈ keys (store body names scope)) :
    names.head? = some key ∨ key ∈ keys scope := by
  cases names with
  | nil => exact .inr h
  | cons name names =>
    have hput : ∃ v, store body (name :: names) scope = put name v scope := by
      cases names with
      | nil => exact ⟨_, rfl⟩
      | cons label names => exact ⟨_, rfl⟩
    obtain ⟨v, hput⟩ := hput
    rw [hput] at h
    exact (mem_keys_put h).imp_left fun heq => congrArg some heq.symm

theorem lookup_eq_none (h : name ∉ keys scope) : scope.lookup name = none := by
  refine Option.eq_none_iff_forall_ne_some.mpr fun v hv => h (mem_keys_of_lookup hv)

end Object

end Hcl
