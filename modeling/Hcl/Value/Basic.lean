import Hcl.Binary64.Basic
import Hcl.Symbol

/-!
# Values

What a document says once it is reduced. An object keeps its keys in the order in which they first
came. Expressions and type keywords are values of their own, since they are not evaluated.
-/

namespace Hcl

inductive Value where
  | null
  | boolean (b : Bool)
  | number (x : Binary64)
  | string (s : String)
  | array (elements : List Value)
  | object (entries : List (String × Value))
  | eval (e : Eval)
  | keyword (k : TypeKeyword)
deriving Repr, BEq

instance : Inhabited Value := ⟨.null⟩

/-- Keys and their values in document order. No key is there twice. -/
abbrev Object := List (String × Value)

namespace Object

/-- Gives `key` the value `v`. A key that is there keeps its place, a new one comes last. -/
def put (key : String) (v : Value) : Object → Object
  | [] => [(key, v)]
  | (k, w) :: entries => if k = key then (k, v) :: entries else (k, w) :: put key v entries

def keys (o : Object) : List String := o.map Prod.fst

def ofList (entries : List (String × Value)) : Object :=
  entries.foldl (fun o (key, v) => put key v o) []

theorem lookup_put_self (key : String) (v : Value) (o : Object) :
    (put key v o).lookup key = some v := by
  induction o with
  | nil => simp [put]
  | cons entry entries ih =>
    obtain ⟨k, w⟩ := entry
    simp only [put]
    split
    · next h => simp [h]
    · next h => rw [List.lookup_cons, beq_false_of_ne (Ne.symm h)]; exact ih

theorem lookup_put_of_ne {key other : String} (h : other ≠ key) (v : Value) (o : Object) :
    (put key v o).lookup other = o.lookup other := by
  induction o with
  | nil => simp [put, List.lookup_cons, beq_false_of_ne h]
  | cons entry entries ih =>
    obtain ⟨k, w⟩ := entry
    simp only [put]
    split
    · next hk => simp [List.lookup_cons, hk, beq_false_of_ne h]
    · rw [List.lookup_cons, List.lookup_cons, ih]

end Object

namespace Value

/-! ## Views -/

def isNull : Value → Bool
  | null => true
  | _ => false

def string? : Value → Option String
  | string s => some s
  | _ => none

def number? : Value → Option Binary64
  | number x => some x
  | _ => none

def boolean? : Value → Option Bool
  | boolean b => some b
  | _ => none

def array? : Value → Option (List Value)
  | array elements => some elements
  | _ => none

def object? : Value → Option Object
  | object entries => some entries
  | _ => none

/-- The value at `key`, if `v` is an object that has it. -/
def get? (key : String) (v : Value) : Option Value := v.object?.bind (·.lookup key)

/-- Follows `path` through nested objects. -/
def pointer? (path : List String) (v : Value) : Option Value :=
  path.foldlM (fun v key => v.get? key) v

/-! ## Expressions -/

mutual
/-- The expressions in a value, in document order. -/
def evals : Value → List Eval
  | eval e => [e]
  | array elements => elementEvals elements
  | object entries => entryEvals entries
  | _ => []

def elementEvals : List Value → List Eval
  | [] => []
  | v :: vs => v.evals ++ elementEvals vs

def entryEvals : List (String × Value) → List Eval
  | [] => []
  | (_, v) :: entries => v.evals ++ entryEvals entries
end

end Value

end Hcl
