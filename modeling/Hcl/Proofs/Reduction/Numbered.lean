import Hcl.Proofs.Forest.Closed
import Hcl.Proofs.Forest.Nodes
import Hcl.Reduction

/-!
# Reduction by numbers

The reduction written out over the numbers of a symbol tree. Every number is looked up, and there is
no result if it has no symbol. There is none either if the object that was just added to a list is not
found in it. In the tree of a forest neither happens, and the result is that of the nodes.
-/

namespace Hcl

open Hcl.Tree

/-! ## Blocks -/

namespace Object

/-- Adds an object to a list and writes into the last element, which has to be an object. -/
def pushObject? (write : Object → Option Reduced) (elements : List Value) :
    Option (List Value × Except Error (Option Value)) :=
  let pushed := elements ++ [.object []]
  match pushed.getLast? with
  | some (.object last) =>
    (write last).map fun inner => (pushed.dropLast ++ [.object inner.scope], inner.result)
  | _ => none

/-- Runs `write` on the object at the end of a path. What is found or made for a name is looked at
again after a repeated object has become a list. -/
def within? (p : Position) (write : Object → Option Reduced) :
    (names : List String) → (scope : Object) → Option Reduced
  | [], scope => write scope
  | name :: names, scope =>
    let slot : Value :=
      match scope.lookup name with
      | none => .object []
      | some (.object first) => if names = [] then .array [.object first] else .object first
      | some v => v
    match slot with
    | .object o =>
      (within? p write names o).map fun inner =>
        ⟨put name (.object inner.scope) scope, inner.result⟩
    | .array elements =>
      if names = [] then
        (pushObject? write elements).map fun pushed =>
          ⟨put name (.array pushed.1) scope, pushed.2⟩
      else some ⟨scope, .error (.scopeConflict .array name p)⟩
    | _ => some ⟨scope, .error (.scopeConflict .value name p)⟩

variable {write? : Object → Option Reduced} {write : Object → Reduced}

theorem pushObject?_eq (h : ∀ o, write? o = some (write o)) (elements : List Value) :
    pushObject? write? elements =
      some (elements ++ [.object (write []).scope], (write []).result) := by
  simp [pushObject?, h]

theorem within?_eq (h : ∀ o, write? o = some (write o)) (p : Position) (names : List String)
    (scope : Object) : within? p write? names scope = some (within p write names scope) := by
  induction names generalizing scope with
  | nil => exact h scope
  | cons name names ih =>
    rw [within?, within.eq_def]
    cases hlookup : scope.lookup name with
    | none => simp only [hlookup, ih, Option.map_some]
    | some v => cases v <;> cases names <;> simp [hlookup, ih, pushObject?_eq h]

end Object

/-! ## Symbols -/

namespace SymbolTree

/-- The name of the closest attribute above `id`, at most `fuel` symbols up. -/
def attributeAbove? (t : SymbolTree) : (fuel : Nat) → (id : Nat) → Option String
  | 0, _ => none
  | fuel + 1, id =>
    (t.get? id).bind fun e =>
      match e.parent with
      | none => some ""
      | some p =>
        (t.get? p).bind fun above =>
          if above.symbol.isAttribute then some (above.symbol.name.getD "")
          else t.attributeAbove? fuel p

/-- Reduces numbers one after the other into the same scope, up to the first error. -/
def reduceAll? (reduce : Nat → Object → Option Reduced) : List Nat → Object → Option Reduced
  | [], scope => some ⟨scope, .ok none⟩
  | id :: ids, scope =>
    (reduce id scope).bind fun first =>
      match first.result with
      | .ok _ => reduceAll? reduce ids first.scope
      | .error _ => some first

/-- The values of numbers, up to the first error. -/
def elements? (reduce : Nat → Object → Option Reduced) :
    List Nat → Option (Except Error (List Value))
  | [] => some (.ok [])
  | id :: ids =>
    (reduce id []).bind fun first =>
      match first.result with
      | .ok v => (elements? reduce ids).map (Except.map (v.getD .null :: ·))
      | .error e => some (.error e)

/-- Reduces the symbol `id` with what is below it, at most `fuel` levels deep. -/
def reduceAt? (t : SymbolTree) : (fuel : Nat) → (id : Nat) → (scope : Object) → Option Reduced
  | 0, _, _ => none
  | fuel + 1, id, scope =>
    (t.get? id).bind fun e =>
      let children := e.children.toList
      match e.symbol.kind with
      | .block names =>
        scope.within? e.symbol.position (reduceAll? (t.reduceAt? fuel) children) names
      | .attr =>
        let name := e.symbol.name.getD ""
        match children with
        | [] => some ⟨scope.put name .null, .ok none⟩
        | child :: _ =>
          (t.reduceAt? fuel child []).map fun value =>
            match value.result with
            | .ok v => ⟨scope.put name (v.getD .null), .ok none⟩
            | .error e => ⟨scope, .error e⟩
      | .map =>
        (reduceAll? (t.reduceAt? fuel) children []).map fun inner =>
          ⟨scope, inner.result.map fun _ => some (.object inner.scope)⟩
      | .array =>
        (elements? (t.reduceAt? fuel) children).map fun values =>
          ⟨scope, values.map fun vs => some (.array vs)⟩
      | .literal type raw =>
        (t.attributeAbove? t.size id).map fun owner =>
          ⟨scope, (type.value owner raw e.symbol.position).map some⟩
      | .eval x => some ⟨scope, .ok (some (.eval x))⟩
      | .keyword k => some ⟨scope, .ok (some (.keyword k))⟩

/-- Reduces all roots into one object. -/
def reduce? (t : SymbolTree) : Option (Except Error Object) :=
  (reduceAll? (t.reduceAt? t.size) t.roots.toList []).map fun r => r.result.map fun _ => r.scope

variable {ts : List Tree} {id : Nat} {p : Option Nat} {u : Tree}

/-! ## Attributes above -/

theorem attributeAbove?_of_occurs (h : Occurs 0 none ts id p u) {fuel : Nat} (hfuel : id < fuel) :
    (ofForest ts).attributeAbove? fuel id = some ((ofForest ts).attributeAbove id) := by
  induction fuel generalizing id p u with
  | zero => cases hfuel
  | succ fuel ih =>
    have he := get?_of_occurs h
    rw [attributeAbove?, he, Option.bind_some]
    rcases h.cases_parent with ⟨rfl, -, -⟩ | ⟨q, r, v, rfl, hv, -, -⟩
    · rw [attributeAbove_of_root he rfl]
      rfl
    · have habove := get?_of_occurs hv
      have hlt := lt_of_occurs h
      rw [attributeAbove_of_parent he rfl hlt habove]
      dsimp only [entry]
      rw [habove, Option.bind_some, ih hv (by omega)]
      exact (apply_ite some _ _ _).symm

/-! ## The reduction -/

open Hcl.Node (reduceAll elements)

mutual
/-- With fuel for all that is below it, a symbol is reduced as its node is. -/
theorem reduceAt?_of_occurs {ts : List Tree} {id : Nat} {p : Option Nat} {fuel : Nat} :
    (u : Tree) → Occurs 0 none ts id p u → u.size ≤ fuel → ∀ scope,
      (ofForest ts).reduceAt? fuel id scope =
        some ((u.toNode id).reduce ((ofForest ts).attributeAbove id) scope)
  | node s cs, h, hfuel, scope => by
    obtain ⟨fuel, rfl⟩ : ∃ k, fuel = k + 1 := ⟨fuel - 1, by rw [size_node] at hfuel; omega⟩
    have he := get?_of_occurs h
    have hcs : ∀ i q v, Occurs (id + 1) (some id) cs i q v → Occurs 0 none ts i q v :=
      fun _ _ _ hv => h.trans hv
    have hsize : sizeAll cs ≤ fuel := Nat.le_of_succ_le_succ hfuel
    have howner : ∀ i v, Occurs 0 none ts i (some id) v → (ofForest ts).attributeAbove i =
        if s.isAttribute then s.name.getD "" else (ofForest ts).attributeAbove id :=
      fun _ _ hv => attributeAbove_of_parent (get?_of_occurs hv) rfl (lt_of_occurs hv) he
    rw [reduceAt?, he, Option.bind_some, toNode_node, Node.reduce]
    dsimp only [entry, symbol_node, children_node]
    rw [Symbol.isAttribute] at howner
    cases hk : s.kind with
    | block names =>
      rw [hk] at howner
      exact Object.within?_eq (reduceAll?_numbers cs hcs howner hsize) _ names scope
    | attr =>
      rw [hk] at howner
      cases cs with
      | nil => rfl
      | cons c cs =>
        have hc := hcs _ _ _ .head
        have hvalue := reduceAt?_of_occurs c hc (Nat.le_trans (Nat.le_add_right _ _) hsize) []
        rw [howner _ _ hc] at hvalue
        dsimp only [numbers_cons, toNodes_cons]
        rw [hvalue, Option.map_some]
        rfl
    | map =>
      rw [hk] at howner
      rw [reduceAll?_numbers cs hcs howner hsize []]
      rfl
    | array =>
      rw [hk] at howner
      rw [elements?_numbers cs hcs howner hsize]
      rfl
    | literal type raw =>
      dsimp only
      rw [attributeAbove?_of_occurs h (lt_size_of_occurs h)]
      rfl
    | eval x => rfl
    | keyword k => rfl

theorem reduceAll?_numbers {ts : List Tree} {n : Nat} {parent : Option Nat} {fuel : Nat}
    {owner : String} : (cs : List Tree) →
    (∀ i q v, Occurs n parent cs i q v → Occurs 0 none ts i q v) →
    (∀ i v, Occurs 0 none ts i parent v → (ofForest ts).attributeAbove i = owner) →
    sizeAll cs ≤ fuel → ∀ scope,
      reduceAll? ((ofForest ts).reduceAt? fuel) (numbers n cs) scope =
        some (reduceAll owner (toNodes n cs) scope)
  | [], _, _, _, _ => rfl
  | c :: cs, hcs, howner, hfuel, scope => by
    have hc := hcs _ _ _ .head
    rw [sizeAll_cons] at hfuel
    have hfirst := reduceAt?_of_occurs c hc (Nat.le_trans (Nat.le_add_right _ _) hfuel) scope
    have hrest := reduceAll?_numbers cs (fun i q v hv => hcs i q v (.tail hv)) howner
      (Nat.le_trans (Nat.le_add_left _ _) hfuel)
    rw [howner _ _ hc] at hfirst
    rw [numbers_cons, toNodes_cons, reduceAll?, reduceAll, hfirst, Option.bind_some]
    cases hresult : ((c.toNode n).reduce owner scope).result with
    | ok v => exact hrest _
    | error e => rfl

theorem elements?_numbers {ts : List Tree} {n : Nat} {parent : Option Nat} {fuel : Nat}
    {owner : String} : (cs : List Tree) →
    (∀ i q v, Occurs n parent cs i q v → Occurs 0 none ts i q v) →
    (∀ i v, Occurs 0 none ts i parent v → (ofForest ts).attributeAbove i = owner) →
    sizeAll cs ≤ fuel →
      elements? ((ofForest ts).reduceAt? fuel) (numbers n cs) =
        some (elements owner (toNodes n cs))
  | [], _, _, _ => rfl
  | c :: cs, hcs, howner, hfuel => by
    have hc := hcs _ _ _ .head
    rw [sizeAll_cons] at hfuel
    have hfirst := reduceAt?_of_occurs c hc (Nat.le_trans (Nat.le_add_right _ _) hfuel) []
    have hrest := elements?_numbers cs (fun i q v hv => hcs i q v (.tail hv)) howner
      (Nat.le_trans (Nat.le_add_left _ _) hfuel)
    rw [howner _ _ hc] at hfirst
    rw [numbers_cons, toNodes_cons, elements?, elements, hfirst, Option.bind_some]
    cases hresult : ((c.toNode n).reduce owner []).result with
    | ok v =>
      dsimp only
      rw [hrest]
      rfl
    | error e => rfl
end

/-- The reduction by numbers has a result, and it is that of the nodes. -/
theorem reduce?_ofForest (ts : List Tree) : (ofForest ts).reduce? = some (ofForest ts).reduce := by
  have howner : ∀ i v, Occurs 0 none ts i none v → (ofForest ts).attributeAbove i = "" :=
    fun i v hv => attributeAbove_of_root (get?_of_occurs hv) rfl
  have hroots : (ofForest ts).roots.toList = numbers 0 ts := rfl
  rw [reduce?, hroots, reduceAll?_numbers ts (fun _ _ _ hv => hv) howner
    (Nat.le_of_eq (size_ofForest ts).symm), reduce, nodes_ofForest]
  rfl

end SymbolTree

end Hcl
