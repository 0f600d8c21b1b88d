import Hcl.Operand
import Hcl.Proofs.Forest.Nodes
import Hcl.Proofs.Reduction.Store

/-!
# Reduction without places

A reduction into a scope writes as it goes. Here the same is said of finished objects: a body is
reduced on its own and stored when it is complete. As long as every block has a name, both ways give
the same.
-/

namespace Hcl

/-- The scope and the value that are left if there was no error. -/
def Reduced.whole (r : Reduced) : Except Error (Object × Option Value) :=
  r.result.map fun v => (r.scope, v)

open TokenStream (exists_of_map_ok)

namespace Node

/-! ## Composing -/

mutual
/-- What a node makes of a scope, with the value that it has. A block composes its body from
nothing and stores it. -/
def compose (owner : String) (n : Node) (scope : Object) : Except Error (Object × Option Value) :=
  match n with
  | mk _ symbol children =>
    match symbol.kind with
    | .block names =>
      match Object.conflict? symbol.position names scope with
      | some e => .error e
      | none =>
        (composeAll owner children []).map fun body => (Object.store body names scope, none)
    | .attr =>
      let name := symbol.name.getD ""
      match children with
      | [] => .ok (scope.put name .null, none)
      | child :: _ =>
        (child.compose name []).map fun (_, v) => (scope.put name (v.getD .null), none)
    | .map => (composeAll owner children []).map fun body => (scope, some (.object body))
    | .array => (composeElements owner children).map fun vs => (scope, some (.array vs))
    | .literal type raw => (type.value owner raw symbol.position).map fun v => (scope, some v)
    | .eval e => .ok (scope, some (.eval e))
    | .keyword k => .ok (scope, some (.keyword k))

/-- What nodes make of a scope, one after the other. -/
def composeAll (owner : String) (ns : List Node) (scope : Object) : Except Error Object :=
  match ns with
  | [] => .ok scope
  | n :: ns =>
    match n.compose owner scope with
    | .ok (scope', _) => composeAll owner ns scope'
    | .error e => .error e

/-- The values that nodes have on their own. -/
def composeElements (owner : String) (ns : List Node) : Except Error (List Value) :=
  match ns with
  | [] => .ok []
  | n :: ns =>
    match n.compose owner [] with
    | .ok (_, v) => (composeElements owner ns).map (v.getD .null :: ·)
    | .error e => .error e
end

/-! ## What is composed without an error -/

/-- All that a node can do to a scope, and the value that it then has. -/
inductive Composes (owner : String) (scope : Object) : Node → Object → Option Value → Prop where
  | block {id : Nat} {symbol : Symbol} {children : List Node} {names : List String}
      {body : Object} : symbol.kind = .block names →
      Object.conflict? symbol.position names scope = none →
      composeAll owner children [] = .ok body →
      Composes owner scope (mk id symbol children) (Object.store body names scope) none
  | empty {id : Nat} {symbol : Symbol} : symbol.kind = .attr →
      Composes owner scope (mk id symbol []) (scope.put (symbol.name.getD "") .null) none
  | attr {id : Nat} {symbol : Symbol} {child : Node} {siblings : List Node} {left : Object}
      {v : Option Value} : symbol.kind = .attr →
      child.compose (symbol.name.getD "") [] = .ok (left, v) →
      Composes owner scope (mk id symbol (child :: siblings))
        (scope.put (symbol.name.getD "") (v.getD .null)) none
  | map {id : Nat} {symbol : Symbol} {children : List Node} {body : Object} :
      symbol.kind = .map → composeAll owner children [] = .ok body →
      Composes owner scope (mk id symbol children) scope (some (.object body))
  | array {id : Nat} {symbol : Symbol} {children : List Node} {vs : List Value} :
      symbol.kind = .array → composeElements owner children = .ok vs →
      Composes owner scope (mk id symbol children) scope (some (.array vs))
  | literal {id : Nat} {symbol : Symbol} {children : List Node} {type : LiteralType}
      {raw : String} {v : Value} : symbol.kind = .literal type raw →
      type.value owner raw symbol.position = .ok v →
      Composes owner scope (mk id symbol children) scope (some v)
  | eval {id : Nat} {symbol : Symbol} {children : List Node} {e : Eval} :
      symbol.kind = .eval e → Composes owner scope (mk id symbol children) scope (some (.eval e))
  | keyword {id : Nat} {symbol : Symbol} {children : List Node} {k : TypeKeyword} :
      symbol.kind = .keyword k →
      Composes owner scope (mk id symbol children) scope (some (.keyword k))

theorem composes_of_ok {owner : String} {scope scope' : Object} {n : Node} {v : Option Value}
    (h : n.compose owner scope = .ok (scope', v)) : Composes owner scope n scope' v := by
  obtain ⟨id, symbol, children⟩ := n
  cases hk : symbol.kind with
  | block names =>
    rw [compose, hk] at h
    cases hconflict : Object.conflict? symbol.position names scope with
    | some e => simp [hconflict] at h
    | none =>
      simp only [hconflict] at h
      obtain ⟨body, hbody, heq⟩ := exists_of_map_ok h
      cases heq
      exact .block hk hconflict hbody
  | attr =>
    rw [compose, hk] at h
    cases children with
    | nil =>
      cases h
      exact .empty hk
    | cons child siblings =>
      obtain ⟨⟨left, w⟩, hchild, heq⟩ := exists_of_map_ok h
      cases heq
      exact .attr hk hchild
  | map =>
    rw [compose, hk] at h
    obtain ⟨body, hbody, heq⟩ := exists_of_map_ok h
    cases heq
    exact .map hk hbody
  | array =>
    rw [compose, hk] at h
    obtain ⟨vs, hvs, heq⟩ := exists_of_map_ok h
    cases heq
    exact .array hk hvs
  | literal type raw =>
    rw [compose, hk] at h
    obtain ⟨w, hw, heq⟩ := exists_of_map_ok h
    cases heq
    exact .literal hk hw
  | eval e =>
    rw [compose, hk] at h
    cases h
    exact .eval hk
  | keyword k =>
    rw [compose, hk] at h
    cases h
    exact .keyword hk

theorem exists_of_composeAll_ok {owner : String} {scope scope' : Object} {n : Node}
    {ns : List Node} (h : composeAll owner (n :: ns) scope = .ok scope') :
    ∃ s v, n.compose owner scope = .ok (s, v) ∧ composeAll owner ns s = .ok scope' := by
  rw [composeAll] at h
  cases hfirst : n.compose owner scope with
  | error e => simp [hfirst] at h
  | ok r =>
    simp only [hfirst] at h
    exact ⟨r.1, r.2, rfl, h⟩

theorem exists_of_composeAll_append_ok {owner : String} {ms ns : List Node} {scope scope' : Object}
    (h : composeAll owner (ms ++ ns) scope = .ok scope') :
    ∃ s, composeAll owner ms scope = .ok s ∧ composeAll owner ns s = .ok scope' := by
  induction ms generalizing scope with
  | nil => exact ⟨scope, by rw [composeAll], h⟩
  | cons m ms ih =>
    obtain ⟨s, v, hm, hrest⟩ := exists_of_composeAll_ok h
    obtain ⟨s', hms, hns⟩ := ih hrest
    exact ⟨s', by rw [composeAll, hm]; exact hms, hns⟩

theorem exists_of_composeElements_ok {owner : String} {n : Node} {ns : List Node}
    {vs : List Value} (h : composeElements owner (n :: ns) = .ok vs) :
    ∃ s v ws, n.compose owner [] = .ok (s, v) ∧ composeElements owner ns = .ok ws ∧
      vs = v.getD .null :: ws := by
  rw [composeElements] at h
  cases hfirst : n.compose owner [] with
  | error e => simp [hfirst] at h
  | ok r =>
    simp only [hfirst] at h
    obtain ⟨ws, hws, heq⟩ := exists_of_map_ok h
    exact ⟨r.1, r.2, ws, rfl, hws, heq.symm⟩

/-! ## Named blocks -/

mutual
/-- Every block in the node has a name. -/
def BlocksNamed : Node → Prop
  | mk _ symbol children => symbol.kind ≠ .block [] ∧ AllBlocksNamed children

def AllBlocksNamed : List Node → Prop
  | [] => True
  | n :: ns => n.BlocksNamed ∧ AllBlocksNamed ns
end

theorem blocksNamed_mk {id : Nat} {symbol : Symbol} {children : List Node} :
    (mk id symbol children).BlocksNamed ↔ symbol.kind ≠ .block [] ∧ AllBlocksNamed children := by
  rw [BlocksNamed]

theorem allBlocksNamed_iff {ns : List Node} : AllBlocksNamed ns ↔ ∀ n ∈ ns, n.BlocksNamed := by
  induction ns with
  | nil => simp [AllBlocksNamed]
  | cons n ns ih => simp [AllBlocksNamed, ih]

/-! ## Both ways give the same -/

theorem reduceAll_result_ok {owner : String} {ns : List Node} {scope : Object} {v : Option Value}
    (h : (reduceAll owner ns scope).result = .ok v) : v = none := by
  induction ns generalizing scope with
  | nil =>
    rw [reduceAll] at h
    cases h
    rfl
  | cons n ns ih =>
    rw [reduceAll] at h
    cases hresult : (n.reduce owner scope).result with
    | ok w =>
      simp only [hresult] at h
      exact ih h
    | error e =>
      simp only [hresult] at h
      cases h

/-- A block in one stroke: the body is reduced into a new object and stored once it is complete. -/
theorem whole_reduce_block (owner : String) {id : Nat} {symbol : Symbol} {names : List String}
    (children : List Node) (hk : symbol.kind = .block names) (hnames : names ≠ [])
    (scope : Object) :
    ((mk id symbol children).reduce owner scope).whole =
      match Object.conflict? symbol.position names scope with
      | some e => .error e
      | none =>
        (reduceAll owner children []).whole.map fun (body, _) =>
          (Object.store body names scope, none) := by
  rw [reduce, hk]
  simp only [Object.within_eq symbol.position _ hnames]
  cases Object.conflict? symbol.position names scope with
  | some e => rfl
  | none =>
    cases hresult : (reduceAll owner children []).result with
    | error e => simp [Reduced.whole, hresult, Except.map]
    | ok v =>
      have hv := reduceAll_result_ok hresult
      simp [Reduced.whole, hresult, hv, Except.map]

mutual
theorem whole_reduce (owner : String) : (n : Node) → n.BlocksNamed → (scope : Object) →
    (n.reduce owner scope).whole = n.compose owner scope
  | mk id symbol children, h, scope => by
    obtain ⟨hname, hbelow⟩ := blocksNamed_mk.mp h
    have hbody : composeAll owner children [] =
        (reduceAll owner children []).whole.map Prod.fst := by
      rw [whole_reduceAll owner children hbelow []]
      cases composeAll owner children [] <;> rfl
    cases hk : symbol.kind with
    | block names =>
      have hnames : names ≠ [] := by
        rintro rfl
        exact hname hk
      rw [whole_reduce_block owner children hk hnames, compose, hk]
      simp only [hbody]
      cases (reduceAll owner children []).whole <;> rfl
    | attr =>
      rw [reduce, compose, hk]
      cases children with
      | nil => rfl
      | cons child siblings =>
        have hchild := whole_reduce (symbol.name.getD "") child hbelow.1 []
        simp only [← hchild, Reduced.whole]
        cases (child.reduce (symbol.name.getD "") []).result <;> rfl
    | map =>
      rw [reduce, compose, hk]
      simp only [hbody, Reduced.whole]
      cases (reduceAll owner children []).result <;> rfl
    | array =>
      rw [reduce, compose, hk]
      simp only [Reduced.whole, elements_eq owner children hbelow]
      cases composeElements owner children <;> rfl
    | literal type raw =>
      rw [reduce, compose, hk]
      simp only [Reduced.whole]
      cases type.value owner raw symbol.position <;> rfl
    | eval e =>
      rw [reduce, compose, hk]
      rfl
    | keyword k =>
      rw [reduce, compose, hk]
      rfl

theorem whole_reduceAll (owner : String) : (ns : List Node) → AllBlocksNamed ns →
    (scope : Object) →
    (reduceAll owner ns scope).whole = (composeAll owner ns scope).map fun s => (s, none)
  | [], _, scope => by
    rw [reduceAll, composeAll]
    rfl
  | n :: ns, h, scope => by
    obtain ⟨hn, hns⟩ := h
    have hfirst := whole_reduce owner n hn scope
    rw [reduceAll, composeAll, ← hfirst]
    cases hresult : (n.reduce owner scope).result with
    | ok v =>
      simp only [Reduced.whole, hresult, Except.map]
      exact whole_reduceAll owner ns hns _
    | error e => simp [Reduced.whole, hresult, Except.map]

theorem elements_eq (owner : String) : (ns : List Node) → AllBlocksNamed ns →
    elements owner ns = composeElements owner ns
  | [], _ => by rw [elements, composeElements]
  | n :: ns, h => by
    obtain ⟨hn, hns⟩ := h
    have hfirst := whole_reduce owner n hn []
    rw [elements, composeElements, ← hfirst, elements_eq owner ns hns, Reduced.whole]
    cases (n.reduce owner []).result with
    | ok v => rfl
    | error e => rfl
end

end Node

/-! ## Blocks of a tree -/

namespace SymbolTree

open Hcl.Tree

variable {t : SymbolTree} {id : Nat}

theorem blocksNamed_of_node? (hnamed : ∀ id e, t.get? id = some e → e.symbol.kind ≠ .block [])
    {id : Nat} {n : Node} (h : t.node? id = some n) : n.BlocksNamed := by
  cases he : t.get? id with
  | none =>
    rw [node?_of_get?_none he] at h
    cases h
  | some e =>
    have hlt : id < t.size := (Array.getElem?_eq_some_iff.mp he).1
    rw [node?_of_get? he] at h
    cases h
    refine Node.blocksNamed_mk.mpr ⟨hnamed id e he, Node.allBlocksNamed_iff.mpr ?_⟩
    intro n hn
    obtain ⟨child, -, hchild⟩ := List.mem_filterMap.mp hn
    split at hchild
    · exact blocksNamed_of_node? hnamed hchild
    · cases hchild
termination_by t.size - id

/-- To reduce a block in place is to look for a conflict on its path, to compose its body from
nothing, and to store the body. -/
theorem whole_reduceSymbol? (t : SymbolTree)
    (hnamed : ∀ id e, t.get? id = some e → e.symbol.kind ≠ .block []) {id : Nat} {e : Entry}
    {names : List String} (he : t.get? id = some e) (hk : e.symbol.kind = .block names)
    (scope : Object) :
    ∃ children r, t.node? id = some (.mk id e.symbol children) ∧
      t.reduceSymbol? id scope = some r ∧
      (Node.reduceAll (t.attributeAbove id) children []).whole =
        (Node.composeAll (t.attributeAbove id) children []).map (fun body => (body, none)) ∧
      r.whole =
        match Object.conflict? e.symbol.position names scope with
        | some conflict => .error conflict
        | none =>
          (Node.composeAll (t.attributeAbove id) children []).map fun body =>
            (Object.store body names scope, none) := by
  have hnode := node?_of_get? he
  have hblocks := blocksNamed_of_node? hnamed hnode
  have hbelow := (Node.blocksNamed_mk.mp hblocks).2
  refine ⟨_, _, hnode, by rw [reduceSymbol?, hnode]; rfl, Node.whole_reduceAll _ _ hbelow [], ?_⟩
  rw [Node.whole_reduce _ _ hblocks, Node.compose, hk]

/-- A block whose path ends at an object of the scope makes a list of two. -/
theorem whole_reduceSymbol?_repeated :
    let port := Tree.node (.attr "port" ⟨.start, 4⟩) [.leaf (.literal .string "80" ⟨.start, 4⟩)]
    let web := Tree.node (.block ["service", "web"] ⟨.start, 9⟩) [port]
    ((ofForest [web]).reduceSymbol? 0
        [("service", .object [("web", .object [("port", .null)])])]).map Reduced.whole =
      some (.ok ([("service", .object [("web",
        .array [.object [("port", .null)], .object [("port", .string "80")]])])], none)) := by
  intro port web
  have hnamed : ∀ id e, (ofForest [web]).get? id = some e → e.symbol.kind ≠ .block [] := by
    intro id e he
    have hall : ∀ e ∈ (ofForest [web]).entries.toList, e.symbol.kind ≠ .block [] := by decide
    exact hall e (by simpa using Array.mem_of_getElem? he)
  obtain ⟨children, r, hnode, hr, -, hwhole⟩ :=
    whole_reduceSymbol? (ofForest [web]) hnamed
      (get?_of_occurs .head : (ofForest [web]).get? 0 = _) (rfl : web.symbol.kind = _)
      [("service", .object [("web", .object [("port", .null)])])]
  have hchildren : children = toNodes 1 [port] := by
    rw [node?_of_occurs web .head] at hnode
    injection hnode with hnode
    injection hnode with _ _ hchildren
    exact hchildren.symm
  rw [hr, Option.map_some, hwhole, hchildren]
  rfl

end SymbolTree

end Hcl
