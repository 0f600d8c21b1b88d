import Hcl.Proofs.Reduction.Keys

/-!
# What a reduction may leave behind

A symbol that is no block fails without a trace, and a block whose labels are in conflict with the
scope does so too, however far they lead through it. Everything else that is done to a scope is done
at the key of the symbol.
-/

namespace Hcl

open Hcl.Tree

namespace Object

/-- From `scope` to `after` nothing changed but the value at `key`. The keys are in the same order,
and `key` comes last if it is new. -/
structure ChangedAt (key : String) (scope after : Object) : Prop where
  lookup_eq : ∀ other, other ≠ key → after.lookup other = scope.lookup other
  keys_eq : keys after = if key ∈ keys scope then keys scope else keys scope ++ [key]

theorem changedAt_put (key : String) (v : Value) (scope : Object) :
    ChangedAt key scope (scope.put key v) where
  lookup_eq _ h := lookup_put_of_ne h v scope
  keys_eq := keys_put key v scope

theorem changedAt_store (body : Object) (name : String) (names : List String) (scope : Object) :
    ChangedAt name scope (store body (name :: names) scope) := by
  obtain ⟨v, hv⟩ := exists_store body name names scope
  rw [hv scope rfl]
  exact changedAt_put name v scope

end Object

/-- What has become of `scope` when the symbol `s` was reduced into it; `body` is what the children of
the symbol make of a new object. -/
structure Reduced.Spares (s : Symbol) (body : Reduced) (scope : Object) (r : Reduced) : Prop where
  of_ok : ∀ v, r.result = .ok v →
    match s.key? with
    | some key => Object.ChangedAt key scope r.scope
    | none => r.scope = scope
  of_error : (∀ names, s.kind ≠ .block names) → ∀ fault, r.result = .error fault → r.scope = scope
  /-- the labels of the block lead nowhere -/
  of_conflict : ∀ names fault, s.kind = .block names →
    Object.conflict? s.position names scope = some fault → r.result = .error fault ∧ r.scope = scope
  /-- the block fails if and only if one of its children does -/
  of_body : ∀ name labels, s.kind = .block (name :: labels) →
    Object.conflict? s.position (name :: labels) scope = none →
    r.result = body.result ∧ Object.ChangedAt name scope r.scope

namespace Reduced

variable {s : Symbol} {body : Reduced} {scope : Object} {v : Value}

/-- A symbol that writes nothing, with its value or error. -/
theorem Spares.same (hk : s.key? = none) (hb : ∀ names, s.kind ≠ .block names)
    (result : Except Error (Option Value)) : Spares s body scope ⟨scope, result⟩ where
  of_ok _ _ := by rw [hk]
  of_error _ _ _ := rfl
  of_conflict names _ h := absurd h (hb names)
  of_body name labels h := absurd h (hb (name :: labels))

theorem Spares.attr (hk : s.kind = .attr) (v : Value) :
    Spares s body scope ⟨scope.put (s.name.getD "") v, .ok none⟩ where
  of_ok _ _ := by
    rw [Symbol.key?, hk]
    exact Object.changedAt_put _ v scope
  of_error _ _ h := nomatch h
  of_conflict _ _ h := nomatch hk.symm.trans h
  of_body _ _ h := nomatch hk.symm.trans h

theorem Spares.attr_error (hk : s.kind = .attr) (fault : Error) :
    Spares s body scope ⟨scope, .error fault⟩ where
  of_ok _ h := nomatch h
  of_error _ _ _ := rfl
  of_conflict _ _ h := nomatch hk.symm.trans h
  of_body _ _ h := nomatch hk.symm.trans h

theorem Spares.block {name : String} {labels : List String}
    (hk : s.kind = .block (name :: labels)) :
    Spares s body scope
      (match Object.conflict? s.position (name :: labels) scope with
      | some fault => ⟨scope, .error fault⟩
      | none => ⟨Object.store body.scope (name :: labels) scope, body.result⟩) := by
  have hnames : ∀ {names}, s.kind = .block names → names = name :: labels := by
    intro names h
    exact (SymbolKind.block.inj (hk.symm.trans h)).symm
  have hstore := Object.changedAt_store body.scope name labels scope
  cases hconflict : Object.conflict? s.position (name :: labels) scope with
  | some fault =>
    refine ⟨nofun, fun _ _ _ => rfl, fun names fault' h hfault => ?_,
      fun name' labels' h hnone => ?_⟩
    · rw [hnames h, hconflict] at hfault
      cases hfault
      exact ⟨rfl, rfl⟩
    · rw [hnames h, hconflict] at hnone
      cases hnone
  | none =>
    refine ⟨fun _ _ => ?_, fun h => absurd hk (h _), fun names fault h hfault => ?_,
      fun name' labels' h _ => ?_⟩
    · rw [Symbol.key?, hk]
      exact hstore
    · rw [hnames h, hconflict] at hfault
      cases hfault
    · cases hnames h
      exact ⟨rfl, hstore⟩

end Reduced

open Reduced (Spares)

theorem Node.spares_reduce (owner : String) {id : Nat} {s : Symbol} (children : List Node)
    (hname : s.kind ≠ .block []) (scope : Object) :
    Spares s (reduceAll owner children []) scope ((mk id s children).reduce owner scope) := by
  rw [reduce]
  cases hk : s.kind with
  | block names =>
    cases names with
    | nil => exact absurd hk hname
    | cons name labels =>
      dsimp only
      rw [Object.within_eq _ _ (List.cons_ne_nil name labels)]
      exact .block hk
  | attr =>
    cases children with
    | nil => exact .attr hk .null
    | cons child siblings =>
      dsimp only
      cases (child.reduce (s.name.getD "") []).result with
      | ok v => exact .attr hk _
      | error fault => exact .attr_error hk fault
  | _ => exact .same (by rw [Symbol.key?, hk]) (by simp [hk]) _

namespace SymbolTree

/-- Whatever comes of the reduction of a symbol, the scope is spared but for what is at its key, and
where the symbol or its labels are at fault it is as it was. -/
theorem spares_reduceSymbol? (t : SymbolTree) {id : Nat} {e : Entry} (he : t.get? id = some e)
    (hname : e.symbol.kind ≠ .block []) (scope : Object) :
    ∃ children r, t.node? id = some (.mk id e.symbol children) ∧
      t.reduceSymbol? id scope = some r ∧
      Spares e.symbol (Node.reduceAll (t.attributeAbove id) children []) scope r := by
  have hnode := node?_of_get? he
  exact ⟨_, _, hnode, by rw [reduceSymbol?, hnode]; rfl,
    Node.spares_reduce (t.attributeAbove id) _ hname scope⟩

/-- A block in the body is in conflict with an attribute there. What was written up to there stays. -/
theorem spares_reduceSymbol?_conflict :
    let inner := Tree.node (.block ["k"] ⟨.start, 4⟩) []
    let body := [Tree.node (.attr "k" ⟨.start, 1⟩) [.leaf (.literal .null "null" ⟨.start, 4⟩)], inner]
    let t := ofForest [.node (.block ["a", "b"] ⟨.start, 5⟩) body]
    ∃ r, t.reduceSymbol? 0 [("z", .null)] = some r ∧
      r.result = .error (.scopeConflict .value "k" .start) ∧
      Object.ChangedAt "a" [("z", .null)] r.scope := by
  intro inner body t
  have he : t.get? 0 = some _ := get?_of_occurs .head
  obtain ⟨children, r, hnode, hr, hspares⟩ :=
    spares_reduceSymbol? t he (by decide) [("z", .null)]
  have hchildren : children = toNodes 1 body := by
    rw [node?_of_occurs _ .head] at hnode
    injection hnode with hnode
    injection hnode with _ _ hchildren
    exact hchildren.symm
  obtain ⟨hresult, hchanged⟩ := hspares.of_body "a" ["b"] rfl rfl
  exact ⟨r, hr, by rw [hresult, hchildren]; rfl, hchanged⟩

end SymbolTree

end Hcl
