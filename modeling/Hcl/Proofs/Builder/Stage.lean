import Hcl.Builder.Run
import Hcl.Proofs.Forest.Spine

/-!
# Stages of a builder

The scopes of a builder are the open symbols of its tree. A stage is a spine, the flag of the
innermost scope and the stream; the builder at a stage has the tree and the scopes that follow from
these, and what a builder does is said of stages.
-/

namespace Hcl

open Hcl.Tree

/-! ## Streams -/

namespace TokenStream

variable {s rest : TokenStream} {t : Token}

@[simp] theorem peek_cons (t : Token) (ts : List Token) (e : Except LexicalError Position) :
    peek ⟨t :: ts, e⟩ = .ok t := rfl
@[simp] theorem tail_cons (t : Token) (ts : List Token) (e : Except LexicalError Position) :
    tail ⟨t :: ts, e⟩ = ⟨ts, e⟩ := rfl
@[simp] theorem next_cons (t : Token) (ts : List Token) (e : Except LexicalError Position) :
    next ⟨t :: ts, e⟩ = .ok (t, ⟨ts, e⟩) := rfl

/-- A token other than the end stands at the front of the stream. -/
theorem eq_of_peek (h : s.peek = .ok t) (hk : t.kind ≠ .eof) : s = ⟨t :: s.tail.tokens, s.ending⟩ := by
  obtain ⟨tokens, ending⟩ := s
  cases tokens with
  | nil =>
    cases ending <;> simp only [peek, Except.ok.injEq, reduceCtorEq] at h
    exact absurd (congrArg Token.kind h).symm hk
  | cons x xs =>
    simp only [peek_cons, Except.ok.injEq] at h
    simp [h]

theorem peek_of_next (h : s.next = .ok (t, rest)) : s.peek = .ok t := by
  cases hp : s.peek with
  | error e => simp [next, hp, Except.map] at h
  | ok u =>
    simp only [next, hp, Except.map, Except.ok.injEq, Prod.mk.injEq] at h
    rw [h.1]

theorem tail_of_next (h : s.next = .ok (t, rest)) : s.tail = rest := by
  cases hp : s.peek with
  | error e => simp [next, hp, Except.map] at h
  | ok u =>
    simp only [next, hp, Except.map, Except.ok.injEq, Prod.mk.injEq] at h
    exact h.2

theorem eq_of_next (h : s.next = .ok (t, rest)) (hk : t.kind ≠ .eof) :
    s = ⟨t :: rest.tokens, rest.ending⟩ :=
  tail_of_next h ▸ eq_of_peek (peek_of_next h) hk

theorem skipNewlines_cons_of_ne {ts : List Token} {e : Except LexicalError Position}
    (h : t.kind ≠ .newline) : skipNewlines ⟨t :: ts, e⟩ = ⟨t :: ts, e⟩ := by
  simp [skipNewlines, h]

@[simp] theorem skipNewlines_cons_newline {ts : List Token} {e : Except LexicalError Position}
    (h : t.kind = .newline) : skipNewlines ⟨t :: ts, e⟩ = skipNewlines ⟨ts, e⟩ := by
  simp [skipNewlines, h]

/-- Behind skipped line breaks stands something else. -/
theorem head_skipNewlines {ts : List Token} {e : Except LexicalError Position}
    (h : s.skipNewlines = ⟨t :: ts, e⟩) : t.kind ≠ .newline := by
  have hd := List.head?_dropWhile_not (fun u : Token => u.kind == .newline) s.tokens
  have htokens : s.tokens.dropWhile (fun u => u.kind == .newline) = t :: ts :=
    congrArg TokenStream.tokens h
  rw [htokens] at hd
  simpa using hd

end TokenStream

/-! ## Kinds of scopes -/

/-- The scope that reads what is below the symbol `id`. Only blocks, attributes, arrays and maps
have one. -/
def Scope.ofKind : SymbolKind → Nat → Bool → Scope
  | .block _, id, _ => .block id
  | .attr, id, complete => .attr id complete
  | .array, id, complete => .array id complete
  | _, id, _ => .map id

@[simp] theorem Scope.completed_ofKind (kind : SymbolKind) (id : Nat) (c : Bool) :
    (ofKind kind id c).completed = ofKind kind id true := by
  cases kind <;> rfl

theorem Scope.symbol?_ofKind (kind : SymbolKind) (id : Nat) (c : Bool) :
    (ofKind kind id c).symbol? = some id := by
  cases kind <;> rfl

namespace Spine

/-- The innermost scope. -/
def scope : Spine → Bool → Scope
  | root _, _ => .document
  | under outer symbol _, complete => .ofKind symbol.kind outer.size complete

theorem symbol?_scope (sp : Spine) (c : Bool) : (sp.scope c).symbol? = sp.id? := by
  cases sp with
  | root trees => rfl
  | under outer symbol trees => exact Scope.symbol?_ofKind symbol.kind outer.size c

/-- The scopes around the innermost one. None of them holds a complete value. -/
def outerScopes : Spine → List Scope
  | root _ => []
  | under outer _ _ => outer.scope false :: outer.outerScopes

/-- The scopes of a builder with this tree. -/
def scopes (sp : Spine) (complete : Bool) : List Scope := sp.scope complete :: sp.outerScopes

@[simp] theorem length_scopes (sp : Spine) (c : Bool) : (sp.scopes c).length = sp.depth + 1 := by
  induction sp generalizing c with
  | root ts => rfl
  | under outer s ts ih =>
    have := ih false
    simp only [scopes, List.length_cons, outerScopes, depth] at *
    omega

@[simp] theorem scope_append (sp : Spine) (ts : List Tree) (c : Bool) :
    (sp.append ts).scope c = sp.scope c := by
  cases sp <;> rfl

@[simp] theorem outerScopes_append (sp : Spine) (ts : List Tree) :
    (sp.append ts).outerScopes = sp.outerScopes := by
  cases sp <;> rfl

@[simp] theorem scopes_append (sp : Spine) (ts : List Tree) (c : Bool) :
    (sp.append ts).scopes c = sp.scopes c := by
  simp [scopes]

@[simp] theorem complete_scopes (sp : Spine) (c : Bool) :
    Builder.complete (sp.scopes c) = sp.scopes true := by
  cases sp with
  | root ts => rfl
  | under outer s ts => simp [scopes, Builder.complete, scope]

theorem scopes_under (outer : Spine) (s : Symbol) (ts : List Tree) (c : Bool) :
    (under outer s ts).scopes c = .ofKind s.kind outer.size c :: outer.scopes false := rfl

end Spine

/-! ## Runs -/

theorem Builder.run_of_scopes_nil {b : Builder} (h : b.scopes = []) : b.run = ⟨b.tree, none⟩ := by
  rw [run]
  split
  · rfl
  · simp_all

theorem Builder.run_of_scopes {b : Builder} {scope : Scope} {outer : List Scope}
    (h : b.scopes = scope :: outer) :
    b.run =
      match b.step scope with
      | .error stopped => ⟨stopped.tree, some stopped.error⟩
      | .ok next => next.run := by
  rw [run]
  split
  · simp_all
  · rename_i scope' outer' h'
    obtain ⟨rfl, -⟩ := List.cons.inj (h.symm.trans h')
    split <;> simp_all

/-! ## Stages -/

structure Stage where
  spine : Spine
  /-- whether the innermost scope holds a complete value -/
  complete : Bool
  stream : TokenStream

namespace Stage

/-- The builder at a stage of the reading of `source`. -/
def builder (source : List Char) (st : Stage) : Builder :=
  ⟨source, st.stream, st.spine.tree, st.spine.scopes st.complete⟩

/-- One step from a stage. -/
def step (source : List Char) (st : Stage) : Builder.Step :=
  (st.builder source).step (st.spine.scope st.complete)

/-- The first stage. -/
def ofStream (stream : TokenStream) : Stage := ⟨.root [], false, stream⟩

theorem builder_ofStream (source : String) :
    (ofStream (.ofString source)).builder source.toList = .ofString source := rfl

theorem run_builder (source : List Char) (st : Stage) :
    (st.builder source).run =
      match st.step source with
      | .error stopped => ⟨stopped.tree, some stopped.error⟩
      | .ok next => next.run :=
  Builder.run_of_scopes (rfl : (st.builder source).scopes = _ :: st.spine.outerScopes)

theorem measure_lt {source : List Char} {st st' : Stage}
    (h : st.step source = .ok (st'.builder source)) :
    (st'.builder source).measure < (st.builder source).measure :=
  Builder.step_lt (rfl : (st.builder source).scopes = _ :: st.spine.outerScopes) h

/-! ## What builders do at a stage -/

variable {source : List Char} {sp outer : Spine} {symbol : Symbol} {trees : List Tree} {c : Bool}
  {s rest : TokenStream} {α : Type}

theorem attempt_ok {r : Except Error α} {a : α} {go : α → Builder.Step} (b : Builder)
    (h : r = .ok a) : b.attempt r go = go a := by
  rw [h]
  rfl

theorem read_ok {r : Reading α} {a : α} {go : α → Builder → Builder.Step} (h : r = .ok (a, rest)) :
    (builder source ⟨sp, c, s⟩).read r go = go a (builder source ⟨sp, c, rest⟩) := by
  rw [h]
  rfl

theorem pushValue_builder (source : List Char) (outer : Spine) (symbol : Symbol)
    (trees : List Tree) (v : Symbol) (rest : TokenStream) :
    (builder source ⟨outer.under symbol trees, false, rest⟩).pushValue outer.size v =
      builder source ⟨outer.under symbol (trees ++ [leaf v]), true, rest⟩ := by
  have htree := Spine.push_tree (outer.under symbol trees) v
  simp only [Builder.pushValue, Builder.push, builder, Spine.complete_scopes]
  rw [Spine.id?_under] at htree
  rw [htree]
  rfl

/-- A scope is opened if that leaves its symbol on the way to the deepest one allowed. -/
theorem pushScope_builder {scope : Nat → Scope} (s : TokenStream)
    (hscope : scope sp.size = .ofKind symbol.kind sp.size false) (hd : sp.depth + 1 < maxDepth)
    (hc : sp.scopes c = sp.scopes false) :
    (builder source ⟨sp, c, s⟩).pushScope sp.id? symbol scope =
      .ok (builder source ⟨sp.under symbol [], false, s⟩) := by
  have htree := Spine.tree_open sp symbol
  have hdepth : ¬maxDepth ≤ sp.depth + 1 := by omega
  simp only [Builder.pushScope, Builder.enter, Builder.push, builder, Spine.length_scopes,
    Spine.size_tree, ← htree, hscope, hdepth, if_false, Spine.scopes_under, hc]

/-- Leaving the scope of the innermost symbol once it is closed. -/
theorem leave_builder (source : List Char) (outer : Spine) (c : Bool) (s : TokenStream)
    (symbol : Symbol) (trees : List Tree) (stop : Span) :
    { builder source ⟨outer.under symbol trees, c, s⟩ with
        tree := (outer.under (symbol.extendTo stop) trees).tree }.leave =
      builder source ⟨outer.append [node (symbol.extendTo stop) trees], true, s⟩ := by
  rw [Spine.tree_under]
  simp only [Builder.leave, builder, Spine.scopes_under, List.tail_cons, Spine.complete_scopes,
    Spine.scopes_append]

theorem close_builder (source : List Char) (outer : Spine) (c : Bool) (s : TokenStream)
    (symbol : Symbol) (trees : List Tree) (stop : Span) :
    { builder source ⟨outer.under symbol trees, c, s⟩ with
        tree := (outer.under symbol trees).tree.close outer.size stop }.leave =
      builder source ⟨outer.append [node (symbol.extendTo stop) trees], true, s⟩ := by
  rw [Spine.close_tree]
  exact leave_builder source outer c s symbol trees stop

/-- Where an operation begins is the last value below the innermost symbol. -/
theorem continuation_builder (source : List Char) (outer : Spine) (symbol : Symbol)
    (trees : List Tree) (v : Tree) (c : Bool) (s : TokenStream) :
    (builder source ⟨outer.under symbol (trees ++ [v]), c, s⟩).continuation outer.size =
      (builder source ⟨outer.under symbol (trees ++ [v]), c, s⟩).attempt s.peek fun t =>
        if t.kind = .operator ∨ t.kind = .question then
          (builder source ⟨outer.under symbol (trees ++ [v]), c, s⟩).read
            (s.expressionEnd v.symbol.span) fun stop b =>
              .ok { b with
                tree := b.tree.collapse (outer.under symbol trees).size
                  (.eval b.source .operation none v.symbol.span stop) }
        else .ok (builder source ⟨outer.under symbol (trees ++ [v]), c, s⟩) := by
  have hlast : (builder source ⟨outer.under symbol (trees ++ [v]), c, s⟩).tree.lastChild?
      outer.size = some (outer.under symbol trees).size := Spine.lastChild?_tree ..
  have hspan : (builder source ⟨outer.under symbol (trees ++ [v]), c, s⟩).tree.span
      (outer.under symbol trees).size = v.symbol.span :=
    Spine.span_last (outer.under symbol trees) v
  rw [Builder.continuation, hlast]
  dsimp only
  rw [hspan]
  rfl

theorem collapse_builder (source : List Char) (outer : Spine) {symbol : Symbol}
    (hk : symbol.kind = .attr ∨ symbol.kind = .array) (trees : List Tree) (v : Tree) (c : Bool)
    (s : TokenStream) (value : Symbol) :
    { builder source ⟨outer.under symbol (trees ++ [v]), c, s⟩ with
        tree := (builder source ⟨outer.under symbol (trees ++ [v]), c, s⟩).tree.collapse
          (outer.under symbol trees).size value } =
      builder source ⟨outer.under symbol (trees ++ [leaf value]), c, s⟩ := by
  have hlists : symbol.listsAttributes = false := by
    rcases hk with hk | hk <;> simp [Symbol.listsAttributes, hk]
  have hcollapse := Spine.collapse_tree outer hlists trees v value
  simp only [builder, hcollapse]
  rfl

end Stage

end Hcl
