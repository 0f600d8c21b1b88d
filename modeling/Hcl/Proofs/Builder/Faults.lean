import Hcl.Proofs.Builder.Nesting
import Hcl.Proofs.Builder.Places

/-!
# Errors of reading

Whatever goes wrong while a source is read is an error of its lexemes or of its structure, and has
its place in the source. A step fails while it reads, and leaves no more symbols than there were; or
it has added a symbol for which no scope is left, and leaves that one as the last.
-/

namespace Hcl

open Hcl.Tree Hcl.TokenStream
open Relation (ReflTransGen)

/-- The error is one of the lexemes or of the structure of a source. -/
def Error.OfText : Error → Prop
  | lexical _ _ | syntactic _ _ => True
  | _ => False

theorem Error.ReadIn.ofText {source : List Char} {e : Error} (h : e.ReadIn source) : e.OfText := by
  cases e with
  | lexical | syntactic => trivial
  | _ => exact h.elim

theorem SymbolKind.ne_eval_of_hasScope {kind : SymbolKind} (h : kind.hasScope = true) (e : Eval) :
    kind ≠ .eval e := by
  rintro rfl
  cases h

/-! ## Steps -/

namespace Builder

/-- How a step may fail that reads below `parent`, from the tree `tree` and with `n` open scopes. -/
inductive Stops (source : List Char) (parent : Option Nat) (tree : SymbolTree) (n : Nat) :
    Step → Prop where
  | ok {b : Builder} : Stops source parent tree n (.ok b)
  | reading {left : SymbolTree} {e : Error} : e.ReadIn source → left.size ≤ tree.size →
      Stops source parent tree n (.error ⟨left, e⟩)
  | tooDeep {symbol : Symbol} : symbol.kind.hasScope = true → symbol.span.IsIn source →
      maxDepth ≤ n →
      Stops source parent tree n
        (.error ⟨tree.push parent symbol, .syntactic .scopesTooDeep symbol.position⟩)

namespace Stops

variable {α : Type} {source : List Char} {parent : Option Nat} {tree : SymbolTree} {n : Nat}
  {b : Builder} {good : α → Prop}

theorem fail {e : Error} (he : e.ReadIn source) (hsize : b.tree.size ≤ tree.size) :
    Stops source parent tree n (b.fail e) := .reading he hsize

theorem attempt {r : Except Error α} {go : α → Step} (hr : Answers source good r)
    (hsize : b.tree.size ≤ tree.size) (hgo : ∀ a, good a → Stops source parent tree n (go a)) :
    Stops source parent tree n (b.attempt r go) := by
  cases hr with
  | ok ha => exact hgo _ ha
  | error he => exact fail he hsize

theorem read {r : Reading α} {go : α → Builder → Step} (hr : Reads source good r)
    (hsize : b.tree.size ≤ tree.size) (hgo : ∀ a stream, good a → stream.IsIn source →
      Stops source parent tree n (go a { b with stream })) :
    Stops source parent tree n (b.read r go) := by
  cases hr with
  | ok ha => exact hgo _ _ ha.1 ha.2
  | error he => exact fail he hsize

theorem pushScope {symbol : Symbol} {scope : Nat → Scope} (b : Builder) (parent : Option Nat)
    (hk : symbol.kind.hasScope = true) (hspan : symbol.span.IsIn source) :
    Stops source parent b.tree b.scopes.length (b.pushScope parent symbol scope) := by
  rw [Builder.pushScope, Builder.enter]
  split
  · exact .tooDeep hk hspan ‹_›
  · exact .ok

end Stops

variable {b : Builder}

theorem stops_value (parent : Nat) (hs : b.stream.IsIn b.source) :
    Stops b.source (some parent) b.tree b.scopes.length (b.value parent) := by
  refine .read (reads_next hs) (Nat.le_refl _) fun first s hfirst hs => ?_
  split
  · refine .attempt (answers_comprehensionAhead hs) (Nat.le_refl _) fun comprehension _ => ?_
    split
    · exact .read (reads_comprehension hfirst hs) (Nat.le_refl _) fun _ _ _ _ => .ok
    split
    · exact .pushScope { b with stream := s } _ rfl hfirst
    · exact .pushScope { b with stream := s } _ rfl hfirst
  · exact .read (reads_operand hfirst hs) (Nat.le_refl _) fun _ _ _ _ => .ok

theorem stops_item (parent : Option Nat) {first : Token} (hfirst : first.span.IsIn b.source)
    (hs : b.stream.IsIn b.source) :
    Stops b.source parent b.tree b.scopes.length (b.item parent first) := by
  have hahead : Answers b.source (fun _ => True)
      (if first.kind = .ident then b.stream.peek.map (·.kind == .equals) else .ok false) := by
    split
    · exact (answers_peek hs).map fun _ _ => trivial
    · exact .ok trivial
  refine .attempt hahead (Nat.le_refl _) fun equalsAhead _ => ?_
  split
  · exact .pushScope { b with stream := b.stream.tail } _ rfl hfirst
  · exact .read (reads_labels hs) (Nat.le_refl _) fun _ s _ _ =>
      .pushScope { b with stream := s } _ rfl hfirst

theorem readIn_unmatched {source : List Char} {t : Token} (h : t.span.IsIn source) :
    t.unmatched.ReadIn source := ⟨nofun, h.start⟩

theorem stops_body (parent : Option Nat) (hs : b.stream.IsIn b.source)
    (hspans : ∀ id, (b.tree.span id).IsIn b.source) :
    Stops b.source parent b.tree b.scopes.length (b.body parent) := by
  have hskip := hs.suffix (suffix_skipNewlines _)
  refine .read (reads_next hskip) (Nat.le_refl _) fun t s ht hs => ?_
  split
  case h_1 | h_3 => exact .ok
  case h_2 => exact .fail (readIn_unclosed (hspans _).start _) (Nat.le_refl _)
  case h_4 | h_5 | h_6 => exact .fail (readIn_unmatched ht) (Nat.le_refl _)
  case h_7 | h_8 => exact stops_item (b := { b with stream := s }) _ ht hs
  case h_9 => exact .pushScope { b with stream := s } _ rfl ht
  case h_10 => exact .fail (readIn_unexpected ht _) (Nat.le_refl _)

/-- What follows a value fails before it changes anything, or leaves no more symbols. -/
theorem continuation_cases (parent : Nat) (hs : b.stream.IsIn b.source)
    (hspans : ∀ id, (b.tree.span id).IsIn b.source) :
    (∃ e, b.continuation parent = b.fail e ∧ e.ReadIn b.source) ∨
      ∃ b', b.continuation parent = .ok b' ∧ b'.stream.IsIn b.source ∧
        b'.tree.size ≤ b.tree.size := by
  rw [continuation]
  split
  · exact .inr ⟨b, rfl, hs, Nat.le_refl _⟩
  rename_i id _
  have hpeek := answers_peek hs
  generalize b.stream.peek = r at hpeek
  cases hpeek with
  | error he => exact .inl ⟨_, rfl, he⟩
  | @ok t ht =>
    dsimp only [attempt]
    split
    · have hend := reads_expressionEnd (hspans id) hs
      generalize b.stream.expressionEnd (b.tree.span id) = r at hend
      cases hend with
      | error he => exact .inl ⟨_, rfl, he⟩
      | ok hend =>
        refine .inr ⟨_, rfl, hend.2, ?_⟩
        simp only [SymbolTree.size, SymbolTree.collapse, Array.size_modify, Array.size_shrink]
        exact Nat.min_le_right _ _
    · exact .inr ⟨b, rfl, hs, Nat.le_refl _⟩

theorem size_closeAround (id : Nat) (t : SymbolTree) : (t.closeAround id).size = t.size := by
  rw [SymbolTree.closeAround]
  split
  · simp [SymbolTree.close, SymbolTree.size]
  · rfl

section Ends

variable {source : List Char} {parent : Option Nat} {tree : SymbolTree} {n : Nat}

theorem stops_attrEnd (hs : b.stream.IsIn source) (hsize : b.tree.size ≤ tree.size) :
    Stops source parent tree n b.attrEnd := by
  refine .attempt (answers_peek hs) hsize fun t ht => ?_
  split
  case h_4 =>
    split
    · exact .ok
    · exact .fail (readIn_unexpected ht _) hsize
  case h_5 => exact .fail (readIn_unexpected ht _) hsize
  all_goals exact .ok

theorem stops_separator (hs : b.stream.IsIn source) (hsize : b.tree.size ≤ tree.size) :
    Stops source parent tree n b.separator := by
  have hskip := hs.suffix (suffix_skipNewlines _)
  refine .attempt (answers_peek hs) hsize fun first _ =>
    .attempt (answers_peek hskip) hsize fun t ht => ?_
  split
  · exact .ok
  split
  · exact .ok
  · exact .fail (readIn_unexpected ht _) hsize

end Ends

theorem stops_attr (id : Nat) (complete : Bool) (hs : b.stream.IsIn b.source)
    (hspans : ∀ id, (b.tree.span id).IsIn b.source) :
    Stops b.source (some id) b.tree b.scopes.length (b.attr id complete) := by
  rw [attr]
  split
  · rcases continuation_cases id hs hspans with ⟨e, hc, he⟩ | ⟨b', hc, hs', hsize⟩
    · rw [hc]
      exact .fail he (Nat.le_refl _)
    · rw [hc]
      exact stops_attrEnd (b := leave { b' with tree := b'.tree.closeAround id }) hs'
        (Nat.le_trans (Nat.le_of_eq (size_closeAround id b'.tree)) hsize)
  · exact stops_value id hs

theorem stops_array (id : Nat) (complete : Bool) (hs : b.stream.IsIn b.source)
    (hspans : ∀ id, (b.tree.span id).IsIn b.source) :
    Stops b.source (some id) b.tree b.scopes.length (b.array id complete) := by
  simp only [array]
  split
  · rcases continuation_cases (b := { b with scopes := .array id false :: b.scopes.tail }) id hs
      hspans with ⟨e, hc, he⟩ | ⟨b', hc, hs', hsize⟩
    · rw [hc]
      exact .fail he (Nat.le_refl _)
    · rw [hc]
      exact stops_separator hs' hsize
  have hskip := hs.suffix (suffix_skipNewlines _)
  refine .attempt (answers_peek hskip) (Nat.le_refl _) fun t ht => ?_
  split
  · exact .ok
  · exact .fail (readIn_unclosed (hspans id).start _) (Nat.le_refl _)
  · exact stops_value (b := { b with stream := b.stream.skipNewlines }) id hskip

theorem stops_entry (map : Nat) (key : String) {span : Span} (hspan : span.IsIn b.source)
    (hs : b.stream.IsIn b.source) :
    Stops b.source (some map) b.tree b.scopes.length (b.entry map key span) := by
  refine .read (reads_next hs) (Nat.le_refl _) fun t s ht _ => ?_
  split
  · exact .pushScope { b with stream := s } _ rfl hspan
  · exact .fail (readIn_unexpected ht _) (Nat.le_refl _)

theorem stops_map (id : Nat) (hs : b.stream.IsIn b.source)
    (hspans : ∀ id, (b.tree.span id).IsIn b.source) :
    Stops b.source (some id) b.tree b.scopes.length (b.map id) := by
  have hskip := hs.suffix (suffix_skipNewlines _)
  refine .read (reads_next hskip) (Nat.le_refl _) fun t s ht hs => ?_
  split
  case h_1 => exact .ok
  case h_2 => exact .fail (readIn_unclosed (hspans id).start _) (Nat.le_refl _)
  case h_8 =>
    exact .read (b := { b with stream := s }) (reads_skipGroup ht.start hs) (Nat.le_refl _)
      fun stop s' hstop hs' => stops_entry (b := { b with stream := s' }) id _ (ht.upTo hstop) hs'
  case h_9 => exact .fail (readIn_unexpected ht _) (Nat.le_refl _)
  all_goals exact stops_entry (b := { b with stream := s }) id _ ht hs

theorem stops_step (scope : Scope) (hs : b.stream.IsIn b.source)
    (hspans : ∀ id, (b.tree.span id).IsIn b.source) :
    Stops b.source scope.symbol? b.tree b.scopes.length (b.step scope) := by
  cases scope with
  | document => exact stops_body none hs hspans
  | block id => exact stops_body (some id) hs hspans
  | attr id complete => exact stops_attr id complete hs hspans
  | array id complete => exact stops_array id complete hs hspans
  | map id => exact stops_map id hs hspans

end Builder

/-! ## Stages -/

/-- How a step from a stage fails, and what it leaves. -/
inductive Stage.Fails (source : List Char) (st : Stage) : Stopped → Prop where
  | reading {sp : Spine} {c : Bool} {e : Error} : e.ReadIn source → sp.Sound c →
      Leaves source st sp → sp.size ≤ st.spine.size → Fails source st ⟨sp.tree, e⟩
  | tooDeep {symbol : Symbol} {c : Bool} : symbol.kind.hasScope = true →
      symbol.span.IsIn source → maxDepth ≤ st.spine.depth + 1 →
      Fails source st
        ⟨(st.spine.under symbol []).tree, .syntactic .scopesTooDeep symbol.position⟩

variable {source : List Char}

theorem Stage.fails_of_step {st : Stage} {stopped : Stopped} {sp : Spine} {c : Bool}
    (hst : st.IsIn source) (hstep : st.step source = .error stopped)
    (htree : stopped.tree = sp.tree) (hsound : sp.Sound c) (hleaves : Leaves source st sp) :
    st.Fails source stopped := by
  have hstops : Builder.Stops source (st.spine.scope st.complete).symbol? st.spine.tree
      (st.spine.scopes st.complete).length (st.step source) :=
    Builder.stops_step (b := st.builder source) _ hst.stream hst.spine.span_tree
  rw [hstep, Spine.symbol?_scope, Spine.length_scopes] at hstops
  cases hstops with
  | reading he hsize =>
    dsimp only at htree
    subst htree
    rw [Spine.size_tree, Spine.size_tree] at hsize
    exact .reading he hsound hleaves hsize
  | tooDeep hk hspan hdepth =>
    rw [← Spine.tree_open]
    exact .tooDeep (c := c) hk hspan hdepth

/-- A run ends at a stage of its own, at the end of the source or with a step that fails there. -/
inductive Stage.Halts (source : List Char) (st : Stage) : Parsed → Prop where
  | finish {trees : List Tree} : st.spine = .root trees → Halts source st ⟨st.spine.tree, none⟩
  | fails {stopped : Stopped} : st.step source = .error stopped → st.Fails source stopped →
      Halts source st ⟨stopped.tree, some stopped.error⟩

theorem exists_halts_parseTree (source : String) :
    ∃ st : Stage, st.Reached source ∧ st.Halts source.toList (parseTree source) := by
  obtain ⟨st, hmoves, -, hends⟩ := exists_ends_parseTree source
  have hst := Stage.Reached.of_moves hmoves
  refine ⟨st, hst, ?_⟩
  generalize parseTree source = parsed at hends
  cases hends with
  | finish hroot => exact .finish hroot
  | stop hstep htree hsp hleaves =>
    exact .fails hstep (Stage.fails_of_step hst.isIn hstep htree hsp hleaves)

/-! ## What is left -/

theorem Leaves.isIn {st : Stage} {sp : Spine} (h : Leaves source st sp) (hst : st.IsIn source)
    (hsize : sp.size ≤ st.spine.size) : sp.IsIn source := by
  obtain ⟨hsp, hs⟩ := hst
  cases h with
  | same => exact hsp
  | opened =>
    simp only [Spine.size, sizeAll_nil] at hsize
    omega
  | @attr outer symbol v v' s s' hk hx =>
    have hvalue : (outer.under symbol ([] ++ [v])).IsIn source := hsp
    obtain ⟨hv', hlevel⟩ := hvalue.extend hx hs
    exact Spine.IsIn.closed hlevel hv'.span (by simp [hk])
  | element _ hx => exact (Spine.IsIn.extend hsp hx hs).2

theorem Stage.Fails.exists_spine {st : Stage} {stopped : Stopped} (h : st.Fails source stopped)
    (hst : st.IsIn source) : ∃ sp : Spine, stopped.tree = sp.tree ∧ sp.IsIn source := by
  cases h with
  | reading _ _ hleaves hsize => exact ⟨_, rfl, hleaves.isIn hst hsize⟩
  | tooDeep hk hspan =>
    exact ⟨_, rfl, hst.spine.opened hspan (SymbolKind.ne_eval_of_hasScope hk)⟩

/-- The tree of a source is that of a spine, wherever the reading stopped. -/
theorem exists_spine_parseTree (source : String) :
    ∃ sp : Spine, (parseTree source).tree = sp.tree ∧ sp.IsIn source.toList := by
  obtain ⟨st, hst, hhalts⟩ := exists_halts_parseTree source
  generalize parseTree source = parsed at hhalts
  cases hhalts with
  | finish => exact ⟨st.spine, rfl, hst.isIn.spine⟩
  | fails _ hfails => exact hfails.exists_spine hst.isIn

/-! ## Errors -/

theorem Stage.Fails.readsAt {st : Stage} {stopped : Stopped} (h : st.Fails source stopped) :
    stopped.error.OfText ∧ ∃ p, stopped.error.position? = some p ∧ p.IsIn source := by
  cases h with
  | @reading sp c e he =>
    refine ⟨he.ofText, ?_⟩
    cases e with
    | lexical fault p => exact ⟨p, rfl, he⟩
    | syntactic fault p => exact ⟨p, rfl, he.2⟩
    | _ => exact he.elim
  | tooDeep _ hspan => exact ⟨trivial, _, rfl, hspan.start⟩

theorem readsAt_parseTree {source : String} {e : Error} (h : (parseTree source).error = some e) :
    e.OfText ∧ ∃ p, e.position? = some p ∧ p.IsIn source.toList := by
  obtain ⟨st, -, hhalts⟩ := exists_halts_parseTree source
  generalize parseTree source = parsed at h hhalts
  cases hhalts with
  | finish => cases h
  | fails _ hfails =>
    cases h
    exact hfails.readsAt

/-- A source that cannot be read to its end has an error in its lexemes or in its structure. -/
theorem ofText_parseTree {source : String} {e : Error} (h : (parseTree source).error = some e) :
    e.OfText := (readsAt_parseTree h).1

end Hcl
