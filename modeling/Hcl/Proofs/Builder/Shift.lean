import Hcl.Proofs.Builder.Run
import Hcl.Proofs.TokenStream.Shift

/-!
# A builder behind a finished tree

A builder that goes on with a tree grows it by what it would have built alone: numbers are shifted
by the size of the tree, places by the text in front. No step looks at what was there before.
-/

namespace Hcl

open Hcl.Tree

/-- An entry behind `n` other ones. -/
def Entry.shift (d : Shift) (n : Nat) (e : Entry) : Entry :=
  ⟨e.symbol.shift d, e.parent.map (· + n), e.children.map (· + n), e.attributes.map (· + n)⟩

/-- The symbols of `base` and behind them those of `t`. -/
def SymbolTree.followedBy (base : SymbolTree) (d : Shift) (t : SymbolTree) : SymbolTree :=
  ⟨base.entries ++ t.entries.map (Entry.shift d base.size),
    base.roots ++ t.roots.map (· + base.size)⟩

namespace SymbolTree

variable {d : Shift} {base t : SymbolTree} {id child : Nat}

@[simp] theorem size_followedBy (base : SymbolTree) (d : Shift) (t : SymbolTree) :
    (base.followedBy d t).size = t.size + base.size := by
  simp [followedBy, size, Nat.add_comm]

@[simp] theorem followedBy_empty (base : SymbolTree) (d : Shift) :
    base.followedBy d .empty = base := by
  simp [followedBy, empty]

theorem get?_followedBy (base : SymbolTree) (d : Shift) (t : SymbolTree) (id : Nat) :
    (base.followedBy d t).get? (id + base.size) = (t.get? id).map (Entry.shift d base.size) := by
  have hle : base.entries.size ≤ id + base.entries.size := Nat.le_add_left ..
  simp only [get?, followedBy, size, Array.getElem?_append_right hle, Nat.add_sub_cancel,
    Array.getElem?_map]

theorem lastChild?_followedBy (base : SymbolTree) (d : Shift) (t : SymbolTree) (id : Nat) :
    (base.followedBy d t).lastChild? (id + base.size) = (t.lastChild? id).map (· + base.size) := by
  rw [lastChild?, get?_followedBy, lastChild?]
  cases t.get? id <;> simp [Entry.shift]

theorem span_followedBy (base : SymbolTree) (d : Shift) (h : id < t.size) :
    (base.followedBy d t).span (id + base.size) = (t.span id).shift d := by
  have hget : t.get? id = some t.entries[id] := Array.getElem?_eq_getElem h
  rw [span, get?_followedBy, span, hget]
  rfl

private theorem modify_append_map {α : Type} (as bs : Array α) (i : Nat) (f g g' : α → α)
    (h : ∀ a, g' (f a) = f (g a)) :
    (as ++ bs.map f).modify (i + as.size) g' = as ++ (bs.modify i g).map f := by
  refine Array.ext_getElem? fun j => ?_
  by_cases hj : j < as.size
  · have hne : i + as.size ≠ j := by omega
    rw [Array.getElem?_modify, if_neg hne, Array.getElem?_append_left hj,
      Array.getElem?_append_left hj]
  · have hle : as.size ≤ j := Nat.le_of_not_lt hj
    rw [Array.getElem?_modify, Array.getElem?_append_right hle, Array.getElem?_append_right hle,
      Array.getElem?_map, Array.getElem?_map, Array.getElem?_modify]
    by_cases hi : i = j - as.size
    · have hi' : i + as.size = j := by omega
      rw [if_pos hi, if_pos hi']
      cases bs[j - as.size]? with
      | none => rfl
      | some a => exact congrArg some (h a)
    · have hi' : i + as.size ≠ j := by omega
      rw [if_neg hi, if_neg hi']

theorem push_followedBy (base : SymbolTree) (d : Shift) (t : SymbolTree) (parent : Option Nat)
    (symbol : Symbol) :
    (base.followedBy d t).push (parent.map (· + base.size)) (symbol.shift d) =
      base.followedBy d (t.push parent symbol) := by
  cases parent with
  | none => simp [push, followedBy, size, Entry.shift, Entry.leaf, Nat.add_comm]
  | some p =>
    have hadd : ∀ e : Entry,
        Entry.addChild (t.size + base.size) (symbol.shift d) (e.shift d base.size) =
          (Entry.addChild t.size symbol e).shift d base.size := by
      intro e
      have hlists : (e.symbol.shift d).listsAttributes = e.symbol.listsAttributes := rfl
      have hattr : (symbol.shift d).isAttribute = symbol.isAttribute := rfl
      simp only [Entry.addChild, Entry.shift, hlists, hattr, Array.map_push]
      split <;> simp
    have hentries : (base.followedBy d t).entries.modify (p + base.size)
        (Entry.addChild (t.size + base.size) (symbol.shift d)) =
        base.entries ++ (t.entries.modify p (Entry.addChild t.size symbol)).map
          (Entry.shift d base.size) :=
      modify_append_map _ _ _ _ _ _ hadd
    simp only [push, Option.map_some, size_followedBy, hentries]
    simp [followedBy, Entry.shift, Entry.leaf]

theorem close_followedBy (base : SymbolTree) (d : Shift) (t : SymbolTree) (id : Nat) (stop : Span) :
    (base.followedBy d t).close (id + base.size) (stop.shift d) =
      base.followedBy d (t.close id stop) := by
  have hclose := modify_append_map base.entries t.entries id (Entry.shift d base.size)
    (fun e => { e with symbol := { e.symbol with span := e.symbol.span.upTo stop } })
    (fun e => { e with symbol := { e.symbol with span := e.symbol.span.upTo (stop.shift d) } })
    fun e => by
      have hspan := Span.upTo_shift (d := d) e.symbol.span stop
      simp only [Entry.shift, Symbol.shift, hspan]
  exact congrArg (mk · (base.roots ++ t.roots.map (· + base.size))) hclose

theorem collapse_followedBy (base : SymbolTree) (d : Shift) (t : SymbolTree) (id : Nat)
    (symbol : Symbol) :
    (base.followedBy d t).collapse (id + base.size) (symbol.shift d) =
      base.followedBy d (t.collapse id symbol) := by
  have hshrink : (base.followedBy d t).entries.shrink (id + base.size + 1) =
      base.entries ++ (t.entries.shrink (id + 1)).map (Entry.shift d base.size) := by
    have hlength : id + base.entries.size + 1 = base.entries.size + (id + 1) := by omega
    rw [size, hlength]
    simp [followedBy, size]
  have hleaf := modify_append_map base.entries (t.entries.shrink (id + 1)) id
    (Entry.shift d base.size) (fun e => .leaf symbol e.parent)
    (fun e => .leaf (symbol.shift d) e.parent) fun e => by simp [Entry.leaf, Entry.shift]
  simp only [collapse, hshrink]
  exact congrArg (mk · (base.roots ++ t.roots.map (· + base.size))) hleaf

/-- The child that stands for everything added after it is the last symbol. -/
theorem lastChild?_collapse {parent : Nat} (hlast : t.lastChild? parent = some id) (h : id < t.size)
    (symbol : Symbol) :
    ∀ child ∈ (t.collapse id symbol).lastChild? parent, child < (t.collapse id symbol).size := by
  have hsize : (t.collapse id symbol).size = id + 1 := by
    have hle : id + 1 ≤ t.entries.size := h
    simp [collapse, size, hle]
  intro child hchild
  obtain ⟨e, he, hback⟩ := Option.bind_eq_some_iff.mp hchild
  have he : ((t.entries.shrink (id + 1)).modify id fun e => .leaf symbol e.parent)[parent]? = some e :=
    he
  rw [Array.getElem?_modify] at he
  split at he
  · obtain ⟨e', -, rfl⟩ := Option.map_eq_some_iff.mp he
    cases hback
  · have hget : t.get? parent = some e := by
      obtain ⟨hlt, hentry⟩ := Array.getElem?_eq_some_iff.mp he
      rw [Array.getElem_shrink] at hentry
      exact Array.getElem?_eq_some_iff.mpr ⟨_, hentry⟩
    rw [lastChild?, hget, Option.bind_some, hback, Option.some.injEq] at hlast
    omega

theorem closeAround_followedBy (base : SymbolTree) (d : Shift)
    (h : ∀ child ∈ t.lastChild? id, child < t.size) :
    (base.followedBy d t).closeAround (id + base.size) = base.followedBy d (t.closeAround id) := by
  rw [closeAround, closeAround, lastChild?_followedBy]
  cases hlast : t.lastChild? id with
  | none => rfl
  | some child =>
    simp only [Option.map_some, span_followedBy base d (h child hlast), close_followedBy]

end SymbolTree

/-! ## Builders -/

def Scope.shift (n : Nat) : Scope → Scope
  | document => document
  | block id => block (id + n)
  | attr id complete => attr (id + n) complete
  | array id complete => array (id + n) complete
  | map id => map (id + n)

def Stopped.shift (before : List Char) (base : SymbolTree) (stopped : Stopped) : Stopped :=
  ⟨base.followedBy (.behind before) stopped.tree, stopped.error.shift (.behind before)⟩

namespace Builder

/-- The builder behind the text `before`, whose tree is `base`. -/
def shift (before : List Char) (base : SymbolTree) (b : Builder) : Builder :=
  ⟨before ++ b.source, b.stream.shift (.behind before), base.followedBy (.behind before) b.tree,
    b.scopes.map (Scope.shift base.size)⟩

/-- What comes of a step behind the text `before`. -/
def shiftStep (before : List Char) (base : SymbolTree) : Step → Step
  | .ok b => .ok (b.shift before base)
  | .error stopped => .error (stopped.shift before base)

variable {before : List Char} {base : SymbolTree} {α : Type}

section Parts

variable (before : List Char) (base : SymbolTree) (b : Builder)

@[simp] theorem source_shift : (b.shift before base).source = before ++ b.source := rfl
@[simp] theorem stream_shift : (b.shift before base).stream = b.stream.shift (.behind before) := rfl
@[simp] theorem tree_shift :
    (b.shift before base).tree = base.followedBy (.behind before) b.tree := rfl

/-- A builder that differs in its stream. -/
theorem with_stream_shift (s : TokenStream) :
    { b.shift before base with stream := s.shift (.behind before) } =
      ({ b with stream := s } : Builder).shift before base := rfl

theorem with_tree_shift (t : SymbolTree) :
    { b.shift before base with tree := base.followedBy (.behind before) t } =
      ({ b with tree := t } : Builder).shift before base := rfl

theorem fail_shift (e : Error) :
    (b.shift before base).fail (e.shift (.behind before)) = shiftStep before base (b.fail e) := rfl

theorem attempt_shift {f : α → α} {r : Except Error α} {go go' : α → Step}
    (h : ∀ a, go' (f a) = shiftStep before base (go a)) :
    (b.shift before base).attempt (shiftOutcome (.behind before) f r) go' =
      shiftStep before base (b.attempt r go) := by
  cases r with
  | error e => rfl
  | ok a => exact h a

theorem read_shift {f : α → α} {r : Reading α} {go go' : α → Builder → Step}
    (h : ∀ a s, go' (f a) (({ b with stream := s } : Builder).shift before base) =
      shiftStep before base (go a { b with stream := s })) :
    (b.shift before base).read (r.shift (.behind before) f) go' =
      shiftStep before base (b.read r go) := by
  cases r with
  | error e => rfl
  | ok r => exact h r.1 r.2

/-! ### Scopes and symbols -/

theorem complete_map_shift (n : Nat) (scopes : List Scope) :
    complete (scopes.map (Scope.shift n)) = (complete scopes).map (Scope.shift n) := by
  cases scopes with
  | nil => rfl
  | cons s ss => cases s <;> rfl

theorem leave_shift : (b.shift before base).leave = b.leave.shift before base := by
  simp only [leave, shift, ← List.map_tail, complete_map_shift]

theorem inMap_shift : (b.shift before base).inMap = b.inMap := by
  obtain ⟨source, stream, tree, scopes⟩ := b
  cases scopes with
  | nil => rfl
  | cons s ss => cases s <;> rfl

theorem push_shift (parent : Option Nat) (symbol : Symbol) :
    (b.shift before base).push (parent.map (· + base.size)) (symbol.shift (.behind before)) =
      (b.push parent symbol).shift before base := by
  have htree := base.push_followedBy (.behind before) b.tree parent symbol
  simp only [push, shift, htree]

theorem pushScope_shift (parent : Option Nat) (symbol : Symbol) {scope : Nat → Scope}
    (hscope : ∀ id, scope (id + base.size) = (scope id).shift base.size) :
    (b.shift before base).pushScope (parent.map (· + base.size)) (symbol.shift (.behind before))
        scope =
      shiftStep before base (b.pushScope parent symbol scope) := by
  rw [pushScope, pushScope, push_shift, tree_shift, SymbolTree.size_followedBy, hscope]
  simp only [enter, shift, List.length_map]
  split <;> rfl

theorem pushValue_shift (parent : Nat) (symbol : Symbol) :
    (b.shift before base).pushValue (parent + base.size) (symbol.shift (.behind before)) =
      (b.pushValue parent symbol).shift before base := by
  have hpush := push_shift before base b (some parent) symbol
  rw [Option.map_some] at hpush
  rw [pushValue, hpush, pushValue]
  simp only [shift, complete_map_shift]

/-! ### Values -/

theorem value_shift (parent : Nat) :
    (b.shift before base).value (parent + base.size) = shiftStep before base (b.value parent) := by
  rw [value, value, stream_shift, TokenStream.next_shift]
  refine read_shift before base b fun first s => ?_
  generalize ({ b with stream := s } : Builder) = b
  by_cases hb : first.kind = .lBracket ∨ first.kind = .lBrace
  · have hb' : (first.shift (.behind before)).kind = .lBracket ∨
      (first.shift (.behind before)).kind = .lBrace := hb
    rw [if_pos hb, if_pos hb', stream_shift, TokenStream.comprehensionAhead_shift]
    refine attempt_shift before base b fun ahead => ?_
    cases ahead with
    | true =>
      rw [id, if_pos rfl, if_pos rfl, source_shift, TokenStream.comprehension_shift]
      exact read_shift before base b fun v s => congrArg Except.ok (pushValue_shift _ _ _ parent v)
    | false =>
      rw [id, if_neg Bool.false_ne_true, if_neg Bool.false_ne_true]
      by_cases hl : first.kind = .lBracket
      · have hl' : (first.shift (.behind before)).kind = .lBracket := hl
        rw [if_pos hl, if_pos hl']
        exact pushScope_shift before base b (some parent) (.array first.span) fun _ => rfl
      · have hl' : (first.shift (.behind before)).kind ≠ .lBracket := hl
        rw [if_neg hl, if_neg hl']
        exact pushScope_shift before base b (some parent) (.map first.span) fun _ => rfl
  · have hb' : ¬((first.shift (.behind before)).kind = .lBracket ∨
      (first.shift (.behind before)).kind = .lBrace) := hb
    rw [if_neg hb, if_neg hb', stream_shift, source_shift, TokenStream.operand_shift]
    exact read_shift before base b fun v s => congrArg Except.ok (pushValue_shift _ _ _ parent v)

theorem continuation_shift {parent : Nat}
    (h : ∀ child ∈ b.tree.lastChild? parent, child < b.tree.size) :
    (b.shift before base).continuation (parent + base.size) =
      shiftStep before base (b.continuation parent) := by
  rw [continuation, continuation, tree_shift, SymbolTree.lastChild?_followedBy]
  cases hlast : b.tree.lastChild? parent with
  | none => rfl
  | some id =>
    simp only [Option.map_some, stream_shift, TokenStream.peek_shift]
    refine attempt_shift before base b fun t => ?_
    by_cases hop : t.kind = .operator ∨ t.kind = .question
    · have hop' : (t.shift (.behind before)).kind = .operator ∨
        (t.shift (.behind before)).kind = .question := hop
      rw [if_pos hop, if_pos hop', SymbolTree.span_followedBy base _ (h id hlast),
        TokenStream.expressionEnd_shift]
      refine read_shift before base b fun stop s => congrArg Except.ok ?_
      have hcollapse := base.collapse_followedBy (.behind before) b.tree id
        (.eval b.source .operation none (b.tree.span id) stop)
      rw [← Symbol.eval_shift] at hcollapse
      simp only [tree_shift, source_shift, hcollapse]
      rfl
    · have hop' : ¬((t.shift (.behind before)).kind = .operator ∨
        (t.shift (.behind before)).kind = .question) := hop
      rw [if_neg hop, if_neg hop']
      rfl

/-! ### Bodies -/

theorem item_shift (parent : Option Nat) (first : Token) :
    (b.shift before base).item (parent.map (· + base.size)) (first.shift (.behind before)) =
      shiftStep before base (b.item parent first) := by
  have hahead : (if (first.shift (.behind before)).kind = .ident then
      (b.shift before base).stream.peek.map (·.kind == .equals) else .ok false) =
      shiftOutcome (.behind before) id (if first.kind = .ident then
        b.stream.peek.map (·.kind == .equals) else .ok false) := by
    by_cases hk : first.kind = .ident
    · have hk' : (first.shift (.behind before)).kind = .ident := hk
      rw [if_pos hk, if_pos hk', stream_shift, TokenStream.peek_shift]
      cases b.stream.peek <;> rfl
    · have hk' : (first.shift (.behind before)).kind ≠ .ident := hk
      rw [if_neg hk, if_neg hk']
      rfl
  rw [item, item]
  dsimp only
  rw [hahead]
  refine attempt_shift before base b fun ahead => ?_
  cases ahead with
  | true =>
    rw [id, if_pos rfl, if_pos rfl, stream_shift, TokenStream.tail_shift]
    exact pushScope_shift before base { b with stream := b.stream.tail } parent
      (.attr first.text first.span) fun _ => rfl
  | false =>
    rw [id, if_neg Bool.false_ne_true, if_neg Bool.false_ne_true, stream_shift, Token.text_shift,
      TokenStream.labels_shift]
    exact read_shift before base b fun names s =>
      pushScope_shift before base { b with stream := s } parent (.block names first.span) fun _ => rfl

theorem close_shift (id : Nat) (stop : Span) :
    { b.shift before base with
        tree := (b.shift before base).tree.close (id + base.size) (stop.shift (.behind before)) }.leave =
      ({ b with tree := b.tree.close id stop } : Builder).leave.shift before base := by
  rw [tree_shift, SymbolTree.close_followedBy, with_tree_shift, leave_shift]

theorem unclosed_shift (what : Construct) {id : Nat} (h : id < b.tree.size) :
    (b.shift before base).fail
        (what.unclosed ((b.shift before base).tree.position (id + base.size))) =
      shiftStep before base (b.fail (what.unclosed (b.tree.position id))) := by
  rw [tree_shift, SymbolTree.position, SymbolTree.span_followedBy base _ h, Span.start_shift,
    Construct.unclosed_shift]
  exact fail_shift before base b _

theorem body_shift (parent : Option Nat) (h : ∀ id ∈ parent, id < b.tree.size) :
    (b.shift before base).body (parent.map (· + base.size)) =
      shiftStep before base (b.body parent) := by
  rw [body, body, stream_shift, TokenStream.skipNewlines_shift, TokenStream.next_shift]
  refine read_shift before base b fun t s => ?_
  have h : ∀ id ∈ parent, id < ({ b with stream := s } : Builder).tree.size := h
  generalize ({ b with stream := s } : Builder) = b at h ⊢
  have hitem := item_shift before base b parent t
  obtain ⟨kind, text, span⟩ := t
  cases kind with
  | eof =>
    cases parent with
    | none => exact congrArg Except.ok (leave_shift before base b)
    | some id => exact unclosed_shift before base b .block (h id rfl)
  | rBrace =>
    cases parent with
    | none => rfl
    | some id => exact congrArg Except.ok (close_shift before base b id span)
  | ident | string => exact hitem
  | lBracket => exact pushScope_shift before base b parent (.array span) fun _ => rfl
  | _ => rfl

/-! ### Attributes and arrays -/

theorem attrEnd_shift : (b.shift before base).attrEnd = shiftStep before base b.attrEnd := by
  rw [attrEnd, attrEnd, stream_shift, TokenStream.peek_shift]
  refine attempt_shift before base b fun t => ?_
  rw [inMap_shift, TokenStream.tail_shift]
  obtain ⟨kind, text, span⟩ := t
  cases kind with
  | comma =>
    dsimp only [Token.shift]
    cases b.inMap <;> rfl
  | _ => rfl

theorem bind_shift {r r' : Step} {go go' : Builder → Step} (hr : r' = shiftStep before base r)
    (h : ∀ b, r = .ok b → go' (b.shift before base) = shiftStep before base (go b)) :
    r'.bind go' = shiftStep before base (r.bind go) := by
  subst hr
  cases r with
  | error stopped => rfl
  | ok b => exact h b rfl

theorem lastChild?_of_continuation {parent : Nat} {b' : Builder}
    (h : ∀ child ∈ b.tree.lastChild? parent, child < b.tree.size)
    (hb : b.continuation parent = .ok b') :
    ∀ child ∈ b'.tree.lastChild? parent, child < b'.tree.size := by
  rw [continuation] at hb
  cases hlast : b.tree.lastChild? parent with
  | none =>
    simp only [hlast, Except.ok.injEq] at hb
    exact hb ▸ h
  | some id =>
    simp only [hlast] at hb
    obtain ⟨t, -, hb⟩ := attempt_eq_ok hb
    split at hb
    · obtain ⟨stop, s, -, hb⟩ := read_eq_ok hb
      simp only [Except.ok.injEq] at hb
      subst hb
      exact SymbolTree.lastChild?_collapse hlast (h id hlast) _
    · simp only [Except.ok.injEq] at hb
      exact hb ▸ h

theorem attr_shift {id : Nat} (complete : Bool)
    (h : ∀ child ∈ b.tree.lastChild? id, child < b.tree.size) :
    (b.shift before base).attr (id + base.size) complete =
      shiftStep before base (b.attr id complete) := by
  cases complete with
  | false => exact value_shift before base b id
  | true =>
    refine bind_shift before base (continuation_shift before base b h) fun b' hb => ?_
    rw [tree_shift, SymbolTree.closeAround_followedBy _ _ (lastChild?_of_continuation b h hb),
      with_tree_shift, leave_shift, attrEnd_shift]

theorem separator_shift : (b.shift before base).separator = shiftStep before base b.separator := by
  rw [separator, separator, stream_shift, TokenStream.peek_shift]
  refine attempt_shift before base b fun first => ?_
  rw [TokenStream.skipNewlines_shift, with_stream_shift]
  generalize ({ b with stream := b.stream.skipNewlines } : Builder) = b
  dsimp only
  rw [stream_shift, TokenStream.peek_shift]
  refine attempt_shift before base b fun t => ?_
  by_cases hcomma : t.kind = .comma
  · have hcomma' : (t.shift (.behind before)).kind = .comma := hcomma
    rw [if_pos hcomma, if_pos hcomma', TokenStream.tail_shift]
    rfl
  have hcomma' : (t.shift (.behind before)).kind ≠ .comma := hcomma
  rw [if_neg hcomma, if_neg hcomma']
  by_cases hstop : t.kind = .rBracket ∨ first.kind = .newline
  · have hstop' : (t.shift (.behind before)).kind = .rBracket ∨
      (first.shift (.behind before)).kind = .newline := hstop
    rw [if_pos hstop, if_pos hstop']
    rfl
  · have hstop' : ¬((t.shift (.behind before)).kind = .rBracket ∨
      (first.shift (.behind before)).kind = .newline) := hstop
    rw [if_neg hstop, if_neg hstop']
    rfl

theorem array_shift {id : Nat} (complete : Bool) (hid : id < b.tree.size)
    (h : ∀ child ∈ b.tree.lastChild? id, child < b.tree.size) :
    (b.shift before base).array (id + base.size) complete =
      shiftStep before base (b.array id complete) := by
  cases complete with
  | true =>
    have hscopes : { b.shift before base with
        scopes := .array (id + base.size) false :: (b.shift before base).scopes.tail } =
        ({ b with scopes := .array id false :: b.scopes.tail } : Builder).shift before base := by
      simp [shift, Scope.shift]
    rw [array, array, if_pos rfl, if_pos rfl]
    refine bind_shift before base ?_ fun b' _ => separator_shift before base b'
    rw [hscopes]
    exact continuation_shift before base _ h
  | false =>
    rw [array, array, if_neg Bool.false_ne_true, if_neg Bool.false_ne_true, stream_shift,
      TokenStream.skipNewlines_shift, with_stream_shift]
    have hid : id < ({ b with stream := b.stream.skipNewlines } : Builder).tree.size := hid
    generalize ({ b with stream := b.stream.skipNewlines } : Builder) = b at hid ⊢
    dsimp only
    rw [stream_shift, TokenStream.peek_shift]
    refine attempt_shift before base b fun t => ?_
    have hvalue := value_shift before base b id
    obtain ⟨kind, text, span⟩ := t
    cases kind with
    | rBracket =>
      have hclose := close_shift before base { b with stream := b.stream.tail } id span
      rw [← with_stream_shift, ← TokenStream.tail_shift] at hclose
      exact congrArg Except.ok hclose
    | eof => exact unclosed_shift before base b .array hid
    | _ => exact hvalue

/-! ### Maps -/

theorem entry_shift (id : Nat) (key : String) (span : Span) :
    (b.shift before base).entry (id + base.size) key (span.shift (.behind before)) =
      shiftStep before base (b.entry id key span) := by
  rw [entry, entry, stream_shift, TokenStream.next_shift]
  refine read_shift before base b fun t s => ?_
  by_cases hsign : t.kind = .equals ∨ t.kind = .colon
  · have hsign' : (t.shift (.behind before)).kind = .equals ∨
      (t.shift (.behind before)).kind = .colon := hsign
    rw [if_pos hsign, if_pos hsign']
    exact pushScope_shift before base _ (some id) (.attr key span) fun _ => rfl
  · have hsign' : ¬((t.shift (.behind before)).kind = .equals ∨
      (t.shift (.behind before)).kind = .colon) := hsign
    rw [if_neg hsign, if_neg hsign']
    rfl

theorem map_shift {id : Nat} (h : id < b.tree.size) :
    (b.shift before base).map (id + base.size) = shiftStep before base (b.map id) := by
  rw [map, map, stream_shift, TokenStream.skipNewlines_shift, TokenStream.next_shift]
  refine read_shift before base b fun t s => ?_
  have h : id < ({ b with stream := s } : Builder).tree.size := h
  generalize ({ b with stream := s } : Builder) = b at h ⊢
  have hentry := entry_shift before base b id t.text t.span
  obtain ⟨kind, text, span⟩ := t
  cases kind with
  | rBrace => exact congrArg Except.ok (close_shift before base b id span)
  | eof => exact unclosed_shift before base b .map h
  | ident | string | number | bool | null => exact hentry
  | lParen =>
    dsimp only [Token.shift]
    rw [stream_shift, Span.start_shift, TokenStream.skipGroup_shift]
    refine read_shift before base b fun stop s => ?_
    dsimp only
    rw [Span.upTo_shift, source_shift, Span.slice?_shift]
    exact entry_shift before base _ id _ _
  | _ => rfl

/-! ## Steps -/

theorem step_shift {scope : Scope} (hid : ∀ id ∈ scope.symbol?, id < b.tree.size)
    (hchild : ∀ id ∈ scope.symbol?, ∀ child ∈ b.tree.lastChild? id, child < b.tree.size) :
    (b.shift before base).step (scope.shift base.size) = shiftStep before base (b.step scope) := by
  cases scope with
  | document => exact body_shift before base b none nofun
  | block id => exact body_shift before base b (some id) hid
  | attr id complete => exact attr_shift before base b complete (hchild id rfl)
  | array id complete => exact array_shift before base b complete (hid id rfl) (hchild id rfl)
  | map id => exact map_shift before base b (hid id rfl)

end Parts

end Builder

/-! ## Runs -/

def Parsed.shift (before : List Char) (base : SymbolTree) (parsed : Parsed) : Parsed :=
  ⟨base.followedBy (.behind before) parsed.tree, parsed.error.map (Error.shift (.behind before))⟩

variable {source : List Char}

/-- The scopes of a stage read below symbols that are there, and so are the last ones below them. -/
theorem Spine.lt_of_symbol? {sp : Spine} {c : Bool} {id : Nat} (h : (sp.scope c).symbol? = some id) :
    id < sp.tree.size ∧ ∀ child ∈ sp.tree.lastChild? id, child < sp.tree.size := by
  cases sp with
  | root trees => cases h
  | under outer symbol trees =>
    rw [scope, Scope.symbol?_ofKind, Option.some.injEq] at h
    subst h
    rw [size_tree, size]
    refine ⟨by omega, fun child hchild => ?_⟩
    rw [SymbolTree.lastChild?, getElem?_innermost, Option.bind_some] at hchild
    have hmem : child ∈ numbers (outer.size + 1) trees := by
      have hback : (numbers (outer.size + 1) trees).getLast? = some child := by
        simpa [entry] using hchild
      exact List.mem_of_getLast? hback
    exact lt_of_mem_numbers hmem

theorem Stage.run_shift (before : List Char) (base : SymbolTree) (source : List Char) (st : Stage)
    (h : st.spine.Sound st.complete) :
    ((st.builder source).shift before base).run = (st.builder source).run.shift before base := by
  have hstep : ((st.builder source).shift before base).step
      ((st.spine.scope st.complete).shift base.size) =
      Builder.shiftStep before base (st.step source) :=
    Builder.step_shift before base (st.builder source)
      (fun id hid => (Spine.lt_of_symbol? hid).1) (fun id hid => (Spine.lt_of_symbol? hid).2)
  have hscopes : ((st.builder source).shift before base).scopes =
      (st.spine.scope st.complete).shift base.size ::
        st.spine.outerScopes.map (Scope.shift base.size) := rfl
  have hout : Outcome source st (st.step source) := outcome_step h
  -- the step is the same up to the shift, so both runs go on or end together
  rw [Builder.run_of_scopes hscopes, hstep, run_builder]
  generalize hs : st.step source = r at hout
  cases hout with
  | @move st' hmove =>
    have hlt := measure_lt hs
    exact run_shift before base source st' (hmove.sound h)
  | @finish trees t b hroot hpeek heof hnil htree =>
    have hnil' : (b.shift before base).scopes = [] := by rw [Builder.shift, hnil, List.map_nil]
    simp only [Builder.shiftStep, Builder.run_of_scopes_nil hnil, Builder.run_of_scopes_nil hnil']
    rfl
  | stop htree hsound _ => rfl
termination_by (st.builder source).measure

end Hcl
