import Hcl.Extent

/-!
# Operands

A literal, a name with what follows it, a group in parentheses or a signed operand: everything an
expression may begin with, other than an array or a map.
-/

namespace Hcl

/-- The expression from `first` to `stop`, kept as it is written in `source`. -/
def Symbol.eval (source : List Char) (kind : EvalKind) (name : Option String) (first stop : Span) :
    Symbol :=
  let span := first.upTo stop
  ⟨.eval ⟨kind, (span.slice? source).getD ""⟩, name, span⟩

namespace TokenStream

/-- Reads what follows the name `root`. Alone, a type keyword stands for the type. -/
def traversal (source : List Char) (root : Token) (s : TokenStream) : Reading Symbol :=
  (s.steps .traversal none).map fun ((kind, stop), rest) =>
    match stop, TypeKeyword.ofString? root.text with
    | none, some k => (⟨.keyword k, some root.text, root.span⟩, rest)
    | stop, _ => (.eval source kind (some root.text) root.span (stop.getD root.span), rest)

/-- Reads the operand that begins with the token `first`. -/
def operand (source : List Char) (first : Token) (s : TokenStream) : Reading Symbol :=
  match first.kind with
  | .string | .heredoc => .ok (.literal .string first.text first.span, s)
  | .number => .ok (.literal .number first.text first.span, s)
  | .bool => .ok (.literal .boolean first.text first.span, s)
  | .null => .ok (.literal .null first.text first.span, s)
  | .ident => s.traversal source first
  | .lParen =>
    (s.skipGroup first.span.start).map fun (stop, rest) =>
      (.eval source .operation none first.span stop, rest)
  | .operator =>
    if first.text = "-" ∨ first.text = "!" then
      (s.expressionEnd first.span).map fun (stop, rest) =>
        (.eval source .operation none first.span stop, rest)
    else .error (first.unexpected .expression)
  | _ => .error (first.unexpected .expression)

/-- Reads a `for` expression behind its opening bracket `first`. -/
def comprehension (source : List Char) (first : Token) (s : TokenStream) : Reading Symbol :=
  (s.skipGroup first.span.start).map fun (stop, rest) =>
    (.eval source .comprehension none first.span stop, rest)

theorem exists_of_map_ok {α β ε : Type} {f : α → β} {r : Except ε α} {b : β}
    (h : r.map f = .ok b) : ∃ a, r = .ok a ∧ f a = b := by
  cases r with
  | error e => simp [Except.map] at h
  | ok a =>
    simp only [Except.map, Except.ok.injEq] at h
    exact ⟨a, rfl, h⟩

theorem length_traversal_le {source : List Char} {root : Token} {s rest : TokenStream}
    {symbol : Symbol} (h : s.traversal source root = .ok (symbol, rest)) :
    rest.tokens.length ≤ s.tokens.length := by
  obtain ⟨⟨⟨kind, stop⟩, rest'⟩, hs, hr⟩ := exists_of_map_ok h
  have := length_steps_le hs
  have hrest : rest' = rest := by
    revert hr
    dsimp only
    split <;> simp only [Prod.mk.injEq] <;> exact fun hr => hr.2
  exact hrest ▸ this

theorem length_comprehension_le {source : List Char} {first : Token} {s rest : TokenStream}
    {symbol : Symbol} (h : s.comprehension source first = .ok (symbol, rest)) :
    rest.tokens.length ≤ s.tokens.length := by
  obtain ⟨⟨stop, rest'⟩, hs, hr⟩ := exists_of_map_ok h
  have := length_skipGroup_lt hs
  simp only [Prod.mk.injEq] at hr
  rw [← hr.2]
  omega

theorem length_operand_le {source : List Char} {first : Token} {s rest : TokenStream}
    {symbol : Symbol} (h : s.operand source first = .ok (symbol, rest)) :
    rest.tokens.length ≤ s.tokens.length := by
  simp only [operand] at h
  split at h
  case h_6 => exact length_traversal_le h
  case h_7 =>
    obtain ⟨⟨stop, rest'⟩, hs, hr⟩ := exists_of_map_ok h
    have := length_skipGroup_lt hs
    simp only [Prod.mk.injEq] at hr
    rw [← hr.2]
    omega
  case h_8 =>
    split at h
    · obtain ⟨⟨stop, rest'⟩, hs, hr⟩ := exists_of_map_ok h
      have := length_expressionEnd_le hs
      simp only [Prod.mk.injEq] at hr
      exact hr.2 ▸ this
    · simp at h
  all_goals simp_all

end TokenStream

end Hcl
