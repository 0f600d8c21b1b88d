import Hcl.Operand

/-!
# The ways to read an operand

Which tokens an operand begins with, and what it is then.
-/

namespace Hcl

/-- The literal that a token of this kind is. -/
def TokenKind.literalType? : TokenKind → Option LiteralType
  | string | heredoc => some .string
  | number => some .number
  | bool => some .boolean
  | null => some .null
  | _ => none

namespace TokenStream

/-- From the token `first` and the tokens of `s` the operand `value` is read. -/
inductive ReadsOperand (source : List Char) (first : Token) (s : TokenStream) :
    Symbol → TokenStream → Prop where
  | literal {type : LiteralType} : first.kind.literalType? = some type →
      ReadsOperand source first s (.literal type first.text first.span) s
  | keyword {rest : TokenStream} {kind : EvalKind} {k : TypeKeyword} : first.kind = .ident →
      s.steps .traversal none = .ok ((kind, none), rest) →
      TypeKeyword.ofString? first.text = some k →
      ReadsOperand source first s ⟨.keyword k, some first.text, first.span⟩ rest
  | traversal {rest : TokenStream} {kind : EvalKind} {stop : Option Span} : first.kind = .ident →
      s.steps .traversal none = .ok ((kind, stop), rest) →
      (stop = none → TypeKeyword.ofString? first.text = none) →
      ReadsOperand source first s
        (.eval source kind (some first.text) first.span (stop.getD first.span)) rest
  | group {rest : TokenStream} {stop : Span} : first.kind = .lParen →
      s.skipGroup first.span.start = .ok (stop, rest) →
      ReadsOperand source first s (.eval source .operation none first.span stop) rest
  | operation {rest : TokenStream} {stop : Span} : first.kind = .operator →
      first.text = "-" ∨ first.text = "!" → s.expressionEnd first.span = .ok (stop, rest) →
      ReadsOperand source first s (.eval source .operation none first.span stop) rest

variable {source : List Char} {first : Token} {s rest : TokenStream} {value : Symbol}

/-- What is read behind a name is a traversal or a call. -/
theorem kind_of_steps {kind : EvalKind} {stop : Option Span}
    {r : EvalKind × Option Span} (h : steps kind stop s = .ok (r, rest)) :
    r.1 = kind ∨ r.1 = .call := by
  fun_induction steps kind stop s with
  | case4 _ _ _ _ _ _ _ _ ih => exact ih h
  | case7 _ _ _ _ _ _ _ _ _ _ ih => exact ih h
  | case9 _ _ _ _ _ _ _ _ _ _ _ ih => exact .inr ((ih h).elim id id)
  | case2 | case10 =>
    simp only [Except.ok.injEq, Prod.mk.injEq] at h
    exact .inl (congrArg Prod.fst h.1.symm)
  | _ => cases h

theorem readsOperand_of_traversal (hk : first.kind = .ident)
    (h : s.traversal source first = .ok (value, rest)) : ReadsOperand source first s value rest := by
  obtain ⟨⟨⟨kind, stop⟩, rest'⟩, hs, hr⟩ := exists_of_map_ok h
  dsimp only at hr
  split at hr <;> simp only [Prod.mk.injEq] at hr <;> obtain ⟨rfl, rfl⟩ := hr
  · rename_i hkeyword
    exact .keyword hk hs hkeyword
  · rename_i hnot
    refine .traversal hk hs fun hnone => ?_
    cases hkeyword : TypeKeyword.ofString? first.text with
    | none => rfl
    | some k => exact absurd hkeyword (hnot k hnone)

theorem readsOperand_of_operand (h : s.operand source first = .ok (value, rest)) :
    ReadsOperand source first s value rest := by
  have hliteral : ∀ {type : LiteralType}, first.kind.literalType? = some type →
      Except.ok (.literal type first.text first.span, s) = (Except.ok (value, rest) : Reading Symbol) →
      ReadsOperand source first s value rest := fun hk h => by
    simp only [Except.ok.injEq, Prod.mk.injEq] at h
    obtain ⟨rfl, rfl⟩ := h
    exact .literal hk
  simp only [operand] at h
  split at h
  case h_6 hk => exact readsOperand_of_traversal hk h
  case h_7 hk =>
    obtain ⟨⟨stop, rest'⟩, hg, hr⟩ := exists_of_map_ok h
    simp only [Prod.mk.injEq] at hr
    obtain ⟨rfl, rfl⟩ := hr
    exact .group hk hg
  case h_8 hk =>
    split at h
    · rename_i hsign
      obtain ⟨⟨stop, rest'⟩, hx, hr⟩ := exists_of_map_ok h
      simp only [Prod.mk.injEq] at hr
      obtain ⟨rfl, rfl⟩ := hr
      exact .operation hk hsign hx
    · cases h
  case h_9 => cases h
  all_goals exact hliteral (by simp [*, TokenKind.literalType?]) h

theorem ReadsOperand.operand_eq (h : ReadsOperand source first s value rest) :
    s.operand source first = .ok (value, rest) := by
  cases h with
  | @literal type hk =>
    cases hkind : first.kind <;> simp only [hkind, TokenKind.literalType?, reduceCtorEq,
      Option.some.injEq] at hk <;> simp only [operand, hkind, hk]
  | keyword hk hs hkeyword => simp [operand, hk, TokenStream.traversal, hs, Except.map, hkeyword]
  | @traversal rest kind stop hk hs hnot =>
    simp only [operand, hk, TokenStream.traversal, hs, Except.map]
    split
    · rename_i hkeyword
      rw [hnot rfl] at hkeyword
      cases hkeyword
    · rfl
  | group hk hg => simp only [operand, hk, hg, Except.map]
  | operation hk hsign hx => simp only [operand, hk, hx, Except.map, if_pos hsign]

namespace ReadsOperand

theorem start_eq (h : ReadsOperand source first s value rest) :
    value.span.start = first.span.start := by
  cases h <;> rfl

/-- An operator begins an operation. -/
theorem exists_expressionEnd (h : ReadsOperand source first s value rest)
    (hop : first.kind = .operator) :
    (first.text = "-" ∨ first.text = "!") ∧ ∃ stop, s.expressionEnd first.span = .ok (stop, rest) ∧
      value = .eval source .operation none first.span stop := by
  cases h with
  | operation _ hsign hx => exact ⟨hsign, _, hx, rfl⟩
  | literal hk | keyword hk _ _ | traversal hk _ _ | group hk _ =>
    simp [hop, TokenKind.literalType?] at hk

end ReadsOperand

end TokenStream

end Hcl
