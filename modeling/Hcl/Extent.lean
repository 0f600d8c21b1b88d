import Hcl.TokenStream
import Hcl.Symbol

/-!
# How far an expression reaches

Expressions are not evaluated, so all that is read of one is where it ends. Brackets are counted,
not matched by kind.
-/

namespace Hcl

/-- `t` is not what the grammar allows here. -/
def Token.unexpected (expected : Expected) (t : Token) : Error :=
  .syntactic (.unexpectedToken expected t.describe) t.span.start

/-- `what` begins at `p` and is not closed. -/
def Construct.unclosed (what : Construct) (p : Position) : Error :=
  .syntactic (.unclosed what) p

namespace TokenStream

/-! ## Groups -/

/-- Skips to the bracket that closes the one at `start`; `depth` more brackets are open inside.
Returns the span of the closing bracket. -/
def skipGroupFrom (start : Position) (ending : Except LexicalError Position) :
    (depth : Nat) → List Token → Reading Span
  | _, [] =>
    match ending with
    | .ok _ => .error (Construct.expression.unclosed start)
    | .error e => .error (.lexical e.fault e.position)
  | depth, t :: ts =>
    if t.kind.opensBracket then skipGroupFrom start ending (depth + 1) ts
    else if t.kind.closesBracket then
      match depth with
      | 0 => .ok (t.span, ⟨ts, ending⟩)
      | depth + 1 => skipGroupFrom start ending depth ts
    else skipGroupFrom start ending depth ts

/-- Skips what is inside the bracket that was just read, which begins at `start`. -/
def skipGroup (start : Position) (s : TokenStream) : Reading Span :=
  skipGroupFrom start s.ending 0 s.tokens

theorem length_skipGroupFrom_lt {start : Position} {ending : Except LexicalError Position}
    {depth : Nat} {ts : List Token} {stop : Span} {rest : TokenStream}
    (h : skipGroupFrom start ending depth ts = .ok (stop, rest)) :
    rest.tokens.length < ts.length := by
  induction ts generalizing depth with
  | nil => cases ending <;> simp [skipGroupFrom] at h
  | cons t ts ih =>
    simp only [skipGroupFrom] at h
    split at h
    · exact Nat.lt_succ_of_lt (ih h)
    split at h
    · split at h
      · simp only [Except.ok.injEq, Prod.mk.injEq] at h
        simp [← h.2]
      · exact Nat.lt_succ_of_lt (ih h)
    · exact Nat.lt_succ_of_lt (ih h)

theorem length_skipGroup_lt {start : Position} {s rest : TokenStream} {stop : Span}
    (h : s.skipGroup start = .ok (stop, rest)) : rest.tokens.length < s.tokens.length :=
  length_skipGroupFrom_lt h

/-! ## Operations and conditionals -/

/-- After these a line break does not end an expression. -/
def leavesDangling (kind : TokenKind) : Bool :=
  kind == .operator || kind == .question || kind == .colon

/-- Reads on in an expression that begins at `start` and of which everything up to `stop` is read.
`depth` brackets are open, and `dangling` says that an operand is still missing. -/
def expressionEndFrom (start : Position) (ending : Except LexicalError Position) :
    (stop : Span) → (depth : Nat) → (dangling : Bool) → List Token → Reading Span
  | stop, depth, _, [] =>
    match ending with
    | .error e => .error (.lexical e.fault e.position)
    | .ok _ =>
      if depth = 0 then .ok (stop, ⟨[], ending⟩) else .error (Construct.expression.unclosed start)
  | stop, depth, dangling, t :: ts =>
    if t.kind = .newline then
      if depth = 0 ∧ dangling = false then .ok (stop, ⟨t :: ts, ending⟩)
      else expressionEndFrom start ending stop depth dangling ts
    else if t.kind.closesBracket then
      match depth with
      | 0 => .ok (stop, ⟨t :: ts, ending⟩)
      | depth + 1 => expressionEndFrom start ending t.span depth false ts
    else if t.kind = .comma ∧ depth = 0 then .ok (stop, ⟨t :: ts, ending⟩)
    else
      let depth := if t.kind.opensBracket then depth + 1 else depth
      expressionEndFrom start ending t.span depth (leavesDangling t.kind) ts

/-- Reads the rest of an expression whose first part is `first`. It ends before a line break, comma
or closing bracket outside of brackets it opened itself; a line break right behind an operator does
not end it. Returns the span of its last token. -/
def expressionEnd (first : Span) (s : TokenStream) : Reading Span :=
  expressionEndFrom first.start s.ending first 0 false s.tokens

theorem length_expressionEndFrom_le {start : Position} {ending : Except LexicalError Position}
    {stop last : Span} {depth : Nat} {dangling : Bool} {ts : List Token} {rest : TokenStream}
    (h : expressionEndFrom start ending stop depth dangling ts = .ok (last, rest)) :
    rest.tokens.length ≤ ts.length := by
  induction ts generalizing stop depth dangling with
  | nil =>
    cases ending <;> simp only [expressionEndFrom] at h
    · simp at h
    · split at h
      · simp only [Except.ok.injEq, Prod.mk.injEq] at h
        simp [← h.2]
      · simp at h
  | cons t ts ih =>
    simp only [expressionEndFrom] at h
    split at h
    · split at h
      · simp only [Except.ok.injEq, Prod.mk.injEq] at h
        simp [← h.2]
      · exact Nat.le_succ_of_le (ih h)
    split at h
    · split at h
      · simp only [Except.ok.injEq, Prod.mk.injEq] at h
        simp [← h.2]
      · exact Nat.le_succ_of_le (ih h)
    split at h
    · simp only [Except.ok.injEq, Prod.mk.injEq] at h
      simp [← h.2]
    · exact Nat.le_succ_of_le (ih h)

theorem length_expressionEnd_le {first last : Span} {s rest : TokenStream}
    (h : s.expressionEnd first = .ok (last, rest)) : rest.tokens.length ≤ s.tokens.length :=
  length_expressionEndFrom_le h

/-! ## Comprehensions -/

/-- Whether the bracket that was just read opens a `for` expression. -/
def comprehensionAhead (s : TokenStream) : Except Error Bool :=
  let s := s.skipNewlines
  s.peek.bind fun keyword =>
    if keyword.kind = .ident ∧ keyword.text = "for" then
      s.tail.peek.map fun binder => binder.kind == .ident
    else .ok false

/-! ## Traversals and calls -/

/-- Whether `t` may follow the dot of a traversal. -/
def isStep (t : Token) : Bool := t.kind == .ident || t.kind == .number || t.isOperator "*"

/-- Reads the steps `.name`, `.0`, `.*` and `[...]` behind a name, and arguments directly behind
it. `stop` is the last token of the steps already read. -/
def steps (kind : EvalKind) (stop : Option Span) (s : TokenStream) :
    Reading (EvalKind × Option Span) :=
  match s with
  | ⟨[], .error e⟩ => .error (.lexical e.fault e.position)
  | ⟨[], .ok p⟩ => .ok ((kind, stop), ⟨[], .ok p⟩)
  | ⟨t :: ts, ending⟩ =>
    if t.kind = .dot then
      match ts with
      | [] => .error (match ending with
        | .ok p => (Token.atEnd p).unexpected .attributeName
        | .error e => .lexical e.fault e.position)
      | step :: ts =>
        if isStep step then steps kind (some step.span) ⟨ts, ending⟩
        else .error (step.unexpected .attributeName)
    else if t.kind = .lBracket then
      match _ : skipGroup t.span.start ⟨ts, ending⟩ with
      | .error e => .error e
      | .ok (stop, rest) => steps kind (some stop) rest
    else if t.kind = .lParen ∧ stop = none then
      match _ : skipGroup t.span.start ⟨ts, ending⟩ with
      | .error e => .error e
      | .ok (stop, rest) => steps .call (some stop) rest
    else .ok ((kind, stop), ⟨t :: ts, ending⟩)
termination_by s.tokens.length
decreasing_by
  · simp only [List.length_cons]
    omega
  all_goals
    rename_i h
    exact Nat.lt_succ_of_lt (length_skipGroup_lt h)

theorem length_steps_le {kind : EvalKind} {stop : Option Span} {s rest : TokenStream}
    {r : EvalKind × Option Span} (h : steps kind stop s = .ok (r, rest)) :
    rest.tokens.length ≤ s.tokens.length := by
  fun_induction steps kind stop s with
  | case4 kind stop t ending ht step ts hs ih =>
    have := ih h
    simp only [List.length_cons] at *
    omega
  | case7 kind stop t ts ending hd hb stop' rest' hg ih =>
    have := ih h
    have := length_skipGroup_lt hg
    simp only [List.length_cons] at *
    omega
  | case9 kind stop t ts ending hd hb hp stop' rest' hg ih =>
    have := ih h
    have := length_skipGroup_lt hg
    simp only [List.length_cons] at *
    omega
  | case2 | case10 =>
    simp only [Except.ok.injEq, Prod.mk.injEq] at h
    simp [← h.2]
  | _ => simp at h

end TokenStream

end Hcl
