import Mathlib.Data.Nat.PSub
import Hcl.Extent

/-!
# Counting brackets

Brackets that open are counted up and brackets that close are counted down. The readers are written
here with a counter that cannot go below zero: counting down has no result there. They have the same
results as the readers without it, whatever they read, so it never comes to that.
-/

namespace Hcl

namespace TokenStream

/-- Skips to the bracket that closes a group; the bracket of the group itself is counted in `depth`. -/
def countGroup? (start : Position) (ending : Except LexicalError Position) :
    (depth : Nat) → List Token → Option (Reading Span)
  | _, [] =>
    match ending with
    | .ok _ => some (.error (Construct.expression.unclosed start))
    | .error e => some (.error (.lexical e.fault e.position))
  | depth, t :: ts =>
    if t.kind.opensBracket then countGroup? start ending (depth + 1) ts
    else if t.kind.closesBracket then
      depth.ppred.bind fun depth =>
        if depth = 0 then some (.ok (t.span, ⟨ts, ending⟩)) else countGroup? start ending depth ts
    else countGroup? start ending depth ts

/-- Reads on in an expression: what ends it is looked for before anything is counted. -/
def countExpression? (start : Position) (ending : Except LexicalError Position) :
    (stop : Span) → (depth : Nat) → (dangling : Bool) → List Token → Option (Reading Span)
  | stop, depth, _, [] =>
    match ending with
    | .error e => some (.error (.lexical e.fault e.position))
    | .ok _ =>
      if 0 < depth then some (.error (Construct.expression.unclosed start))
      else some (.ok (stop, ⟨[], ending⟩))
  | stop, depth, dangling, t :: ts =>
    if depth = 0 ∧ (t.kind = .comma ∨ t.kind.closesBracket = true) then
      some (.ok (stop, ⟨t :: ts, ending⟩))
    else if depth = 0 ∧ t.kind = .newline ∧ dangling = false then
      some (.ok (stop, ⟨t :: ts, ending⟩))
    else if t.kind = .newline then countExpression? start ending stop depth dangling ts
    else if t.kind.opensBracket then
      countExpression? start ending t.span (depth + 1) (leavesDangling t.kind) ts
    else if t.kind.closesBracket then
      depth.ppred.bind fun depth =>
        countExpression? start ending t.span depth (leavesDangling t.kind) ts
    else countExpression? start ending t.span depth (leavesDangling t.kind) ts

variable {start : Position} {ending : Except LexicalError Position} {stop : Span} {depth : Nat}
  {dangling : Bool} {ts : List Token}

/-- The bracket of the group is closed last, so the counter is above zero until then. -/
theorem countGroup?_eq :
    countGroup? start ending (depth + 1) ts = some (skipGroupFrom start ending depth ts) := by
  induction ts generalizing depth with
  | nil => cases ending <;> rfl
  | cons t ts ih =>
    simp only [countGroup?, skipGroupFrom]
    split
    · exact ih
    split
    · cases depth with
      | zero => rfl
      | succ depth => exact ih
    · exact ih

/-- A bracket that is closed while none is open ends the expression. -/
theorem countExpression?_eq :
    countExpression? start ending stop depth dangling ts =
      some (expressionEndFrom start ending stop depth dangling ts) := by
  induction ts generalizing stop depth dangling with
  | nil =>
    cases ending with
    | error e => rfl
    | ok p => cases depth <;> rfl
  | cons t ts ih =>
    simp only [countExpression?, expressionEndFrom]
    by_cases hnewline : t.kind = .newline
    · have hother : ¬ (depth = 0 ∧ (t.kind = .comma ∨ t.kind.closesBracket = true)) := by
        rw [hnewline]
        simp [TokenKind.closesBracket]
      rw [if_neg hother, if_pos hnewline, if_pos hnewline]
      by_cases hend : depth = 0 ∧ dangling = false
      · rw [if_pos hend, if_pos ⟨hend.1, hnewline, hend.2⟩]
      · rw [if_neg hend, if_neg fun h => hend ⟨h.1, h.2.2⟩]
        exact ih
    have hline : ¬ (depth = 0 ∧ t.kind = .newline ∧ dangling = false) := fun h => hnewline h.2.1
    rw [if_neg hline, if_neg hnewline, if_neg hnewline]
    by_cases hcloses : t.kind.closesBracket = true
    · have hkind : ¬ t.kind.opensBracket = true ∧ leavesDangling t.kind = false := by
        revert hcloses
        cases t.kind <;> decide
      rw [if_pos hcloses, if_pos hcloses, if_neg hkind.1, hkind.2]
      cases depth with
      | zero => exact if_pos ⟨rfl, .inr hcloses⟩
      | succ depth => exact (if_neg fun h => Nat.succ_ne_zero _ h.1).trans ih
    rw [if_neg hcloses, if_neg hcloses]
    by_cases hcomma : t.kind = .comma ∧ depth = 0
    · rw [if_pos hcomma, if_pos ⟨hcomma.2, .inl hcomma.1⟩]
    · have hother : ¬ (depth = 0 ∧ (t.kind = .comma ∨ t.kind.closesBracket = true)) :=
        fun h => hcomma ⟨h.2.resolve_right hcloses, h.1⟩
      rw [if_neg hother, if_neg hcomma]
      split
      · exact ih
      · exact ih

end TokenStream

/-- The number of braces open behind a token of kind `kind`, if it does not close the sequence. -/
def Lexer.countBrace? (kind : TokenKind) (depth : Nat) : Option (Option Nat) :=
  if kind = .lBrace then some (some (depth + 1))
  else if kind = .rBrace ∧ depth = 0 then some none
  else if kind = .rBrace then depth.ppred.map some
  else some (some depth)

/-- The brace that closes a template sequence is not counted down. -/
theorem Lexer.countBrace?_eq (kind : TokenKind) (depth : Nat) :
    countBrace? kind depth = some (bracesAfter kind depth) := by
  cases kind <;> cases depth <;> rfl

end Hcl
