import Hcl.Extent

/-!
# One step of a traversal

Steps are read by a loop that is defined with a proof that it ends. Here is one round of it, without
that proof.
-/

namespace Hcl.TokenStream

theorem steps_cons (kind : EvalKind) (stop : Option Span) (t : Token) (ts : List Token)
    (ending : Except LexicalError Position) :
    steps kind stop ⟨t :: ts, ending⟩ =
      if t.kind = .dot then
        match ts with
        | [] => .error (match ending with
          | .ok p => (Token.atEnd p).unexpected .attributeName
          | .error e => .lexical e.fault e.position)
        | step :: ts =>
          if isStep step then steps kind (some step.span) ⟨ts, ending⟩
          else .error (step.unexpected .attributeName)
      else if t.kind = .lBracket then
        match skipGroup t.span.start ⟨ts, ending⟩ with
        | .error e => .error e
        | .ok (stop, rest) => steps kind (some stop) rest
      else if t.kind = .lParen ∧ stop = none then
        match skipGroup t.span.start ⟨ts, ending⟩ with
        | .error e => .error e
        | .ok (stop, rest) => steps .call (some stop) rest
      else .ok ((kind, stop), ⟨t :: ts, ending⟩) := by
  rw [steps.eq_def]
  dsimp only
  split
  · rfl
  split
  · split <;> simp_all
  split
  · split <;> simp_all
  · rfl

theorem steps_nil (kind : EvalKind) (stop : Option Span) (p : Position) :
    steps kind stop ⟨[], .ok p⟩ = .ok ((kind, stop), ⟨[], .ok p⟩) := by
  rw [steps]

theorem steps_error (kind : EvalKind) (stop : Option Span) (e : LexicalError) :
    steps kind stop ⟨[], .error e⟩ = .error (.lexical e.fault e.position) := by
  rw [steps]

end Hcl.TokenStream
