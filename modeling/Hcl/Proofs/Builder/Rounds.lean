import Hcl.Proofs.Builder.Stage
import Hcl.Proofs.Lexer.Progress

/-!
# Rounds of the builder

Some rounds of the builder read no token: they close an attribute or clear the mark of an array
element. The measure makes up for them, so the number of rounds is bounded by the bytes of the
source.
-/

namespace Hcl

namespace Builder

/-- Takes at most `n` steps, the one that fails among them. There is no result if a scope is open
after that. -/
def runWithin : Nat → Builder → Option Parsed
  | 0, b => if b.scopes = [] then some ⟨b.tree, none⟩ else none
  | n + 1, b =>
    match b.scopes with
    | [] => some ⟨b.tree, none⟩
    | scope :: _ =>
      match b.step scope with
      | .error stopped => some ⟨stopped.tree, some stopped.error⟩
      | .ok next => next.runWithin n

/-- As many steps as the measure says are enough. -/
theorem runWithin_of_measure_le {b : Builder} {n : Nat} (h : b.measure ≤ n) :
    b.runWithin n = some b.run := by
  induction n generalizing b with
  | zero =>
    cases hscopes : b.scopes with
    | nil => rw [runWithin, if_pos hscopes, run_of_scopes_nil hscopes]
    | cons scope outer =>
      have hweight := two_le_weight scope
      simp only [measure, hscopes, scopesWeight] at h
      omega
  | succ n ih =>
    cases hscopes : b.scopes with
    | nil => rw [runWithin, run_of_scopes_nil hscopes, hscopes]
    | cons scope outer =>
      rw [runWithin, run_of_scopes hscopes, hscopes]
      cases hstep : b.step scope with
      | error stopped => simp only [hstep]
      | ok next =>
        have hlt := step_lt hscopes hstep
        simp only [hstep]
        exact ih (by omega)

theorem measure_ofString_le (source : String) :
    (ofString source).measure ≤ 3 * source.utf8ByteSize + 2 := by
  have htokens := Lexer.length_stream_le (.ofString source)
  have hbytes := length_le_byteCount source.toList
  rw [byteCount_toList] at hbytes
  have hlength : (TokenStream.ofString source).tokens.length ≤ source.utf8ByteSize :=
    Nat.le_trans htokens hbytes
  simp only [measure, ofString, scopesWeight, Scope.weight]
  omega

end Builder

/-- Every call of a lexer moves it on or finds it where it stays, whatever came before. A source of
`n` bytes is read to its end or to an error with `n + 1` calls, and the builder needs no more than
`3 * n + 3` rounds for it. -/
theorem reading_ends (source : String) :
    (∀ n, ((Lexer.ofString source).calls n).Progress) ∧
      (∃ n ≤ source.utf8ByteSize, ((Lexer.ofString source).calls n).next.Ends) ∧
      (Builder.ofString source).runWithin (3 * source.utf8ByteSize + 3) =
        some (parseTree source) := by
  refine ⟨fun n => Lexer.progress _, ?_, ?_⟩
  · obtain ⟨n, hle, hends⟩ := Lexer.exists_ends (.ofString source)
    have hbytes := length_le_byteCount source.toList
    rw [byteCount_toList] at hbytes
    exact ⟨n, Nat.le_trans hle hbytes, hends⟩
  · exact Builder.runWithin_of_measure_le (Nat.le_succ_of_le (Builder.measure_ofString_le source))

end Hcl
