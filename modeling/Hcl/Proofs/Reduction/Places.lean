import Hcl.Configuration
import Hcl.Proofs.Reduction.Faults

/-!
# Places in results

Everything that comes out of a source with a place has an exact one: tokens and lexical errors,
symbols, and the errors of reading, of reducing and of sorting the roots.
-/

namespace Hcl

/-- The error was noticed at a place of the source. -/
def Error.IsIn (source : List Char) (e : Error) : Prop :=
  ∃ p, e.position? = some p ∧ p.IsIn source

/-- An error of the reduction is noticed where a symbol begins. -/
theorem SymbolTree.isIn_of_reduce {source : List Char} {t : SymbolTree} {e : Error}
    (ht : ∀ id entry, t.get? id = some entry → entry.symbol.IsIn source) (h : t.reduce = .error e) :
    e.IsIn source := by
  obtain ⟨s, hs, hcauses⟩ := exists_causes_of_reduce ht h
  exact ⟨s.position, hcauses.position?_eq, hs.span.start⟩

theorem Configuration.isIn_of_sortRoots {source : List Char} {t : SymbolTree} {ids : List Nat}
    {e : Error} (ht : ∀ id entry, t.get? id = some entry → entry.symbol.IsIn source)
    (h : sortRoots t ids = .error e) : e.IsIn source := by
  induction ids with
  | nil => cases h
  | cons id ids ih =>
    have hmap : ∀ f : List Nat × List Nat → List Nat × List Nat,
        (sortRoots t ids).map f = .error e → e.IsIn source := fun f h => by
      cases hrest : sortRoots t ids with
      | ok roots => simp [hrest, Except.map] at h
      | error e' =>
        rw [hrest] at h
        cases h
        exact ih hrest
    rw [sortRoots] at h
    split at h
    · exact ih h
    · rename_i entry hentry
      split at h
      · exact hmap _ h
      · exact hmap _ h
      · cases h
        exact ⟨_, rfl, (ht id entry hentry).span.start⟩

/-- The symbols of a source are let pass as they are, or the error of their reading is returned. -/
theorem parseSymbols_cases (recovery : Recovery) (source : String) :
    parseSymbols recovery source = .ok (parseTree source).tree ∨
      ∃ e, (parseTree source).error = some e ∧ parseSymbols recovery source = .error e := by
  unfold parseSymbols Parsed.recover
  split
  · exact .inr ⟨_, ‹_›, rfl⟩
  · exact .inl rfl

/-- What is done with the symbols of a source fails in its place if reading them does or if it does
so itself. -/
theorem isIn_of_bind {α : Type} {recovery : Recovery} {source : String} {e : Error}
    {f : SymbolTree → Except Error α}
    (hf : f (parseTree source).tree = .error e → e.IsIn source.toList)
    (h : (parseSymbols recovery source).bind f = .error e) : e.IsIn source.toList := by
  rcases parseSymbols_cases recovery source with hok | ⟨e', hfault, herror⟩
  · rw [hok] at h
    exact hf h
  · rw [herror] at h
    cases h
    exact (readsAt_parseTree hfault).2

/-- Every position is exact. The lexer knows where it stands after any number of calls, and so do the
tokens and errors it returns; symbols and errors have their places in the source. -/
theorem positions_isIn (source : String) :
    (∀ n, ((Lexer.ofString source).calls n).position.IsIn source.toList ∧
      ((Lexer.ofString source).calls n).next.IsIn source.toList) ∧
    (∀ id e, (parseTree source).tree.get? id = some e → e.symbol.span.IsIn source.toList) ∧
    (∀ recovery e, parseDocument recovery source = .error e → e.IsIn source.toList) ∧
    ∀ recovery e, parseConfiguration recovery source = .error e → e.IsIn source.toList := by
  obtain ⟨sp, htree, hsp⟩ := exists_spine_parseTree source
  have hsymbols : ∀ id e, (parseTree source).tree.get? id = some e →
      e.symbol.IsIn source.toList := fun id e he => hsp.of_get? (htree ▸ he)
  refine ⟨fun n => ?_, fun id e he => (hsymbols id e he).span, fun recovery e he => ?_,
    fun recovery e he => ?_⟩
  · have hlx := Lexer.standsIn_calls source n
    exact ⟨hlx.isIn, hlx.isIn_next.1⟩
  · exact isIn_of_bind (SymbolTree.isIn_of_reduce hsymbols) he
  · refine isIn_of_bind (fun h => ?_) he
    rw [Configuration.ofTree] at h
    cases hsort : Configuration.sortRoots (parseTree source).tree
        (parseTree source).tree.roots.toList with
    | ok roots => simp [hsort, Except.map] at h
    | error e' =>
      rw [hsort] at h
      cases h
      exact Configuration.isIn_of_sortRoots hsymbols hsort

end Hcl
