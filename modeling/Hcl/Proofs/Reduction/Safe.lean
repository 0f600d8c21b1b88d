import Hcl.Proofs.Builder.Safe
import Hcl.Proofs.Lexer.Slices
import Hcl.Proofs.Reduction.Numbered
import Hcl.Proofs.TokenStream.Counters

/-!
# Nothing is missing

Whatever is looked up while a source is read and reduced is there: symbols by their numbers, pieces of
the source by their places, brackets among those that are open, and the object that was just added to
a list.
-/

namespace Hcl

/-- Reading and reducing `source` never asks for what is not there. -/
structure NeverMisses (source : String) : Prop where
  /-- at every state the numbers of symbols that are held, and the pieces that are cut out -/
  states : ∀ b, Builder.Reached source b → b.Safe source.toList
  /-- the reading ends at one of these states, or with a step from there that fails -/
  last : ∃ b, Builder.Reached source b ∧
    ((b.scopes = [] ∧ parseTree source = ⟨b.tree, none⟩) ∨
      ∃ scope outer stopped, b.scopes = scope :: outer ∧ b.step scope = .error stopped ∧
        parseTree source = ⟨stopped.tree, some stopped.error⟩)
  tree : (parseTree source).tree.Safe source.toList
  /-- a lexer stays in the source, also behind errors -/
  lexer : ∀ n, ((Lexer.ofString source).calls n).StandsIn source.toList
  /-- wherever it stands, what it cuts out lies in the source -/
  cuts : ∀ lx : Lexer, lx.StandsIn source.toList → lx.CutsWithin source.toList
  /-- the indentation that a line loses is there -/
  indent : ∀ line n, dropBytes? (min (Heredoc.indentOf line) n) line =
    some (line.drop (min (Heredoc.indentOf line) n))
  /-- counters of brackets are not taken below zero -/
  groups : ∀ start ending depth ts, TokenStream.countGroup? start ending (depth + 1) ts =
    some (TokenStream.skipGroupFrom start ending depth ts)
  expressions : ∀ start ending stop depth dangling ts,
    TokenStream.countExpression? start ending stop depth dangling ts =
      some (TokenStream.expressionEndFrom start ending stop depth dangling ts)
  braces : ∀ kind depth, Lexer.countBrace? kind depth = some (Lexer.bracesAfter kind depth)
  /-- the reduction finds all symbols, and the objects it adds to lists -/
  reduction : (parseTree source).tree.reduce? = some (parseTree source).tree.reduce

theorem neverMisses (source : String) : NeverMisses source := by
  obtain ⟨sp, htree, hsp⟩ := exists_spine_parseTree source
  exact {
    states := fun b hb => hb.safe
    last := Builder.exists_next_run (.ofString source)
    tree := htree ▸ hsp.safe
    lexer := Lexer.standsIn_calls source
    cuts := fun lx hlx => hlx.cutsWithin
    indent := Heredoc.dropBytes?_indent
    groups := fun _ _ _ _ => TokenStream.countGroup?_eq
    expressions := fun _ _ _ _ _ _ => TokenStream.countExpression?_eq
    braces := Lexer.countBrace?_eq
    reduction := htree ▸ SymbolTree.reduce?_ofForest sp.forest }

end Hcl
