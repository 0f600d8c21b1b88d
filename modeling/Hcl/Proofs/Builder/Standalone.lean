import Hcl.Proofs.Builder.Deferred
import Hcl.Proofs.Builder.Forward
import Hcl.Proofs.Lexer.Excerpt

/-!
# Expressions stand on their own

The text of an expression can be taken out of its source. Written as the value of an attribute it is
read as the same expression.
-/

namespace Hcl

open Hcl.Tree Hcl.TokenStream
open Relation (ReflTransGen)

/-- Written as the value of an attribute, the text of the expression is read as this expression and
as nothing else. -/
def Eval.StandsAlone (e : Eval) : Prop :=
  ∃ attr value : Symbol,
    parseTree ("x = " ++ e.text ++ "\n") = ⟨.ofForest [node attr [leaf value]], none⟩ ∧
      attr.kind = .attr ∧ attr.name = some "x" ∧ value.kind = .eval e

variable {source : List Char} {value : Symbol} {e : Eval} {t : Token} {ts : List Token}

/-- The text of an expression is the text of its tokens. -/
theorem Spells.text_eq {front more : List Token} {text : List Char}
    (h : Spells source value (front ++ t :: more) t.span) (he : value.kind = .eval e)
    (hw : Written source (front ++ [t]) text) : e.text = String.ofList text := by
  obtain ⟨kind, name, first, rfl, hfirst⟩ := h
  obtain ⟨u, hu⟩ : ∃ u, (front ++ [t]).head? = some u := by cases front <;> simp
  have hu' : (front ++ t :: more).head? = some u := by cases front <;> simpa using hu
  have hspan : first.upTo t.span = u.span.upTo t.span := by
    simp only [Span.upTo, hfirst u hu']
  have hslice := hw.slice? hu List.getLast?_concat
  cases he
  rw [hspan, hslice]
  rfl

/-- An attribute with one value, up to the end of the source. -/
theorem exists_run_of_value {source : String} {x sign nl : Token} {rest : List Token} {p : Position}
    {d : Nat}
    (hs : TokenStream.ofString source = ⟨x :: sign :: ts, .ok p⟩) (hx : x.view = (.ident, "x"))
    (hsign : sign.kind = .equals) (hnl : nl.kind = .newline)
    (h : ReadsDeferred source.toList d ⟨ts, .ok p⟩ value ⟨rest, .ok p⟩) (hd : 1 ≤ d)
    (hrest : rest = [nl] ∨ rest = []) :
    ∃ attr : Symbol, parseTree source = ⟨.ofForest [node attr [leaf value]], none⟩ ∧
      attr.kind = .attr ∧ attr.name = some "x" := by
  have hident : x.kind = .ident := congrArg Prod.fst hx
  have hskip : (TokenStream.ofString source).skipNewlines = ⟨x :: sign :: ts, .ok p⟩ := by
    rw [hs, skipNewlines_cons_of_ne (by simp [hident])]
  obtain ⟨t, ht, hop, hq, hend⟩ : ∃ t, peek ⟨rest, .ok p⟩ = .ok t ∧ t.kind ≠ .operator ∧
      t.kind ≠ .question ∧ AttrEnd False ⟨rest, .ok p⟩ ⟨[], .ok p⟩ := by
    rcases hrest with rfl | rfl
    · exact ⟨nl, rfl, by simp [hnl], by simp [hnl], .newline hnl⟩
    · exact ⟨.atEnd p, rfl, by simp [Token.atEnd], by simp [Token.atEnd], .stop rfl (.inr rfl)⟩
  have hrun := Move.run_eq (h.moves_attribute hd hskip hident hsign ht hop hq hend [] false)
  refine ⟨(Symbol.attr x.text x.span).extendTo value.span, ?_, rfl, ?_⟩
  · rw [parseTree, ← Stage.builder_ofStream]
    exact hrun.trans (run_of_skipNewlines_eq rfl)
  · exact congrArg (some ∘ Prod.snd) hx

/-- An expression that is read where a value may begin stands on its own. -/
theorem Eval.ReadFrom.standsAlone {source : String}
    (h : e.ReadFrom source.toList (TokenStream.ofString source).tokens) : e.StandsAlone := by
  obtain ⟨d, s, value, rest, hd, ⟨before, b, hall, hb⟩, hv, he⟩ := h
  obtain ⟨stop, ns, hspells, ⟨hns, front, t, hts, rfl, ht⟩, hcut⟩ := hv.exists_reaches he
  rw [hts] at hall hspells
  have hsplit : front ++ t :: (ns ++ rest.tokens) = (front ++ [t]) ++ (ns ++ rest.tokens) := by simp
  rw [hsplit] at hall
  obtain ⟨text, x, sign, ts', nl, p, hwritten, hstream, hx, hsign, hnl, hviews, hwritten'⟩ :=
    exists_excerpt hall hb (by simp)
  have htext := hspells.text_eq he hwritten
  -- the same expression is read from the excerpt
  have hts' : Cut nl (ns ++ rest.tokens) s.tokens (ts' ++ [nl]) := by
    rw [hts, hsplit]
    exact .of_map_view hviews
  obtain ⟨value', rest', hv', hsame, hrest'⟩ :=
    hcut (asValue (String.ofList text)).toList p hnl hts'
  obtain ⟨text', he'⟩ := hsame e he
  obtain ⟨stop', ns', hspells', ⟨hns', front', t', hlast, rfl, ht'⟩, -⟩ := hv'.exists_reaches he'
  -- its last token is the last one of the excerpt, so its text is the whole of it
  obtain ⟨kept, us, rfl, -, hus⟩ := List.map_eq_append_iff.mp (hviews.trans List.map_append)
  obtain ⟨u, us, rfl, hu, hus⟩ := List.map_eq_cons_iff.mp hus
  obtain rfl := List.map_eq_nil_iff.mp hus
  have hsame : u = t' := by
    rw [List.append_assoc] at hlast
    refine (eq_of_append_newlines hlast (fun hk => ht ?_) ht' ?_ ?_).2.1
    · rw [← Token.kind_eq hu, hk]
    · simp [hnl]
    · rcases hrest' with rfl | rfl <;> simpa [or_imp, forall_and, hnl] using hns'
  subst hsame
  rw [List.append_assoc] at hspells'
  have htext' := hspells'.text_eq he' hwritten'
  obtain ⟨attr, hrun, hattr⟩ := exists_run_of_value hstream hx hsign hnl hv' hd hrest'
  refine ⟨attr, value', ?_, hattr.1, hattr.2, ?_⟩
  · rw [htext]
    exact hrun
  · obtain rfl : text' = e.text := htext'.trans htext.symm
    exact he'

/-- Every expression in the tree of a source stands on its own, whether or not the source could be
read to its end. -/
theorem standsAlone_parseTree (source : String) {id : Nat} {entry : Entry}
    (h : (parseTree source).tree.get? id = some entry) (he : entry.symbol.kind = .eval e) :
    e.StandsAlone :=
  (readFrom_parseTree h he).standsAlone

/-- A line break behind an operator is part of an expression, and the array around it stays open. -/
theorem standsAlone_parseTree_unclosed :
    (parseTree "a = [b.c[0] -\n 1, 2").error ≠ none ∧
      ∃ entry, (parseTree "a = [b.c[0] -\n 1, 2").tree.get? 2 = some entry ∧
        entry.symbol.kind = .eval ⟨.operation, "b.c[0] -\n 1"⟩ ∧
        Eval.StandsAlone ⟨.operation, "b.c[0] -\n 1"⟩ := by
  have h : ((parseTree "a = [b.c[0] -\n 1, 2").tree.get? 2).map (fun entry => entry.symbol.kind) =
      some (.eval ⟨.operation, "b.c[0] -\n 1"⟩) := by decide +kernel
  obtain ⟨entry, hentry, hk⟩ := Option.map_eq_some_iff.mp h
  exact ⟨by decide +kernel, entry, hentry, hk, standsAlone_parseTree _ hentry hk⟩

end Hcl
