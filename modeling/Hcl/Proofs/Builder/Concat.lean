import Hcl.Proofs.Builder.Extend
import Hcl.Proofs.Builder.Forward
import Hcl.Proofs.Builder.Shift
import Hcl.Proofs.Lexer.Extend

/-!
# One document behind another

A document that ends with a line break is over there: what follows is read as if it stood alone, and
its symbols, places and error are shifted. So a broken tail damages nothing that was read before it.
-/

namespace Hcl

open Hcl.Tree Hcl.TokenStream
open Relation (ReflTransGen)

variable {source : List Char} {s s' : TokenStream} {trees : List Tree}

/-! ## Tokens -/

theorem Lexer.extend_eq_shift {before behind : String} {last : Lexer} {ts : List Token}
    (hline : before.toList.getLast? = some '\n') (hrest : last.rest = [])
    (h : Emits (.ofString before) ts last) (hlast : ∀ t ∈ ts.getLast?, t.kind = .newline) :
    last.extend behind.toList = (Lexer.ofString behind).shift (.behind before.toList) := by
  obtain ⟨text, hreads⟩ := h.exists_reads
  have htext : before.toList = text := by
    have hreads := hreads.rest
    rwa [hrest, List.append_nil] at hreads
  have hposition : last.position = Position.start.shift (.behind before.toList) := by
    rw [hreads.position, ← htext, ← Position.start_after hline]
    rfl
  have hnewline : last.last = some .newline := by
    cases hts : ts.getLast? with
    | some t =>
      rw [h.last_eq, hts, Option.map_some, hlast t hts]
      rfl
    | none =>
      rw [List.getLast?_eq_none_iff.mp hts] at h
      cases h
      have hnil : before.toList = [] := hrest
      rw [hnil] at hline
      cases hline
  have hentered : last.entered = [] := hreads.entered
  obtain ⟨rest, position, entered, kind⟩ := last
  subst hrest hposition hnewline hentered
  rfl

theorem TokenStream.ofString_append {before : String} {p : Position}
    (hline : before.toList.getLast? = some '\n') (h : (ofString before).ending = .ok p)
    (behind : String) :
    (∀ t ∈ (ofString before).tokens.getLast?, t.kind = .newline) ∧
      ofString (before ++ behind) =
        (ofString before).extend ((ofString behind).shift (.behind before.toList)) := by
  have hl : LineEnded (Lexer.ofString before).rest := fun c hc =>
    (Option.some.inj (hline.symm.trans hc)).symm
  obtain ⟨last, hrest, hemits, hlast⟩ := Lexer.exists_emits (.ofString before) hl h
  have hsource : Lexer.ofString (before ++ behind) =
      (Lexer.ofString before).extend behind.toList := by
    simp [Lexer.ofString, Lexer.extend]
  have hnil := hemits []
  rw [Lexer.extend_nil, Lexer.extend_nil] at hnil
  refine ⟨hlast, ?_⟩
  rw [ofString, hsource, (hemits behind.toList).stream_eq,
    Lexer.extend_eq_shift hline hrest hnil hlast, Lexer.shift_stream]
  rfl

/-! ## Symbols -/

/-- Outside of all symbols, line breaks are skipped. -/
theorem Stage.run_eq_of_skipNewlines (c c' : Bool) (h : s.skipNewlines = s'.skipNewlines) :
    (builder source ⟨.root trees, c, s⟩).run = (builder source ⟨.root trees, c', s'⟩).run := by
  have hstep : step source ⟨.root trees, c, s⟩ = step source ⟨.root trees, c', s'⟩ := by
    have hb : ∀ {trees}, (Spine.root trees).InBody := trivial
    rw [step_body hb, step_body hb, Builder.body, Builder.body]
    simp only [builder, Builder.read, h]
    cases s'.skipNewlines.next <;> rfl
  rw [run_builder, run_builder, hstep]

/-- Behind a finished document a builder starts again. -/
theorem Stage.builder_root_shift (before : List Char) (trees : List Tree) (behind : String) :
    builder (before ++ behind.toList)
        ⟨.root trees, false, (ofString behind).shift (.behind before)⟩ =
      (Builder.ofString behind).shift before (Spine.root trees).tree := by
  have htree := SymbolTree.followedBy_empty (Spine.root trees).tree (.behind before)
  simp only [Builder.shift, Builder.ofString, htree]
  rfl

/-- When more tokens follow, a run that came to its end goes on with them outside of all symbols. -/
theorem Stage.exists_run_extend {before : String} (herror : (parseTree before).error = none)
    (hs : TokenStream.Settled (ofString before).tokens) (text : List Char) (more : TokenStream) :
    ∃ trees, (parseTree before).tree = (Spine.root trees).tree ∧
      (builder (before.toList ++ text) (.ofStream ((ofString before).extend more))).run =
        (builder (before.toList ++ text) ⟨.root trees, false, more⟩).run := by
  obtain ⟨st, trees, p, hmoves, hroot, hskip, hending, htree⟩ := exists_finish before herror
  have hfirst : (ofStream (ofString before)).Settled :=
    ⟨trivial, hs, followed_of_not_complete rfl⟩
  have hmoves' := Move.extend_of_reflTransGen hmoves (by rw [hroot]; exact id)
    (covered_ofStream hending) (.inr hfirst) text more
  obtain ⟨sp, c, stream⟩ := st
  subst hroot
  have hafter : (stream.extend more).skipNewlines = more.skipNewlines :=
    skipNewlines_extend_of_eq_nil more (congrArg tokens hskip)
  exact ⟨trees, htree, (Move.run_eq hmoves').trans (run_eq_of_skipNewlines c false hafter)⟩

/-- Reading a document and something behind it. The document ends with a line break, is read without
an error, and has no operator without an operand at its end. -/
theorem parseTree_append (before behind : String) (hline : before.toList.getLast? = some '\n')
    (herror : (parseTree before).error = none)
    (hoperand : ∀ t ∈ ((TokenStream.ofString before).tokens.filter (·.kind ≠ .newline)).getLast?,
      t.kind ≠ .operator ∧ t.kind ≠ .question ∧ t.kind ≠ .colon) :
    parseTree (before ++ behind) =
      ⟨(parseTree before).tree.followedBy (.behind before.toList) (parseTree behind).tree,
        (parseTree behind).error.map (Error.shift (.behind before.toList))⟩ := by
  obtain ⟨-, -, p, -, -, -, hending, -⟩ := exists_finish before herror
  obtain ⟨hlast, hstream⟩ := ofString_append hline hending behind
  have hs : Settled (ofString before).tokens :=
    ⟨hlast, fun t ht => by
      obtain ⟨hoperator, hquestion, hcolon⟩ := hoperand t ht
      simp [leavesDangling, hoperator, hquestion, hcolon]⟩
  obtain ⟨trees, htree, hrun⟩ := Stage.exists_run_extend herror hs behind.toList
    ((ofString behind).shift (.behind before.toList))
  have htext : (before ++ behind).toList = before.toList ++ behind.toList := String.toList_append
  calc parseTree (before ++ behind)
      = (Stage.builder (before.toList ++ behind.toList)
          (.ofStream (ofString (before ++ behind)))).run := by
        rw [← htext]
        rfl
    _ = (Stage.builder (before.toList ++ behind.toList)
          ⟨.root trees, false, (ofString behind).shift (.behind before.toList)⟩).run := by
        rw [hstream, hrun]
    _ = ((Builder.ofString behind).shift before.toList (parseTree before).tree).run := by
        rw [Stage.builder_root_shift, htree]
    -- the tree in front does not matter to a builder that starts outside of all symbols
    _ = _ := Stage.run_shift before.toList (parseTree before).tree behind.toList
        (.ofStream (ofString behind)) trivial

/-- A comment and an operation are read in front of an array that is not closed. -/
theorem parseTree_append_unclosed :
    let before := "# c\na = b ? 1 : 2\n"
    let behind := "d = [1,"
    before.toList.getLast? = some '\n' ∧ (parseTree before).error = none ∧
      (parseTree behind).error ≠ none ∧ parseTree (before ++ behind) =
        ⟨(parseTree before).tree.followedBy (.behind before.toList) (parseTree behind).tree,
          (parseTree behind).error.map (Error.shift (.behind before.toList))⟩ := by
  have hline : "# c\na = b ? 1 : 2\n".toList.getLast? = some '\n' := by decide +kernel
  have herror : (parseTree "# c\na = b ? 1 : 2\n").error = none := by decide +kernel
  exact ⟨hline, herror, by decide +kernel, parseTree_append _ _ hline herror (by decide +kernel)⟩

end Hcl
