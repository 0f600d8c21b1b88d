import Hcl.Proofs.Builder.WellFormed
import Hcl.Proofs.Forest.Cover
import Hcl.Proofs.TokenStream.Suffix

/-!
# What is built covers its source

Every move keeps the source covered: by the finished trees and open symbols up to the place that is
reached, and by the tokens that are left from there on. So nothing but blanks, comments and
separators is lost of a source that is read without an error.
-/

namespace Hcl

open Hcl.Tree Hcl.TokenStream
open Relation (ReflTransGen)

variable {source seps : List Char} {a : Nat} {s s' rest : TokenStream} {t : Token}
  {outer : Spine} {symbol : Symbol} {trees : List Tree}

theorem Symbol.quotes_of_kind {s : Symbol} (he : ∀ e, s.kind ≠ .eval e)
    (hl : ∀ type raw, s.kind ≠ .literal type raw) : s.Quotes source :=
  ⟨fun e h => absurd h (he e), fun type raw h => absurd h (hl type raw)⟩

/-! ## Parts of moves -/

theorem TokenStream.exists_located_of_labelsFrom {ending : Except LexicalError Position}
    {read names : List String} {ts : List Token} (h : Located source a ts)
    (hl : labelsFrom ending read ts = .ok (names, rest)) :
    ∃ b, a ≤ b ∧ Located source b rest.tokens := by
  induction ts generalizing a read with
  | nil =>
    simp only [labelsFrom] at hl
    split at hl <;> cases hl
  | cons t ts ih =>
    cases h with
    | cons hgap ht hts =>
      have hle := hgap.le
      have hlt := ht.le
      simp only [labelsFrom] at hl
      split at hl
      · obtain ⟨b, hb, hrest⟩ := ih hts hl
        exact ⟨b, by omega, hrest⟩
      split at hl
      · simp only [Except.ok.injEq, Prod.mk.injEq] at hl
        obtain ⟨-, rfl⟩ := hl
        exact ⟨t.span.stop, by omega, hts⟩
      · cases hl

/-- The first token of a value stands behind what may separate it from the value before. -/
theorem Spine.located_of_valueStream {kind : SymbolKind} {ts : List Token}
    {e : Except LexicalError Position} (h : Located source a s.tokens)
    (hs : valueStream kind s = ⟨t :: ts, e⟩) :
    Gap source ['\n'] a t.span.start.offset ∧ t.Placed source ∧ Located source t.span.stop ts := by
  rw [valueStream] at hs
  split at hs
  · exact located_of_skipNewlines h hs
  · subst hs
    cases h with
    | cons hgap ht hts => exact ⟨hgap.mono (by simp), ht, hts⟩

theorem Extends.exists_spanned (trees : List Tree) {v v' : Tree} (hx : Extends source v s v' s')
    (h : (outer.under symbol (trees ++ [v])).Spanned source a) (hs : Located source a s.tokens) :
    ∃ b, (outer.under symbol (trees ++ [v'])).Spanned source b ∧ Located source b s'.tokens := by
  cases hx with
  | stay => exact ⟨a, h, hs⟩
  | @operation t ts e stop rest _ he =>
    obtain ⟨ho, c, hc, hts⟩ := h
    obtain ⟨d, htrees, hv⟩ := follow_append.mp hts
    obtain ⟨hstart, -, hstop⟩ := follow_singleton.mp hv
    obtain ⟨b, hle, hb, hrest⟩ :=
      exists_located_of_expressionEnd symbol.kind.newline_mem_separators hstop hs he
    have hle' : v.symbol.span.start.offset ≤ stop.stop := by
      simp only [Span.stop] at *
      omega
    have hspan : (Symbol.eval source .operation none v.symbol.span stop).span.stop = stop.stop :=
      Span.stop_upTo hle'
    have hquotes : (Symbol.eval source .operation none v.symbol.span stop).Quotes source :=
      Symbol.quotes_eval hstart.boundary_right hb.boundary_left hle'
    refine ⟨b, ⟨ho, c, hc, follow_append.mpr ⟨d, htrees, ?_⟩⟩, hrest⟩
    refine follow_singleton.mpr ⟨hstart, ?_, ?_⟩
    · exact spanned_leaf hquotes hstart.boundary_right
    · rw [leaf, symbol_node, hspan]
      exact hb

theorem AttrEnd.exists_spanned {inMap : Prop} {sp : Spine} (hx : AttrEnd inMap s rest)
    (hmap : inMap → sp.separators = ['\n', ',']) (h : sp.Spanned source a)
    (hs : Located source a s.tokens) :
    ∃ b, sp.Spanned source b ∧ Located source b rest.tokens := by
  cases hx with
  | newline hk =>
    cases hs with
    | cons hgap ht hts =>
      exact ⟨_, h.newline ((hgap.mono (by simp)).trans (ht.newline hk)), hts⟩
  | comma hk hm =>
    cases hs with
    | cons hgap ht hts =>
      refine ⟨_, h.gap ?_, hts⟩
      rw [hmap hm]
      exact (hgap.mono (by simp)).trans (ht.comma hk)
  | stop => exact ⟨a, h, hs⟩

theorem Separator.exists_spanned {sp : Spine} (hx : Separator s rest)
    (hcomma : sp.separators = ['\n', ',']) (h : sp.Spanned source a)
    (hs : Located source a s.tokens) :
    ∃ b, sp.Spanned source b ∧ Located source b rest.tokens := by
  cases hx with
  | comma hskip hk =>
    obtain ⟨hgap, ht, hts⟩ := located_of_skipNewlines hs hskip
    refine ⟨_, (h.newline hgap).gap ?_, hts⟩
    rw [hcomma]
    exact ht.comma hk
  | stop =>
    obtain ⟨b, hb, hrest⟩ := exists_located_skipNewlines hs
    exact ⟨b, h.newline hb, hrest⟩

theorem EntryKey.exists_located {key : String} {span : Span} (hx : EntryKey source s key span rest)
    (hs : Located source a s.tokens) :
    Gap source [] a span.start.offset ∧
      ∃ b, span.start.offset ≤ b ∧ Located source b rest.tokens := by
  cases hx with
  | word =>
    cases hs with
    | cons hgap ht hts => exact ⟨hgap, _, ht.le, hts⟩
  | group _ hg =>
    cases hs with
    | cons hgap ht hts =>
      obtain ⟨hle, hrest⟩ := located_of_skipGroup hts hg
      exact ⟨hgap, _, Nat.le_trans ht.le hle, hrest⟩

/-! ## Moves -/

/-- The source is covered at a stage of its reading. -/
def Stage.Covered (source : List Char) (st : Stage) : Prop :=
  ∃ a, st.spine.Spanned source a ∧ Located source a st.stream.tokens

/-- A value that was read at once is the last one on its level. -/
theorem Stage.Covered.value {first : Token} {value : Symbol}
    (h : (outer.under symbol trees).Spanned source a)
    (hgap : Gap source ['\n'] a first.span.start.offset)
    (hv : Covers source first value rest) :
    Stage.Covered source ⟨outer.under symbol (trees ++ [leaf value]), true, rest⟩ := by
  obtain ⟨b, hb, hrest⟩ := hv.rest
  have hstart : Gap source ['\n'] a value.span.start.offset := hv.start ▸ hgap
  have hmem : ∀ c ∈ ['\n'], c ∈ (outer.under symbol trees).separators := by
    simpa using (outer.under symbol trees).newline_mem_separators
  exact ⟨b, Spine.Spanned.append h (t := leaf value) (hstart.mono hmem)
    (spanned_leaf hv.quotes hstart.boundary_right) (hb.mono hmem), hrest⟩

/-- A symbol that is opened begins with the token `t`. -/
theorem Stage.Covered.under {sp : Spine} {b : Nat} (h : sp.Spanned source a)
    (hgap : Gap source ['\n'] a symbol.span.start.offset) (hle : symbol.span.start.offset ≤ b)
    (hs : Located source b s.tokens) :
    Stage.Covered source ⟨sp.under symbol [], false, s⟩ :=
  ⟨b, (h.newline hgap).under hle hs.boundary, hs⟩

/-- A symbol is closed by the token `t`. -/
theorem Stage.Covered.close {ts : List Token} {e : Except LexicalError Position}
    (h : (outer.under symbol trees).Spanned source a) (hs : Located source a s.tokens)
    (hskip : s.skipNewlines = ⟨t :: ts, e⟩) (hq : (symbol.extendTo t.span).Quotes source) :
    Stage.Covered source
      ⟨outer.append [node (symbol.extendTo t.span) trees], true, ⟨ts, e⟩⟩ := by
  obtain ⟨hgap, ht, hts⟩ := located_of_skipNewlines hs hskip
  exact ⟨t.span.stop, h.close t.span hq (Nat.le_trans hgap.le ht.le) (.refl ht.stop), hts⟩

theorem Move.covered {st st' : Stage} (hmove : Move source st st') (h : st.Covered source) :
    st'.Covered source := by
  obtain ⟨a, h, hs⟩ := h
  cases hmove with
  | attr _ hskip _ _ _ =>
    obtain ⟨hgap, ht, hts⟩ := located_of_skipNewlines hs hskip
    cases hts with
    | cons hgap' hsign hts =>
      exact .under h hgap (Nat.le_trans (Nat.le_trans ht.le hgap'.le) hsign.le) hts
  | block _ hskip _ hl _ =>
    obtain ⟨hgap, ht, hts⟩ := located_of_skipNewlines hs hskip
    obtain ⟨b, hb, hrest⟩ := exists_located_of_labelsFrom hts hl
    exact .under h hgap (Nat.le_trans ht.le hb) hrest
  | bodyArray _ hskip _ _ =>
    obtain ⟨hgap, ht, hts⟩ := located_of_skipNewlines hs hskip
    exact .under h hgap ht.le hts
  | blockEnd hk hskip _ =>
    exact .close h hs hskip (Symbol.quotes_of_kind (by simp [Symbol.extendTo, hk])
      (by simp [Symbol.extendTo, hk]))
  | operand _ hvs hv =>
    obtain ⟨hgap, ht, hts⟩ := Spine.located_of_valueStream hs hvs
    exact .value h hgap (covers_of_operand ht hts hv)
  | comprehension _ hvs _ _ hv =>
    obtain ⟨hgap, ht, hts⟩ := Spine.located_of_valueStream hs hvs
    exact .value h hgap (covers_of_comprehension ht hts hv)
  | array _ hvs _ _ _ =>
    obtain ⟨hgap, ht, hts⟩ := Spine.located_of_valueStream hs hvs
    exact .under h hgap ht.le hts
  | map _ hvs _ _ _ =>
    obtain ⟨hgap, ht, hts⟩ := Spine.located_of_valueStream hs hvs
    exact .under h hgap ht.le hts
  | @attrEnd outer symbol v v' s s' rest hk hx hend =>
    obtain ⟨b, ⟨ho, c, hc, hv⟩, hs'⟩ := hx.exists_spanned [] h hs
    have hseps : symbol.kind.separators = ['\n'] := by rw [hk]; rfl
    rw [List.nil_append, hseps] at hv
    obtain ⟨hstart, hspanned, hstop⟩ := follow_singleton.mp hv
    have hvalue : (outer.under symbol [v']).Spanned source v'.symbol.span.stop := by
      refine ⟨ho, c, hc, ?_⟩
      rw [hseps]
      exact follow_singleton.mpr ⟨hstart, hspanned, .refl hstop.boundary_left⟩
    have hclosed := hvalue.close v'.symbol.span
      (Symbol.quotes_of_kind (by simp [Symbol.extendTo, hk]) (by simp [Symbol.extendTo, hk]))
      (Nat.le_refl _) (hstop.mono (by simpa using outer.newline_mem_separators))
    refine hend.exists_spanned (fun hmap => ?_) hclosed hs'
    cases outer with
    | root => exact hmap.elim
    | under o sym ts =>
      have hkind : sym.kind = .map := hmap
      simp [Spine.append, Spine.separators, hkind, SymbolKind.separators]
  | element hk hx hsep =>
    obtain ⟨b, h', hs'⟩ := hx.exists_spanned _ h hs
    exact hsep.exists_spanned (by simp [Spine.separators, hk, SymbolKind.separators]) h' hs'
  | arrayEnd hk hskip _ =>
    exact .close h hs hskip (Symbol.quotes_of_kind (by simp [Symbol.extendTo, hk])
      (by simp [Symbol.extendTo, hk]))
  | entry _ hkey _ _ =>
    obtain ⟨b, hb, hs'⟩ := exists_located_skipNewlines hs
    obtain ⟨hgap, c, hc, hrest⟩ := hkey.exists_located hs'
    cases hrest with
    | cons hgap' hsign hts =>
      exact .under h (hb.trans (hgap.mono (by simp)))
        (Nat.le_trans (Nat.le_trans hc hgap'.le) hsign.le) hts
  | mapEnd hk hskip _ =>
    exact .close h hs hskip (Symbol.quotes_of_kind (by simp [Symbol.extendTo, hk])
      (by simp [Symbol.extendTo, hk]))

theorem Move.covered_of_reflTransGen {st st' : Stage} (hmoves : ReflTransGen (Move source) st st')
    (h : st.Covered source) : st'.Covered source :=
  run_of_step Move.covered hmoves h

/-! ## The whole source -/

theorem Stage.Ends.error_ne_none {st : Stage} {parsed : Parsed} (h : st.Ends source parsed)
    (he : parsed.error = none) : ∃ trees t, st.spine = .root trees ∧
      st.stream.skipNewlines.peek = .ok t ∧ t.kind = .eof ∧ parsed.tree = st.spine.tree := by
  cases h with
  | @finish trees t hroot hpeek hk => exact ⟨trees, t, hroot, hpeek, hk, rfl⟩
  | stop => cases he

theorem TokenStream.eq_nil_of_peek_eof (h : s.peek = .ok t) (hk : t.kind = .eof)
    (hs : ∀ u ∈ s.tokens, u.kind ≠ .eof) : s.tokens = [] ∧ ∃ p, s.ending = .ok p := by
  obtain ⟨tokens, ending⟩ := s
  cases tokens with
  | nil =>
    cases ending with
    | error e => cases h
    | ok p => exact ⟨rfl, p, rfl⟩
  | cons u us =>
    simp only [peek_cons, Except.ok.injEq] at h
    exact absurd (h ▸ hk) (hs u List.mem_cons_self)

/-- A source that is read without an error is read to its end, out of all symbols. -/
theorem exists_finish (source : String) (h : (parseTree source).error = none) :
    ∃ st trees p, ReflTransGen (Move source.toList) (.ofStream (.ofString source)) st ∧
      st.spine = .root trees ∧ st.stream.skipNewlines = ⟨[], .ok p⟩ ∧
      (ofString source).ending = .ok p ∧ (parseTree source).tree = (Spine.root trees).tree := by
  obtain ⟨st, hmoves, -, hends⟩ := exists_ends_parseTree source
  obtain ⟨trees, t, hroot, hpeek, hk, htree⟩ := hends.error_ne_none h
  have hsuffix := Move.suffix_of_reflTransGen hmoves
  have hskip := (suffix_skipNewlines st.stream).trans hsuffix
  obtain ⟨hnil, p, hp⟩ := eq_nil_of_peek_eof hpeek hk fun u hu =>
    Lexer.ne_eof_of_mem_stream _ u (hskip.tokens.subset hu)
  refine ⟨st, trees, p, hmoves, hroot, ?_, hskip.ending.symm.trans hp, hroot ▸ htree⟩
  rw [← hnil, ← hp]

theorem Stage.covered_ofStream {source : String} {p : Position}
    (h : (ofString source).ending = .ok p) :
    Stage.Covered source.toList (.ofStream (.ofString source)) := by
  have hlocated := located_ofString source h
  exact ⟨0, follow_nil.mpr (.refl hlocated.boundary), hlocated⟩

/-- The spans of a source that is read without an error cover it. -/
theorem covers_parseTree (source : String) (h : (parseTree source).error = none) :
    (parseTree source).tree.Covers source.toList := by
  obtain ⟨st, trees, p, hmoves, hroot, hskip, hending, htree⟩ := exists_finish source h
  obtain ⟨a, hspanned, hlocated⟩ :=
    Move.covered_of_reflTransGen hmoves (Stage.covered_ofStream hending)
  obtain ⟨b, hb, hrest⟩ := exists_located_skipNewlines hlocated
  rw [hskip] at hrest
  cases hrest with
  | nil hgap =>
    have hfollow := hspanned.newline (hb.trans (hgap.mono (by simp)))
    rw [hroot] at hfollow
    rw [htree, Spine.tree, Spine.forest, Spine.forestWith, List.append_nil]
    exact SymbolTree.covers_ofForest hfollow

theorem covers_parseTree_operation :
    (parseTree "a = [1, b + 2] # c\n").error = none ∧
      (parseTree "a = [1, b + 2] # c\n").tree.Covers "a = [1, b + 2] # c\n".toList := by
  have h : (parseTree "a = [1, b + 2] # c\n").error = none := by decide +kernel
  exact ⟨h, covers_parseTree _ h⟩

end Hcl
