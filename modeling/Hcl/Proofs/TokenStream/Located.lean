import Hcl.Proofs.Lexer.Tiling
import Hcl.Proofs.TokenStream.Operand

/-!
# Readers of covered tokens

What a reader leaves covers the rest of the source, from the end of what it read. Only an operation
may leave filler in between: the line breaks behind an operator that has no operand.
-/

namespace Hcl

theorem Span.stop_upTo {first last : Span} (h : first.start.offset ≤ last.stop) :
    (first.upTo last).stop = last.stop := by
  simp only [upTo, stop] at *
  omega

/-- An expression or a literal has the text that its span covers. A string is decoded. -/
def Symbol.Quotes (source : List Char) (s : Symbol) : Prop :=
  (∀ e, s.kind = .eval e → s.span.slice? source = some e.text) ∧
    ∀ type raw, s.kind = .literal type raw → type ≠ .string → s.span.slice? source = some raw

variable {source seps : List Char} {a : Nat}

theorem Symbol.quotes_eval {kind : EvalKind} {name : Option String} {first stop : Span}
    (hstart : Boundary source first.start.offset) (hstop : Boundary source stop.stop)
    (hle : first.start.offset ≤ stop.stop) :
    (Symbol.eval source kind name first stop).Quotes source := by
  obtain ⟨text, htext⟩ := Span.exists_slice? (s := first.upTo stop) hstart
    (by rwa [Span.stop_upTo hle])
  refine ⟨?_, nofun⟩
  rintro e ⟨rfl⟩
  simp [Symbol.eval, htext]

namespace TokenStream

variable {s rest : TokenStream} {t first : Token} {ts : List Token} {stop last : Span}
  {ending : Except LexicalError Position}

theorem exists_located_skipNewlines (h : Located source a s.tokens) :
    ∃ b, Gap source ['\n'] a b ∧ Located source b s.skipNewlines.tokens := by
  obtain ⟨tokens, ending⟩ := s
  simp only [skipNewlines] at *
  induction tokens generalizing a with
  | nil => exact ⟨a, .refl h.boundary, h⟩
  | cons t ts ih =>
    by_cases hk : t.kind = .newline
    · cases h with
      | cons hgap ht hts =>
        obtain ⟨b, hb, hrest⟩ := ih hts
        refine ⟨b, ((hgap.mono (by simp)).trans (ht.newline hk)).trans hb, ?_⟩
        simpa [hk] using hrest
    · refine ⟨a, .refl h.boundary, ?_⟩
      simpa [hk] using h

theorem located_of_skipNewlines (h : Located source a s.tokens)
    (hs : s.skipNewlines = ⟨t :: ts, ending⟩) :
    Gap source ['\n'] a t.span.start.offset ∧ t.Placed source ∧ Located source t.span.stop ts := by
  obtain ⟨b, hb, hrest⟩ := exists_located_skipNewlines h
  rw [hs] at hrest
  cases hrest with
  | cons hgap ht hts => exact ⟨hb.trans (hgap.mono (by simp)), ht, hts⟩

/-! ## Groups and operations -/

theorem located_of_skipGroupFrom {start : Position} {depth : Nat} (h : Located source a ts)
    (hg : skipGroupFrom start ending depth ts = .ok (stop, rest)) :
    a ≤ stop.stop ∧ Located source stop.stop rest.tokens := by
  induction ts generalizing a depth with
  | nil =>
    simp only [skipGroupFrom] at hg
    split at hg <;> cases hg
  | cons t ts ih =>
    cases h with
    | cons hgap ht hts =>
      have hle := hgap.le
      have hlt := ht.le
      have hmore : ∀ {depth : Nat}, skipGroupFrom start ending depth ts = .ok (stop, rest) →
          a ≤ stop.stop ∧ Located source stop.stop rest.tokens := fun hg => by
        obtain ⟨hstop, hrest⟩ := ih hts hg
        exact ⟨by omega, hrest⟩
      simp only [skipGroupFrom] at hg
      split at hg
      · exact hmore hg
      split at hg
      · split at hg
        · simp only [Except.ok.injEq, Prod.mk.injEq] at hg
          obtain ⟨rfl, rfl⟩ := hg
          exact ⟨by omega, hts⟩
        · exact hmore hg
      · exact hmore hg

theorem located_of_skipGroup {start : Position} (h : Located source a s.tokens)
    (hg : s.skipGroup start = .ok (stop, rest)) :
    a ≤ stop.stop ∧ Located source stop.stop rest.tokens :=
  located_of_skipGroupFrom h hg

theorem exists_located_of_expressionEndFrom {start : Position} {depth : Nat} {dangling : Bool}
    (hseps : '\n' ∈ seps) (hstop : Gap source seps stop.stop a) (h : Located source a ts)
    (he : expressionEndFrom start ending stop depth dangling ts = .ok (last, rest)) :
    ∃ b, stop.stop ≤ last.stop ∧ Gap source seps last.stop b ∧ Located source b rest.tokens := by
  induction ts generalizing a stop depth dangling with
  | nil =>
    simp only [expressionEndFrom] at he
    split at he
    · cases he
    split at he
    · simp only [Except.ok.injEq, Prod.mk.injEq] at he
      obtain ⟨rfl, rfl⟩ := he
      exact ⟨a, Nat.le_refl _, hstop, h⟩
    · cases he
  | cons t ts ih =>
    have hend : Except.ok (stop, ⟨t :: ts, ending⟩) = (Except.ok (last, rest) : Reading Span) →
        ∃ b, stop.stop ≤ last.stop ∧ Gap source seps last.stop b ∧
          Located source b rest.tokens := fun he => by
      simp only [Except.ok.injEq, Prod.mk.injEq] at he
      obtain ⟨rfl, rfl⟩ := he
      exact ⟨a, Nat.le_refl _, hstop, h⟩
    cases h with
    | cons hgap ht hts =>
      have hle := hstop.le
      have hle' := hgap.le
      have hlt := ht.le
      have hmore : ∀ {depth : Nat} {dangling : Bool},
          expressionEndFrom start ending t.span depth dangling ts = .ok (last, rest) →
          ∃ b, stop.stop ≤ last.stop ∧ Gap source seps last.stop b ∧
            Located source b rest.tokens := fun he => by
        obtain ⟨b, hb, hrest⟩ := ih (.refl ht.stop) hts he
        exact ⟨b, by omega, hrest⟩
      simp only [expressionEndFrom] at he
      split at he
      · rename_i hk
        split at he
        · exact hend he
        · exact ih ((hstop.trans (hgap.mono (by simp))).trans ((ht.newline hk).mono (by simpa))) hts he
      split at he
      · split at he
        · exact hend he
        · exact hmore he
      split at he
      · exact hend he
      · exact hmore he

theorem exists_located_of_expressionEnd (hseps : '\n' ∈ seps) (hfirst : Gap source seps stop.stop a)
    (h : Located source a s.tokens) (he : s.expressionEnd stop = .ok (last, rest)) :
    ∃ b, stop.stop ≤ last.stop ∧ Gap source seps last.stop b ∧ Located source b rest.tokens :=
  exists_located_of_expressionEndFrom hseps hfirst h he

/-! ## Operands -/

theorem located_of_steps {root : Span} {kind kind' : EvalKind} {stop stop' : Option Span}
    (h : Located source (stop.getD root).stop s.tokens)
    (hs : steps kind stop s = .ok ((kind', stop'), rest)) :
    (stop.getD root).stop ≤ (stop'.getD root).stop ∧
      Located source (stop'.getD root).stop rest.tokens := by
  fun_induction steps kind stop s with
  | case4 kind stop t ending hd step ts hstep ih =>
    cases h with
    | cons hgap ht hts =>
      cases hts with
      | cons hgap' hstep hts =>
        obtain ⟨hstop, hrest⟩ := ih hts hs
        have := hgap.le
        have := ht.le
        have := hgap'.le
        have := hstep.le
        simp only [Option.getD_some] at hstop
        exact ⟨by omega, hrest⟩
  | case7 kind stop t ts ending hd hb stop' rest' hg ih =>
    cases h with
    | cons hgap ht hts =>
      obtain ⟨hgroup, hts⟩ := located_of_skipGroup hts hg
      obtain ⟨hstop, hrest⟩ := ih hts hs
      have := hgap.le
      have := ht.le
      simp only [Option.getD_some] at hstop
      exact ⟨by omega, hrest⟩
  | case9 kind stop t ts ending hd hb hp stop' rest' hg ih =>
    cases h with
    | cons hgap ht hts =>
      obtain ⟨hgroup, hts⟩ := located_of_skipGroup hts hg
      obtain ⟨hstop, hrest⟩ := ih hts hs
      have := hgap.le
      have := ht.le
      simp only [Option.getD_some] at hstop
      exact ⟨by omega, hrest⟩
  | case2 | case10 =>
    simp only [Except.ok.injEq, Prod.mk.injEq] at hs
    obtain ⟨⟨-, rfl⟩, rfl⟩ := hs
    exact ⟨Nat.le_refl _, h⟩
  | _ => simp at hs

/-- Where a value that was read at once stands, and what is left behind it. -/
structure Covers (source : List Char) (first : Token) (value : Symbol) (rest : TokenStream) :
    Prop where
  start : value.span.start = first.span.start
  quotes : value.Quotes source
  rest : ∃ b, Gap source ['\n'] value.span.stop b ∧ Located source b rest.tokens

theorem covers_eval {kind : EvalKind} {name : Option String} (hfirst : first.Placed source)
    (hle : first.span.stop ≤ stop.stop)
    (h : ∃ b, Gap source ['\n'] stop.stop b ∧ Located source b rest.tokens) :
    Covers source first (.eval source kind name first.span stop) rest := by
  have hle' : first.span.start.offset ≤ stop.stop := Nat.le_trans hfirst.le hle
  obtain ⟨b, hb, hrest⟩ := h
  have hstop : (first.span.upTo stop).stop = stop.stop := Span.stop_upTo hle'
  exact ⟨rfl, Symbol.quotes_eval hfirst.start hb.boundary_left hle', b, by rwa [← hstop] at hb, hrest⟩

theorem covers_of_skipGroup {kind : EvalKind} (hfirst : first.Placed source)
    (h : Located source first.span.stop s.tokens)
    (hg : s.skipGroup first.span.start = .ok (stop, rest)) :
    Covers source first (.eval source kind none first.span stop) rest := by
  obtain ⟨hle, hrest⟩ := located_of_skipGroup h hg
  exact covers_eval hfirst hle ⟨_, .refl hrest.boundary, hrest⟩

theorem covers_of_literal {type : LiteralType} (hfirst : first.Placed source)
    (h : Located source first.span.stop s.tokens) (hk : first.kind.literalType? = some type) :
    Covers source first (.literal type first.text first.span) s := by
  refine ⟨rfl, ⟨nofun, ?_⟩, _, .refl h.boundary, h⟩
  rintro type' raw ⟨rfl, rfl⟩ htype
  -- strings alone are not kept as they are written
  refine hfirst.slice (fun hstring => htype ?_) fun hheredoc => htype ?_
  · simpa [hstring, TokenKind.literalType?, eq_comm] using hk
  · simpa [hheredoc, TokenKind.literalType?, eq_comm] using hk

theorem covers_of_operand {value : Symbol} (hfirst : first.Placed source)
    (h : Located source first.span.stop s.tokens)
    (hv : s.operand source first = .ok (value, rest)) : Covers source first value rest := by
  have h' : Located source ((none : Option Span).getD first.span).stop s.tokens := h
  cases readsOperand_of_operand hv with
  | literal hk => exact covers_of_literal hfirst h hk
  | keyword _ hs _ =>
    obtain ⟨-, hrest⟩ := located_of_steps h' hs
    exact ⟨rfl, ⟨nofun, nofun⟩, _, .refl hrest.boundary, hrest⟩
  | traversal _ hs _ =>
    obtain ⟨hle, hrest⟩ := located_of_steps h' hs
    exact covers_eval hfirst hle ⟨_, .refl hrest.boundary, hrest⟩
  | group _ hg => exact covers_of_skipGroup hfirst h hg
  | operation _ _ hx =>
    obtain ⟨b, hle, hrest⟩ :=
      exists_located_of_expressionEnd List.mem_cons_self (.refl hfirst.stop) h hx
    exact covers_eval hfirst hle ⟨b, hrest⟩

theorem covers_of_comprehension {value : Symbol} (hfirst : first.Placed source)
    (h : Located source first.span.stop s.tokens)
    (hv : s.comprehension source first = .ok (value, rest)) : Covers source first value rest := by
  obtain ⟨⟨stop, rest'⟩, hg, hr⟩ := exists_of_map_ok hv
  simp only [Prod.mk.injEq] at hr
  obtain ⟨rfl, rfl⟩ := hr
  exact covers_of_skipGroup hfirst h hg

end TokenStream

end Hcl
