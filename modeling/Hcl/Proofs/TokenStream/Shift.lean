import Hcl.Builder.Step
import Hcl.Proofs.Lexer.Emits
import Hcl.Proofs.Lexer.Shift
import Hcl.Proofs.TokenStream.Unfold

/-!
# Readers behind other text

What a reader takes from shifted tokens is what it takes from the tokens, shifted. Texts of
expressions are cut out of the source, in which everything stands behind the same text.
-/

namespace Hcl

variable {d : Shift} {s : TokenStream} {t : Token} {ts : List Token}
  {ending : Except LexicalError Position}

/-- The end of a stream behind other text. -/
def shiftEnding (d : Shift) : Except LexicalError Position → Except LexicalError Position
  | .ok p => .ok (p.shift d)
  | .error e => .error (e.shift d)

def TokenStream.shift (d : Shift) (s : TokenStream) : TokenStream :=
  ⟨s.tokens.map (Token.shift d), shiftEnding d s.ending⟩

/-- What is found out behind other text; `f` shifts the value. -/
def shiftOutcome {α : Type} (d : Shift) (f : α → α) : Except Error α → Except Error α
  | .ok a => .ok (f a)
  | .error e => .error (e.shift d)

/-- What is read behind other text; `f` shifts the value. -/
def Reading.shift {α : Type} (d : Shift) (f : α → α) (r : Reading α) : Reading α :=
  shiftOutcome d (fun (a, s) => (f a, s.shift d)) r

@[simp] theorem shiftOutcome_ok {α : Type} (f : α → α) (a : α) :
    shiftOutcome d f (.ok a) = .ok (f a) := rfl
@[simp] theorem Reading.shift_ok {α : Type} (f : α → α) (a : α) (s : TokenStream) :
    Reading.shift d f (.ok (a, s)) = .ok (f a, s.shift d) := rfl

theorem Lexer.shift_stream (d : Shift) (lx : Lexer) : (lx.shift d).stream = lx.stream.shift d := by
  fun_induction Lexer.stream lx with
  | case1 lx cause after hn =>
    have hn' : (lx.shift d).next = .error (cause.shift d) (after.shift d) := by
      rw [shift_next, hn]
      rfl
    rw [stream_of_error hn']
    rfl
  | case2 lx t next hn hk =>
    have hn' : (lx.shift d).next = .ok (t.shift d) (next.shift d) := by
      rw [shift_next, hn]
      rfl
    rw [stream_of_eof hn' hk]
    rfl
  | case3 lx t next hn hk more =>
    rename_i ih
    have hn' : (lx.shift d).next = .ok (t.shift d) (next.shift d) := by
      rw [shift_next, hn]
      rfl
    rw [stream_of_next hn' hk, ih]
    rfl

/-! ## Errors -/

@[simp] theorem Token.unexpected_shift (expected : Expected) (t : Token) :
    (t.shift d).unexpected expected = (t.unexpected expected).shift d := rfl
@[simp] theorem Token.unmatched_shift (t : Token) : (t.shift d).unmatched = t.unmatched.shift d := rfl
@[simp] theorem Construct.unclosed_shift (what : Construct) (p : Position) :
    what.unclosed (p.shift d) = (what.unclosed p).shift d := rfl
@[simp] theorem Token.atEnd_shift (p : Position) : atEnd (p.shift d) = (atEnd p).shift d := rfl

namespace TokenStream

@[simp] theorem shift_mk (ts : List Token) (ending : Except LexicalError Position) :
    (mk ts ending).shift d = ⟨ts.map (Token.shift d), shiftEnding d ending⟩ := rfl
@[simp] theorem tail_shift (s : TokenStream) : (s.shift d).tail = s.tail.shift d := by
  simp [tail, shift]

@[simp] theorem peek_shift (s : TokenStream) :
    (s.shift d).peek = shiftOutcome d (Token.shift d) s.peek := by
  obtain ⟨tokens, ending⟩ := s
  cases tokens with
  | nil => cases ending <;> rfl
  | cons t ts => rfl

@[simp] theorem next_shift (s : TokenStream) : (s.shift d).next = s.next.shift d (Token.shift d) := by
  rw [next, next, peek_shift, tail_shift]
  cases s.peek <;> rfl

@[simp] theorem skipNewlines_shift (s : TokenStream) :
    (s.shift d).skipNewlines = s.skipNewlines.shift d := by
  simp [skipNewlines, shift, List.dropWhile_map, Function.comp_def]

/-! ## Groups and operations -/

theorem skipGroupFrom_shift (start : Position) (ending : Except LexicalError Position) (depth : Nat)
    (ts : List Token) :
    skipGroupFrom (start.shift d) (shiftEnding d ending) depth (ts.map (Token.shift d)) =
      (skipGroupFrom start ending depth ts).shift d (Span.shift d) := by
  induction ts generalizing depth with
  | nil => cases ending <;> rfl
  | cons t ts ih =>
    simp only [List.map_cons, skipGroupFrom, Token.kind_shift, ih]
    split
    · rfl
    split
    · cases depth <;> rfl
    · rfl

@[simp] theorem skipGroup_shift (start : Position) (s : TokenStream) :
    (s.shift d).skipGroup (start.shift d) = (s.skipGroup start).shift d (Span.shift d) :=
  skipGroupFrom_shift start s.ending 0 s.tokens

theorem expressionEndFrom_shift (start : Position) (ending : Except LexicalError Position)
    (stop : Span) (depth : Nat) (dangling : Bool) (ts : List Token) :
    expressionEndFrom (start.shift d) (shiftEnding d ending) (stop.shift d) depth dangling
        (ts.map (Token.shift d)) =
      (expressionEndFrom start ending stop depth dangling ts).shift d (Span.shift d) := by
  induction ts generalizing stop depth dangling with
  | nil =>
    cases ending with
    | error e => rfl
    | ok p =>
      simp only [List.map_nil, expressionEndFrom, shiftEnding]
      split <;> rfl
  | cons t ts ih =>
    simp only [List.map_cons, expressionEndFrom, Token.kind_shift, Token.span_shift, ih]
    split
    · split <;> rfl
    split
    · cases depth <;> rfl
    split <;> rfl

@[simp] theorem expressionEnd_shift (first : Span) (s : TokenStream) :
    (s.shift d).expressionEnd (first.shift d) = (s.expressionEnd first).shift d (Span.shift d) :=
  expressionEndFrom_shift first.start s.ending first 0 false s.tokens

/-! ## Values -/

@[simp] theorem comprehensionAhead_shift (s : TokenStream) :
    (s.shift d).comprehensionAhead = shiftOutcome d id s.comprehensionAhead := by
  simp only [comprehensionAhead, skipNewlines_shift, peek_shift, tail_shift]
  cases s.skipNewlines.peek with
  | error e => rfl
  | ok t =>
    simp only [shiftOutcome_ok, Except.bind]
    by_cases hfor : t.kind = .ident ∧ t.text = "for"
    · have hfor' : (t.shift d).kind = .ident ∧ (t.shift d).text = "for" := hfor
      rw [if_pos hfor, if_pos hfor']
      cases s.skipNewlines.tail.peek <;> rfl
    · have hfor' : ¬((t.shift d).kind = .ident ∧ (t.shift d).text = "for") := hfor
      rw [if_neg hfor, if_neg hfor']
      rfl

@[simp] theorem isStep_shift (t : Token) : isStep (t.shift d) = isStep t := rfl

theorem steps_shift (kind : EvalKind) (stop : Option Span) (s : TokenStream) :
    (s.shift d).steps kind (stop.map (Span.shift d)) =
      (s.steps kind stop).shift d fun (kind, stop) => (kind, stop.map (Span.shift d)) := by
  have hgroup : ∀ (t : Token) ts ending,
      skipGroup (t.shift d).span.start ⟨ts.map (Token.shift d), shiftEnding d ending⟩ =
        (skipGroup t.span.start ⟨ts, ending⟩).shift d (Span.shift d) := fun t ts ending =>
    skipGroup_shift t.span.start ⟨ts, ending⟩
  fun_induction steps kind stop s with
  | case1 kind stop e => exact steps_error ..
  | case2 kind stop p => exact steps_nil ..
  | case3 kind stop t ending hd =>
    have hd' : (t.shift d).kind = .dot := hd
    simp only [shift_mk, List.map_cons, List.map_nil, steps_cons, if_pos hd']
    cases ending <;> rfl
  | case4 kind stop t ending hd step ts hs ih =>
    have hd' : (t.shift d).kind = .dot := hd
    have hs' : isStep (step.shift d) = true := hs
    simp only [shift_mk, List.map_cons, steps_cons, if_pos hd', if_pos hs', ← ih]
    rfl
  | case5 kind stop t ending hd step ts hs =>
    have hd' : (t.shift d).kind = .dot := hd
    have hs' : ¬isStep (step.shift d) = true := hs
    simp only [shift_mk, List.map_cons, steps_cons, if_pos hd', if_neg hs']
    rfl
  | case6 kind stop t ts ending hd hb e hg =>
    have hd' : (t.shift d).kind ≠ .dot := hd
    have hb' : (t.shift d).kind = .lBracket := hb
    simp only [shift_mk, List.map_cons, steps_cons, if_neg hd', if_pos hb', hgroup, hg]
    rfl
  | case7 kind stop t ts ending hd hb stop' rest hg ih =>
    have hd' : (t.shift d).kind ≠ .dot := hd
    have hb' : (t.shift d).kind = .lBracket := hb
    simp only [shift_mk, List.map_cons, steps_cons, if_neg hd', if_pos hb', hgroup, hg, ← ih]
    rfl
  | case8 kind stop t ts ending hd hb hp e hg =>
    have hd' : (t.shift d).kind ≠ .dot := hd
    have hb' : (t.shift d).kind ≠ .lBracket := hb
    have hp' : (t.shift d).kind = .lParen ∧ stop.map (Span.shift d) = none := by simpa using hp
    simp only [shift_mk, List.map_cons, steps_cons, if_neg hd', if_neg hb', if_pos hp', hgroup, hg]
    rfl
  | case9 kind stop t ts ending hd hb hp stop' rest hg ih =>
    have hd' : (t.shift d).kind ≠ .dot := hd
    have hb' : (t.shift d).kind ≠ .lBracket := hb
    have hp' : (t.shift d).kind = .lParen ∧ stop.map (Span.shift d) = none := by simpa using hp
    simp only [shift_mk, List.map_cons, steps_cons, if_neg hd', if_neg hb', if_pos hp', hgroup, hg,
      ← ih]
    rfl
  | case10 kind stop t ts ending hd hb hp =>
    have hd' : (t.shift d).kind ≠ .dot := hd
    have hb' : (t.shift d).kind ≠ .lBracket := hb
    have hp' : ¬((t.shift d).kind = .lParen ∧ stop.map (Span.shift d) = none) := by simpa using hp
    simp only [shift_mk, List.map_cons, steps_cons, if_neg hd', if_neg hb', if_neg hp']
    rfl

theorem labelsFrom_shift (ending : Except LexicalError Position) (names : List String)
    (ts : List Token) :
    labelsFrom (shiftEnding d ending) names (ts.map (Token.shift d)) =
      (labelsFrom ending names ts).shift d id := by
  induction ts generalizing names with
  | nil => cases ending <;> rfl
  | cons t ts ih =>
    simp only [List.map_cons, labelsFrom]
    by_cases hname : t.kind = .ident ∨ t.kind = .string
    · have hname' : (t.shift d).kind = .ident ∨ (t.shift d).kind = .string := hname
      rw [if_pos hname, if_pos hname', ← ih]
      rfl
    have hname' : ¬((t.shift d).kind = .ident ∨ (t.shift d).kind = .string) := hname
    rw [if_neg hname, if_neg hname']
    by_cases hbrace : t.kind = .lBrace
    · have hbrace' : (t.shift d).kind = .lBrace := hbrace
      rw [if_pos hbrace, if_pos hbrace']
      rfl
    · have hbrace' : (t.shift d).kind ≠ .lBrace := hbrace
      rw [if_neg hbrace, if_neg hbrace']
      rfl

@[simp] theorem labels_shift (name : String) (s : TokenStream) :
    (s.shift d).labels name = (s.labels name).shift d id :=
  labelsFrom_shift s.ending [name] s.tokens

end TokenStream

/-! ## Symbols -/

def Symbol.shift (d : Shift) (s : Symbol) : Symbol := { s with span := s.span.shift d }

/-- An expression is the same text in the whole source. -/
theorem Symbol.eval_shift (before source : List Char) (kind : EvalKind) (name : Option String)
    (first stop : Span) :
    eval (before ++ source) kind name (first.shift (.behind before)) (stop.shift (.behind before)) =
      (eval source kind name first stop).shift (.behind before) := by
  simp only [eval, Span.upTo_shift, Span.slice?_shift]
  rfl

namespace TokenStream

variable {before source : List Char}

theorem map_skipGroup_shift (kind : EvalKind) (first : Token) (s : TokenStream) :
    ((s.shift (.behind before)).skipGroup (first.shift (.behind before)).span.start).map
        (fun (stop, rest) =>
          (Symbol.eval (before ++ source) kind none (first.shift (.behind before)).span stop, rest)) =
      Reading.shift (.behind before) (Symbol.shift (.behind before))
        ((s.skipGroup first.span.start).map fun (stop, rest) =>
          (.eval source kind none first.span stop, rest)) := by
  rw [Token.span_shift, Span.start_shift, skipGroup_shift]
  cases s.skipGroup first.span.start with
  | error e => rfl
  | ok r => simp [Reading.shift, Except.map, Symbol.eval_shift]

theorem traversal_shift (root : Token) (s : TokenStream) :
    (s.shift (.behind before)).traversal (before ++ source) (root.shift (.behind before)) =
      Reading.shift (.behind before) (Symbol.shift (.behind before)) (s.traversal source root) := by
  have hsteps := steps_shift (d := .behind before) .traversal none s
  rw [traversal, traversal]
  rw [Option.map_none] at hsteps
  rw [hsteps]
  cases s.steps .traversal none with
  | error e => rfl
  | ok r =>
    obtain ⟨⟨kind, stop⟩, rest⟩ := r
    simp only [Reading.shift_ok, Except.map, Token.text_shift, Token.span_shift]
    cases stop with
    | none =>
      cases TypeKeyword.ofString? root.text with
      | none => simp only [Option.map_none, Option.getD_none, Symbol.eval_shift, Reading.shift_ok]
      | some k => rfl
    | some stop =>
      simp only [Option.map_some, Option.getD_some, Symbol.eval_shift, Reading.shift_ok]

theorem operand_shift (first : Token) (s : TokenStream) :
    (s.shift (.behind before)).operand (before ++ source) (first.shift (.behind before)) =
      Reading.shift (.behind before) (Symbol.shift (.behind before)) (s.operand source first) := by
  rw [operand, operand, Token.kind_shift]
  split
  · rfl
  · rfl
  · rfl
  · rfl
  · rfl
  · exact traversal_shift first s
  · exact map_skipGroup_shift .operation first s
  · rw [Token.text_shift, Token.span_shift, expressionEnd_shift]
    split
    · cases s.expressionEnd first.span with
      | error e => rfl
      | ok r => simp [Reading.shift, Except.map, Symbol.eval_shift]
    · rfl
  · rfl

theorem comprehension_shift (first : Token) (s : TokenStream) :
    (s.shift (.behind before)).comprehension (before ++ source) (first.shift (.behind before)) =
      Reading.shift (.behind before) (Symbol.shift (.behind before)) (s.comprehension source first) :=
  map_skipGroup_shift .comprehension first s

end TokenStream

end Hcl
