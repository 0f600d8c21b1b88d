import Hcl.Proofs.Lexer.Calls
import Hcl.Proofs.TokenStream.Located
import Hcl.Proofs.TokenStream.Suffix

/-!
# Places in readings

The tokens of a stream have their places in the source, also where the stream ends with an error.
What a reader makes of them then has its place there too, whether it is a symbol or an error.
-/

namespace Hcl

open Hcl.TokenStream

variable {source : List Char}

/-! ## Streams -/

/-- All tokens stand in the source, and so does the end or the error behind them. -/
structure TokenStream.IsIn (source : List Char) (s : TokenStream) : Prop where
  tokens : ∀ t ∈ s.tokens, t.span.IsIn source
  ending : match s.ending with
    | .ok p => p.IsIn source
    | .error cause => cause.position.IsIn source

theorem Lexer.StandsIn.isIn_stream {lx : Lexer} (h : lx.StandsIn source) :
    lx.stream.IsIn source := by
  have hnext := h.isIn_next
  fun_induction Lexer.stream lx with
  | case1 lx cause after hn =>
    rw [hn] at hnext
    exact ⟨by simp, hnext.1⟩
  | case2 lx t next hn hk =>
    rw [hn] at hnext
    exact ⟨by simp, hnext.1.start⟩
  | case3 lx t next hn hk more ih =>
    rw [hn] at hnext
    obtain ⟨htokens, hending⟩ := ih hnext.2 hnext.2.isIn_next
    exact ⟨List.forall_mem_cons.mpr ⟨hnext.1, htokens⟩, hending⟩

theorem TokenStream.isIn_ofString (source : String) : (ofString source).IsIn source.toList :=
  (Lexer.standsIn_ofString source).isIn_stream

theorem TokenStream.IsIn.suffix {s rest : TokenStream} (h : s.IsIn source) (hs : rest.Suffix s) :
    rest.IsIn source :=
  ⟨fun t ht => h.tokens t (hs.tokens.mem ht), hs.ending ▸ h.ending⟩

theorem TokenStream.IsIn.head {t : Token} {ts : List Token} {ending : Except LexicalError Position}
    (h : IsIn source ⟨t :: ts, ending⟩) : t.span.IsIn source :=
  h.tokens t List.mem_cons_self

theorem TokenStream.IsIn.tail {t : Token} {ts : List Token} {ending : Except LexicalError Position}
    (h : IsIn source ⟨t :: ts, ending⟩) : IsIn source ⟨ts, ending⟩ :=
  h.suffix (Suffix.cons (.refl _))

/-! ## Spans and symbols -/

theorem Position.IsIn.emptySpan {p : Position} (h : p.IsIn source) : Span.IsIn source ⟨p, 0⟩ :=
  ⟨h, h.boundary⟩

/-- Between two spans there is a span, in whatever order they stand. -/
theorem Span.IsIn.upTo {first last : Span} (hfirst : first.IsIn source) (hlast : last.IsIn source) :
    (first.upTo last).IsIn source := by
  refine ⟨hfirst.start, ?_⟩
  by_cases hle : first.start.offset ≤ last.stop
  · exact Span.stop_upTo hle ▸ hlast.stop
  · have hstop : (first.upTo last).stop = first.start.offset := by
      simp only [Span.upTo, Span.stop] at *
      omega
    exact hstop ▸ hfirst.start.boundary

theorem Span.IsIn.exists_slice? {s : Span} (h : s.IsIn source) :
    ∃ text, s.slice? source = some text :=
  Span.exists_slice? h.start.boundary h.stop

/-- The symbol stands in the source. An expression has the text that its span covers. -/
structure Symbol.IsIn (source : List Char) (s : Symbol) : Prop where
  span : s.span.IsIn source
  eval : ∀ e, s.kind = .eval e → s.span.slice? source = some e.text

theorem Symbol.isIn_of_kind {s : Symbol} (h : s.span.IsIn source) (hk : ∀ e, s.kind ≠ .eval e) :
    s.IsIn source :=
  ⟨h, fun e he => absurd he (hk e)⟩

theorem Symbol.isIn_eval {kind : EvalKind} {name : Option String} {first stop : Span}
    (hfirst : first.IsIn source) (hstop : stop.IsIn source) :
    (Symbol.eval source kind name first stop).IsIn source := by
  have hspan := hfirst.upTo hstop
  obtain ⟨text, htext⟩ := hspan.exists_slice?
  refine ⟨hspan, ?_⟩
  rintro e ⟨rfl⟩
  simp [Symbol.eval, htext]

/-! ## Answers -/

/-- An error of the lexemes or of the structure of a source, in its place. That there are too many
scopes is not found out by reading. -/
def Error.ReadIn (source : List Char) : Error → Prop
  | lexical _ p => p.IsIn source
  | syntactic fault p => fault ≠ .scopesTooDeep ∧ p.IsIn source
  | _ => False

/-- The answer is a good one, or an error in its place. -/
inductive Answers (source : List Char) {α : Type} (good : α → Prop) : Except Error α → Prop where
  | ok {a : α} : good a → Answers source good (.ok a)
  | error {e : Error} : e.ReadIn source → Answers source good (.error e)

namespace Answers

variable {α β : Type} {good : α → Prop} {good' : β → Prop}

theorem map {r : Except Error α} {f : α → β} (h : Answers source good r)
    (hf : ∀ a, good a → good' (f a)) : Answers source good' (r.map f) := by
  cases h with
  | ok ha => exact .ok (hf _ ha)
  | error he => exact .error he

theorem bind {r : Except Error α} {f : α → Except Error β} (h : Answers source good r)
    (hf : ∀ a, good a → Answers source good' (f a)) : Answers source good' (r.bind f) := by
  cases h with
  | ok ha => exact hf _ ha
  | error he => exact .error he

theorem of_ok {a : α} (h : Answers source good (.ok a)) : good a := by
  cases h with
  | ok ha => exact ha

theorem of_error {e : Error} (h : Answers source good (.error e : Except Error α)) :
    e.ReadIn source := by
  cases h with
  | error he => exact he

end Answers

/-- A good result is read, and what is left stands in the source. -/
def Reads (source : List Char) {α : Type} (good : α → Prop) : Reading α → Prop :=
  Answers source fun r => good r.1 ∧ r.2.IsIn source

namespace TokenStream

variable {s : TokenStream} {ts : List Token} {ending : Except LexicalError Position}

theorem readIn_unexpected {t : Token} (h : t.span.IsIn source) (expected : Expected) :
    (t.unexpected expected).ReadIn source := ⟨nofun, h.start⟩

theorem readIn_unclosed {p : Position} (h : p.IsIn source) (what : Construct) :
    (what.unclosed p).ReadIn source := ⟨nofun, h⟩

theorem answers_peek (h : s.IsIn source) : Answers source (fun t => t.span.IsIn source) s.peek := by
  obtain ⟨tokens, ending⟩ := s
  cases tokens with
  | cons t ts => exact .ok h.head
  | nil =>
    cases ending with
    | ok p => exact .ok h.ending.emptySpan
    | error cause => exact .error h.ending

theorem reads_next (h : s.IsIn source) : Reads source (fun t => t.span.IsIn source) s.next :=
  (answers_peek h).map fun _ ht => ⟨ht, h.suffix s.suffix_tail⟩

theorem reads_skipGroupFrom {start : Position} (hstart : start.IsIn source) {depth : Nat}
    (h : IsIn source ⟨ts, ending⟩) :
    Reads source (Span.IsIn source) (skipGroupFrom start ending depth ts) := by
  induction ts generalizing depth with
  | nil =>
    cases ending with
    | ok p => exact .error (readIn_unclosed hstart _)
    | error cause => exact .error h.ending
  | cons t ts ih =>
    simp only [skipGroupFrom]
    split
    · exact ih h.tail
    split
    · cases depth with
      | zero => exact .ok ⟨h.head, h.tail⟩
      | succ depth => exact ih h.tail
    · exact ih h.tail

theorem reads_skipGroup {start : Position} (hstart : start.IsIn source) (h : s.IsIn source) :
    Reads source (Span.IsIn source) (s.skipGroup start) := reads_skipGroupFrom hstart h

theorem reads_expressionEndFrom {start : Position} (hstart : start.IsIn source) {stop : Span}
    (hstop : stop.IsIn source) {depth : Nat} {dangling : Bool} (h : IsIn source ⟨ts, ending⟩) :
    Reads source (Span.IsIn source) (expressionEndFrom start ending stop depth dangling ts) := by
  induction ts generalizing stop depth dangling with
  | nil =>
    cases ending with
    | error cause => exact .error h.ending
    | ok p =>
      simp only [expressionEndFrom]
      split
      · exact .ok ⟨hstop, h⟩
      · exact .error (readIn_unclosed hstart _)
  | cons t ts ih =>
    simp only [expressionEndFrom]
    split
    · split
      · exact .ok ⟨hstop, h⟩
      · exact ih hstop h.tail
    split
    · cases depth with
      | zero => exact .ok ⟨hstop, h⟩
      | succ depth => exact ih h.head h.tail
    split
    · exact .ok ⟨hstop, h⟩
    · exact ih h.head h.tail

theorem reads_expressionEnd {first : Span} (hfirst : first.IsIn source) (h : s.IsIn source) :
    Reads source (Span.IsIn source) (s.expressionEnd first) :=
  reads_expressionEndFrom hfirst.start hfirst h

theorem answers_comprehensionAhead (h : s.IsIn source) :
    Answers source (fun _ => True) s.comprehensionAhead := by
  have hs := h.suffix (suffix_skipNewlines s)
  refine (answers_peek hs).bind fun keyword _ => ?_
  split
  · exact (answers_peek (hs.suffix (suffix_tail _))).map fun _ _ => trivial
  · exact .ok trivial

theorem reads_steps {kind : EvalKind} {stop : Option Span} (h : s.IsIn source)
    (hstop : ∀ x ∈ stop, x.IsIn source) :
    Reads source (fun r => ∀ x ∈ r.2, x.IsIn source) (steps kind stop s) := by
  fun_induction steps kind stop s with
  | case1 kind stop e => exact .error h.ending
  | case2 kind stop p => exact .ok ⟨hstop, h⟩
  | case3 kind stop t ending hd =>
    cases ending with
    | ok p => exact .error (readIn_unexpected (Position.IsIn.emptySpan h.ending) _)
    | error cause => exact .error h.ending
  | case4 kind stop t ending hd step ts hstep ih =>
    exact ih h.tail.tail (by simpa using h.tail.head)
  | case5 kind stop t ending hd step ts hstep => exact .error (readIn_unexpected h.tail.head _)
  | case6 kind stop t ts ending hd hb e hg =>
    exact .error (hg ▸ reads_skipGroup h.head.start h.tail).of_error
  | case7 kind stop t ts ending hd hb stop' rest' hg ih =>
    obtain ⟨hstop', hrest'⟩ := (hg ▸ reads_skipGroup h.head.start h.tail).of_ok
    exact ih hrest' (by simpa using hstop')
  | case8 kind stop t ts ending hd hb hp e hg =>
    exact .error (hg ▸ reads_skipGroup h.head.start h.tail).of_error
  | case9 kind stop t ts ending hd hb hp stop' rest' hg ih =>
    obtain ⟨hstop', hrest'⟩ := (hg ▸ reads_skipGroup h.head.start h.tail).of_ok
    exact ih hrest' (by simpa using hstop')
  | case10 => exact .ok ⟨hstop, h⟩

theorem reads_operand {first : Token} (hfirst : first.span.IsIn source) (h : s.IsIn source) :
    Reads source (Symbol.IsIn source) (s.operand source first) := by
  have hliteral : ∀ type, Symbol.IsIn source (.literal type first.text first.span) := fun type =>
    Symbol.isIn_of_kind hfirst (by simp [Symbol.literal])
  have hlast : ∀ stop : Option Span, (∀ x ∈ stop, x.IsIn source) →
      (stop.getD first.span).IsIn source := fun stop hstop => by
    cases stop with
    | none => exact hfirst
    | some x => exact hstop x rfl
  rw [operand]
  split
  case h_6 =>
    refine (reads_steps h (by simp)).map ?_
    rintro ⟨⟨kind, stop⟩, rest⟩ ⟨hstop, hrest⟩
    dsimp only
    split
    · exact ⟨Symbol.isIn_of_kind hfirst (by simp), hrest⟩
    · exact ⟨Symbol.isIn_eval hfirst (hlast _ hstop), hrest⟩
  case h_7 =>
    exact (reads_skipGroup hfirst.start h).map fun _ hr => ⟨Symbol.isIn_eval hfirst hr.1, hr.2⟩
  case h_8 =>
    split
    · exact (reads_expressionEnd hfirst h).map fun _ hr => ⟨Symbol.isIn_eval hfirst hr.1, hr.2⟩
    · exact .error (readIn_unexpected hfirst _)
  case h_9 => exact .error (readIn_unexpected hfirst _)
  all_goals exact .ok ⟨hliteral _, h⟩

theorem reads_comprehension {first : Token} (hfirst : first.span.IsIn source) (h : s.IsIn source) :
    Reads source (Symbol.IsIn source) (s.comprehension source first) :=
  (reads_skipGroup hfirst.start h).map fun _ hr => ⟨Symbol.isIn_eval hfirst hr.1, hr.2⟩

theorem reads_labels {name : String} (h : s.IsIn source) :
    Reads source (fun _ => True) (s.labels name) := by
  obtain ⟨ts, ending⟩ := s
  rw [labels]
  generalize [name] = names
  dsimp only
  induction ts generalizing names with
  | nil =>
    cases ending with
    | ok p => exact .error (readIn_unexpected (Position.IsIn.emptySpan h.ending) _)
    | error cause => exact .error h.ending
  | cons t ts ih =>
    simp only [labelsFrom]
    split
    · exact ih h.tail _
    split
    · exact .ok ⟨trivial, h.tail⟩
    · exact .error (readIn_unexpected h.head _)

end TokenStream

end Hcl
