import Hcl.Lexer.Scan
import Hcl.Error

/-!
# Token streams

The tokens of a source up to its end or up to the first lexical error. A reader meets the error
only when it asks for the token that could not be scanned.
-/

namespace Hcl

structure TokenStream where
  tokens : List Token
  /-- the end of the source, or what keeps the lexer from it -/
  ending : Except LexicalError Position

/-- What a reader of a stream returns: a result and what is left. -/
abbrev Reading (α : Type) := Except Error (α × TokenStream)

def Token.atEnd (p : Position) : Token := ⟨.eof, "", ⟨p, 0⟩⟩

/-- All tokens that `lx` will scan. -/
def Lexer.stream (lx : Lexer) : TokenStream :=
  match _ : lx.next with
  | .error cause _ => ⟨[], .error cause⟩
  | .ok t next =>
    if _ : t.kind = .eof then ⟨[], .ok t.span.start⟩
    else
      let more := next.stream
      { more with tokens := t :: more.tokens }
termination_by lx.rest.length
decreasing_by
  rename_i h hk
  exact length_next_lt h hk

namespace TokenStream

def ofString (source : String) : TokenStream := (Lexer.ofString source).stream

/-- The next token. Behind the last one is the end of the source, again and again. -/
def peek (s : TokenStream) : Except Error Token :=
  match s.tokens with
  | t :: _ => .ok t
  | [] =>
    match s.ending with
    | .ok p => .ok (.atEnd p)
    | .error e => .error (.lexical e.fault e.position)

def tail (s : TokenStream) : TokenStream := { s with tokens := s.tokens.tail }

def next (s : TokenStream) : Reading Token := s.peek.map (·, s.tail)

def skipNewlines (s : TokenStream) : TokenStream :=
  { s with tokens := s.tokens.dropWhile (·.kind == .newline) }

@[simp] theorem tokens_skipNewlines_le (s : TokenStream) :
    s.skipNewlines.tokens.length ≤ s.tokens.length :=
  (List.dropWhile_suffix _).length_le

theorem length_next_le {s rest : TokenStream} {t : Token} (h : s.next = .ok (t, rest)) :
    rest.tokens.length ≤ s.tokens.length := by
  simp only [next, Except.map] at h
  split at h
  · simp at h
  · simp only [Except.ok.injEq, Prod.mk.injEq] at h
    rw [← h.2]
    simp [tail]

theorem length_next_lt {s rest : TokenStream} {t : Token} (h : s.next = .ok (t, rest))
    (hk : t.kind ≠ .eof) : rest.tokens.length < s.tokens.length := by
  obtain ⟨tokens, ending⟩ := s
  cases tokens with
  | nil =>
    cases ending <;> simp [next, peek, Except.map] at h
    rw [← h.1] at hk
    simp [Token.atEnd] at hk
  | cons t ts =>
    simp only [next, peek, Except.map, tail, List.tail_cons, Except.ok.injEq, Prod.mk.injEq] at h
    rw [← h.2]
    simp

end TokenStream

end Hcl
