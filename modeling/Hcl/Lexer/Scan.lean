import Hcl.Lexer.Trivia
import Hcl.Lexer.Lexeme
import Hcl.Lexer.Piece
import Hcl.Lexer.Heredoc

/-!
# Scanning tokens

A token may be a literal that contains template sequences, and a template sequence is read token by
token up to its closing brace. The two readers are built in turns: a reader that may open `n + 1`
more template sequences is made from the one that may open `n`. Each carries the proof that it
moves on, which is why reading a literal or a whole source ends.
-/

namespace Hcl.Lexer

/-- A reader of template sequences. It returns their text as written. -/
structure TemplateReader where
  read : Lexer → Scan (List Char)
  shorter : ∀ {lx text next}, read lx = .ok text next → next.rest.length < lx.rest.length

structure TokenReader where
  read : Lexer → Scan Token
  shorter : ∀ {lx token next}, read lx = .ok token next → token.kind ≠ .eof →
    next.rest.length < lx.rest.length

theorem length_consume_le (lx : Lexer) (n : Nat) : (lx.consume n).rest.length ≤ lx.rest.length := by
  simp only [consume_rest, List.length_drop]
  omega

theorem length_consume_lt {lx : Lexer} {n : Nat} (hn : 0 < n) (h : lx.rest ≠ []) :
    (lx.consume n).rest.length < lx.rest.length := by
  have := List.length_pos_iff.mpr h
  simp only [consume_rest, List.length_drop]
  omega

/-! ## Quoted literals -/

/-- Reads the pieces of a quoted literal that begins at `start`, up to and including the closing
quote. `decoded` holds in reverse what the pieces before stand for. -/
def quotedPieces (template : TemplateReader) (start : Position) (decoded : List Char) (lx : Lexer) :
    Scan (List Char) :=
  match _ : Piece.ofQuoted lx.rest with
  | .text text n => quotedPieces template start (text.reverseAux decoded) (lx.consume n)
  | .template =>
    match _ : template.read lx with
    | .ok text next => quotedPieces template start (text.reverseAux decoded) next
    | .error cause next => .error cause next
  | .quote => .ok decoded.reverse (lx.consume 1)
  | .invalid sequence =>
    .error ⟨.invalidEscape (String.ofList sequence), lx.position⟩ (lx.consume 2)
  | .loneBackslash => .error (lx.unterminated lx.position) (lx.consume 1)
  | .lineEnd => .error (lx.unterminated start) lx
termination_by lx.rest.length
decreasing_by
  · rename_i h
    exact length_consume_lt (Piece.length_pos_of_ofQuoted h).1 (Piece.length_pos_of_ofQuoted h).2
  · rename_i h
    exact template.shorter h

theorem length_quotedPieces_lt {template : TemplateReader} {start : Position}
    {decoded text : List Char} {lx next : Lexer}
    (h : quotedPieces template start decoded lx = .ok text next) :
    next.rest.length < lx.rest.length := by
  fun_induction quotedPieces template start decoded lx with
  | case1 decoded lx piece n hp ih =>
    exact Nat.lt_of_lt_of_le (ih h) (length_consume_le lx n)
  | case2 decoded lx hp piece after ht ih => exact Nat.lt_trans (ih h) (template.shorter ht)
  | case4 decoded lx hp =>
    simp only [Scan.ok.injEq] at h
    exact h.2 ▸ length_consume_lt Nat.one_pos (Piece.ne_nil_of_ofQuoted_eq_quote hp)
  | _ => simp at h

def quotedToken (template : TemplateReader) (lx : Lexer) : Scan Token :=
  match quotedPieces template lx.position [] ((lx.enter .string).consume 1) with
  | .ok text next => next.leave.finish .string (String.ofList text) lx.position
  | .error cause next => .error cause next

/-! ## Heredocs -/

/-- Reads the lines of a heredoc that begins at `start`, and the marker that closes it. `lineStart`
says whether a line begins here; `content` holds in reverse what was read. -/
def heredocLines (template : TemplateReader) (opening : Heredoc.Opening) (start : Position)
    (lineStart : Bool) (content : List Char) (lx : Lexer) : Scan (List Char) :=
  if lineStart && opening.closes lx.rest then
    .ok content.reverse (lx.consume (Heredoc.line lx.rest).length)
  else
    match _ : Piece.ofHeredoc lx.rest with
    | .text text n =>
      heredocLines template opening start (text == ['\n']) (text.reverseAux content) (lx.consume n)
    | .template =>
      match _ : template.read lx with
      | .ok text next =>
        heredocLines template opening start false (text.reverseAux content) next
      | .error cause next => .error cause next
    | _ => .error (lx.unterminated start) lx
termination_by lx.rest.length
decreasing_by
  · rename_i h
    exact length_consume_lt (Piece.length_pos_of_ofHeredoc h).1 (Piece.length_pos_of_ofHeredoc h).2
  · rename_i h
    exact template.shorter h

theorem length_heredocLines_le {template : TemplateReader} {opening : Heredoc.Opening}
    {start : Position} {lineStart : Bool} {content text : List Char} {lx next : Lexer}
    (h : heredocLines template opening start lineStart content lx = .ok text next) :
    next.rest.length ≤ lx.rest.length := by
  fun_induction heredocLines template opening start lineStart content lx with
  | case1 lineStart content lx hc =>
    simp only [Scan.ok.injEq] at h
    exact h.2 ▸ length_consume_le lx _
  | case2 lineStart content lx hc piece n hp ih =>
    exact Nat.le_trans (ih h) (length_consume_le lx n)
  | case3 lineStart content lx hc hp piece after ht ih =>
    exact Nat.le_of_lt (Nat.lt_of_le_of_lt (ih h) (template.shorter ht))
  | _ => simp at h

/-- Reads the heredoc whose first line is `opening`. -/
def heredocToken (template : TemplateReader) (opening : Heredoc.Opening) (lx : Lexer) :
    Scan Token :=
  let body := lx.consume opening.length
  if body.rest.head? = some '\n' then
    match heredocLines template opening lx.position true [] ((body.consume 1).enter .heredoc) with
    | .ok text next =>
      let text := if opening.flush then Heredoc.dedent text else text
      next.leave.finish .heredoc (String.ofList text) lx.position
    | .error cause next => .error cause next
  else .error ⟨.invalidHeredocMarker, lx.position⟩ body

/-! ## Tokens -/

/-- Whether `-` and `+` are signs here. -/
def signAllowed (lx : Lexer) : Bool := !lx.last.any TokenKind.endsOperand

/-- Reads a token that is `n` characters long and whose text is these characters. -/
def plainToken (kind : TokenKind) (n : Nat) (lx : Lexer) : Scan Token :=
  (lx.consume n).finish kind (String.ofList (lx.rest.take n)) lx.position

/-- Reads the token that begins with the character `c`, the first one left. -/
def tokenAt (template : TemplateReader) (c : Char) (lx : Lexer) : Scan Token :=
  if c = '"' then quotedToken template lx
  else
    match Heredoc.opening? lx.rest with
    | some opening => heredocToken template opening lx
    | none =>
      if Lexeme.numeralAhead lx.signAllowed lx.rest then
        lx.plainToken .number (Lexeme.numeral lx.rest).length
      else if Text.isIdentStart c then
        let word := Lexeme.word lx.rest
        lx.plainToken (Lexeme.wordKind word) word.length
      else
        match Lexeme.fixed? lx.rest with
        | some (kind, n) => lx.plainToken kind n
        | none => .error ⟨.unexpectedChar c, lx.position⟩ lx

/-- Skips trivia and reads the next token. -/
def token (template : TemplateReader) (lx : Lexer) : Scan Token :=
  match lx.skipTrivia with
  | .error cause next => .error cause next
  | .ok _ lx =>
    match lx.rest with
    | [] => lx.finish .eof "" lx.position
    | c :: _ => lx.tokenAt template c

/-! ## Every token moves the lexer on -/

theorem rest_of_finish {kind : TokenKind} {text : String} {start : Position} {lx next : Lexer}
    {t : Token} (h : lx.finish kind text start = .ok t next) :
    next.rest = lx.rest ∧ t.kind = kind := by
  simp only [finish, Scan.ok.injEq] at h
  obtain ⟨rfl, rfl⟩ := h
  exact ⟨rfl, rfl⟩

theorem length_quotedToken_lt {template : TemplateReader} {lx next : Lexer} {t : Token}
    (h : lx.quotedToken template = .ok t next) : next.rest.length < lx.rest.length := by
  simp only [quotedToken] at h
  split at h
  · rename_i hq
    have := length_quotedPieces_lt hq
    have := length_consume_le (lx.enter .string) 1
    rw [(rest_of_finish h).1, leave_rest]
    simp only [enter_rest] at this
    omega
  · simp at h

theorem length_heredocToken_lt {template : TemplateReader} {opening : Heredoc.Opening}
    {lx next : Lexer} {t : Token} (h : lx.heredocToken template opening = .ok t next) :
    next.rest.length < lx.rest.length := by
  simp only [heredocToken] at h
  split at h
  · rename_i hn
    split at h
    · rename_i hl
      have hne : (lx.consume opening.length).rest ≠ [] := fun hnil => by
        rw [hnil] at hn
        simp at hn
      have := length_heredocLines_le hl
      have := length_consume_lt Nat.one_pos hne
      have := length_consume_le lx opening.length
      rw [(rest_of_finish h).1, leave_rest]
      simp only [enter_rest] at *
      omega
    · simp at h
  · simp at h

theorem length_plainToken_lt {kind : TokenKind} {n : Nat} {lx next : Lexer} {t : Token}
    (hn : 0 < n) (hne : lx.rest ≠ []) (h : lx.plainToken kind n = .ok t next) :
    next.rest.length < lx.rest.length := by
  rw [(rest_of_finish h).1]
  exact length_consume_lt hn hne

theorem length_tokenAt_lt {template : TemplateReader} {c : Char} {cs : List Char} {lx next : Lexer}
    {t : Token} (hc : lx.rest = c :: cs) (h : lx.tokenAt template c = .ok t next) :
    next.rest.length < lx.rest.length := by
  have hne : lx.rest ≠ [] := by simp [hc]
  simp only [tokenAt] at h
  split at h
  · exact length_quotedToken_lt h
  split at h
  · exact length_heredocToken_lt h
  split at h
  · rename_i hn
    exact length_plainToken_lt (Lexeme.length_numeral_pos hn) hne h
  split at h
  · rename_i hi
    exact length_plainToken_lt (hc ▸ Lexeme.length_word_pos hi) hne h
  split at h
  · rename_i hf
    exact length_plainToken_lt (Lexeme.length_pos_of_fixed? hf) hne h
  · simp at h

theorem length_token_lt {template : TemplateReader} {lx next : Lexer} {t : Token}
    (h : lx.token template = .ok t next) (hk : t.kind ≠ .eof) :
    next.rest.length < lx.rest.length := by
  have hle := lx.length_skipTrivia_le
  simp only [token] at h
  split at h
  · simp at h
  · rename_i hs
    rw [hs] at hle
    split at h
    · exact absurd (rest_of_finish h).2 hk
    · rename_i hc
      exact Nat.lt_of_lt_of_le (length_tokenAt_lt hc h) hle

/-! ## Template sequences -/

/-- The number of braces open behind a token of kind `kind` when `depth` were open before it; none
if it closes the brace that opened the template sequence. -/
def bracesAfter : TokenKind → Nat → Option Nat
  | .lBrace, depth => some (depth + 1)
  | .rBrace, 0 => none
  | .rBrace, depth + 1 => some depth
  | _, depth => some depth

/-- Reads tokens up to the brace that closes the template sequence opened at `start`. -/
def templateTokens (token : TokenReader) (start : Position) (depth : Nat) (lx : Lexer) :
    Scan Unit :=
  match _ : token.read lx with
  | .error cause next => .error cause next
  | .ok t next =>
    if _ : t.kind = .eof then .error (next.unterminated start) next
    else
      match bracesAfter t.kind depth with
      | none => .ok () next
      | some depth => templateTokens token start depth next
termination_by lx.rest.length
decreasing_by
  rename_i h hk
  exact token.shorter h hk

theorem length_templateTokens_lt {token : TokenReader} {start : Position} {depth : Nat}
    {lx next : Lexer} {u : Unit} (h : templateTokens token start depth lx = .ok u next) :
    next.rest.length < lx.rest.length := by
  fun_induction templateTokens token start depth lx with
  | case3 depth lx t after ht hk =>
    simp only [Scan.ok.injEq] at h
    exact h.2 ▸ token.shorter ht hk
  | case4 depth lx t after ht hk depth' hd ih => exact Nat.lt_trans (ih h) (token.shorter ht hk)
  | _ => simp at h

/-- Reads a template sequence, from its marker to its closing brace. -/
def template (token : TokenReader) (lx : Lexer) : Scan (List Char) :=
  match templateTokens token lx.position 0 ((lx.enter .interpolation).consume 2) with
  | .error cause next => .error cause next
  | .ok _ next => .ok (lx.textUntil next) next.leave

theorem length_template_lt {token : TokenReader} {lx next : Lexer} {text : List Char}
    (h : lx.template token = .ok text next) : next.rest.length < lx.rest.length := by
  simp only [template] at h
  split at h
  · simp at h
  · rename_i ht
    have := length_templateTokens_lt ht
    have := length_consume_le (lx.enter .interpolation) 2
    simp only [Scan.ok.injEq, enter_rest] at *
    rw [← h.2, leave_rest]
    omega

/-! ## The readers -/

/-- Reads tokens whose literals are read with `template`. -/
def TokenReader.ofTemplateReader (template : TemplateReader) : TokenReader :=
  ⟨token template, length_token_lt⟩

/-- Reads template sequences made of the tokens that `token` reads. -/
def TemplateReader.ofTokenReader (token : TokenReader) : TemplateReader :=
  ⟨template token, length_template_lt⟩

/-- The reader of template sequences when `n` more of them may be opened. -/
def templateReader : Nat → TemplateReader
  | 0 => ⟨fun lx => .error ⟨.templatesTooDeep, lx.position⟩ lx, nofun⟩
  | n + 1 => .ofTokenReader (.ofTemplateReader (templateReader n))

/-- Reads the next token. At the end of the text it is `TokenKind.eof`, again and again. -/
def next (lx : Lexer) : Scan Token := lx.token (templateReader lx.templatesLeft)

theorem length_next_lt {lx after : Lexer} {t : Token} (h : lx.next = .ok t after)
    (hk : t.kind ≠ .eof) : after.rest.length < lx.rest.length := length_token_lt h hk

end Hcl.Lexer
