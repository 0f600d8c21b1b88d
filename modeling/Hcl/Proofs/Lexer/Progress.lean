import Hcl.Proofs.Lexer.Calls
import Hcl.Proofs.Lexer.Excerpt

/-!
# Every call moves on

A call never goes back, and one that returns a token goes on by the text of it. So the end of the
text or an error comes after as many calls as there is text, and one more. What a lexer cannot go
past is the end of the text and a character that no token begins with: there it stays for good,
whatever modes it is in and whatever the last token was.
-/

namespace Hcl

namespace Lexer

variable {lx next : Lexer} {cause : LexicalError} {t : Token} {c d : Char} {text : List Char}

/-! ## Forward -/

theorem offset_le_next (lx : Lexer) : lx.position.offset ≤ lx.next.after.position.offset := by
  cases hn : lx.next with
  | ok t next =>
    obtain ⟨text, htext⟩ := (steps_of_next hn).exists_reads
    exact htext.offset_le
  | error cause next =>
    obtain ⟨text, -, hposition⟩ := (fails_of_next hn).reads
    rw [Scan.after, hposition, Position.offset_after]
    exact Nat.le_add_right _ _

theorem offset_lt_of_next (h : lx.next = .ok t next) (hk : t.kind ≠ .eof) :
    lx.position.offset < next.position.offset := by
  cases steps_of_next h with
  | token hgap _ _ hscans =>
    have hpos := byteCount_pos hscans.ne_nil
    rw [(hgap.trans hscans.reads).offset_eq, byteCount_append]
    omega
  | eof _ _ _ ht =>
    subst ht
    exact absurd rfl hk

/-! ## Behind the end of the text -/

theorem next_of_eof (h : lx.next = .ok t next) (hk : t.kind = .eof) : next.next = .ok t next := by
  simp only [Lexer.next, token] at h
  split at h
  · cases h
  split at h
  · rename_i mid _ _ hrest
    have hrest' : ({ mid with last := some .eof } : Lexer).rest = [] := hrest
    simp only [finish, Scan.ok.injEq] at h
    obtain ⟨rfl, rfl⟩ := h
    rw [Lexer.next, token_of_rest_nil _ hrest']
    simp [Token.atEnd, spanFrom]
  · rename_i hrest
    obtain ⟨text, hscans⟩ := exists_scans_of_tokenAt (exact_templateReader _) hrest h
    exact absurd hk hscans.ne_eof

/-! ## In front of an unexpected character -/

/-- Whatever template sequences are read with, `lx` fails with `cause` and stays where it is. -/
def Stays (cause : LexicalError) (lx : Lexer) : Prop :=
  ∀ template, lx.token template = .error cause lx

/-- A reader of template sequences stays in front of an unexpected character. -/
def TemplateReader.Stays (template : TemplateReader) : Prop :=
  ∀ {lx cause next c}, template.read lx = .error cause next → cause.fault = .unexpectedChar c →
    next.Stays cause

section Tokens

variable {template : TemplateReader} {start : Position} (ht : template.Stays)
include ht

theorem stays_of_quotedPieces {decoded : List Char}
    (h : quotedPieces template start decoded lx = .error cause next)
    (hc : cause.fault = .unexpectedChar c) : next.Stays cause := by
  fun_induction quotedPieces template start decoded lx with
  | case1 decoded lx piece n hp ih => exact ih h
  | case2 decoded lx hp piece after hr ih => exact ih h
  | case3 decoded lx hp cause' after hr =>
    cases h
    exact ht hr hc
  | case4 => cases h
  | case5 | case6 | case7 =>
    cases h
    cases hc

theorem stays_of_heredocLines {opening : Heredoc.Opening} {lineStart : Bool} {read : List Char}
    (h : heredocLines template opening start lineStart read lx = .error cause next)
    (hc : cause.fault = .unexpectedChar c) : next.Stays cause := by
  fun_induction heredocLines template opening start lineStart read lx with
  | case1 => cases h
  | case2 lineStart read lx hclose piece n hp ih => exact ih h
  | case3 lineStart read lx hclose hp piece after hr ih => exact ih h
  | case4 lineStart read lx hclose hp cause' after hr =>
    cases h
    exact ht hr hc
  | case5 =>
    cases h
    cases hc

theorem stays_of_heredocToken {opening : Heredoc.Opening}
    (h : lx.heredocToken template opening = .error cause next)
    (hc : cause.fault = .unexpectedChar c) : next.Stays cause := by
  simp only [heredocToken] at h
  split at h
  · split at h
    · cases h
    · rename_i hl
      cases h
      exact stays_of_heredocLines ht hl hc
  · cases h
    cases hc

theorem stays_of_quotedToken (h : lx.quotedToken template = .error cause next)
    (hc : cause.fault = .unexpectedChar c) : next.Stays cause := by
  simp only [quotedToken] at h
  split at h
  · cases h
  · rename_i hq
    cases h
    exact stays_of_quotedPieces ht hq hc

/-- No token begins with the character. Which ones do depends neither on the modes nor on what
template sequences are read with, and on the last token only for a sign, which is a token anyway. -/
theorem stays_of_tokenAt (ha : lx.AtToken) {cs : List Char} (hrest : lx.rest = d :: cs)
    (h : lx.tokenAt template d = .error cause next) (hc : cause.fault = .unexpectedChar c) :
    next.Stays cause := by
  simp only [tokenAt] at h
  split at h
  · exact stays_of_quotedToken ht h hc
  rename_i hquote
  split at h
  · exact stays_of_heredocToken ht h hc
  rename_i hopening
  split at h
  · cases h
  rename_i hnumeral
  split at h
  · cases h
  rename_i hident
  split at h
  · cases h
  · rename_i hfixed
    cases h
    intro template'
    rw [token, show lx.skipTrivia = .ok () lx from ha]
    simp only [hrest]
    rw [tokenAt, if_neg hquote, hopening]
    dsimp only
    rw [if_neg hnumeral, if_neg hident, hfixed]

theorem stays_of_token (h : lx.token template = .error cause next)
    (hc : cause.fault = .unexpectedChar c) : next.Stays cause := by
  simp only [token] at h
  split at h
  · rename_i hs
    obtain ⟨fault, p⟩ := cause
    simp only [skipTrivia] at hs
    split at hs
    · cases hs
    · cases h
      cases hs
      cases hc
  · rename_i hs
    split at h
    · cases h
    · rename_i hrest
      exact stays_of_tokenAt ht (atToken_of_skipTrivia hs) hrest h hc

end Tokens

theorem stays_of_templateTokens {reader : TokenReader}
    (hr : ∀ {lx cause next c}, reader.read lx = .error cause next →
      cause.fault = .unexpectedChar c → next.Stays cause) {start : Position} {depth : Nat}
    (h : templateTokens reader start depth lx = .error cause next)
    (hc : cause.fault = .unexpectedChar c) : next.Stays cause := by
  fun_induction templateTokens reader start depth lx with
  | case1 depth lx cause' after ht =>
    cases h
    exact hr ht hc
  | case2 =>
    cases h
    cases hc
  | case3 => cases h
  | case4 depth lx t after ht hk depth' hd ih => exact ih h

theorem stays_templateReader (n : Nat) : (templateReader n).Stays := by
  induction n with
  | zero =>
    intro lx cause next c h hc
    cases h
    cases hc
  | succ n ih =>
    intro lx cause next c h hc
    simp only [templateReader, TemplateReader.ofTokenReader, Lexer.template] at h
    split at h
    · rename_i hs
      cases h
      exact stays_of_templateTokens (stays_of_token ih) hs hc
    · cases h

theorem next_of_unexpectedChar (h : lx.next = .error cause next)
    (hc : cause.fault = .unexpectedChar c) : next.next = .error cause next :=
  stays_of_token (stays_templateReader _) h hc _

/-! ## Call after call -/

theorem calls_succ (lx : Lexer) (n : Nat) : lx.calls (n + 1) = lx.next.after.calls n := by
  induction n with
  | zero => rfl
  | succ n ih => rw [calls, ih, calls]

theorem next_calls_of_stays {r : Scan Token} (h : lx.next = r) (hr : r.after = lx) (n : Nat) :
    (lx.calls n).next = r := by
  induction n with
  | zero => exact h
  | succ n ih => rw [calls, ih, hr, h]

/-- How the next call moves `lx` on, and where no call moves it on any more. -/
structure Progress (lx : Lexer) : Prop where
  le : lx.position.offset ≤ lx.next.after.position.offset
  lt : ∀ t next, lx.next = .ok t next → t.kind ≠ .eof →
    lx.position.offset < next.position.offset
  eof : ∀ t next, lx.next = .ok t next → t.kind = .eof → ∀ n, (next.calls n).next = .ok t next
  unexpectedChar : ∀ c p next, lx.next = .error ⟨.unexpectedChar c, p⟩ next →
    ∀ n, (next.calls n).next = .error ⟨.unexpectedChar c, p⟩ next

theorem progress (lx : Lexer) : lx.Progress where
  le := offset_le_next lx
  lt _ _ hn hk := offset_lt_of_next hn hk
  eof _ _ hn hk := next_calls_of_stays (next_of_eof hn hk) rfl
  unexpectedChar _ _ _ hn := next_calls_of_stays (next_of_unexpectedChar hn rfl) rfl

end Lexer

/-- The scan has come to the end of the text, or to an error. -/
def Scan.Ends : Scan Token → Prop
  | .ok t _ => t.kind = .eof
  | .error _ _ => True

/-- Each call before takes a character at least. -/
theorem Lexer.exists_ends (lx : Lexer) : ∃ n ≤ lx.rest.length, (lx.calls n).next.Ends := by
  cases hn : lx.next with
  | error cause next => exact ⟨0, Nat.zero_le _, by rw [calls, hn]; trivial⟩
  | ok t next =>
    by_cases hk : t.kind = .eof
    · exact ⟨0, Nat.zero_le _, by rw [calls, hn]; exact hk⟩
    · have hlt := length_next_lt hn hk
      obtain ⟨n, hle, hends⟩ := exists_ends next
      refine ⟨n + 1, Nat.lt_of_le_of_lt hle hlt, ?_⟩
      rw [calls_succ, hn]
      exact hends
termination_by lx.rest.length

theorem Lexer.length_stream_le (lx : Lexer) : lx.stream.tokens.length ≤ lx.rest.length := by
  fun_induction Lexer.stream lx with
  | case1 | case2 => exact Nat.zero_le _
  | case3 lx t next hn hk more =>
    rename_i ih
    exact Nat.lt_of_le_of_lt ih (length_next_lt hn hk)

theorem length_le_byteCount (cs : List Char) : cs.length ≤ byteCount cs := by
  induction cs with
  | nil => exact Nat.le_refl 0
  | cons c cs ih =>
    have hpos := c.utf8Size_pos
    rw [byteCount_cons, List.length_cons]
    omega

end Hcl
