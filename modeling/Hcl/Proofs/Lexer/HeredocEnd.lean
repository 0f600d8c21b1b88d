import Hcl.Proofs.Lexer.Emits
import Hcl.Proofs.Lexer.Lines
import Hcl.Proofs.Lexer.Reads
import Hcl.Proofs.Lexer.Unfold

/-!
# Behind a heredoc

A heredoc is read up to the end of the line that closes it. What is left of that line is at most the
carriage return in front of the line break, so the line break is the next token unless the text ends
there.
-/

namespace Hcl

namespace Heredoc

variable {cs : List Char}

/-- A line is followed by its end, in front of which a carriage return may stand. -/
theorem exists_line (cs : List Char) : ∃ gap rest, cs = line cs ++ (gap ++ rest) ∧
    (gap = [] ∨ gap = ['\r']) ∧ ∀ c ∈ rest.head?, c = '\n' := by
  have hsplit := List.takeWhile_append_dropWhile (p := (· != '\n')) (l := cs)
  have hhead : ∀ c ∈ (cs.dropWhile (· != '\n')).head?, c = '\n' := by
    intro c hc
    have hne := List.head?_dropWhile_not (· != '\n') cs
    rw [show (cs.dropWhile (· != '\n')).head? = some c from hc] at hne
    simpa using hne
  by_cases hlast : (cs.takeWhile (· != '\n')).getLast? = some '\r'
  · obtain ⟨front, hfront⟩ := List.getLast?_eq_some_iff.mp hlast
    refine ⟨['\r'], _, ?_, .inr rfl, hhead⟩
    have hline : line cs = front := by
      rw [line, if_pos hlast, hfront, List.dropLast_concat]
    rw [hline, ← List.append_assoc, ← hfront, hsplit]
  · refine ⟨[], _, ?_, .inl rfl, hhead⟩
    have hline : line cs = cs.takeWhile (· != '\n') := by simp only [line, hlast, if_false]
    rw [hline, List.nil_append, hsplit]

theorem exists_line_end (cs : List Char) :
    ∃ kept back, cs = kept ++ back ∧ '\n' ∉ kept ∧ ∀ c ∈ back.head?, c = '\n' := by
  obtain ⟨gap, back, hcs, hgap, hhead⟩ := exists_line cs
  refine ⟨line cs ++ gap, back, by rw [List.append_assoc, ← hcs], ?_, hhead⟩
  rw [List.mem_append, not_or]
  exact ⟨inline_line.newline cs, by rcases hgap with rfl | rfl <;> decide⟩

/-- The line is what stands in front of its end. -/
theorem line_append {kept gap rest : List Char} (hnewline : '\n' ∉ kept)
    (hlast : gap = [] → kept.getLast? ≠ some '\r') (hgap : gap = [] ∨ gap = ['\r'])
    (hhead : ∀ c ∈ rest.head?, c = '\n') : line (kept ++ (gap ++ rest)) = kept := by
  have hrest : rest.takeWhile (· != '\n') = [] := by
    cases rest with
    | nil => rfl
    | cons c cs =>
      obtain rfl := hhead c rfl
      rfl
  have hkept : (kept ++ (gap ++ rest)).takeWhile (· != '\n') = kept ++ gap := by
    rw [List.takeWhile_append_of_pos fun c hc => by simpa using ne_of_mem_of_not_mem hc hnewline]
    rcases hgap with rfl | rfl <;> simp [hrest]
  rw [line, hkept]
  rcases hgap with rfl | rfl
  · rw [List.append_nil, if_neg (hlast rfl)]
  · rw [if_pos List.getLast?_concat, List.dropLast_concat]

/-- Behind the text of a line there is none left. -/
theorem line_drop_line (cs : List Char) : line (cs.drop (line cs).length) = [] := by
  obtain ⟨gap, rest, hcs, hgap, hhead⟩ := exists_line cs
  have hdrop := congrArg (List.drop (line cs).length) hcs
  rw [List.drop_left] at hdrop
  rw [hdrop]
  exact @line_append [] gap rest List.not_mem_nil (fun _ => by simp) hgap hhead

end Heredoc

namespace Lexer

variable {template : TemplateReader} {lx mid next : Lexer} {t u : Token}

/-! ## The end of a heredoc -/

theorem line_eq_nil_of_heredocLines {opening : Heredoc.Opening} {start : Position}
    {lineStart : Bool} {read content : List Char}
    (h : heredocLines template opening start lineStart read lx = .ok content next) :
    Heredoc.line next.rest = [] := by
  fun_induction heredocLines template opening start lineStart read lx with
  | case1 lineStart read lx hc =>
    simp only [Scan.ok.injEq] at h
    exact h.2 ▸ Heredoc.line_drop_line lx.rest
  | case2 lineStart read lx hc piece n hp ih => exact ih h
  | case3 lineStart read lx hc hp piece after hr ih => exact ih h
  | _ => cases h

theorem line_eq_nil_of_heredocToken {opening : Heredoc.Opening}
    (h : lx.heredocToken template opening = .ok t next) : Heredoc.line next.rest = [] := by
  simp only [heredocToken] at h
  split at h
  · split at h
    · rename_i hl
      rw [(rest_of_finish h).1, leave_rest]
      exact line_eq_nil_of_heredocLines hl
    · cases h
  · cases h

theorem line_eq_nil_of_tokenAt {c : Char} (h : lx.tokenAt template c = .ok t next)
    (hk : t.kind = .heredoc) : Heredoc.line next.rest = [] := by
  rcases tokenAt_cases h with ⟨-, h⟩ | ⟨-, opening, -, h⟩ | ⟨-, -, -, hne⟩
  · cases (kind_of_quotedToken h).symm.trans hk
  · exact line_eq_nil_of_heredocToken h
  · exact absurd hk hne

theorem line_eq_nil_of_token (h : lx.token template = .ok t next) (hk : t.kind = .heredoc) :
    Heredoc.line next.rest = [] := by
  simp only [token] at h
  split at h
  · cases h
  split at h
  · rw [(rest_of_finish h).2] at hk
    cases hk
  · exact line_eq_nil_of_tokenAt h hk

/-! ## The next token -/

theorem tokenAt_newline (template : TemplateReader) {cs : List Char} (h : lx.rest = '\n' :: cs) :
    lx.tokenAt template '\n' = lx.plainToken .newline 1 := by
  have hident : Text.isIdentStart '\n' = false := by decide
  simp [tokenAt, h, Heredoc.opening?, Lexeme.numeralAhead, hident, Lexeme.fixed?]

/-- Where a line ends, the next token is the line break. -/
theorem newline_of_token (hline : Heredoc.line lx.rest = []) (h : lx.token template = .ok t next)
    (hk : t.kind ≠ .eof) : t.kind = .newline ∧ ∃ text, lx.Reads text next ∧ '\n' ∈ text := by
  have hnewline : ∀ {lx : Lexer} {rest : List Char}, lx.rest = rest → (∀ c ∈ rest.head?, c = '\n') →
      lx.token template = .ok t next → t.kind = .newline ∧ lx.Reads ['\n'] next := by
    intro lx rest hrest hhead h
    cases rest with
    | nil =>
      rw [token_of_rest_nil template hrest] at h
      cases h
      exact absurd rfl hk
    | cons c cs =>
      obtain rfl := hhead c rfl
      rw [token_of_isSolid template hrest ⟨by decide, by decide, by decide⟩,
        tokenAt_newline template hrest] at h
      refine ⟨(rest_of_finish h).2, ?_⟩
      have hscans := scans_of_plainToken .newline Nat.one_pos (by simp [hrest]) (by simp)
        (by simp [hrest]) (by simp) h
      rw [hrest] at hscans
      exact hscans.reads
  obtain ⟨gap, rest, hrest, hgap, hhead⟩ := Heredoc.exists_line lx.rest
  rw [hline, List.nil_append] at hrest
  rcases hgap with rfl | rfl
  · obtain ⟨hkind, hreads⟩ := hnewline hrest hhead h
    exact ⟨hkind, _, hreads, by simp⟩
  · rw [token_of_gapChar template hrest rfl] at h
    obtain ⟨hkind, hreads⟩ := hnewline rfl hhead h
    have hgap : lx.Reads ['\r'] { lx with rest, position := lx.position.next '\r' } :=
      ⟨hrest, rfl, rfl⟩
    exact ⟨hkind, _, hgap.trans hreads, by simp⟩

end Lexer

end Hcl
