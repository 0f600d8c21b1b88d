import Hcl.Proofs.Lexer.Emits
import Hcl.Proofs.Lexer.Unfold
import Hcl.Proofs.Plain.Document

/-!
# The lexemes of plain documents

Each word of a plain document in its written form is read as one token, whatever comes behind it
that cannot belong to it.
-/

namespace Hcl

namespace Lexer

variable {lx : Lexer} {c : Char} {cs rest : List Char} {last : Option TokenKind}

/-! ## In front of a token -/

/-- A blank in front of a token changes nothing but where the token stands. -/
theorem next_of_blank (hrest : lx.rest = ' ' :: cs) :
    lx.next = { lx with rest := cs, position := lx.position.next ' ' }.next := by
  rw [next, token_of_gapChar _ hrest rfl]
  rfl

theorem Lexes.blank {text : List Char} {last' : Option TokenKind}
    {views : List (TokenKind × String)} (h : Lexes text rest last views last') (hne : views ≠ []) :
    Lexes (' ' :: text) rest last views last' := by
  intro lx hrest hlast
  obtain ⟨ts, next, hts, hviews, hnext⟩ :=
    h { lx with rest := text ++ rest, position := lx.position.next ' ' } rfl hlast
  refine ⟨ts, next, ?_, hviews, hnext⟩
  cases hts with
  | nil => exact absurd hviews.symm hne
  | cons hn hk hmore => exact .cons ((next_of_blank hrest).trans hn) hk hmore

/-! ## Tokens that are their text -/

/-- The token at `c` is the text `c :: cs`, of the kind `kind`. -/
theorem lexes_of_plainToken {kind : TokenKind} (hsolid : IsSolid c) (hk : kind ≠ .eof)
    (h : ∀ lx : Lexer, lx.rest = c :: (cs ++ rest) → lx.last = last → ∀ template,
      lx.tokenAt template c = lx.plainToken kind (c :: cs).length) :
    Lexes (c :: cs) rest last [(kind, String.ofList (c :: cs))] (some kind) := by
  intro lx hrest hlast
  have htoken := h lx hrest hlast (templateReader lx.templatesLeft)
  have htake : lx.rest.take (c :: cs).length = c :: cs := by
    rw [hrest, List.take_left]
  have hdrop : lx.rest.drop (c :: cs).length = rest := by
    rw [hrest, List.drop_left]
  rw [← next_of_isSolid hrest hsolid, plainToken, finish, htake] at htoken
  refine ⟨_, _, .cons htoken hk .nil, rfl, ?_, rfl⟩
  simpa using hdrop

/-- A character that begins no literal, heredoc, numeral or word. -/
def IsMark (c : Char) : Prop :=
  IsSolid c ∧ c ≠ '"' ∧ c ≠ '<' ∧ c ≠ '-' ∧ c ≠ '+' ∧ c.isDigit = false ∧ Text.isIdentStart c = false

instance (c : Char) : Decidable (IsMark c) := inferInstanceAs (Decidable (_ ∧ _))

theorem opening?_of_ne (h : c ≠ '<') : Heredoc.opening? (c :: cs) = none := by
  rw [Heredoc.opening?]
  rintro cs' ⟨rfl, -⟩
  exact h rfl

theorem lexes_mark {kind : TokenKind} (h : IsMark c) (hk : kind ≠ .eof)
    (hfixed : Lexeme.fixed? (c :: rest) = some (kind, 1)) :
    Lexes [c] rest last [(kind, String.ofList [c])] (some kind) := by
  obtain ⟨hsolid, hquote, hless, hminus, hplus, hdigit, hident⟩ := h
  refine lexes_of_plainToken hsolid hk fun lx hrest hlast template => ?_
  rw [List.nil_append] at hrest
  have hnumeral : Lexeme.numeralAhead lx.signAllowed (c :: rest) = false := by
    simp [Lexeme.numeralAhead, hdigit, hminus, hplus]
  simp only [tokenAt, hquote, hrest, opening?_of_ne hless, hnumeral, hident, hfixed, if_false,
    Bool.false_eq_true, List.length_singleton]

end Lexer

namespace Plain

open Lexer

variable {rest : List Char} {last : Option TokenKind}

/-! ## Words -/

/-- What may stand behind a numeral, a word or a literal. -/
def IsEnd (rest : List Char) : Prop :=
  ∃ c cs, rest = c :: cs ∧ (c = ' ' ∨ c = ',' ∨ c = ']' ∨ c = '\n')

theorem not_isDigit_of_isIdentStart {c : Char} (h : Text.isIdentStart c = true) :
    c.isDigit = false := by
  have hdigits : ∀ n : Fin 58, 48 ≤ n.val → Text.isIdentStart (Char.ofNat n) = false := by decide
  cases hd : c.isDigit with
  | false => rfl
  | true =>
    obtain ⟨hlow, hhigh⟩ := Char.isDigit_iff_toNat.mp hd
    have hc := hdigits ⟨c.toNat, Nat.lt_succ_of_le hhigh⟩ hlow
    rw [Char.ofNat_toNat, h] at hc
    cases hc

/-- The characters of a class are solid if the class has none that begins filler. -/
theorem isSolid_of_class {p : Char → Bool} (h : p c = true)
    (hp : [' ', '\t', '\r', '\ufeff', '#', '/'].any p = false) : IsSolid c := by
  have hne : ∀ d ∈ [' ', '\t', '\r', '\ufeff', '#', '/'], c ≠ d := by
    rintro d hd rfl
    exact List.any_eq_false.mp hp c hd h
  refine ⟨?_, hne '#' (by simp), hne '/' (by simp)⟩
  simp [isGapChar, hne ' ', hne '\t', hne '\r', hne '\ufeff']

theorem isSolid_of_isIdentStart {c : Char} (h : Text.isIdentStart c = true) : IsSolid c :=
  isSolid_of_class h (by decide +kernel)

theorem not_isIdentContinue_of_isEnd (h : IsEnd rest) :
    rest.takeWhile Text.isIdentContinue = [] := by
  obtain ⟨c, cs, rfl, hc⟩ := h
  rcases hc with rfl | rfl | rfl | rfl <;> rfl

theorem lexes_word (last : Option TokenKind) (text : List Char) (h : IsIdentifier text)
    (hend : IsEnd rest) :
    Lexes text rest last [(Lexeme.wordKind text, String.ofList text)]
      (some (Lexeme.wordKind text)) := by
  cases text with
  | nil => exact h.elim
  | cons c cs =>
    have hstart := h.1
    have hne : ∀ d, Text.isIdentStart d = false → c ≠ d := by
      rintro d hd rfl
      rw [hd] at hstart
      cases hstart
    have hkind : Lexeme.wordKind (c :: cs) ≠ .eof := by
      simp only [Lexeme.wordKind]
      split
      · simp
      split <;> simp
    refine lexes_of_plainToken (isSolid_of_isIdentStart hstart) hkind fun lx hrest _ template => ?_
    have hnumeral : Lexeme.numeralAhead lx.signAllowed lx.rest = false := by
      simp [hrest, Lexeme.numeralAhead, not_isDigit_of_isIdentStart hstart, hne '-' (by decide),
        hne '+' (by decide)]
    have hword : Lexeme.word lx.rest = c :: cs := by
      rw [hrest, Lexeme.word, ← List.cons_append,
        List.takeWhile_append_of_pos h.forall_isIdentContinue,
        not_isIdentContinue_of_isEnd hend, List.append_nil]
    have hopening : Heredoc.opening? lx.rest = none := hrest ▸ opening?_of_ne (hne '<' (by decide))
    simp only [tokenAt, hne '"' (by decide), hopening, hnumeral, hstart, hword, if_false, if_true,
      Bool.false_eq_true]

/-! ## Numerals -/

theorem digits_append {ds : List Char} (hds : ∀ c ∈ ds, c.isDigit = true)
    (hrest : ∀ c ∈ rest.head?, c.isDigit = false) : Lexeme.digits (ds ++ rest) = ds := by
  rw [Lexeme.digits, List.takeWhile_append_of_pos hds]
  cases rest with
  | nil => simp
  | cons c cs => simp [hrest c rfl]

theorem sign_append {sign ds : List Char} (hs : IsSign sign) (hds : IsDigits ds) :
    Lexeme.sign (sign ++ (ds ++ rest)) = sign := by
  rcases hs with rfl | rfl | rfl
  · cases ds with
    | nil => exact absurd rfl hds.1
    | cons d ds =>
      have hd := hds.2 d List.mem_cons_self
      simp only [List.nil_append, List.cons_append]
      unfold Lexeme.sign
      split <;> simp_all
  · rfl
  · rfl

theorem fraction_append {fraction : List Char}
    (hf : fraction = [] ∨ ∃ digits, fraction = '.' :: digits ∧ IsDigits digits)
    (hrest : ∀ c ∈ rest.head?, c.isDigit = false ∧ c ≠ '.') :
    Lexeme.fraction (fraction ++ rest) = fraction := by
  rcases hf with rfl | ⟨digits, rfl, hne, hdigits⟩
  · cases rest with
    | nil => rfl
    | cons c cs =>
      have hc := (hrest c rfl).2
      simp only [List.nil_append]
      unfold Lexeme.fraction
      split <;> simp_all
  · have hdigits' := digits_append hdigits fun c hc => (hrest c hc).1
    simp [Lexeme.fraction, hdigits', hne]

theorem exponent_append {exponent : List Char}
    (he : exponent = [] ∨ ∃ e sign digits, exponent = e :: (sign ++ digits) ∧
      (e = 'e' ∨ e = 'E') ∧ IsSign sign ∧ IsDigits digits)
    (hrest : ∀ c ∈ rest.head?, c.isDigit = false ∧ c ≠ 'e' ∧ c ≠ 'E') :
    Lexeme.exponent (exponent ++ rest) = exponent := by
  rcases he with rfl | ⟨e, sign, digits, rfl, he, hs, hds⟩
  · cases rest with
    | nil => rfl
    | cons c cs => simp [Lexeme.exponent, (hrest c rfl).2]
  · have hsign : Lexeme.sign (sign ++ (digits ++ rest)) = sign := sign_append hs hds
    have hdigits := digits_append hds.2 fun c hc => (hrest c hc).1
    have hne := hds.1
    rcases he with rfl | rfl <;> simp [Lexeme.exponent, hsign, hdigits, hne]

theorem numeral_append (n : Numeral) (hend : IsEnd rest) :
    Lexeme.numeral (n.text ++ rest) = n.text := by
  obtain ⟨sign, whole, fraction, exponent, hs, hw, hf, he⟩ := n
  have hrest : ∀ c ∈ rest.head?, c.isDigit = false ∧ c ≠ '.' ∧ c ≠ 'e' ∧ c ≠ 'E' := by
    obtain ⟨c, cs, rfl, hc⟩ := hend
    rintro d ⟨⟩
    rcases hc with rfl | rfl | rfl | rfl <;> decide
  have hexponent : ∀ c ∈ (exponent ++ rest).head?, c.isDigit = false ∧ c ≠ '.' := by
    rcases he with rfl | ⟨e, s, ds, rfl, he, -⟩
    · exact fun c hc => ⟨(hrest c hc).1, (hrest c hc).2.1⟩
    · rintro d ⟨⟩
      rcases he with rfl | rfl <;> decide
  have hfraction : ∀ c ∈ (fraction ++ (exponent ++ rest)).head?, c.isDigit = false := by
    rcases hf with rfl | ⟨ds, rfl, -⟩
    · exact fun c hc => (hexponent c hc).1
    · simp
  have htext : sign ++ whole ++ fraction ++ exponent ++ rest =
      sign ++ (whole ++ (fraction ++ (exponent ++ rest))) := by simp
  simp only [Numeral.text, Lexeme.numeral]
  rw [htext, sign_append hs hw, List.drop_left, digits_append hw.2 hfraction, ← List.drop_drop,
    List.drop_left, List.drop_left, fraction_append hf hexponent, ← List.drop_drop, ← List.drop_drop,
    List.drop_left, List.drop_left, List.drop_left,
    exponent_append he fun c hc => ⟨(hrest c hc).1, (hrest c hc).2.2⟩]

theorem isSolid_of_isDigit {c : Char} (h : c.isDigit = true) : IsSolid c :=
  isSolid_of_class h (by decide)

/-- A numeral with a sign is read as one where an operand may begin. -/
theorem lexes_numeral (n : Numeral) (hlast : last.any TokenKind.endsOperand = false)
    (hend : IsEnd rest) :
    Lexes n.text rest last [(.number, String.ofList n.text)] (some .number) := by
  have htext : ∃ c cs, n.text = c :: cs ∧ IsSolid c ∧ c ≠ '"' ∧ c ≠ '<' ∧
      Lexeme.numeralAhead true (n.text ++ rest) = true := by
    obtain ⟨sign, whole, fraction, exponent, hs, ⟨hne, hw⟩, hf, he⟩ := n
    cases whole with
    | nil => exact absurd rfl hne
    | cons d ds =>
      have hd := hw d List.mem_cons_self
      have hne : ∀ c, c.isDigit = false → d ≠ c := by
        rintro c hc rfl
        rw [hc] at hd
        cases hd
      rcases hs with rfl | rfl | rfl
      · exact ⟨d, _, rfl, isSolid_of_isDigit hd, hne _ (by decide), hne _ (by decide),
          by simp [Numeral.text, Lexeme.numeralAhead, hd]⟩
      · exact ⟨'-', _, rfl, ⟨by decide, by decide, by decide⟩, by decide, by decide,
          by simp [Numeral.text, Lexeme.numeralAhead, hd]⟩
      · exact ⟨'+', _, rfl, ⟨by decide, by decide, by decide⟩, by decide, by decide,
          by simp [Numeral.text, Lexeme.numeralAhead, hd]⟩
  obtain ⟨c, cs, htext, hsolid, hquote, hless, hahead⟩ := htext
  have hnumeral := numeral_append n hend
  rw [htext] at hahead hnumeral ⊢
  refine lexes_of_plainToken hsolid (by simp) fun lx hrest hlx template => ?_
  have hsign : lx.signAllowed = true := by
    rw [signAllowed, hlx, hlast]
    rfl
  rw [List.cons_append] at hahead hnumeral
  simp only [tokenAt, hquote, hrest, opening?_of_ne hless, hsign, hahead, hnumeral, if_false, if_true]

/-! ## Strings -/

/-- Only a brace is written as a brace, and it comes first where it is first. -/
theorem head?_escape_ne {cs : List Char} (h : cs.head? ≠ some '{') (rest : List Char) :
    (escape cs ++ '"' :: rest).head? ≠ some '{' := by
  fun_cases escape cs <;> simp_all

/-- A marker that opens nothing stands for itself. -/
theorem marker_escape {c : Char} (hc : c = '$' ∨ c = '%') {cs : List Char}
    (h : cs.head? ≠ some '{') (rest : List Char) :
    Piece.marker c (escape cs ++ '"' :: rest) = .text [c] 1 := by
  have hhead := head?_escape_ne h rest
  have htake : (escape cs ++ '"' :: rest).take 2 ≠ [c, '{'] := by
    fun_cases escape cs with
    | case1 => rcases hc with rfl | rfl <;> simp
    | case9 d cs hdollar hpercent =>
      intro htake
      have hd : d = c := by simpa using congrArg List.head? htake
      have hbrace : (escape cs ++ '"' :: rest).head? = some '{' := by
        simpa [List.take_one] using congrArg List.getLast? htake
      have hcs : ∃ bs, cs = '{' :: bs := by
        by_cases hhead : cs.head? = some '{'
        · cases cs with
          | nil => cases hhead
          | cons b bs =>
            cases hhead
            exact ⟨bs, rfl⟩
        · exact absurd hbrace (head?_escape_ne hhead rest)
      obtain ⟨bs, rfl⟩ := hcs
      rcases hc with rfl | rfl
      · exact hdollar bs hd rfl
      · exact hpercent bs hd rfl
    | _ => rcases hc with rfl | rfl <;> simp
  rw [Piece.marker, if_neg htake, if_neg hhead]

/-- The written form of a text, a quote and `rest` are read as the text. -/
def Unquotes (template : TemplateReader) (start : Position) (rest cs : List Char) : Prop :=
  ∀ (decoded : List Char) (lx : Lexer), lx.rest = escape cs ++ '"' :: rest →
    ∃ next, quotedPieces template start decoded lx = .ok (decoded.reverse ++ cs) next ∧
      next.rest = rest ∧ next.last = lx.last

/-- One piece stands for the first characters of a text. -/
theorem Unquotes.piece {template : TemplateReader} {start : Position} {cs : List Char}
    (text written : List Char) (h : Unquotes template start rest cs)
    (hescape : escape (text ++ cs) = written ++ escape cs)
    (hpiece : Piece.ofQuoted (written ++ (escape cs ++ '"' :: rest)) = .text text written.length) :
    Unquotes template start rest (text ++ cs) := by
  intro decoded lx hrest
  rw [hescape, List.append_assoc] at hrest
  obtain ⟨next, hnext, htail⟩ :=
    h (text.reverseAux decoded) (lx.consume written.length) (by simp [hrest])
  refine ⟨next, ?_, htail⟩
  rw [quotedPieces_text (hrest ▸ hpiece), hnext]
  simp [List.reverseAux_eq]

/-- The pieces of a written text stand for the text. -/
theorem unquotes (template : TemplateReader) (start : Position) (rest cs : List Char) :
    Unquotes template start rest cs := by
  fun_induction escape cs with
  | case1 =>
    intro decoded lx hrest
    have hpiece : Piece.ofQuoted lx.rest = .quote := by simp [hrest, escape, Piece.ofQuoted]
    exact ⟨lx.consume 1, by rw [quotedPieces_quote hpiece, List.append_nil],
      by simp [hrest, escape], rfl⟩
  | case2 cs ih =>
    exact Unquotes.piece ['$', '{'] ['$', '$', '{'] ih rfl (by simp [Piece.ofQuoted, Piece.marker])
  | case3 cs ih =>
    exact Unquotes.piece ['%', '{'] ['%', '%', '{'] ih rfl (by simp [Piece.ofQuoted, Piece.marker])
  | case4 cs ih =>
    exact Unquotes.piece ['"'] ['\\', '"'] ih rfl (by simp [Piece.ofQuoted, Piece.escape])
  | case5 cs ih =>
    exact Unquotes.piece ['\\'] ['\\', '\\'] ih rfl (by simp [Piece.ofQuoted, Piece.escape])
  | case6 cs ih =>
    exact Unquotes.piece ['\n'] ['\\', 'n'] ih rfl (by simp [Piece.ofQuoted, Piece.escape])
  | case7 cs ih =>
    exact Unquotes.piece ['\r'] ['\\', 'r'] ih rfl (by simp [Piece.ofQuoted, Piece.escape])
  | case8 cs ih =>
    exact Unquotes.piece ['\t'] ['\\', 't'] ih rfl (by simp [Piece.ofQuoted, Piece.escape])
  | case9 c cs hdollar hpercent hquote hbackslash hnewline hreturn htab ih =>
    have hescape : escape ([c] ++ cs) = [c] ++ escape cs := by
      rw [List.singleton_append, escape] <;> first | assumption | rfl
    refine Unquotes.piece [c] [c] ih hescape ?_
    rw [List.singleton_append, Piece.ofQuoted, if_neg hnewline, if_neg hquote, if_neg hbackslash]
    split
    · rename_i hc
      refine marker_escape hc (fun hhead => ?_) rest
      cases cs with
      | nil => cases hhead
      | cons b bs =>
        cases hhead
        rcases hc with hc | hc
        · exact hdollar bs hc rfl
        · exact hpercent bs hc rfl
    · rfl

theorem lexes_quote (last : Option TokenKind) (text : List Char) :
    Lexes (quote text) rest last [(.string, String.ofList text)] (some .string) := by
  intro lx hrest hlast
  have hlx : lx.rest = '"' :: (escape text ++ '"' :: rest) := by simp [hrest, quote]
  have hnext := next_of_isSolid hlx ⟨by decide, by decide, by decide⟩
  obtain ⟨next, hpieces, hnextrest, -⟩ := unquotes (templateReader lx.templatesLeft) lx.position
    rest text [] ((lx.enter .string).consume 1) (by simp [hlx])
  simp only [tokenAt, if_true, quotedToken, hpieces, finish] at hnext
  exact ⟨_, _, .cons hnext (by simp) .nil, rfl, hnextrest, rfl⟩

end Plain

end Hcl
