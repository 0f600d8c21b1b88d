import Hcl.Proofs.Plain.Lexemes

/-!
# The tokens of plain documents

The written form of a plain document is read as the tokens that follow from its structure.
-/

namespace Hcl.Plain

open Lexer

/-! ## Tokens -/

def mark (kind : TokenKind) (c : Char) : TokenKind × String := (kind, String.ofList [c])

mutual
/-- What the tokens of an expression say. -/
def Expression.views : Expression → List (TokenKind × String)
  | .string text => [(.string, String.ofList text)]
  | .number numeral => [(.number, String.ofList numeral.text)]
  | .boolean b => [(.bool, String.ofList (booleanText b))]
  | .null => [(.null, String.ofList ['n', 'u', 'l', 'l'])]
  | .array [] => [mark .lBracket '[', mark .rBracket ']']
  | .array (e :: es) => mark .lBracket '[' :: (e.views ++ elementViews es)
  | .map [] => [mark .lBrace '{', mark .rBrace '}']
  | .map ((key, e) :: es) =>
    mark .lBrace '{' :: (.string, String.ofList key) :: mark .equals '=' ::
      (e.views ++ entryViews es)

/-- The tokens behind the first element, with the closing bracket. -/
def elementViews : List Expression → List (TokenKind × String)
  | [] => [mark .rBracket ']']
  | e :: es => mark .comma ',' :: (e.views ++ elementViews es)

/-- The tokens behind the first entry, with the closing brace. -/
def entryViews : List (List Char × Expression) → List (TokenKind × String)
  | [] => [mark .rBrace '}']
  | (key, e) :: es =>
    mark .comma ',' :: (.string, String.ofList key) :: mark .equals '=' :: (e.views ++ entryViews es)
end

/-- The kind of the last token. -/
def Expression.lastKind : Expression → TokenKind
  | .string _ => .string
  | .number _ => .number
  | .boolean _ => .bool
  | .null => .null
  | .array _ => .rBracket
  | .map _ => .rBrace

def labelViews (labels : List (List Char)) : List (TokenKind × String) :=
  labels.map fun label => (.string, String.ofList label)

mutual
def Item.views : Item → List (TokenKind × String)
  | .attribute name e =>
    (.ident, String.ofList name.text) :: mark .equals '=' :: (e.views ++ [mark .newline '\n'])
  | .block name labels items =>
    (.string, String.ofList name) :: (labelViews labels ++
      mark .lBrace '{' :: mark .newline '\n' ::
        (itemViews items ++ [mark .rBrace '}', mark .newline '\n']))

def itemViews : List Item → List (TokenKind × String)
  | [] => []
  | item :: items => item.views ++ itemViews items
end

/-! ## Expressions -/

variable {rest : List Char} {last : Option TokenKind}

theorem lexes_single {kind : TokenKind} {c : Char} (hc : IsMark c) (hk : kind ≠ .eof)
    (hfixed : Lexeme.fixed? (c :: rest) = some (kind, 1)) :
    Lexes [c] rest last [mark kind c] (some kind) :=
  lexes_mark hc hk hfixed

/-- The sign between a key or name and its value, and the blank in front of the value. -/
theorem lexes_equals {text : List Char} {views : List (TokenKind × String)}
    {last' : Option TokenKind} (h : Lexes text rest (some .equals) views last') (hne : views ≠ []) :
    Lexes (' ' :: '=' :: ' ' :: text) rest last (mark .equals '=' :: views) last' := by
  have hsign : Lexes ['='] (' ' :: text ++ rest) last [mark .equals '='] (some .equals) :=
    lexes_single (by decide) (by simp) rfl
  exact (hsign.append (h.blank hne)).blank (by simp)

theorem lexes_comma {text : List Char} {views : List (TokenKind × String)}
    {last' : Option TokenKind} (last : Option TokenKind)
    (h : Lexes text rest (some .comma) views last') (hne : views ≠ []) :
    Lexes (',' :: ' ' :: text) rest last (mark .comma ',' :: views) last' := by
  have hcomma : Lexes [','] (' ' :: text ++ rest) last [mark .comma ','] (some .comma) :=
    lexes_single (by decide) (by simp) rfl
  exact hcomma.append (h.blank hne)

theorem views_ne_nil (e : Expression) : e.views ≠ [] := by
  fun_cases Expression.views e <;> simp

theorem isEnd_printElements (es : List Expression) (rest : List Char) :
    IsEnd (printElements es ++ ']' :: rest) := by
  cases es with
  | nil => exact ⟨']', rest, rfl, by simp⟩
  | cons e es => exact ⟨',', _, rfl, by simp⟩

theorem isEnd_printEntries (es : List (List Char × Expression)) (rest : List Char) :
    IsEnd (printEntries es ++ ' ' :: '}' :: rest) := by
  cases es with
  | nil => exact ⟨' ', '}' :: rest, rfl, by simp⟩
  | cons entry es => exact ⟨',', _, rfl, by simp⟩

/-- The text of a value and what stands behind it. -/
theorem lexes_append {e : Expression} {more : List Char} {views : List (TokenKind × String)}
    {last' : Option TokenKind}
    (he : Lexes e.print (more ++ rest) last e.views (some e.lastKind))
    (h : ∀ last, Lexes more rest last views last') :
    Lexes (e.print ++ more) rest last (e.views ++ views) last' :=
  he.append (h _)

mutual
theorem Expression.lexes (rest : List Char) (last : Option TokenKind)
    (hlast : last.any TokenKind.endsOperand = false) (hend : IsEnd rest) :
    (e : Expression) → Lexes e.print rest last e.views (some e.lastKind)
  | .string text => lexes_quote last text
  | .number numeral => lexes_numeral numeral hlast hend
  | .boolean true => lexes_word last ['t', 'r', 'u', 'e'] (by decide) hend
  | .boolean false => lexes_word last ['f', 'a', 'l', 's', 'e'] (by decide) hend
  | .null => lexes_word last ['n', 'u', 'l', 'l'] (by decide) hend
  | .array [] => by
    have hopen : Lexes ['['] ([']'] ++ rest) last [mark .lBracket '['] (some .lBracket) :=
      lexes_single (by decide) (by simp) rfl
    have hclose : Lexes [']'] rest (some .lBracket) [mark .rBracket ']'] (some .rBracket) :=
      lexes_single (by decide) (by simp) rfl
    exact hopen.append hclose
  | .array (e :: es) => by
    have hopen : Lexes ['['] ((e.print ++ (printElements es ++ [']'])) ++ rest) last
        [mark .lBracket '['] (some .lBracket) := lexes_single (by decide) (by simp) rfl
    have he := Expression.lexes ((printElements es ++ [']']) ++ rest) (some .lBracket) rfl
      (by simpa using isEnd_printElements es rest) e
    exact hopen.append (lexes_append he fun last => lexes_elements rest last es)
  | .map [] => by
    have hopen : Lexes ['{'] ([' ', ' ', '}'] ++ rest) last [mark .lBrace '{'] (some .lBrace) :=
      lexes_single (by decide) (by simp) rfl
    have hclose : Lexes ['}'] rest (some .lBrace) [mark .rBrace '}'] (some .rBrace) :=
      lexes_single (by decide) (by simp) rfl
    exact hopen.append ((hclose.blank (by simp)).blank (by simp))
  | .map ((key, e) :: es) => by
    have hopen : Lexes ['{'] ((' ' :: (quote key ++ (' ' :: '=' :: ' ' :: (e.print ++
        (printEntries es ++ [' ', '}']))))) ++ rest) last [mark .lBrace '{'] (some .lBrace) :=
      lexes_single (by decide) (by simp) rfl
    have he := Expression.lexes ((printEntries es ++ [' ', '}']) ++ rest) (some .equals) rfl
      (by simpa using isEnd_printEntries es rest) e
    have hvalue := lexes_append he fun last => lexes_entries rest last es
    have hentry := (lexes_quote (some .lBrace) key).append
      (lexes_equals hvalue (by simp [views_ne_nil]))
    exact hopen.append (hentry.blank (by simp))

theorem lexes_elements (rest : List Char) (last : Option TokenKind) :
    (es : List Expression) →
    Lexes (printElements es ++ [']']) rest last (elementViews es) (some .rBracket)
  | [] => lexes_single (by decide) (by simp) rfl
  | e :: es => by
    have he := Expression.lexes ((printElements es ++ [']']) ++ rest) (some .comma) rfl
      (by simpa using isEnd_printElements es rest) e
    have hvalue := lexes_append he fun last => lexes_elements rest last es
    have h := lexes_comma last hvalue (by simp [views_ne_nil])
    rwa [printElements, List.cons_append, List.cons_append, List.append_assoc]

theorem lexes_entries (rest : List Char) (last : Option TokenKind) :
    (es : List (List Char × Expression)) →
    Lexes (printEntries es ++ [' ', '}']) rest last (entryViews es) (some .rBrace)
  | [] => (lexes_single (by decide) (by simp) rfl).blank (by simp)
  | (key, e) :: es => by
    have he := Expression.lexes ((printEntries es ++ [' ', '}']) ++ rest) (some .equals) rfl
      (by simpa using isEnd_printEntries es rest) e
    have hvalue := lexes_append he fun last => lexes_entries rest last es
    have hentry := (lexes_quote (some .comma) key).append
      (lexes_equals hvalue (by simp [views_ne_nil]))
    have h := lexes_comma last hentry (by simp)
    simpa [printEntries, entryViews] using h
end

/-! ## Items -/

theorem wordKind_identifier (name : Identifier) : Lexeme.wordKind name.text = .ident := by
  simp [Lexeme.wordKind, name.ne_true, name.ne_false, name.ne_null]

theorem lexes_labels (rest : List Char) (last : Option TokenKind) (labels : List (List Char)) :
    ∃ last', Lexes (printLabels labels) rest last (labelViews labels) last' := by
  induction labels generalizing last with
  | nil => exact ⟨last, .nil⟩
  | cons label labels ih =>
    obtain ⟨last', hlabels⟩ := ih (some .string)
    exact ⟨last', ((lexes_quote last label).append hlabels).blank (by simp)⟩

theorem lexes_newline (rest : List Char) (last : Option TokenKind) :
    Lexes ['\n'] rest last [mark .newline '\n'] (some .newline) :=
  lexes_single (by decide) (by simp) rfl

mutual
theorem Item.lexes (rest : List Char) (last : Option TokenKind) :
    (item : Item) → Lexes item.print rest last item.views (some .newline)
  | .attribute name e => by
    have he := e.lexes (['\n'] ++ rest) (some .equals) rfl ⟨'\n', rest, rfl, by simp⟩
    have hvalue := lexes_append he fun last => lexes_newline rest last
    have hname : Lexes name.text ((' ' :: '=' :: ' ' :: (e.print ++ ['\n'])) ++ rest) last
        [(.ident, String.ofList name.text)] (some .ident) := by
      have h := lexes_word last name.text name.isIdentifier
        (⟨' ', '=' :: ' ' :: (e.print ++ ['\n'] ++ rest), rfl, by simp⟩ : IsEnd _)
      rwa [wordKind_identifier] at h
    exact hname.append (lexes_equals hvalue (by simp [views_ne_nil]))
  | .block name labels items => by
    have hbrace : ∀ last, Lexes ['}'] (['\n'] ++ rest) last [mark .rBrace '}'] (some .rBrace) :=
      fun last => lexes_single (by decide) (by simp) rfl
    obtain ⟨last', hitems⟩ := lexes_items (['}'] ++ ['\n'] ++ rest) (some .newline) items
    have hbody := (lexes_newline _ (some .lBrace)).append
      (hitems.append ((hbrace last').append (lexes_newline rest (some .rBrace))))
    have hopen : ∀ last, Lexes ['{'] ((['\n'] ++ (printItems items ++ (['}'] ++ ['\n']))) ++ rest) last
        [mark .lBrace '{'] (some .lBrace) := fun last => lexes_single (by decide) (by simp) rfl
    obtain ⟨last'', hlabels⟩ := lexes_labels ((' ' :: (['{'] ++ (['\n'] ++ (printItems items ++
      (['}'] ++ ['\n']))))) ++ rest) (some .string) labels
    exact (lexes_quote last name).append
      (hlabels.append (((hopen last'').append hbody).blank (by simp)))

theorem lexes_items (rest : List Char) (last : Option TokenKind) :
    (items : List Item) → ∃ last', Lexes (printItems items) rest last (itemViews items) last'
  | [] => ⟨last, .nil⟩
  | item :: items => by
    obtain ⟨last', hitems⟩ := lexes_items rest (some .newline) items
    exact ⟨last', (Item.lexes (printItems items ++ rest) last item).append hitems⟩
end

end Hcl.Plain
