import Mathlib.Data.Nat.Digits.Defs
import Mathlib.Tactic.FinCases
import Hcl.Proofs.Lexer.Reads
import Hcl.Proofs.Lexer.Unfold

/-!
# The pieces of a quoted literal

What a quoted literal is made of, template sequences apart, and what each piece stands for. Pieces
are read as long as one begins, and what stands behind the last of them decides what becomes of the
literal.
-/

namespace Hcl

/-- The hexadecimal digits in either case, with their values. -/
def hexDigits : List (Char × Nat) :=
  "0123456789abcdef".toList.zipIdx ++ "ABCDEF".toList.zipIdx 10

/-- The hexadecimal digits `digits` are the number of the character `c`. -/
def Denotes (digits : List Char) (c : Char) : Prop :=
  ∃ values, List.Forall₂ (fun d v => (d, v) ∈ hexDigits) digits values ∧
    Nat.ofDigits 16 values.reverse = c.toNat

/-- What may stand behind a backslash, with the character that is meant. -/
def simpleEscapes : List (Char × Char) :=
  [('n', '\n'), ('r', '\r'), ('t', '\t'), ('"', '"'), ('\\', '\\')]

/-- What begins the escape sequence of a code point, with the number of its digits. -/
def codePointEscapes : List (Char × Nat) := [('u', 4), ('U', 8)]

/-- In front of `rest`, `written` is a piece that stands for `text`. -/
inductive IsPiece (rest : List Char) : (written text : List Char) → Prop where
  | plain {c : Char} : c ∉ ['"', '\\', '\n', '$', '%'] → IsPiece rest [c] [c]
  | escape {c d : Char} : (c, d) ∈ simpleEscapes → IsPiece rest ['\\', c] [d]
  | codePoint {marker c : Char} {count : Nat} {digits : List Char} :
      (marker, count) ∈ codePointEscapes → digits.length = count → Denotes digits c →
      IsPiece rest ('\\' :: marker :: digits) [c]
  | doubled {marker : Char} : marker ∈ ['$', '%'] → IsPiece rest [marker, marker, '{'] [marker, '{']
  | single {marker : Char} : marker ∈ ['$', '%'] → ¬['{'] <+: rest → ¬[marker, '{'] <+: rest →
      IsPiece rest [marker] [marker]

/-- In front of `rest`, `written` is made of pieces that stand for `text`. -/
inductive Pieces (rest : List Char) : (written text : List Char) → Prop where
  | nil : Pieces rest [] []
  | cons {written text more moreText : List Char} : IsPiece (more ++ rest) written text →
      Pieces rest more moreText → Pieces rest (written ++ more) (text ++ moreText)

/-- A piece begins where `cs` does. -/
def PieceBegins (cs : List Char) : Prop :=
  ∃ written text rest, cs = written ++ rest ∧ IsPiece rest written text

/-- Of the text `cs` the pieces `written` are read as long as one begins. They stand for `text`, and
`rest` is behind them. -/
structure ReadsPieces (cs written text rest : List Char) : Prop where
  eq : cs = written ++ rest
  pieces : Pieces rest written text
  greedy : ¬PieceBegins rest

/-- What is reported of an escape sequence that is none: the backslash, what is behind it and what
stands where its digits should. -/
def badEscape (c : Char) (cs : List Char) : List Char :=
  '\\' :: c :: cs.take ((codePointEscapes.lookup c).getD 0)

/-- What comes of the quoted literal in front of which `lx` stands when the pieces `written`, which
stand for `text`, are read and `rest` is behind them. -/
def Lexer.QuotedOutcome (lx : Lexer) (written text : List Char) : (rest : List Char) → Prop
  | '"' :: more =>
    lx.next = .ok ⟨.string, String.ofList text, ⟨lx.position, byteCount written + 2⟩⟩
      ⟨more, lx.position.after ('"' :: (written ++ ['"'])), lx.entered, some .string⟩
  | [] | '\n' :: _ => ∃ next, lx.next = .error ⟨.unterminated .string, lx.position⟩ next
  | ['\\'] => ∃ next,
    lx.next = .error ⟨.unterminated .string, lx.position.after ('"' :: written)⟩ next
  | '\\' :: c :: cs => ∃ next,
    lx.next = .error
      ⟨.invalidEscape (String.ofList (badEscape c cs)), lx.position.after ('"' :: written)⟩ next
  | rest => ['$', '{'] <+: rest ∨ ['%', '{'] <+: rest

/-! ## Code points -/

/-- The value of one more digit behind those of `value`. -/
def hexStep (value : Option Nat) (c : Char) : Option Nat :=
  value.bind fun n =>
    if c.isDigit then some (16 * n + (c.toNat - '0'.toNat))
    else if 'a' ≤ c ∧ c ≤ 'f' then some (16 * n + (c.toNat - 'a'.toNat + 10))
    else if 'A' ≤ c ∧ c ≤ 'F' then some (16 * n + (c.toNat - 'A'.toNat + 10))
    else none

theorem mem_hexDigits {c : Char} (low count base : Nat) (hlow : low ≤ c.toNat)
    (hhigh : c.toNat < low + count)
    (h : ∀ k < count, (Char.ofNat (low + k), k + base) ∈ hexDigits) :
    (c, c.toNat - low + base) ∈ hexDigits := by
  have hc := h (c.toNat - low) (by omega)
  rwa [Nat.add_sub_cancel' hlow, Char.ofNat_toNat] at hc

theorem hexStep_eq_some {a n : Nat} {d : Char} :
    hexStep (some a) d = some n ↔ ∃ v, (d, v) ∈ hexDigits ∧ n = 16 * a + v := by
  constructor
  · intro h
    simp only [hexStep, Option.bind_some, Char.isDigit, Char.le_def, UInt32.le_iff_toNat_le,
      Bool.and_eq_true, decide_eq_true_eq, ge_iff_le] at h
    split at h
    · rename_i hd
      exact ⟨_, mem_hexDigits 48 10 0 hd.1 (Nat.lt_succ_of_le hd.2) (by decide),
        (Option.some.inj h).symm⟩
    split at h
    · rename_i hd
      exact ⟨_, mem_hexDigits 97 6 10 hd.1 (Nat.lt_succ_of_le hd.2) (by decide),
        (Option.some.inj h).symm⟩
    split at h
    · rename_i hd
      exact ⟨_, mem_hexDigits 65 6 10 hd.1 (Nat.lt_succ_of_le hd.2) (by decide),
        (Option.some.inj h).symm⟩
    · cases h
  · rintro ⟨v, hv, rfl⟩
    have hall : ∀ p ∈ hexDigits, hexStep (some a) p.1 = some (16 * a + p.2) := by
      simp [hexDigits, hexStep]
    exact hall _ hv

theorem foldl_hexStep_none (digits : List Char) : digits.foldl hexStep none = none := by
  induction digits with
  | nil => rfl
  | cons d digits ih => exact ih

theorem foldl_hexStep_eq_some {a n : Nat} {digits : List Char} :
    digits.foldl hexStep (some a) = some n ↔
      ∃ values, List.Forall₂ (fun d v => (d, v) ∈ hexDigits) digits values ∧
        values.foldl (fun n v => 16 * n + v) a = n := by
  induction digits generalizing a with
  | nil =>
    constructor
    · exact fun h => ⟨[], .nil, Option.some.inj h⟩
    · rintro ⟨_, ⟨⟩, rfl⟩
      rfl
  | cons d digits ih =>
    rw [List.foldl_cons]
    constructor
    · intro h
      cases hd : hexStep (some a) d with
      | none =>
        rw [hd, foldl_hexStep_none] at h
        cases h
      | some b =>
        rw [hd] at h
        obtain ⟨v, hv, rfl⟩ := hexStep_eq_some.mp hd
        obtain ⟨values, hvalues, hn⟩ := ih.mp h
        exact ⟨v :: values, .cons hv hvalues, hn⟩
    · rintro ⟨_ | ⟨v, values⟩, hvalues, hn⟩
      · cases hvalues
      · cases hvalues with
        | cons hv hvalues =>
          rw [hexStep_eq_some.mpr ⟨v, hv, rfl⟩]
          exact ih.mpr ⟨values, hvalues, hn⟩

theorem hexValue?_eq_some {n : Nat} {digits : List Char} :
    Piece.hexValue? digits = some n ↔
      ∃ values, List.Forall₂ (fun d v => (d, v) ∈ hexDigits) digits values ∧
        Nat.ofDigits 16 values.reverse = n := by
  have hfold : ∀ values : List Nat,
      Nat.ofDigits 16 values.reverse = values.foldl (fun n v => 16 * n + v) 0 := fun values => by
    rw [Nat.ofDigits_eq_foldr, List.foldr_reverse]
    simp only [Nat.cast_id, Nat.add_comm]
  simp only [hfold]
  exact foldl_hexStep_eq_some

theorem denotes_iff {c : Char} {digits : List Char} :
    Denotes digits c ↔ (Piece.hexValue? digits).bind Piece.charOfCode? = some c := by
  constructor
  · intro h
    have hvalid : c.toNat.isValidChar := c.valid
    rw [hexValue?_eq_some.mpr h, Option.bind_some, Piece.charOfCode?, if_pos hvalid,
      Char.ofNat_toNat]
  · intro h
    obtain ⟨n, hn, hc⟩ := Option.bind_eq_some_iff.mp h
    rw [Piece.charOfCode?] at hc
    split at hc
    · rename_i hvalid
      cases hc
      obtain ⟨values, hvalues, rfl⟩ := hexValue?_eq_some.mp hn
      exact ⟨values, hvalues, by rw [Char.ofNat, dif_pos hvalid]; rfl⟩
    · cases hc

/-! ## One piece -/

theorem IsPiece.ne_nil {written text rest : List Char} (h : IsPiece rest written text) :
    written ≠ [] := by
  cases h <;> exact List.cons_ne_nil _ _

namespace Piece

variable {cs written text rest digits : List Char} {marker c d : Char} {n count : Nat}

theorem codePoint_of_denotes (hcount : digits.length = count) (h : Denotes digits c)
    (marker : Char) (rest : List Char) :
    codePoint marker count (digits ++ rest) = .text [c] (2 + count) := by
  rw [codePoint, ← hcount, List.take_left, if_pos rfl, denotes_iff.mp h]

theorem codePoint_cases (marker : Char) (count : Nat) (cs : List Char) :
    (∃ digits rest c, cs = digits ++ rest ∧ digits.length = count ∧ Denotes digits c) ∨
      codePoint marker count cs = .invalid ('\\' :: marker :: cs.take count) := by
  simp only [codePoint]
  split
  · rename_i c hc
    split at hc
    · rename_i hcount
      exact .inl ⟨cs.take count, cs.drop count, c, (List.take_append_drop count cs).symm, hcount,
        denotes_iff.mpr hc⟩
    · cases hc
  · exact .inr rfl

theorem ofQuoted_of_isPiece (h : IsPiece rest written text) :
    ofQuoted (written ++ rest) = .text text written.length := by
  have hmarker : ∀ {m : Char} {cs : List Char}, m ∈ ['$', '%'] →
      ofQuoted (m :: cs) = marker m cs := by
    intro m cs hm
    fin_cases hm <;> rfl
  cases h with
  | plain hc => simp_all [ofQuoted]
  | escape hmem => fin_cases hmem <;> rfl
  | @codePoint m c count digits hmem hcount hdenotes =>
    have hescape : ∀ cs, ofQuoted ('\\' :: m :: cs) = Piece.codePoint m count cs := by
      fin_cases hmem <;> exact fun _ => rfl
    rw [List.cons_append, List.cons_append, hescape, codePoint_of_denotes hcount hdenotes,
      List.length_cons, List.length_cons, hcount, Nat.add_comm]
  | doubled hm =>
    rw [List.cons_append, hmarker hm]
    exact if_pos rfl
  | single hm hbrace hdoubled =>
    rw [List.cons_append, List.nil_append, hmarker hm, marker, if_neg, if_neg]
    · rfl
    · intro hhead
      obtain ⟨cs, rfl⟩ := List.head?_eq_some_iff.mp hhead
      exact hbrace ⟨cs, rfl⟩
    · exact fun htake => hdoubled (htake ▸ List.take_prefix 2 rest)

theorem ofQuoted_of_not_pieceBegins (h : ¬PieceBegins ('\\' :: c :: cs)) :
    ofQuoted ('\\' :: c :: cs) = .invalid (badEscape c cs) := by
  have hsimple : ∀ d, (c, d) ∉ simpleEscapes := fun d hd => h ⟨['\\', c], [d], cs, rfl, .escape hd⟩
  have hpoint : ∀ count, (c, count) ∈ codePointEscapes →
      codePoint c count cs = .invalid ('\\' :: c :: cs.take count) := by
    intro count hmem
    refine (codePoint_cases c count cs).resolve_left ?_
    rintro ⟨digits, rest, d, rfl, hcount, hdenotes⟩
    exact h ⟨_, _, rest, rfl, .codePoint hmem hcount hdenotes⟩
  by_cases hu : c = 'u'
  · subst hu
    exact hpoint 4 (by decide)
  by_cases hU : c = 'U'
  · subst hU
    exact hpoint 8 (by decide)
  have hlookup : codePointEscapes.lookup c = none :=
    List.lookup_eq_none_iff.mpr (by simp [codePointEscapes, hu, hU])
  change escape (c :: cs) = _
  rw [badEscape, hlookup]
  simp only [simpleEscapes, List.mem_cons, Prod.mk.injEq, not_or, not_and] at hsimple
  unfold escape
  split <;> simp_all

end Piece

/-! ## Literals -/

theorem exists_readsPieces (cs : List Char) :
    ∃ written text rest, ReadsPieces cs written text rest := by
  by_cases h : PieceBegins cs
  · obtain ⟨piece, stands, more, hcs, hpiece⟩ := h
    have hlt : more.length < cs.length := by
      have hpos := List.length_pos_iff.mpr hpiece.ne_nil
      rw [hcs, List.length_append]
      omega
    obtain ⟨written, text, rest, rfl, hpieces, hgreedy⟩ := exists_readsPieces more
    exact ⟨piece ++ written, stands ++ text, rest, by rw [hcs, List.append_assoc],
      .cons hpiece hpieces, hgreedy⟩
  · exact ⟨[], [], cs, rfl, .nil, h⟩
termination_by cs.length

/-- Where no piece begins, the literal ends or does not go on, or a template sequence is opened. -/
theorem opens_of_not_pieceBegins {c : Char} {cs : List Char} (h : ¬PieceBegins (c :: cs))
    (hc : c ∉ ['"', '\\', '\n']) : ['$', '{'] <+: c :: cs ∨ ['%', '{'] <+: c :: cs := by
  have hmarker : c ∈ ['$', '%'] := by
    refine Decidable.byContradiction fun hm => h ⟨[c], [c], cs, rfl, .plain ?_⟩
    simp_all
  have hbrace : ['{'] <+: cs := by
    refine Decidable.byContradiction fun hbrace => h ⟨[c], [c], cs, rfl, .single hmarker hbrace ?_⟩
    rintro ⟨more, rfl⟩
    exact h ⟨[c, c, '{'], [c, '{'], more, rfl, .doubled hmarker⟩
  obtain ⟨more, rfl⟩ := hbrace
  fin_cases hmarker
  · exact .inl ⟨more, rfl⟩
  · exact .inr ⟨more, rfl⟩

namespace Lexer

variable {lx : Lexer} {cs written text rest : List Char}

theorem consume_of_rest (h : lx.rest = text ++ rest) :
    lx.consume text.length = { lx with rest, position := lx.position.after text } := by
  simp only [consume, h, List.take_left, List.drop_left]

theorem quotedPieces_of_pieces (template : TemplateReader) (start : Position)
    (h : Pieces rest written text) (hrest : lx.rest = written ++ rest) (decoded : List Char) :
    quotedPieces template start decoded lx =
      quotedPieces template start (text.reverse ++ decoded)
        { lx with rest, position := lx.position.after written } := by
  induction h generalizing lx decoded with
  | nil =>
    obtain rfl : lx.rest = rest := hrest
    rfl
  | cons hpiece _ ih =>
    rw [List.append_assoc] at hrest
    have hread := (congrArg Piece.ofQuoted hrest).trans (Piece.ofQuoted_of_isPiece hpiece)
    rw [quotedPieces_text hread, consume_of_rest hrest, ih rfl, List.reverseAux_eq,
      List.reverse_append, List.append_assoc, Position.after_append]

/-- In front of the closing quote only the quote is left to be read. -/
theorem finish_quoted {mid : Lexer} (h : (lx.enter .string).Reads ('"' :: written) mid)
    (hmid : mid.rest = '"' :: rest) (content : String) :
    (mid.consume 1).leave.finish .string content lx.position =
      .ok ⟨.string, content, ⟨lx.position, byteCount written + 2⟩⟩
        ⟨rest, lx.position.after ('"' :: (written ++ ['"'])), lx.entered, some .string⟩ := by
  have hreads := (h.trans (reads_consume mid 1)).leave
  have hcount : byteCount ('"' :: (written ++ ['"'])) = byteCount written + 2 := by
    rw [byteCount_cons, byteCount_append, byteCount_cons]
    change 1 + (byteCount written + 1) = byteCount written + 2
    omega
  rw [hmid, List.take_succ_cons, List.take_zero, List.cons_append] at hreads
  have hposition : (mid.consume 1).position = lx.position.after ('"' :: (written ++ ['"'])) :=
    hreads.position
  have hentered : (mid.consume 1).entered.tail = lx.entered := hreads.entered
  rw [finish, hreads.spanFrom, hcount]
  simp only [leave, hposition, hentered, consume_rest, hmid, List.drop_succ_cons, List.drop_zero]

theorem quotedOutcome_next (h : lx.rest = '"' :: cs) (hr : ReadsPieces cs written text rest) :
    lx.QuotedOutcome written text rest := by
  obtain ⟨rfl, hpieces, hgreedy⟩ := hr
  -- where the literal has been read up to the pieces and up to what is behind them
  have hopen : (lx.enter .string).consume 1 =
      ⟨written ++ rest, lx.position.after ['"'], .string :: lx.entered, lx.last⟩ :=
    consume_of_rest (show (lx.enter .string).rest = ['"'] ++ (written ++ rest) from h)
  have hnext : lx.next = lx.quotedToken (templateReader lx.templatesLeft) :=
    (next_of_isSolid h (by decide)).trans (if_pos rfl)
  rw [quotedToken, hopen, quotedPieces_of_pieces _ _ hpieces rfl, List.append_nil,
    ← Position.after_append, List.singleton_append] at hnext
  unfold QuotedOutcome
  split
  · rename_i more
    rw [quotedPieces_quote rfl, List.reverse_reverse] at hnext
    have hreads : (lx.enter .string).Reads ('"' :: written)
        ⟨'"' :: more, lx.position.after ('"' :: written), .string :: lx.entered, lx.last⟩ :=
      ⟨h, rfl, rfl⟩
    exact hnext.trans (finish_quoted hreads rfl _)
  · rw [quotedPieces_lineEnd rfl] at hnext
    exact ⟨_, hnext⟩
  · rw [quotedPieces_lineEnd rfl] at hnext
    exact ⟨_, hnext⟩
  · rw [quotedPieces_loneBackslash rfl] at hnext
    exact ⟨_, hnext⟩
  · rw [quotedPieces_invalid (Piece.ofQuoted_of_not_pieceBegins hgreedy)] at hnext
    exact ⟨_, hnext⟩
  · rename_i hquote hnil hnewline hlone hbackslash
    cases rest with
    | nil => exact absurd rfl hnil
    | cons c cs =>
      refine opens_of_not_pieceBegins hgreedy fun hc => ?_
      fin_cases hc
      · exact hquote cs rfl
      · cases cs with
        | nil => exact hlone rfl
        | cons d ds => exact hbackslash d ds rfl
      · exact hnewline cs rfl

/-- What stands behind the pieces of a quoted literal, read as long as one begins, decides what the
lexer returns: their text up to a closing quote, the place of an error, or a template sequence is
opened. -/
theorem next_quoted (h : lx.rest = '"' :: cs) :
    (∃ written text rest, ReadsPieces cs written text rest) ∧
      ∀ written text rest, ReadsPieces cs written text rest →
        lx.QuotedOutcome written text rest :=
  ⟨exists_readsPieces cs, fun _ _ _ hr => quotedOutcome_next h hr⟩

/-- A marker in front of a doubled one that stands for itself, and a code point that runs up to the
closing quote. -/
theorem next_quoted_markers :
    let lx := ofString "\"$$$\x7b\\u00e9\" x"
    lx.rest = '"' :: "$$$\x7b\\u00e9\" x".toList ∧
      lx.next = .ok ⟨.string, "$$\x7bé", ⟨.start, 12⟩⟩ ⟨[' ', 'x'], ⟨1, 13, 12⟩, [], some .string⟩ := by
  intro lx
  have hdenotes : Denotes ['0', '0', 'e', '9'] 'é' := ⟨[0, 0, 14, 9], by decide, by decide⟩
  have hpieces : Pieces "\" x".toList "$$$\x7b\\u00e9".toList "$$\x7bé".toList :=
    .cons (.single (by decide) (by decide) (by decide))
      (.cons (.doubled (by decide)) (.cons (.codePoint (by decide) rfl hdenotes) .nil))
  have hgreedy : ¬PieceBegins "\" x".toList := by
    rintro ⟨written, text, rest, hrest, hpiece⟩
    have hread := Piece.ofQuoted_of_isPiece hpiece
    rw [← hrest] at hread
    cases hread
  exact ⟨rfl, (next_quoted rfl).2 _ _ _ ⟨rfl, hpieces, hgreedy⟩⟩

end Lexer

end Hcl
