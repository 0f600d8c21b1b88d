import Mathlib.Order.Lattice.Nat
import Hcl.Proofs.Lexer.Kept
import Hcl.Proofs.Lexer.ReturnLexemes
import Hcl.Proofs.Plain.Document

/-!
# The text of a heredoc

Any lines can be written into a heredoc: its text is these lines, each with its line break. Only the
markers of template sequences are doubled, and no line may be taken for the one that closes the
heredoc. Behind `<<-` the lines lose the indentation that those of them share that are not blank.
-/

namespace Hcl

/-! ## Characters -/

namespace Text

variable {c : Char}

/-- What holds of the characters of a table one by one holds of every character in it. -/
theorem forall_of_inRanges {table : List (Nat × Nat)} {P : Char → Prop}
    (h : ∀ n ∈ table.flatMap fun range => List.range' range.1 (range.2 - range.1 + 1),
      P (Char.ofNat n)) (hc : inRanges table c = true) : P c := by
  obtain ⟨range, hrange, hbounds⟩ := List.any_eq_true.mp hc
  simp only [Bool.and_eq_true, decide_eq_true_eq] at hbounds
  have hmem : c.toNat ∈ List.range' range.1 (range.2 - range.1 + 1) :=
    List.mem_range'_1.mpr ⟨hbounds.1, by omega⟩
  have hall := h c.toNat (List.mem_flatMap.mpr ⟨range, hrange, hmem⟩)
  rwa [Char.ofNat_toNat] at hall

theorem not_isWhiteSpace_of_isIdentStart (h : isIdentStart c = true) : isWhiteSpace c = false := by
  cases hc : isWhiteSpace c with
  | false => rfl
  | true =>
    have hnone : isIdentStart c = false :=
      forall_of_inRanges (P := fun c => isIdentStart c = false) (by decide +kernel) hc
    rw [h] at hnone
    cases hnone

end Text

namespace Heredoc

variable {c : Char} {cs ds marker blanks : List Char} {lines : List (List Char)}

/-! ## Written lines -/

/-- A line without its end. -/
structure IsLine (line : List Char) : Prop where
  newline : '\n' ∉ line
  last : line.getLast? ≠ some '\r'

instance (line : List Char) : Decidable (IsLine line) :=
  decidable_of_iff ('\n' ∉ line ∧ line.getLast? ≠ some '\r')
    ⟨fun h => ⟨h.1, h.2⟩, fun h => ⟨h.newline, h.last⟩⟩

/-- Doubles the markers that would open a template sequence. -/
def escape : List Char → List Char
  | [] => []
  | '$' :: '{' :: cs => '$' :: '$' :: '{' :: escape cs
  | '%' :: '{' :: cs => '%' :: '%' :: '{' :: escape cs
  | c :: cs => c :: escape cs

/-- The lines of a heredoc and what stands behind them. -/
def printLines (lines : List (List Char)) (closing : List Char) : List Char :=
  lines.flatMap (fun line => escape line ++ ['\n']) ++ closing

/-- A heredoc with the lines `lines`. In front of the marker that closes it stand `blanks`. -/
def print (flush : Bool) (marker blanks : List Char) (lines : List (List Char)) : List Char :=
  '<' :: '<' :: ((if flush then ['-'] else []) ++
    (marker ++ '\n' :: printLines lines (blanks ++ marker)))

theorem head?_escape (cs : List Char) : (escape cs).head? = cs.head? := by
  fun_cases escape cs <;> rfl

theorem getLast?_escape (cs : List Char) : (escape cs).getLast? = cs.getLast? := by
  fun_induction escape cs <;> simp_all [List.getLast?_cons]

theorem mem_escape : c ∈ escape cs ↔ c ∈ cs := by
  fun_induction escape cs <;> simp_all

theorem escape_of_notMem (hdollar : '$' ∉ cs) (hpercent : '%' ∉ cs) : escape cs = cs := by
  fun_induction escape cs <;> simp_all

/-- Only a text without markers is written like one. -/
theorem escape_eq_iff (hdollar : '$' ∉ ds) (hpercent : '%' ∉ ds) : escape cs = ds ↔ cs = ds := by
  constructor
  · rintro rfl
    exact (escape_of_notMem (mem_escape.not.mp hdollar) (mem_escape.not.mp hpercent)).symm
  · rintro rfl
    exact escape_of_notMem hdollar hpercent

theorem trimStart_escape (cs : List Char) :
    Text.trimStart (escape cs) = escape (Text.trimStart cs) := by
  have hdollar : Text.isWhiteSpace '$' = false := by decide
  have hpercent : Text.isWhiteSpace '%' = false := by decide
  fun_induction escape cs with
  | case1 => rfl
  | case2 cs => simp [Text.trimStart, hdollar, escape]
  | case3 cs => simp [Text.trimStart, hpercent, escape]
  | case4 c cs hd hp ih =>
    cases hc : Text.isWhiteSpace c with
    | true => simpa [Text.trimStart, hc] using ih
    | false =>
      have hescape : escape (c :: cs) = c :: escape cs := by
        rw [escape] <;> assumption
      simp [Text.trimStart, hc, hescape]

namespace IsLine

theorem tail (h : IsLine (c :: cs)) : IsLine cs where
  newline hmem := h.newline (List.mem_cons_of_mem c hmem)
  last hlast := h.last (by rw [List.getLast?_cons, hlast, Option.getD_some])

theorem escape (h : IsLine cs) : IsLine (escape cs) where
  newline := mem_escape.not.mpr h.newline
  last := getLast?_escape cs ▸ h.last

theorem line_append (h : IsLine cs) (rest : List Char) : line (cs ++ '\n' :: rest) = cs :=
  @Heredoc.line_append cs [] ('\n' :: rest) h.newline (fun _ => h.last) (.inl rfl) (by simp)

end IsLine

/-! ## The frame -/

/-- The first line is read as such, up to its end. -/
theorem exists_opening_print (flush : Bool) (h : Plain.IsIdentifier marker) (blanks : List Char)
    (lines : List (List Char)) :
    ∃ o, opening? (print flush marker blanks lines) = some o ∧ o.flush = flush ∧
      o.marker = marker ∧
      (print flush marker blanks lines).drop o.length =
        '\n' :: printLines lines (blanks ++ marker) := by
  have hnone : ∀ c ∈ ([] : List Char), isMarkerBlank c = true := nofun
  have hnewline : ∀ c ∈ ('\n' :: printLines lines (blanks ++ marker)).head?, c = '\n' := by simp
  have hopening := opening?_of_parts flush h.head h.forall_isIdentContinue hnone hnewline
  rw [List.nil_append] at hopening
  refine ⟨_, hopening, rfl, rfl, ?_⟩
  cases flush <;> simp [print, Nat.add_comm]

variable {o : Opening}

/-- Whether a line is taken for the one that closes the heredoc does not depend on how it is
written. -/
theorem closes_escape (ho : Plain.IsIdentifier o.marker) (h : IsLine cs) (rest : List Char) :
    o.closes (escape cs ++ '\n' :: rest) = true ↔
      (if o.flush then Text.trimStart cs else cs) = o.marker := by
  have hdollar : '$' ∉ o.marker := ho.notMem (by decide)
  have hpercent : '%' ∉ o.marker := ho.notMem (by decide)
  rw [Opening.closes, h.escape.line_append, beq_iff_eq, trimStart_escape]
  cases o.flush <;> exact escape_eq_iff hdollar hpercent

theorem trimStart_append_marker (h : Plain.IsIdentifier marker)
    (hblanks : ∀ c ∈ blanks, c = ' ' ∨ c = '\t') : Text.trimStart (blanks ++ marker) = marker := by
  have hspaces : ∀ c ∈ blanks, Text.isWhiteSpace c = true := by
    intro c hc
    rcases hblanks c hc with rfl | rfl <;> decide
  rw [Text.trimStart, List.dropWhile_append_of_pos hspaces]
  cases marker with
  | nil => exact h.elim
  | cons d ds => exact List.dropWhile_cons_of_neg (by simp [Text.not_isWhiteSpace_of_isIdentStart h.1])

/-- The marker closes the heredoc, and its line goes up to the end. -/
theorem closes_marker (ho : Plain.IsIdentifier o.marker)
    (hblanks : ∀ c ∈ blanks, c = ' ' ∨ c = '\t') (hflush : o.flush = true ∨ blanks = []) :
    o.closes (blanks ++ o.marker) = true ∧ line (blanks ++ o.marker) = blanks ++ o.marker := by
  have hnone : ∀ c, ¬(c = ' ' ∨ c = '\t') → Text.isIdentContinue c = false →
      c ∉ blanks ++ o.marker := by
    intro c hblank hc hmem
    rcases List.mem_append.mp hmem with hmem | hmem
    · exact hblank (hblanks c hmem)
    · exact ho.notMem hc hmem
  have hlast : (blanks ++ o.marker).getLast? ≠ some '\r' := fun h =>
    hnone '\r' (by decide) (by decide) (List.mem_of_getLast? h)
  have hline := @line_append (blanks ++ o.marker) [] [] (hnone '\n' (by decide) (by decide))
    (fun _ => hlast) (.inl rfl) nofun
  rw [List.append_nil, List.append_nil] at hline
  refine ⟨?_, hline⟩
  rw [Opening.closes, hline, beq_iff_eq]
  split
  · exact trimStart_append_marker ho hblanks
  · rw [hflush.resolve_left ‹_›, List.nil_append]

/-! ## Shared indentation -/

theorem lines_append_newline (hnewline : '\n' ∉ cs) (rest : List Char) :
    Heredoc.lines (cs ++ '\n' :: rest) = (cs ++ ['\n']) :: Heredoc.lines rest := by
  induction cs with
  | nil => rw [List.nil_append, Heredoc.lines, if_pos rfl, List.nil_append]
  | cons c cs ih =>
    obtain ⟨hc, hcs⟩ := not_or.mp (List.mem_cons.not.mp hnewline)
    rw [List.cons_append, Heredoc.lines, if_neg (Ne.symm hc), ih hcs, List.cons_append]

theorem lines_flatMap (hlines : ∀ line ∈ lines, IsLine line) :
    Heredoc.lines (lines.flatMap (· ++ ['\n'])) = lines.map (· ++ ['\n']) := by
  induction lines with
  | nil => rfl
  | cons line lines ih =>
    obtain ⟨hline, hlines⟩ := List.forall_mem_cons.mp hlines
    rw [List.flatMap_cons, List.append_assoc, List.singleton_append,
      lines_append_newline hline.newline, ih hlines, List.map_cons]

theorem indentOf_append_newline (cs : List Char) : indentOf (cs ++ ['\n']) = indentOf cs := by
  induction cs with
  | nil => rfl
  | cons c cs ih =>
    by_cases hc : c = ' ' ∨ c = '\t'
    · rw [List.cons_append, indentOf_cons_of_blank hc, indentOf_cons_of_blank hc, ih]
    · rw [List.cons_append, indentOf_cons_of_ne hc, indentOf_cons_of_ne hc]

theorem isBlank_append_newline (cs : List Char) :
    Text.isBlank (cs ++ ['\n']) = Text.isBlank cs := by
  have hnewline : Text.isWhiteSpace '\n' = true := by decide
  simp [Text.isBlank, hnewline]

/-- How far the lines are indented that are not blank. -/
def indents (lines : List (List Char)) : Set Nat :=
  {i | ∃ line ∈ lines, Text.isBlank line = false ∧ indentOf line = i}

theorem sharedIndent_eq (lines : List (List Char)) : sharedIndent lines = sInf (indents lines) := by
  have hmem : ∀ i, i ∈ (lines.filter (! Text.isBlank ·)).map indentOf ↔ i ∈ indents lines := by
    simp [indents, and_assoc]
  rw [sharedIndent]
  cases hmin : ((lines.filter (! Text.isBlank ·)).map indentOf).min? with
  | none =>
    rw [List.min?_eq_none_iff] at hmin
    have hempty : indents lines = ∅ := by
      refine Set.eq_empty_of_forall_notMem fun i hi => ?_
      rw [← hmem, hmin] at hi
      cases hi
    rw [hempty, Nat.sInf_empty]
    rfl
  | some k =>
    obtain ⟨hk, hleast⟩ := List.min?_eq_some_iff.mp hmin
    have hisLeast : IsLeast (indents lines) k :=
      ⟨(hmem k).mp hk, fun i hi => hleast i ((hmem i).mpr hi)⟩
    exact hisLeast.csInf_eq.symm

/-- Line breaks do not count for the indentation. -/
theorem sharedIndent_map (lines : List (List Char)) :
    sharedIndent (lines.map (· ++ ['\n'])) = sharedIndent lines := by
  rw [sharedIndent_eq, sharedIndent_eq]
  simp [indents, isBlank_append_newline, indentOf_append_newline]

/-- Each line loses the shared indentation, or its own if that is less. -/
theorem dedent_flatMap (hlines : ∀ line ∈ lines, IsLine line) :
    dedent (lines.flatMap (· ++ ['\n'])) = lines.flatMap fun line =>
      line.drop (min (sInf (indents lines)) (indentOf line)) ++ ['\n'] := by
  have hflat : Flat ['\n'] := by simp [Flat]
  rw [dedent, lines_flatMap hlines, sharedIndent_map, sharedIndent_eq, List.flatMap_map]
  refine congrArg (List.flatMap · lines) (funext fun line => ?_)
  rw [Nat.min_comm (sInf _)]
  exact strip_append hflat _ line

/-! ## Pieces -/

/-- A marker that opens nothing stands for itself. -/
theorem marker_escape (hc : c = '$' ∨ c = '%') (h : cs.head? ≠ some '{') (rest : List Char) :
    Piece.marker c (escape cs ++ '\n' :: rest) = .text [c] 1 := by
  have hbrace : ∀ ds : List Char, ds.head? ≠ some '{' →
      (escape ds ++ '\n' :: rest).head? ≠ some '{' := by
    intro ds hds
    rw [List.head?_append, head?_escape]
    cases ds with
    | nil => simp
    | cons d ds => exact hds
  have htake : (escape cs ++ '\n' :: rest).take 2 ≠ [c, '{'] := by
    fun_cases escape cs with
    | case1 | case2 | case3 => rcases hc with rfl | rfl <;> simp
    | case4 d ds hdollar hpercent =>
      intro htake
      have hd : d = c := by simpa using congrArg List.head? htake
      have hhead : (escape ds ++ '\n' :: rest).head? = some '{' := by
        simpa [List.take_one] using congrArg List.getLast? htake
      have hds : ds.head? = some '{' := Classical.byContradiction fun hds => hbrace ds hds hhead
      obtain ⟨bs, rfl⟩ := List.head?_eq_some_iff.mp hds
      rcases hc with rfl | rfl
      · exact hdollar bs hd rfl
      · exact hpercent bs hd rfl
  rw [Piece.marker, if_neg htake, if_neg (hbrace cs h)]

end Heredoc

/-! ## Reading lines -/

open Heredoc

namespace Lexer

variable {template : TemplateReader} {o : Opening} {start : Position} {lx : Lexer}
  {cs rest marker blanks : List Char} {lines : List (List Char)}

/-- The written form of `cs` and the line break behind it are read as they are, unless the line is
taken for the one that closes the heredoc. -/
def ReadsLine (template : TemplateReader) (o : Opening) (start : Position) (rest cs : List Char) :
    Prop :=
  ∀ (lineStart : Bool) (content : List Char) (lx : Lexer), lx.rest = escape cs ++ '\n' :: rest →
    (lineStart && o.closes lx.rest) = false →
    ∃ next, next.rest = rest ∧ heredocLines template o start lineStart content lx =
      heredocLines template o start true ('\n' :: cs.reverseAux content) next

/-- One piece stands for the first characters of a line. -/
theorem ReadsLine.piece (text written : List Char) (h : ReadsLine template o start rest cs)
    (hescape : escape (text ++ cs) = written ++ escape cs) (htext : text ≠ ['\n'])
    (hpiece : Piece.ofHeredoc (written ++ (escape cs ++ '\n' :: rest)) =
      .text text written.length) : ReadsLine template o start rest (text ++ cs) := by
  intro lineStart content lx hrest hopen
  rw [hescape, List.append_assoc] at hrest
  obtain ⟨next, hnext, hlines⟩ := h (text == ['\n']) (text.reverseAux content)
    (lx.consume written.length) (by simp [hrest]) (by simp [htext])
  refine ⟨next, hnext, ?_⟩
  rw [heredocLines_text hopen (hrest ▸ hpiece), hlines]
  simp [List.reverseAux_eq]

theorem readsLine (template : TemplateReader) (o : Opening) (start : Position) (rest : List Char)
    (h : IsLine cs) : ReadsLine template o start rest cs := by
  fun_induction escape cs with
  | case1 =>
    intro lineStart content lx hrest hopen
    have hpiece : Piece.ofHeredoc lx.rest = .text ['\n'] 1 := by
      simp [hrest, escape, Piece.ofHeredoc]
    exact ⟨lx.consume 1, by simp [hrest, escape], heredocLines_text hopen hpiece⟩
  | case2 cs ih =>
    exact .piece ['$', '{'] ['$', '$', '{'] (ih h.tail.tail) rfl (by simp)
      (by simp [Piece.ofHeredoc, Piece.marker])
  | case3 cs ih =>
    exact .piece ['%', '{'] ['%', '%', '{'] (ih h.tail.tail) rfl (by simp)
      (by simp [Piece.ofHeredoc, Piece.marker])
  | case4 c cs hdollar hpercent ih =>
    have hescape : escape ([c] ++ cs) = [c] ++ escape cs := by
      rw [List.singleton_append, escape] <;> first | assumption | rfl
    have htext : [c] ≠ ['\n'] := by
      rintro ⟨⟩
      exact h.newline List.mem_cons_self
    -- a carriage return stands for nothing only where the line ends with it
    have hreturn : ¬(c = '\r' ∧ (escape cs ++ '\n' :: rest).head? = some '\n') := by
      rintro ⟨rfl, hhead⟩
      cases cs with
      | nil => exact h.last rfl
      | cons d ds =>
        rw [List.head?_append, head?_escape] at hhead
        cases hhead
        exact h.newline (by simp)
    refine .piece [c] [c] (ih h.tail) hescape htext ?_
    rw [List.singleton_append, Piece.ofHeredoc, if_neg hreturn]
    split
    · rename_i hc
      refine marker_escape hc (fun hhead => ?_) rest
      obtain ⟨bs, rfl⟩ := List.head?_eq_some_iff.mp hhead
      rcases hc with hc | hc
      · exact hdollar bs hc rfl
      · exact hpercent bs hc rfl
    · rfl

/-- The lines of a heredoc are read as they are, up to the marker that closes it. -/
theorem exists_heredocLines_print (template : TemplateReader) (start : Position)
    (ho : Plain.IsIdentifier o.marker)
    (hlines : ∀ line ∈ lines, IsLine line ∧
      (if o.flush then Text.trimStart line else line) ≠ o.marker)
    (hblanks : ∀ c ∈ blanks, c = ' ' ∨ c = '\t') (hflush : o.flush = true ∨ blanks = [])
    (content : List Char) (hrest : lx.rest = printLines lines (blanks ++ o.marker)) :
    ∃ next, next.rest = [] ∧ heredocLines template o start true content lx =
      .ok (content.reverse ++ lines.flatMap (· ++ ['\n'])) next := by
  induction lines generalizing content lx with
  | nil =>
    obtain ⟨hcloses, hline⟩ := closes_marker ho hblanks hflush
    have hrest : lx.rest = blanks ++ o.marker := hrest
    refine ⟨lx.consume (blanks ++ o.marker).length, by simp [hrest], ?_⟩
    rw [heredocLines_eq, hrest, hcloses, hline]
    simp
  | cons line lines ih =>
    obtain ⟨⟨hline, hne⟩, hlines⟩ := List.forall_mem_cons.mp hlines
    have hrest : lx.rest = escape line ++ '\n' :: printLines lines (blanks ++ o.marker) := by
      rw [hrest, printLines, List.flatMap_cons]
      simp [printLines]
    have hopen : o.closes lx.rest = false := by
      rw [hrest]
      exact eq_false_of_ne_true fun hcloses => hne ((closes_escape ho hline _).mp hcloses)
    obtain ⟨mid, hmid, hfirst⟩ :=
      readsLine template o start _ hline true content lx hrest (by simp [hopen])
    obtain ⟨next, hnext, hmore⟩ := ih hlines ('\n' :: line.reverseAux content) hmid
    refine ⟨next, hnext, ?_⟩
    rw [hfirst, hmore]
    simp [List.reverseAux_eq]

theorem exists_tokenAt_print (flush : Bool) (hmarker : Plain.IsIdentifier marker)
    (hlines : ∀ line ∈ lines, IsLine line ∧
      (if flush then Text.trimStart line else line) ≠ marker)
    (hblanks : ∀ c ∈ blanks, c = ' ' ∨ c = '\t') (hflush : flush = true ∨ blanks = [])
    (hrest : lx.rest = print flush marker blanks lines) :
    ∃ t next, lx.tokenAt (templateReader lx.templatesLeft) '<' = .ok t next ∧ t.kind = .heredoc ∧
      t.text = String.ofList (if flush then dedent (lines.flatMap (· ++ ['\n']))
        else lines.flatMap (· ++ ['\n'])) ∧ next.rest = [] := by
  obtain ⟨o, hopening, rfl, rfl, hdrop⟩ := exists_opening_print flush hmarker blanks lines
  rw [← hrest] at hopening hdrop
  have hhead : (lx.consume o.length).rest.head? = some '\n' := by simp [hdrop]
  have hbody : (((lx.consume o.length).consume 1).enter .heredoc).rest =
      printLines lines (blanks ++ o.marker) := by simp [hdrop]
  obtain ⟨after, hafter, hread⟩ := exists_heredocLines_print (templateReader lx.templatesLeft)
    lx.position hmarker hlines hblanks hflush [] hbody
  have htoken : lx.tokenAt (templateReader lx.templatesLeft) '<' =
      after.leave.finish .heredoc (String.ofList (if o.flush then
        dedent (lines.flatMap (· ++ ['\n'])) else lines.flatMap (· ++ ['\n']))) lx.position := by
    rw [tokenAt, if_neg (by decide), hopening]
    simp only [heredocToken, hhead, if_true, hread, List.reverse_nil, List.nil_append]
  exact ⟨_, _, htoken, rfl, rfl, hafter⟩

end Lexer

/-! ## Heredocs -/

/-- The source is one heredoc with the text `text`. -/
def IsHeredoc (source text : List Char) : Prop :=
  TokenStream.ofString (String.ofList source) =
    ⟨[⟨.heredoc, String.ofList text, ⟨.start, byteCount source⟩⟩], .ok (Position.start.after source)⟩

theorem isHeredoc_print {marker blanks : List Char} {lines : List (List Char)} (flush : Bool)
    (hmarker : Plain.IsIdentifier marker)
    (hlines : ∀ line ∈ lines, IsLine line ∧
      (if flush then Text.trimStart line else line) ≠ marker)
    (hblanks : ∀ c ∈ blanks, c = ' ' ∨ c = '\t') (hflush : flush = true ∨ blanks = []) :
    IsHeredoc (print flush marker blanks lines) (if flush then
      dedent (lines.flatMap (· ++ ['\n'])) else lines.flatMap (· ++ ['\n'])) := by
  have hrest : (Lexer.ofString (String.ofList (print flush marker blanks lines))).rest =
      print flush marker blanks lines := String.toList_ofList
  obtain ⟨⟨kind, text, span⟩, next, htoken, rfl, rfl, hnext⟩ :=
    Lexer.exists_tokenAt_print flush hmarker hlines hblanks hflush hrest
  obtain ⟨read, hscans⟩ :=
    Lexer.exists_scans_of_tokenAt (Lexer.exact_templateReader _) hrest htoken
  have hread : read = print flush marker blanks lines := by
    rw [← hrest, hscans.reads.rest, hnext, List.append_nil]
  have hspan : span = ⟨.start, byteCount read⟩ := hscans.span
  rw [← Lexer.next_of_isSolid hrest ⟨by decide, by decide, by decide⟩] at htoken
  rw [IsHeredoc, TokenStream.ofString, Lexer.stream_of_next htoken (by simp),
    Lexer.stream_of_rest_nil hnext, hscans.reads.position, hspan, ← hread]
  rfl

/-- Lines that are written into a heredoc come back as its text. Behind `<<-` they lose the
indentation that those of them share that are not blank. -/
theorem heredoc_of_lines {marker : List Char} {lines : List (List Char)}
    (hmarker : Plain.IsIdentifier marker) (hlines : ∀ line ∈ lines, IsLine line) :
    ((∀ line ∈ lines, line ≠ marker) →
      IsHeredoc (print false marker [] lines) (lines.flatMap (· ++ ['\n']))) ∧
    ∀ blanks, (∀ c ∈ blanks, c = ' ' ∨ c = '\t') →
      (∀ line ∈ lines, Text.trimStart line ≠ marker) →
      IsHeredoc (print true marker blanks lines)
        (lines.flatMap fun line =>
          line.drop (min (sInf (indents lines)) (indentOf line)) ++ ['\n']) := by
  refine ⟨fun hne => ?_, fun blanks hblanks hne => ?_⟩
  · exact isHeredoc_print false hmarker (fun line hline => ⟨hlines line hline, hne line hline⟩)
      nofun (.inr rfl)
  · have hread := isHeredoc_print true hmarker
      (fun line hline => ⟨hlines line hline, hne line hline⟩) hblanks (.inl rfl)
    rwa [if_pos rfl, dedent_flatMap hlines] at hread

/-- An empty line does not count for the indentation, and a doubled marker is a single one. -/
theorem heredoc_of_lines_indented :
    IsHeredoc "<<E\n  $${a}\n\n    b\nE".toList "  ${a}\n\n    b\n".toList ∧
      IsHeredoc "<<-E\n  $${a}\n\n    b\n\t E".toList "${a}\n\n  b\n".toList := by
  obtain ⟨hplain, hflush⟩ := @heredoc_of_lines ['E'] ["  ${a}".toList, [], "    b".toList]
    (by decide) (by decide)
  rw [← sharedIndent_eq] at hflush
  exact ⟨hplain (by decide), hflush ['\t', ' '] (by simp) (by decide)⟩

end Hcl
