import Hcl.Proofs.Lexer.Reads

/-!
# Tokens cover their source

Between two tokens, in front of the first and behind the last one there is nothing but filler.
Places are given by the bytes in front of them.
-/

namespace Hcl

/-- Between the places `a` and `b` of the source there is only filler. -/
def Gap (source seps : List Char) (a b : Nat) : Prop :=
  ∃ pre text rest, source = pre ++ (text ++ rest) ∧ byteCount pre = a ∧
    byteCount pre + byteCount text = b ∧ Filler seps text rest

/-- A place between two characters. -/
def Boundary (source : List Char) (a : Nat) : Prop :=
  ∃ pre rest, source = pre ++ rest ∧ byteCount pre = a

variable {source seps more : List Char} {a b c : Nat}

namespace Gap

theorem refl (h : Boundary source a) : Gap source seps a a := by
  obtain ⟨pre, rest, rfl, rfl⟩ := h
  exact ⟨pre, [], rest, rfl, rfl, rfl, .nil⟩

theorem trans (h : Gap source seps a b) (h' : Gap source seps b c) : Gap source seps a c := by
  obtain ⟨pre, text, rest, rfl, rfl, rfl, hf⟩ := h
  obtain ⟨pre', text', rest', hsource, hpre', rfl, hf'⟩ := h'
  rw [← List.append_assoc] at hsource
  obtain ⟨rfl, rfl⟩ := eq_of_byteCount_eq hsource (by rw [hpre', byteCount_append])
  refine ⟨pre, text ++ text', rest', by simp, rfl, ?_, hf.append hf'⟩
  simp only [byteCount_append]
  omega

theorem mono (h : Gap source seps a b) (hm : ∀ c ∈ seps, c ∈ more) : Gap source more a b := by
  obtain ⟨pre, text, rest, hsource, ha, hb, hf⟩ := h
  exact ⟨pre, text, rest, hsource, ha, hb, hf.mono hm⟩

theorem le (h : Gap source seps a b) : a ≤ b := by
  obtain ⟨pre, text, rest, -, rfl, rfl, -⟩ := h
  omega

theorem boundary_left (h : Gap source seps a b) : Boundary source a := by
  obtain ⟨pre, text, rest, hsource, ha, -, -⟩ := h
  exact ⟨pre, text ++ rest, hsource, ha⟩

theorem boundary_right (h : Gap source seps a b) : Boundary source b := by
  obtain ⟨pre, text, rest, hsource, rfl, hb, -⟩ := h
  exact ⟨pre ++ text, rest, by rw [hsource, List.append_assoc], by rw [byteCount_append, hb]⟩

end Gap

/-- A span that begins and ends between characters has a text. -/
theorem Span.exists_slice? {s : Span} (hstart : Boundary source s.start.offset)
    (hstop : Boundary source s.stop) : ∃ text, s.slice? source = some text := by
  obtain ⟨pre, rest, rfl, hpre⟩ := hstart
  obtain ⟨pre', rest', hsource, hpre'⟩ := hstop
  have hle : byteCount pre ≤ byteCount pre' := by
    rw [hpre', hpre, stop]
    omega
  obtain ⟨w, rfl, rfl⟩ := exists_append_of_byteCount_le hsource hle
  refine ⟨_, slice?_append hpre.symm ?_⟩
  rw [byteCount_append, hpre, stop] at hpre'
  omega

/-! ## Tokens in their places -/

/-- The token covers its text in the source. -/
structure Token.Placed (source : List Char) (t : Token) : Prop where
  start : Boundary source t.span.start.offset
  stop : Boundary source t.span.stop
  slice : t.kind ≠ .string → t.kind ≠ .heredoc → t.span.slice? source = some t.text
  newline : t.kind = .newline → Gap source ['\n'] t.span.start.offset t.span.stop
  comma : t.kind = .comma → Gap source ['\n', ','] t.span.start.offset t.span.stop

theorem Token.Placed.le {t : Token} (_ : t.Placed source) : t.span.start.offset ≤ t.span.stop :=
  Nat.le_add_right _ _

/-- From the place `a` on, the source is covered by the tokens and the filler around them. -/
inductive Located (source : List Char) : Nat → List Token → Prop where
  | nil {a : Nat} : Gap source [] a (byteCount source) → Located source a []
  | cons {a : Nat} {t : Token} {ts : List Token} : Gap source [] a t.span.start.offset →
      t.Placed source → Located source t.span.stop ts → Located source a (t :: ts)

theorem Located.boundary {ts : List Token} (h : Located source a ts) : Boundary source a := by
  cases h with
  | nil h => exact h.boundary_left
  | cons h _ _ => exact h.boundary_left

theorem Located.le_of_mem {ts : List Token} (h : Located source a ts) :
    ∀ t ∈ ts, a ≤ t.span.start.offset := by
  induction h with
  | nil => simp
  | cons hgap ht _ ih =>
    intro u hu
    rcases List.mem_cons.mp hu with rfl | hmem
    · exact hgap.le
    · exact Nat.le_trans (Nat.le_trans hgap.le ht.le) (ih u hmem)

theorem Located.placed {ts : List Token} (h : Located source a ts) : ∀ t ∈ ts, t.Placed source := by
  induction h with
  | nil => simp
  | cons _ ht _ ih =>
    intro u hu
    rcases List.mem_cons.mp hu with rfl | hmem
    · exact ht
    · exact ih u hmem

theorem Located.pairwise {ts : List Token} (h : Located source a ts) :
    ts.Pairwise fun t u => t.span.stop ≤ u.span.start.offset := by
  induction h with
  | nil => exact .nil
  | cons _ _ hts ih => exact .cons hts.le_of_mem ih

theorem Lexer.Scans.placed {lx next : Lexer} {t : Token} {pre text : List Char}
    (h : lx.Scans t text next) (hpre : byteCount pre = lx.position.offset) :
    t.Placed (pre ++ lx.rest) := by
  have hstart : t.span.start.offset = byteCount pre := by rw [h.span, hpre]
  have hlength : t.span.length = byteCount text := by rw [h.span]
  have hstop : t.span.stop = byteCount pre + byteCount text := by rw [Span.stop, hstart, hlength]
  have hrest := h.reads.rest
  have hgap : ∀ {seps : List Char} {c : Char}, c ∈ seps → text = [c] →
      Gap (pre ++ lx.rest) seps t.span.start.offset t.span.stop := fun hc htext =>
    ⟨pre, text, next.rest, by rw [hrest], hstart.symm, hstop.symm, htext ▸ .singleton hc⟩
  exact {
    start := ⟨pre, lx.rest, rfl, hstart.symm⟩
    stop := ⟨pre ++ text, next.rest, by rw [hrest, List.append_assoc], by simp [hstop]⟩
    slice := fun hs hh => by rw [hrest, Span.slice?_append hstart hlength, h.text hs hh]
    newline := fun hk => hgap (c := '\n') (by simp) (h.newline hk)
    comma := fun hk => hgap (c := ',') (by simp) (h.comma hk) }

/-- The end of the source is not among the tokens. -/
theorem Lexer.ne_eof_of_mem_stream (lx : Lexer) : ∀ t ∈ lx.stream.tokens, t.kind ≠ .eof := by
  fun_induction Lexer.stream lx with
  | case1 | case2 => simp
  | case3 lx t next hn hk more =>
    rename_i ih
    intro u hu
    rcases List.mem_cons.mp hu with rfl | hmem
    · exact hk
    · exact ih u hmem

/-- Every token has a text. -/
theorem Lexer.length_pos_of_mem_stream (lx : Lexer) :
    ∀ t ∈ lx.stream.tokens, 0 < t.span.length := by
  fun_induction Lexer.stream lx with
  | case1 | case2 => simp
  | case3 lx t next hn hk more =>
    rename_i ih
    intro u hu
    rcases List.mem_cons.mp hu with rfl | hmem
    · cases steps_of_next hn with
      | token _ _ _ hscans =>
        rw [hscans.span]
        exact byteCount_pos hscans.ne_nil
      | eof _ _ _ ht =>
        subst ht
        exact absurd rfl hk
    · exact ih u hmem

/-- A token that is delivered when `pre` has been read of the source. -/
theorem Lexer.placed_of_next {lx next : Lexer} {t : Token} {pre : List Char}
    (hpre : byteCount pre = lx.position.offset) (hn : lx.next = .ok t next) (hk : t.kind ≠ .eof) :
    Gap (pre ++ lx.rest) [] lx.position.offset t.span.start.offset ∧
      t.Placed (pre ++ lx.rest) ∧ 0 < t.span.length ∧
      ∃ text, pre ++ lx.rest = pre ++ text ++ next.rest ∧
        byteCount (pre ++ text) = next.position.offset := by
  cases steps_of_next hn with
  | @token gap text mid hgap hf _ hscans =>
    have hpre' : byteCount (pre ++ gap) = mid.position.offset := by
      rw [byteCount_append, hpre, hgap.position, Position.offset_after]
    have hsource : pre ++ lx.rest = pre ++ gap ++ mid.rest := by
      rw [hgap.rest, List.append_assoc]
    refine ⟨⟨pre, gap, mid.rest, by rw [hgap.rest], hpre, ?_, hf⟩, ?_, ?_, gap ++ text, ?_, ?_⟩
    · rw [hscans.span, ← byteCount_append, hpre']
    · rw [hsource]
      exact hscans.placed hpre'
    · rw [hscans.span]
      exact byteCount_pos hscans.ne_nil
    · rw [hsource, hscans.reads.rest]
      simp
    · rw [← List.append_assoc, byteCount_append, hpre', hscans.reads.position,
        Position.offset_after]
  | eof _ _ _ ht =>
    subst ht
    exact absurd rfl hk

/-- Behind the last token there is only filler. -/
theorem Lexer.gap_of_next {lx next : Lexer} {t : Token} {pre : List Char}
    (hpre : byteCount pre = lx.position.offset) (hn : lx.next = .ok t next) (hk : t.kind = .eof) :
    Gap (pre ++ lx.rest) [] lx.position.offset (byteCount (pre ++ lx.rest)) ∧
      t = .atEnd next.position ∧ next.position.offset = byteCount (pre ++ lx.rest) := by
  cases steps_of_next hn with
  | token _ _ _ hscans => exact absurd hk hscans.ne_eof
  | @eof gap hgap hf hnil ht =>
    have hrest : lx.rest = gap := by rw [hgap.rest, hnil, List.append_nil]
    have hcount : byteCount (pre ++ lx.rest) = byteCount pre + byteCount gap := by
      rw [byteCount_append, hrest]
    refine ⟨⟨pre, gap, [], by rw [hrest, List.append_nil], hpre, hcount.symm, hf⟩, ht, ?_⟩
    rw [hgap.position, Position.offset_after, ← hpre, hcount]

/-- The tokens of a source without lexical errors cover it. -/
theorem Lexer.located_stream (lx : Lexer) (pre : List Char) {p : Position}
    (hpre : byteCount pre = lx.position.offset) (h : lx.stream.ending = .ok p) :
    Located (pre ++ lx.rest) lx.position.offset lx.stream.tokens := by
  fun_induction Lexer.stream lx generalizing pre with
  | case1 lx cause after hn => cases h
  | case2 lx t next hn hk => exact .nil (gap_of_next hpre hn hk).1
  | case3 lx t next hn hk more =>
    rename_i ih
    obtain ⟨hgap, hplaced, -, text, hsource, hnext⟩ := placed_of_next hpre hn hk
    refine .cons hgap hplaced ?_
    rw [hsource, stop_of_next hn]
    exact ih _ hnext h

/-- The tokens of a source, each with a text and in its place. -/
structure Tiles (source : List Char) (ts : List Token) : Prop where
  located : Located source 0 ts
  length_pos : ∀ t ∈ ts, 0 < t.span.length

theorem TokenStream.located_ofString (source : String) {p : Position}
    (h : (ofString source).ending = .ok p) :
    Located source.toList 0 (ofString source).tokens :=
  (Lexer.ofString source).located_stream [] rfl h

theorem TokenStream.tiles_ofString (source : String) {p : Position}
    (h : (ofString source).ending = .ok p) : Tiles source.toList (ofString source).tokens :=
  ⟨located_ofString source h, Lexer.length_pos_of_mem_stream _⟩

end Hcl
