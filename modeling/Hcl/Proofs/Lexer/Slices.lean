import Hcl.Proofs.Lexer.Calls
import Hcl.Proofs.Lexer.Lines

/-!
# Slices of the source

While a lexer reads, it cuts the source where it stands and where it stood before. Both are places
between characters and come in that order, so no cut is made inside a character or beyond the end.
-/

namespace Hcl

/-! ## Frames of heredocs -/

namespace Heredoc

variable {cs : List Char} {o : Opening}

/-- Where the marker begins in the opening line: behind `<<` or `<<-`. -/
def Opening.markerAt (o : Opening) : Nat := if o.flush then 3 else 2

theorem take_marker (h : opening? cs = some o) :
    (cs.drop o.markerAt).take o.marker.length = o.marker := by
  obtain ⟨dash, body, rfl, -, hmarker, -, hdash⟩ := exists_of_opening? h
  have hdrop : ('<' :: '<' :: (dash ++ body)).drop o.markerAt = body := by
    rw [hdash, Opening.markerAt]
    split <;> rfl
  have hprefix : o.marker <+: body := hmarker ▸ List.takeWhile_prefix _
  rw [hdrop, ← List.prefix_iff_eq_take.mp hprefix]

/-- Indentation is made of characters of one byte, so a line may lose any part of it. -/
theorem dropBytes?_indent (line : List Char) (n : Nat) :
    dropBytes? (min (indentOf line) n) line = some (line.drop (min (indentOf line) n)) := by
  induction line generalizing n with
  | nil => rfl
  | cons c cs ih =>
    by_cases hc : (c == ' ' || c == '\t') = true
    · have hindent : indentOf (c :: cs) = indentOf cs + 1 := by
        simp only [indentOf, List.takeWhile_cons, hc, if_true, List.length_cons]
      have hsize : c.utf8Size = 1 := by
        rcases Bool.or_eq_true _ _ ▸ hc with hc | hc
        · exact eq_of_beq hc ▸ rfl
        · exact eq_of_beq hc ▸ rfl
      cases n with
      | zero =>
        rw [Nat.min_zero]
        rfl
      | succ n =>
        rw [hindent, Nat.succ_min_succ, dropBytes?, if_pos (hsize ▸ Nat.le_add_left _ _), hsize]
        exact ih n
    · have hindent : indentOf (c :: cs) = 0 := by
        simp only [indentOf, List.takeWhile_cons, hc, List.length_nil, Bool.false_eq_true, if_false]
      rw [hindent, Nat.zero_min]
      rfl

end Heredoc

/-! ## Cuts of a lexer -/

namespace Lexer

/-- The source can be cut where `lx` stands and where `next` does, and `text` is between them. -/
structure Slices (source : List Char) (lx : Lexer) (text : List Char) (next : Lexer) : Prop where
  le : lx.position.offset ≤ next.position.offset
  slice? : (next.spanFrom lx.position).slice? source = some (String.ofList text)

/-- The lexer can cut the source where it stands and wherever it may go on to from there. -/
structure CutsWithin (source : List Char) (lx : Lexer) : Prop where
  left : dropBytes? lx.position.offset source = some lx.rest
  consume : ∀ n, (lx.consume n).StandsIn source ∧
    lx.Slices source (lx.rest.take n) (lx.consume n)
  marker : ∀ o, Heredoc.opening? lx.rest = some o →
    (lx.consume o.markerAt).Slices source o.marker ((lx.consume o.markerAt).consume o.marker.length)
  template : ∀ n text next, (templateReader n).read lx = .ok text next →
    next.StandsIn source ∧ lx.Slices source text next
  token : ∀ t next, lx.next = .ok t next → ∃ text, t.span.slice? source = some text ∧
    (t.kind ≠ .string → t.kind ≠ .heredoc → t.text = text)
  next : lx.next.after.StandsIn source

variable {source text : List Char} {lx next : Lexer}

namespace StandsIn

theorem slices (h : lx.StandsIn source) (hr : lx.Reads text next) :
    lx.Slices source text next := by
  obtain ⟨before, rfl, hposition⟩ := h
  constructor
  · exact hr.offset_le
  · have hstart : lx.position.offset = byteCount before :=
      hposition ▸ (Position.countsBehind_start_after before).offset
    rw [hr.spanFrom, hr.rest]
    exact Span.slice?_append hstart rfl

theorem token (h : lx.StandsIn source) {t : Token} (hn : lx.next = .ok t next) :
    ∃ text, t.span.slice? source = some text ∧
      (t.kind ≠ .string → t.kind ≠ .heredoc → t.text = text) := by
  cases steps_of_next hn with
  | @token gap text mid hgap _ _ hscans =>
    have hslice := ((h.reads hgap).slices hscans.reads).slice?
    rw [hscans.reads.spanFrom, ← hscans.span] at hslice
    exact ⟨_, hslice, hscans.text⟩
  | eof hgap _ _ ht =>
    have hslice := ((h.reads hgap).slices (.refl _)).slice?
    rw [(Reads.refl next).spanFrom] at hslice
    subst ht
    exact ⟨_, hslice, fun _ _ => rfl⟩

theorem cutsWithin (h : lx.StandsIn source) : lx.CutsWithin source where
  left := h.dropBytes?_eq
  consume n := ⟨h.reads (reads_consume lx n), h.slices (reads_consume lx n)⟩
  marker o ho := by
    have hslices := (h.reads (reads_consume lx o.markerAt)).slices
      (reads_consume (lx.consume o.markerAt) o.marker.length)
    rwa [consume_rest, Heredoc.take_marker ho] at hslices
  template n text next hn := by
    have hreads := exact_templateReader n hn
    exact ⟨h.reads hreads, h.slices hreads⟩
  token _ _ hn := h.token hn
  next := h.isIn_next.2

end StandsIn

end Lexer

end Hcl
