import Hcl.Proofs.Lexer.Emits
import Hcl.Proofs.Lexer.Tiling

/-!
# Deliveries

A lexer is asked for tokens until it delivers the end of the text or fails. What comes out tiles the
source: only filler stands between a token and the one before it, the lexer stands where the token
ends, and the end of the text is where the source ends.
-/

namespace Hcl

/-- What `lx` delivers, each token with the lexer as it stands behind it: up to and including the
end of the text, or up to the first error. -/
def Lexer.deliveries (lx : Lexer) : List (Token × Lexer) :=
  match _ : lx.next with
  | .error _ _ => []
  | .ok t next => if _ : t.kind = .eof then [(t, next)] else (t, next) :: next.deliveries
termination_by lx.rest.length
decreasing_by
  rename_i h hk
  exact length_next_lt h hk

/-- The tokens of the stream are delivered, and behind them the end if there is no error. -/
theorem Lexer.map_fst_deliveries (lx : Lexer) :
    lx.deliveries.map Prod.fst =
      lx.stream.tokens ++ (lx.stream.ending.toOption.map Token.atEnd).toList := by
  fun_induction Lexer.deliveries lx with
  | case1 lx cause after hn =>
    rw [stream_of_error hn]
    rfl
  | case2 lx t next hn hk =>
    cases steps_of_next hn with
    | token _ _ _ hscans => exact absurd hk hscans.ne_eof
    | eof _ _ _ ht =>
      rw [stream_of_eof hn hk, ht]
      rfl
  | case3 lx t next hn hk ih =>
    rw [stream_of_next hn hk, List.map_cons, ih]
    rfl

/-! ## Tiles -/

/-- The token `t` of `source`, delivered from the place `a` on, and the lexer behind it. -/
structure Tile (source : List Char) (a : Nat) (t : Token) (next : Lexer) : Prop where
  gap : Gap source [] a t.span.start.offset
  stop : t.span.stop = next.position.offset
  length_pos : t.kind ≠ .eof → 0 < t.span.length
  slice : t.kind ≠ .string → t.kind ≠ .heredoc → t.span.slice? source = some t.text
  eof : t.kind = .eof → t.span.length = 0 ∧ t.span.start.offset = byteCount source

/-- From the place `a` on, every token is a tile behind the one before it. -/
inductive Tiled (source : List Char) : Nat → List (Token × Lexer) → Prop where
  | nil {a : Nat} : Tiled source a []
  | cons {a : Nat} {t : Token} {next : Lexer} {more : List (Token × Lexer)} :
      Tile source a t next → Tiled source t.span.stop more → Tiled source a ((t, next) :: more)

namespace Lexer

variable {lx next : Lexer} {t : Token} {pre : List Char}

theorem tile_of_next (hpre : byteCount pre = lx.position.offset) (hn : lx.next = .ok t next)
    (hk : t.kind ≠ .eof) : Tile (pre ++ lx.rest) lx.position.offset t next := by
  obtain ⟨hgap, hplaced, hpos, -⟩ := placed_of_next hpre hn hk
  exact ⟨hgap, stop_of_next hn, fun _ => hpos, hplaced.slice, fun heof => absurd heof hk⟩

theorem tile_of_eof (hpre : byteCount pre = lx.position.offset) (hn : lx.next = .ok t next)
    (hk : t.kind = .eof) : Tile (pre ++ lx.rest) lx.position.offset t next := by
  obtain ⟨hgap, ht, hoffset⟩ := gap_of_next hpre hn hk
  have hstop := stop_of_next hn
  subst ht
  have hslice : (Token.atEnd next.position).span.slice? (pre ++ lx.rest ++ ([] ++ [])) = some "" :=
    Span.slice?_append hoffset rfl
  rw [List.append_nil, List.append_nil] at hslice
  exact {
    gap := hoffset ▸ hgap
    stop := hstop
    length_pos := fun hne => absurd rfl hne
    slice := fun _ _ => hslice
    eof := fun _ => ⟨rfl, hoffset⟩ }

theorem tiled_deliveries (lx : Lexer) (pre : List Char) (hpre : byteCount pre = lx.position.offset) :
    Tiled (pre ++ lx.rest) lx.position.offset lx.deliveries := by
  fun_induction Lexer.deliveries lx generalizing pre with
  | case1 => exact .nil
  | case2 lx t next hn hk => exact .cons (tile_of_eof hpre hn hk) .nil
  | case3 lx t next hn hk ih =>
    obtain ⟨-, -, -, text, hsource, hnext⟩ := placed_of_next hpre hn hk
    refine .cons (tile_of_next hpre hn hk) ?_
    rw [hsource, stop_of_next hn]
    exact ih _ hnext

end Lexer

/-- The tokens of a source tile it, up to its end or to the first error. They are those of its
stream, and the end. -/
theorem tiled_ofString (source : String) :
    Tiled source.toList 0 (Lexer.ofString source).deliveries ∧
      (Lexer.ofString source).deliveries.map Prod.fst =
        (TokenStream.ofString source).tokens ++
          ((TokenStream.ofString source).ending.toOption.map Token.atEnd).toList :=
  ⟨(Lexer.ofString source).tiled_deliveries [] rfl, (Lexer.ofString source).map_fst_deliveries⟩

end Hcl
