import Hcl.Proofs.Lexer.Fails
import Hcl.Proofs.Lexer.Tiling
import Hcl.Proofs.Text.Places

/-!
# Call after call

A lexer may be asked for tokens again and again, behind errors and behind the end of the text. What
holds of it then holds when it starts and is kept by every call, whatever the call returns.
-/

namespace Hcl

/-- The lexer when it has been asked for `n` tokens. -/
def Lexer.calls (lx : Lexer) : Nat → Lexer
  | 0 => lx
  | n + 1 => (lx.calls n).next.after

/-! ## Modes -/

/-- The modes of a lexer, innermost first: only the bottom is `Mode.default`, and there are not too
many template sequences. -/
structure Disciplined (modes : List Mode) : Prop where
  ne_nil : modes ≠ []
  bottom : modes.getLast? = some .default
  default_once : modes.count .default = 1
  interpolation_le : modes.count .interpolation ≤ maxTemplateDepth

/-- What a scan of `lx` does to the modes. -/
def Scan.KeepsModes {α : Type} (lx : Lexer) : Scan α → Prop
  | .ok _ next => next.modes = lx.modes
  | .error cause next =>
    lx.modes <:+ next.modes ∧ ∀ m, cause.fault = .unterminated m → next.modes.head? = some m

namespace Lexer

variable {lx next : Lexer}

theorem head?_modes (lx : Lexer) : lx.modes.head? = some lx.mode := by
  rw [modes, mode]
  cases lx.entered <;> rfl

theorem disciplined_modes (hdefault : .default ∉ lx.entered)
    (hcount : lx.entered.count .interpolation ≤ maxTemplateDepth) : Disciplined lx.modes where
  ne_nil := List.append_ne_nil_of_right_ne_nil _ (List.cons_ne_nil _ _)
  bottom := List.getLast?_concat
  default_once := by
    rw [modes, List.count_append, List.count_eq_zero.mpr hdefault]
    rfl
  interpolation_le := by
    rw [modes, List.count_append]
    exact hcount

theorem keepsModes_next (lx : Lexer) : lx.next.KeepsModes lx := by
  cases hn : lx.next with
  | ok t next =>
    obtain ⟨text, hreads⟩ := (steps_of_next hn).exists_reads
    rw [Scan.KeepsModes, modes, modes, hreads.entered]
  | error cause next =>
    have hfails := fails_of_next hn
    obtain ⟨inside, hentered, -⟩ := hfails.modes
    refine ⟨⟨inside, by rw [modes, modes, hentered, List.append_assoc]⟩, fun m hm => ?_⟩
    rw [head?_modes, hfails.mode m hm]

/-- A failing call may leave as many template sequences open as were left to be opened. -/
theorem entered_next (hdefault : .default ∉ lx.entered)
    (hcount : lx.entered.count .interpolation ≤ maxTemplateDepth) :
    .default ∉ lx.next.after.entered ∧
      lx.next.after.entered.count .interpolation ≤ maxTemplateDepth := by
  cases hn : lx.next with
  | ok t next =>
    obtain ⟨text, hreads⟩ := (steps_of_next hn).exists_reads
    rw [Scan.after, hreads.entered]
    exact ⟨hdefault, hcount⟩
  | error cause next =>
    obtain ⟨inside, hentered, hinside, hle⟩ := (fails_of_next hn).modes
    rw [Scan.after, hentered, List.count_append]
    rw [templatesLeft] at hle
    exact ⟨by simp [hinside, hdefault], by omega⟩

theorem entered_calls (source : String) (n : Nat) :
    .default ∉ ((ofString source).calls n).entered ∧
      ((ofString source).calls n).entered.count .interpolation ≤ maxTemplateDepth := by
  induction n with
  | zero => exact ⟨List.not_mem_nil, Nat.zero_le _⟩
  | succ n ih => exact entered_next ih.1 ih.2

/-- After any number of calls the modes are in order, and the next call keeps them or, if it fails,
puts those it was inside of on top. -/
theorem modes_calls (source : String) (n : Nat) :
    Disciplined ((ofString source).calls n).modes ∧
      ((ofString source).calls n).next.KeepsModes ((ofString source).calls n) :=
  ⟨disciplined_modes (entered_calls source n).1 (entered_calls source n).2, keepsModes_next _⟩

end Lexer

/-! ## Places -/

theorem Position.IsIn.boundary {source : List Char} {p : Position} (h : p.IsIn source) :
    Boundary source p.offset := by
  obtain ⟨before, rest, hsource, hp⟩ := h
  exact ⟨before, rest, hsource, hp.offset.symm⟩

/-- The span begins at an exact position and ends between two characters of the source. -/
structure Span.IsIn (source : List Char) (s : Span) : Prop where
  start : s.start.IsIn source
  stop : Boundary source s.stop

/-- The lexer knows where in the source it stands. -/
def Lexer.StandsIn (source : List Char) (lx : Lexer) : Prop :=
  ∃ before, source = before ++ lx.rest ∧ lx.position = Position.start.after before

/-- A scan returns a token or an error with its place in the source. -/
def Scan.IsIn (source : List Char) : Scan Token → Prop
  | .ok t _ => t.span.IsIn source
  | .error cause _ => cause.position.IsIn source

namespace Lexer

variable {source text rest : List Char} {lx next : Lexer}

theorem standsIn_ofString (source : String) : (ofString source).StandsIn source.toList :=
  ⟨[], rfl, rfl⟩

namespace StandsIn

theorem isIn (h : lx.StandsIn source) : lx.position.IsIn source := by
  obtain ⟨before, rfl, hposition⟩ := h
  exact hposition ▸ Position.isIn_start_after before lx.rest

/-- What is not read yet is the source from the lexer's position on. -/
theorem dropBytes?_eq (h : lx.StandsIn source) :
    dropBytes? lx.position.offset source = some lx.rest := by
  obtain ⟨before, rfl, hposition⟩ := h
  have hoffset := (Position.countsBehind_start_after before).offset
  rw [hposition, hoffset, dropBytes?_byteCount]

theorem of_append (h : lx.StandsIn source) (hrest : lx.rest = text ++ next.rest)
    (hposition : next.position = lx.position.after text) : next.StandsIn source := by
  obtain ⟨before, rfl, hlx⟩ := h
  exact ⟨before ++ text, by rw [hrest, List.append_assoc],
    by rw [hposition, hlx, Position.after_append]⟩

theorem reads (h : lx.StandsIn source) (hr : lx.Reads text next) : next.StandsIn source :=
  h.of_append hr.rest hr.position

theorem fails {n : Nat} {cause : LexicalError} (h : lx.StandsIn source)
    (hf : lx.Fails n cause next) : next.StandsIn source ∧ cause.position.IsIn source := by
  obtain ⟨text, hrest, hposition⟩ := hf.reads
  obtain ⟨before, rest, hbefore, hcause⟩ := hf.place
  have hplace : StandsIn source ⟨rest, cause.position, [], none⟩ := h.of_append hbefore hcause
  exact ⟨h.of_append hrest hposition, hplace.isIn⟩

theorem isIn_next (h : lx.StandsIn source) : lx.next.IsIn source ∧ lx.next.after.StandsIn source := by
  cases hn : lx.next with
  | error cause next => exact (h.fails (fails_of_next hn)).symm
  | ok t next =>
    cases steps_of_next hn with
    | @token gap text mid hgap _ _ hscans =>
      have hmid := h.reads hgap
      have hnext := hmid.reads hscans.reads
      have hstop : t.span.stop = next.position.offset := stop_of_next hn
      refine ⟨⟨?_, hstop ▸ hnext.isIn.boundary⟩, hnext⟩
      rw [hscans.span]
      exact hmid.isIn
    | eof hgap _ _ ht =>
      have hnext := h.reads hgap
      subst ht
      exact ⟨⟨hnext.isIn, hnext.isIn.boundary⟩, hnext⟩

end StandsIn

theorem standsIn_calls (source : String) (n : Nat) :
    ((ofString source).calls n).StandsIn source.toList := by
  induction n with
  | zero => exact standsIn_ofString source
  | succ n ih => exact ih.isIn_next.2

end Lexer

end Hcl
