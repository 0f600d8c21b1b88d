import Hcl.Proofs.Lexer.Emits
import Hcl.Proofs.TokenStream.Operand
import Hcl.Proofs.TokenStream.Suffix
import Hcl.Proofs.TokenStream.Unfold

/-!
# Tokens that are cut short

Of the tokens of a stream, those from some place on are taken away and a line break is put in their
place. A reader that ends before that place takes the same tokens from what is left; one that ends
there ends at the line break, or behind it if an operand is missing.
-/

namespace Hcl

theorem Token.kind_eq {t u : Token} (h : t.view = u.view) : t.kind = u.kind := congrArg Prod.fst h

theorem Token.text_eq {t u : Token} (h : t.view = u.view) : t.text = u.text := congrArg Prod.snd h

namespace TokenStream

/-- The second list has the tokens of the first one in front of `back`, and then the line break
`nl`. -/
inductive Cut (nl : Token) (back : List Token) : List Token → List Token → Prop
  | nil : Cut nl back back [nl]
  | cons {t t' : Token} {ts ts' : List Token} : t'.view = t.view → Cut nl back ts ts' →
      Cut nl back (t :: ts) (t' :: ts')

variable {nl t : Token} {back ts ts' : List Token} {ending : Except LexicalError Position}
  {p : Position} {start : Position} {stop last : Span} {rest : TokenStream}

namespace Cut

theorem of_map_view {kept kept' : List Token} (h : kept'.map Token.view = kept.map Token.view) :
    Cut nl back (kept ++ back) (kept' ++ [nl]) := by
  induction kept generalizing kept' with
  | nil =>
    obtain rfl := List.map_eq_nil_iff.mp h
    exact .nil
  | cons t kept ih =>
    obtain ⟨t', ts', rfl, ht, hts⟩ := List.map_eq_cons_iff.mp h
    exact .cons ht (ih hts)

theorem length_le (h : Cut nl back ts ts') : back.length ≤ ts.length := by
  induction h with
  | nil => exact Nat.le_refl _
  | cons _ _ ih => exact Nat.le_succ_of_le ih

/-- A token in front of `back`. -/
theorem exists_cons (h : Cut nl back (t :: ts) ts') (hle : back.length ≤ ts.length) :
    ∃ t' us', ts' = t' :: us' ∧ t'.view = t.view ∧ Cut nl back ts us' := by
  cases h with
  | nil =>
    rw [List.length_cons] at hle
    omega
  | cons ht hts => exact ⟨_, _, rfl, ht, hts⟩

theorem eq_nl (h : Cut nl back back ts') : ts' = [nl] := by
  generalize hts : back = ts at h
  cases h with
  | nil => rfl
  | cons _ h =>
    have := h.length_le
    rw [List.length_cons] at this
    omega

end Cut

/-! ## Groups -/

theorem skipGroupFrom_cut {depth : Nat} (h : Cut nl back ts ts')
    (hg : skipGroupFrom start ending depth ts = .ok (stop, rest))
    (hb : back.length ≤ rest.tokens.length) (start' : Position)
    (ending' : Except LexicalError Position) :
    ∃ stop' rest', skipGroupFrom start' ending' depth ts' = .ok (stop', ⟨rest', ending'⟩) ∧
      Cut nl back rest.tokens rest' := by
  induction h generalizing depth with
  | nil =>
    have := length_skipGroupFrom_lt hg
    omega
  | @cons t t' ts ts' ht hts ih =>
    have hk := Token.kind_eq ht
    simp only [skipGroupFrom, hk] at hg ⊢
    split at hg
    · rename_i ho
      rw [if_pos ho]
      exact ih hg
    rename_i ho
    rw [if_neg ho]
    split at hg
    · rename_i hc
      rw [if_pos hc]
      split at hg
      · simp only [Except.ok.injEq, Prod.mk.injEq] at hg
        obtain ⟨-, rfl⟩ := hg
        exact ⟨_, _, rfl, hts⟩
      · exact ih hg
    · rename_i hc
      rw [if_neg hc]
      exact ih hg

theorem skipGroup_cut (h : Cut nl back ts ts')
    (hg : skipGroup start ⟨ts, ending⟩ = .ok (stop, rest))
    (hb : back.length ≤ rest.tokens.length) (start' : Position)
    (ending' : Except LexicalError Position) :
    ∃ stop' rest', skipGroup start' ⟨ts', ending'⟩ = .ok (stop', ⟨rest', ending'⟩) ∧
      Cut nl back rest.tokens rest' :=
  skipGroupFrom_cut h hg hb start' ending'

/-! ## Operations and conditionals -/

/-- An expression that ends in front of `back`. -/
theorem expressionEndFrom_cut {depth : Nat} {dangling : Bool} (h : Cut nl back ts ts')
    (he : expressionEndFrom start ending stop depth dangling ts = .ok (last, rest))
    (hb : back.length < rest.tokens.length) (start' : Position) (stop' : Span)
    (ending' : Except LexicalError Position) :
    ∃ last' rest', expressionEndFrom start' ending' stop' depth dangling ts' =
        .ok (last', ⟨rest', ending'⟩) ∧ Cut nl back rest.tokens rest' := by
  induction h generalizing stop stop' depth dangling with
  | nil =>
    have := length_expressionEndFrom_le he
    omega
  | @cons t t' ts ts' ht hts ih =>
    have hk := Token.kind_eq ht
    have hend : (Except.ok (stop, ⟨t :: ts, ending⟩) : Reading Span) = .ok (last, rest) →
        ∃ last' rest', (Except.ok (stop', ⟨t' :: ts', ending'⟩) : Reading Span) =
          .ok (last', ⟨rest', ending'⟩) ∧ Cut nl back rest.tokens rest' := fun he => by
      simp only [Except.ok.injEq, Prod.mk.injEq] at he
      obtain ⟨-, rfl⟩ := he
      exact ⟨_, _, rfl, .cons ht hts⟩
    simp only [expressionEndFrom, hk] at he ⊢
    split at he
    · rename_i hn
      rw [if_pos hn]
      split at he
      · rename_i hstop
        rw [if_pos hstop]
        exact hend he
      · rename_i hstop
        rw [if_neg hstop]
        exact ih he _
    rename_i hn
    rw [if_neg hn]
    split at he
    · rename_i hc
      rw [if_pos hc]
      split at he
      · exact hend he
      · exact ih he _
    rename_i hc
    rw [if_neg hc]
    split at he
    · rename_i hcomma
      rw [if_pos hcomma]
      exact hend he
    · rename_i hcomma
      rw [if_neg hcomma]
      exact ih he _

/-! ## Traversals -/

theorem isStep_eq {t u : Token} (h : t.view = u.view) : isStep t = isStep u := by
  simp only [isStep, Token.isOperator, Token.kind_eq h, Token.text_eq h]

theorem steps_cut {s : TokenStream} {kind kind' : EvalKind} {stop stop' stop₁ : Option Span}
    (hnl : nl.kind = .newline) (h : Cut nl back s.tokens ts')
    (hs : steps kind stop s = .ok ((kind', stop'), rest)) (hb : back.length ≤ rest.tokens.length)
    (hstop : stop₁ = none ↔ stop = none) (p : Position) :
    ∃ stop₂ rest', steps kind stop₁ ⟨ts', .ok p⟩ = .ok ((kind', stop₂), ⟨rest', .ok p⟩) ∧
      (stop₂ = none ↔ stop' = none) ∧ Cut nl back rest.tokens rest' := by
  have hend : ∀ kind stop, steps kind stop ⟨[nl], .ok p⟩ = .ok ((kind, stop), ⟨[nl], .ok p⟩) :=
    fun kind stop => by simp [steps_cons, hnl]
  fun_induction steps kind stop s generalizing ts' stop₁ with
  | case2 kind stop q =>
    simp only [Except.ok.injEq, Prod.mk.injEq] at hs
    obtain ⟨⟨rfl, rfl⟩, rfl⟩ := hs
    cases h
    exact ⟨stop₁, [nl], hend kind stop₁, hstop, .nil⟩
  | case4 kind stop t ending hd step ts hstep ih =>
    have hle := Nat.le_trans hb (length_steps_le hs)
    obtain ⟨t', us', rfl, ht, h⟩ := h.exists_cons (Nat.le_succ_of_le hle)
    obtain ⟨step', us', rfl, hstep', h⟩ := h.exists_cons hle
    rw [steps_cons, if_pos ((Token.kind_eq ht).trans hd)]
    simp only [isStep_eq hstep', hstep, if_true]
    exact ih h hs (by simp)
  | case7 kind stop t ts ending hd hbracket stop' rest' hg ih =>
    have hle := Nat.le_trans hb (length_steps_le hs)
    have hlt := Nat.le_of_lt (Nat.lt_of_le_of_lt hle (length_skipGroup_lt hg))
    obtain ⟨t', us', rfl, ht, h⟩ := h.exists_cons hlt
    obtain ⟨stop₂, rest₂, hg', h⟩ := skipGroup_cut h hg hle t'.span.start (.ok p)
    rw [steps_cons, if_neg (Token.kind_eq ht ▸ hd), if_pos ((Token.kind_eq ht).trans hbracket)]
    simp only [hg']
    exact ih h hs (by simp)
  | case9 kind stop t ts ending hd hbracket hparen stop' rest' hg ih =>
    have hle := Nat.le_trans hb (length_steps_le hs)
    have hlt := Nat.le_of_lt (Nat.lt_of_le_of_lt hle (length_skipGroup_lt hg))
    obtain ⟨t', us', rfl, ht, h⟩ := h.exists_cons hlt
    obtain ⟨stop₂, rest₂, hg', h⟩ := skipGroup_cut h hg hle t'.span.start (.ok p)
    have hk := Token.kind_eq ht
    rw [steps_cons, if_neg (hk ▸ hd), if_neg (hk ▸ hbracket),
      if_pos ⟨hk.trans hparen.1, hstop.mpr hparen.2⟩]
    simp only [hg']
    exact ih h hs (by simp)
  | case10 kind stop t ts ending hd hbracket hparen =>
    simp only [Except.ok.injEq, Prod.mk.injEq] at hs
    obtain ⟨⟨rfl, rfl⟩, rfl⟩ := hs
    cases h with
    | nil => exact ⟨stop₁, [nl], hend kind stop₁, hstop, .nil⟩
    | @cons t t' ts ts' ht h =>
      have hk := Token.kind_eq ht
      have hparen' : ¬(t'.kind = .lParen ∧ stop₁ = none) := fun hp =>
        hparen ⟨hk ▸ hp.1, hstop.mp hp.2⟩
      refine ⟨stop₁, t' :: ts', ?_, hstop, .cons ht h⟩
      rw [steps_cons, if_neg (hk ▸ hd), if_neg (hk ▸ hbracket), if_neg hparen']
  | _ => cases hs

/-! ## Line breaks -/

theorem exists_of_dropWhile_cut {u : Token} {us : List Token} (h : Cut nl back ts ts')
    (hd : ts.dropWhile (·.kind == .newline) = u :: us) (hb : back.length ≤ us.length) :
    ∃ u' us', ts'.dropWhile (·.kind == .newline) = u' :: us' ∧ u'.view = u.view ∧
      Cut nl back us us' := by
  induction h with
  | nil =>
    have := (List.dropWhile_suffix (l := back) fun t => t.kind == .newline).length_le
    rw [hd, List.length_cons] at this
    omega
  | @cons t t' ts ts' ht hts ih =>
    have hk := Token.kind_eq ht
    rw [List.dropWhile_cons] at hd ⊢
    rw [hk]
    split at hd
    · rename_i hn
      rw [if_pos hn]
      exact ih hd
    · rename_i hn
      rw [if_neg hn]
      obtain ⟨rfl, rfl⟩ := List.cons.inj hd
      exact ⟨t', ts', rfl, ht, hts⟩

theorem skipNewlines_cut {s : TokenStream} {u : Token} {us : List Token}
    {e : Except LexicalError Position}
    (h : Cut nl back s.tokens ts') (hs : s.skipNewlines = ⟨u :: us, e⟩)
    (hb : back.length ≤ us.length) (ending' : Except LexicalError Position) :
    ∃ u' us', skipNewlines ⟨ts', ending'⟩ = ⟨u' :: us', ending'⟩ ∧ u'.view = u.view ∧
      Cut nl back us us' := by
  obtain ⟨u', us', hd, hu, hcut⟩ := exists_of_dropWhile_cut h (congrArg tokens hs) hb
  exact ⟨u', us', by rw [skipNewlines, hd], hu, hcut⟩

theorem Cut.skipNewlines {s : TokenStream} (h : Cut nl back s.tokens ts')
    (hb : back.length < s.skipNewlines.tokens.length) (ending' : Except LexicalError Position) :
    Cut nl back s.skipNewlines.tokens (TokenStream.skipNewlines ⟨ts', ending'⟩).tokens := by
  cases hd : s.skipNewlines.tokens with
  | nil => simp [hd] at hb
  | cons u us =>
    rw [hd, List.length_cons] at hb
    obtain ⟨u', us', hd', hu, hcut⟩ := exists_of_dropWhile_cut h hd (Nat.le_of_lt_succ hb)
    rw [TokenStream.skipNewlines, hd']
    exact .cons hu hcut

/-! ## Comprehensions -/

theorem comprehensionAhead_cons (t : Token) (ts : List Token)
    (ending : Except LexicalError Position) :
    comprehensionAhead ⟨t :: ts, ending⟩ =
      if t.kind = .newline then comprehensionAhead ⟨ts, ending⟩
      else if t.kind = .ident ∧ t.text = "for" then
        (peek ⟨ts, ending⟩).map fun binder => binder.kind == .ident
      else .ok false := by
  simp only [comprehensionAhead]
  split
  · rename_i hk
    rw [skipNewlines_cons_newline hk]
  · rename_i hk
    rw [skipNewlines_cons_of_ne hk]
    rfl

/-- A bracket that opens no comprehension opens none in front of the line break. -/
theorem comprehensionAhead_cut_false (hnl : nl.kind = .newline) (h : Cut nl back ts ts')
    (hc : comprehensionAhead ⟨ts, ending⟩ = .ok false) (p : Position) :
    comprehensionAhead ⟨ts', .ok p⟩ = .ok false := by
  induction h with
  | nil =>
    rw [comprehensionAhead_cons, if_pos hnl]
    rfl
  | @cons t t' ts ts' ht hts ih =>
    rw [comprehensionAhead_cons] at hc ⊢
    rw [Token.kind_eq ht, Token.text_eq ht]
    split at hc
    · rename_i hk
      rw [if_pos hk]
      exact ih hc
    rename_i hk
    rw [if_neg hk]
    split at hc
    · rename_i hfor
      rw [if_pos hfor]
      cases hts with
      | nil => simp [peek, Except.map, hnl]
      | cons hu _ =>
        simp only [peek_cons, Except.map, Except.ok.injEq] at hc ⊢
        rwa [Token.kind_eq hu]
    · rename_i hfor
      rw [if_neg hfor]

/-- What tells a comprehension stands inside of its brackets. -/
theorem comprehensionAhead_cut_true {depth : Nat} (h : Cut nl back ts ts')
    (hc : comprehensionAhead ⟨ts, ending⟩ = .ok true)
    (hg : skipGroupFrom start ending depth ts = .ok (stop, rest))
    (hb : back.length ≤ rest.tokens.length) (p : Position) :
    comprehensionAhead ⟨ts', .ok p⟩ = .ok true := by
  have hinside : ∀ {t : Token} {ts : List Token}, t.kind = .newline ∨ t.kind = .ident →
      skipGroupFrom start ending depth (t :: ts) = .ok (stop, rest) →
      skipGroupFrom start ending depth ts = .ok (stop, rest) := fun hk hg => by
    rcases hk with hk | hk <;>
      simpa [skipGroupFrom, hk, TokenKind.opensBracket, TokenKind.closesBracket] using hg
  induction h with
  | nil =>
    have := length_skipGroupFrom_lt hg
    omega
  | @cons t t' ts ts' ht hts ih =>
    rw [comprehensionAhead_cons] at hc ⊢
    rw [Token.kind_eq ht, Token.text_eq ht]
    split at hc
    · rename_i hk
      rw [if_pos hk]
      exact ih hc (hinside (.inl hk) hg)
    rename_i hk
    rw [if_neg hk]
    split at hc
    · rename_i hfor
      rw [if_pos hfor]
      have hg := hinside (.inr hfor.1) hg
      cases hts with
      | nil =>
        have := length_skipGroupFrom_lt hg
        omega
      | cons hu _ =>
        simp only [peek_cons, Except.map, Except.ok.injEq] at hc ⊢
        rwa [Token.kind_eq hu]
    · cases hc

/-! ## Operands -/

variable {source : List Char} {first first' : Token} {value : Symbol} {s : TokenStream}

/-- `value'` is an expression of the kind that `value` is. -/
def SameEval (value value' : Symbol) : Prop :=
  ∀ e, value.kind = .eval e → ∃ text, value'.kind = .eval ⟨e.kind, text⟩

theorem sameEval_eval {source source' : List Char} {kind : EvalKind} {name name' : Option String}
    {first stop first' stop' : Span} : SameEval (.eval source kind name first stop)
      (.eval source' kind name' first' stop') := by
  rintro e ⟨rfl⟩
  exact ⟨_, rfl⟩

/-- Up to its end an operand is read from the shorter stream too, if that does not depend on what
comes next. -/
theorem ReadsOperand.cut_of_ne_operator (h : ReadsOperand source first ⟨ts, ending⟩ value rest)
    (hnl : nl.kind = .newline) (hcut : Cut nl back ts ts') (hfirst : first'.view = first.view)
    (hne : first.kind ≠ .operator) (hb : back.length ≤ rest.tokens.length) (source' : List Char)
    (p : Position) :
    ∃ value' rest', ReadsOperand source' first' ⟨ts', .ok p⟩ value' ⟨rest', .ok p⟩ ∧
      SameEval value value' ∧ Cut nl back rest.tokens rest' := by
  have hk := Token.kind_eq hfirst
  have htext := Token.text_eq hfirst
  cases h with
  | literal htype => exact ⟨_, ts', .literal (hk ▸ htype), fun e he => (by cases he), hcut⟩
  | keyword hident hs hkeyword =>
    obtain ⟨stop', rest', hs', hstop, hrest⟩ := steps_cut hnl hcut hs hb Iff.rfl p
    obtain rfl := hstop.mpr rfl
    exact ⟨_, rest', .keyword (hk.trans hident) hs' (htext ▸ hkeyword), fun e he => (by cases he),
      hrest⟩
  | traversal hident hs hnot =>
    obtain ⟨stop', rest', hs', hstop, hrest⟩ := steps_cut hnl hcut hs hb Iff.rfl p
    exact ⟨_, rest', .traversal (hk.trans hident) hs' fun hnone => htext ▸ hnot (hstop.mp hnone),
      sameEval_eval, hrest⟩
  | group hparen hg =>
    obtain ⟨stop', rest', hg', hrest⟩ := skipGroup_cut hcut hg hb first'.span.start (.ok p)
    exact ⟨_, rest', .group (hk.trans hparen) hg', sameEval_eval, hrest⟩
  | operation hop _ _ => exact absurd hop hne

theorem ReadsOperand.cut (h : ReadsOperand source first ⟨ts, ending⟩ value rest)
    (hnl : nl.kind = .newline) (hcut : Cut nl back ts ts') (hfirst : first'.view = first.view)
    (hb : back.length < rest.tokens.length) (source' : List Char) (p : Position) :
    ∃ value' rest', ReadsOperand source' first' ⟨ts', .ok p⟩ value' ⟨rest', .ok p⟩ ∧
      Cut nl back rest.tokens rest' := by
  by_cases hop : first.kind = .operator
  · obtain ⟨hsign, stop, hx, -⟩ := h.exists_expressionEnd hop
    obtain ⟨stop', rest', hx', hrest⟩ :=
      expressionEndFrom_cut hcut hx hb first'.span.start first'.span (.ok p)
    refine ⟨_, rest', .operation ((Token.kind_eq hfirst).trans hop) ?_ hx', hrest⟩
    rwa [Token.text_eq hfirst]
  · obtain ⟨value', rest', h', -, hrest⟩ :=
      h.cut_of_ne_operator hnl hcut hfirst hop (Nat.le_of_lt hb) source' p
    exact ⟨value', rest', h', hrest⟩

theorem comprehension_cut (hcut : Cut nl back ts ts')
    (hv : comprehension source first ⟨ts, ending⟩ = .ok (value, rest))
    (hb : back.length ≤ rest.tokens.length) (source' : List Char) (first' : Token)
    (ending' : Except LexicalError Position) :
    ∃ value' rest', comprehension source' first' ⟨ts', ending'⟩ = .ok (value', ⟨rest', ending'⟩) ∧
      SameEval value value' ∧ Cut nl back rest.tokens rest' := by
  obtain ⟨⟨stop, rest⟩, hg, hr⟩ := exists_of_map_ok hv
  simp only [Prod.mk.injEq] at hr
  obtain ⟨rfl, rfl⟩ := hr
  obtain ⟨stop', rest', hg', hrest⟩ := skipGroup_cut hcut hg hb first'.span.start ending'
  refine ⟨.eval source' .comprehension none first'.span stop', rest', ?_, sameEval_eval, hrest⟩
  rw [comprehension, hg']
  rfl

end TokenStream

end Hcl
