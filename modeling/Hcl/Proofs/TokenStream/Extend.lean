import Hcl.Proofs.TokenStream.Located
import Hcl.Proofs.TokenStream.Suffix
import Hcl.Proofs.TokenStream.Unfold

/-!
# More tokens behind the last line

A reader that leaves a token has not seen the end, so it reads the same when other tokens follow.
Tokens that end with a line break, and not behind an operator, leave no reader waiting for more: at
least the line break is left.
-/

namespace Hcl

variable {source : List Char}

/-! ## Texts -/

theorem dropBytes?_append_right {n : Nat} {cs rest : List Char} (h : dropBytes? n cs = some rest)
    (more : List Char) : dropBytes? n (cs ++ more) = some (rest ++ more) := by
  fun_induction dropBytes? n cs with
  | case1 cs =>
    simp only [Option.some.injEq] at h
    cases cs <;> simp [dropBytes?, ← h]
  | case2 => cases h
  | case3 n c cs hle ih => simpa [dropBytes?, hle] using ih h
  | case4 => cases h

theorem takeBytes?_append_right {n : Nat} {cs front : List Char} (h : takeBytes? n cs = some front)
    (more : List Char) : takeBytes? n (cs ++ more) = some front := by
  fun_induction takeBytes? n cs generalizing front with
  | case1 cs =>
    cases cs <;> simpa [takeBytes?] using h
  | case2 => cases h
  | case3 n c cs hle ih =>
    obtain ⟨front', hfront, rfl⟩ := Option.map_eq_some_iff.mp h
    simp [takeBytes?, hle, ih hfront]
  | case4 => cases h

/-- The text of a span is the same when more follows. -/
theorem Span.slice?_append_right {s : Span} {text : String} (h : s.slice? source = some text)
    (more : List Char) : s.slice? (source ++ more) = some text := by
  obtain ⟨rest, hdrop, htake⟩ := Option.bind_eq_some_iff.mp h
  obtain ⟨front, hfront, rfl⟩ := Option.map_eq_some_iff.mp htake
  rw [slice?, dropBytes?_append_right hdrop, Option.bind_some, takeBytes?_append_right hfront]
  rfl

theorem Symbol.eval_append {kind : EvalKind} {name : Option String} {first stop : Span}
    (h : (eval source kind name first stop).Quotes source) (more : List Char) :
    eval (source ++ more) kind name first stop = eval source kind name first stop := by
  obtain ⟨text, htext⟩ : ∃ text, (first.upTo stop).slice? source = some text := ⟨_, h.1 _ rfl⟩
  simp only [eval, htext, Span.slice?_append_right htext]

/-- `value'` is read where `value` was, in a longer source. It is the same if it has the text that
it covers. -/
def Symbol.Extended (source : List Char) (value value' : Symbol) : Prop :=
  value'.span = value.span ∧ (value.Quotes source → value' = value)

theorem Symbol.extended_eval (source text : List Char) (kind : EvalKind) (name : Option String)
    (first stop : Span) :
    Extended source (eval source kind name first stop)
      (eval (source ++ text) kind name first stop) :=
  ⟨rfl, fun hq => eval_append hq text⟩

namespace TokenStream

/-! ## Settled tokens -/

/-- The tokens end with a line break, and no operand is missing in front of it. -/
structure Settled (ts : List Token) : Prop where
  newline : ∀ t ∈ ts.getLast?, t.kind = .newline
  operand : ∀ t ∈ (ts.filter (·.kind ≠ .newline)).getLast?, leavesDangling t.kind = false

variable {s rest more : TokenStream} {t : Token} {as ts : List Token}
  {ending : Except LexicalError Position} {stop last : Span}

namespace Settled

theorem of_append (h : Settled (as ++ ts)) : Settled ts where
  newline t ht := h.newline t (by rw [List.getLast?_append, ht, Option.some_or]; rfl)
  operand t ht :=
    h.operand t (by rw [List.filter_append, List.getLast?_append, ht, Option.some_or]; rfl)

theorem of_suffix (h : Settled as) (hs : ts <:+ as) : Settled ts := by
  obtain ⟨front, rfl⟩ := hs
  exact h.of_append

theorem tail (h : Settled (t :: ts)) : Settled ts := h.of_suffix (List.suffix_cons t ts)

/-- A line break follows. -/
theorem ne_nil (h : Settled (t :: ts)) (hk : t.kind ≠ .newline) : ts ≠ [] := by
  rintro rfl
  exact hk (h.newline t rfl)

/-- An operand follows. -/
theorem exists_operand (h : Settled (t :: ts)) (hk : t.kind ≠ .newline)
    (hd : leavesDangling t.kind = true) : ∃ u ∈ ts, u.kind ≠ .newline := by
  by_cases hfilter : ts.filter (·.kind ≠ .newline) = []
  · have hlast := h.operand t (by
      rw [List.filter_cons_of_pos (by simpa using hk), hfilter]
      rfl)
    exact absurd (hlast.symm.trans hd) Bool.false_ne_true
  · obtain ⟨u, hu⟩ := List.exists_mem_of_ne_nil _ hfilter
    exact ⟨u, by simpa using hu⟩

end Settled

/-! ## Longer streams -/

/-- The stream when `more` follows. What follows must be reached, so this is said of streams that
have an end. -/
def extend (s more : TokenStream) : TokenStream := ⟨s.tokens ++ more.tokens, more.ending⟩

@[simp] theorem extend_cons (t : Token) (ts : List Token)
    (ending : Except LexicalError Position) (more : TokenStream) :
    extend ⟨t :: ts, ending⟩ more = ⟨t :: (ts ++ more.tokens), more.ending⟩ := rfl

theorem peek_extend (more : TokenStream) (h : s.tokens ≠ []) : (s.extend more).peek = s.peek := by
  obtain ⟨tokens, ending⟩ := s
  cases tokens with
  | nil => exact absurd rfl h
  | cons t ts => rfl

theorem tail_extend (more : TokenStream) (h : s.tokens ≠ []) :
    (s.extend more).tail = s.tail.extend more := by
  obtain ⟨tokens, ending⟩ := s
  cases tokens with
  | nil => exact absurd rfl h
  | cons t ts => rfl

theorem skipNewlines_extend (more : TokenStream) (h : s.skipNewlines.tokens ≠ []) :
    (s.extend more).skipNewlines = s.skipNewlines.extend more := by
  have hempty : (s.tokens.dropWhile (·.kind == .newline)).isEmpty = false :=
    List.isEmpty_eq_false_iff.mpr h
  simp [skipNewlines, extend, List.dropWhile_append, hempty]

/-- Line breaks in front of what follows are skipped with it. -/
theorem skipNewlines_extend_of_eq_nil (more : TokenStream) (h : s.skipNewlines.tokens = []) :
    (s.extend more).skipNewlines = more.skipNewlines := by
  have hdrop : s.tokens.dropWhile (fun t => t.kind == .newline) = [] := h
  rw [skipNewlines, extend, List.dropWhile_append, hdrop]
  rfl

/-! ## Groups and operations -/

theorem skipGroupFrom_extend {start : Position} {depth : Nat}
    (h : skipGroupFrom start ending depth ts = .ok (stop, rest)) (more : TokenStream) :
    skipGroupFrom start more.ending depth (ts ++ more.tokens) = .ok (stop, rest.extend more) := by
  induction ts generalizing depth with
  | nil =>
    simp only [skipGroupFrom] at h
    split at h <;> cases h
  | cons t ts ih =>
    simp only [List.cons_append, skipGroupFrom] at h ⊢
    split at h
    · rename_i hk
      rw [if_pos hk]
      exact ih h
    rename_i hk
    rw [if_neg hk]
    split at h
    · rename_i hc
      rw [if_pos hc]
      split at h
      · simp only [Except.ok.injEq, Prod.mk.injEq] at h
        obtain ⟨rfl, rfl⟩ := h
        rfl
      · exact ih h
    · rename_i hc
      rw [if_neg hc]
      exact ih h

theorem skipGroup_extend {start : Position} (h : s.skipGroup start = .ok (stop, rest))
    (more : TokenStream) : (s.extend more).skipGroup start = .ok (stop, rest.extend more) :=
  skipGroupFrom_extend h more

theorem exists_closing_of_skipGroupFrom {start : Position} {depth : Nat}
    (h : skipGroupFrom start ending depth ts = .ok (stop, rest)) :
    ∃ front t, ts = front ++ t :: rest.tokens ∧ t.kind.closesBracket = true := by
  obtain ⟨front, t, hts, -, hc⟩ := exists_last_of_skipGroupFrom h
  exact ⟨front, t, hts, hc⟩

theorem Settled.ne_nil_of_skipGroup {start : Position} (hs : Settled s.tokens)
    (h : s.skipGroup start = .ok (stop, rest)) : rest.tokens ≠ [] := by
  obtain ⟨front, t, hts, hc⟩ := exists_closing_of_skipGroupFrom h
  rw [hts] at hs
  refine hs.of_append.ne_nil fun hk => ?_
  rw [hk] at hc
  cases hc

theorem Settled.ne_nil_of_expressionEndFrom {start : Position} {depth : Nat} {dangling : Bool}
    (hs : Settled ts) (hne : ts ≠ []) (hd : dangling = true → ∃ u ∈ ts, u.kind ≠ .newline)
    (h : expressionEndFrom start ending stop depth dangling ts = .ok (last, rest)) :
    rest.tokens ≠ [] := by
  induction ts generalizing stop depth dangling with
  | nil => exact absurd rfl hne
  | cons t ts ih =>
    have hend : (Except.ok (stop, ⟨t :: ts, ending⟩) : Reading Span) = .ok (last, rest) →
        rest.tokens ≠ [] := fun h => by
      simp only [Except.ok.injEq, Prod.mk.injEq] at h
      obtain ⟨-, rfl⟩ := h
      exact List.cons_ne_nil t ts
    simp only [expressionEndFrom] at h
    split at h
    · rename_i hk
      split at h
      · exact hend h
      · rename_i hstop
        have hd' : dangling = true → ∃ u ∈ ts, u.kind ≠ .newline := fun hdangling => by
          obtain ⟨u, hu, hoperand⟩ := hd hdangling
          rcases List.mem_cons.mp hu with rfl | hmem
          · exact absurd hk hoperand
          · exact ⟨u, hmem, hoperand⟩
        refine ih hs.tail ?_ hd' h
        -- at the end the expression would have stopped in front of this line break
        rintro rfl
        simp only [expressionEndFrom] at h
        split at h
        · cases h
        split at h
        · rename_i hdepth
          obtain ⟨u, hu, -⟩ := hd' (by simpa [hdepth] using hstop)
          cases hu
        · cases h
    rename_i hk
    have hne := hs.ne_nil hk
    split at h
    · split at h
      · exact hend h
      · exact ih hs.tail hne (fun hdangling => by cases hdangling) h
    split at h
    · exact hend h
    · exact ih hs.tail hne (hs.exists_operand hk) h

theorem Settled.ne_nil_of_expressionEnd (hs : Settled s.tokens) (hne : s.tokens ≠ [])
    (h : s.expressionEnd stop = .ok (last, rest)) : rest.tokens ≠ [] :=
  hs.ne_nil_of_expressionEndFrom hne (fun h => absurd h Bool.false_ne_true) h

theorem expressionEndFrom_extend {start : Position} {depth : Nat} {dangling : Bool}
    (hrest : rest.tokens ≠ [])
    (h : expressionEndFrom start ending stop depth dangling ts = .ok (last, rest))
    (more : TokenStream) :
    expressionEndFrom start more.ending stop depth dangling (ts ++ more.tokens) =
      .ok (last, rest.extend more) := by
  induction ts generalizing stop depth dangling with
  | nil =>
    simp only [expressionEndFrom] at h
    split at h
    · cases h
    split at h
    · simp only [Except.ok.injEq, Prod.mk.injEq] at h
      exact absurd (h.2 ▸ rfl) hrest
    · cases h
  | cons t ts ih =>
    have hend : (Except.ok (stop, ⟨t :: ts, ending⟩) : Reading Span) = .ok (last, rest) →
        (Except.ok (stop, ⟨t :: (ts ++ more.tokens), more.ending⟩) : Reading Span) =
          .ok (last, rest.extend more) := fun h => by
      simp only [Except.ok.injEq, Prod.mk.injEq] at h
      obtain ⟨rfl, rfl⟩ := h
      rfl
    simp only [List.cons_append, expressionEndFrom] at h ⊢
    split at h
    · rename_i hk
      rw [if_pos hk]
      split at h
      · rename_i hstop
        rw [if_pos hstop]
        exact hend h
      · rename_i hstop
        rw [if_neg hstop]
        exact ih h
    rename_i hk
    rw [if_neg hk]
    split at h
    · rename_i hc
      rw [if_pos hc]
      split at h
      · exact hend h
      · exact ih h
    rename_i hc
    rw [if_neg hc]
    split at h
    · rename_i hcomma
      rw [if_pos hcomma]
      exact hend h
    · rename_i hcomma
      rw [if_neg hcomma]
      exact ih h

theorem expressionEnd_extend (hrest : rest.tokens ≠ [])
    (h : s.expressionEnd stop = .ok (last, rest)) (more : TokenStream) :
    (s.extend more).expressionEnd stop = .ok (last, rest.extend more) :=
  expressionEndFrom_extend hrest h more

/-! ## Values -/

/-- The bracket that was just read is closed, and what stands behind it is seen in front of that. -/
theorem comprehensionAhead_extend (h : ∃ u ∈ s.tokens, u.kind.closesBracket = true)
    (more : TokenStream) : (s.extend more).comprehensionAhead = s.comprehensionAhead := by
  obtain ⟨u, hu, hc⟩ := h
  have hmem : u ∈ s.skipNewlines.tokens := by
    rw [← List.takeWhile_append_dropWhile (p := (·.kind == .newline)) (l := s.tokens)] at hu
    refine (List.mem_append.mp hu).resolve_left fun hu => ?_
    have hall := List.all_eq_true.mp List.all_takeWhile u hu
    rw [beq_iff_eq.mp hall] at hc
    cases hc
  have hne : s.skipNewlines.tokens ≠ [] := List.ne_nil_of_mem hmem
  rw [comprehensionAhead, skipNewlines_extend more hne, comprehensionAhead,
    peek_extend more hne, tail_extend more hne]
  obtain ⟨keyword, ts, hts⟩ := List.exists_cons_of_ne_nil hne
  have hpeek : s.skipNewlines.peek = .ok keyword := by simp [peek, hts]
  rw [hpeek]
  simp only [Except.bind]
  split
  · rename_i hfor
    have htail : s.skipNewlines.tail.tokens ≠ [] := by
      rw [hts] at hmem
      rcases List.mem_cons.mp hmem with rfl | hmem
      · rw [hfor.1] at hc
        cases hc
      · rw [tail, hts]
        exact List.ne_nil_of_mem hmem
    rw [peek_extend more htail]
  · rfl

theorem isStep_newline (hk : t.kind = .newline) : isStep t = false := by
  simp [isStep, Token.isOperator, hk]

theorem Settled.ne_nil_of_steps {kind : EvalKind} {stop : Option Span} {r : EvalKind × Option Span}
    (hs : Settled s.tokens) (hne : s.tokens ≠ []) (h : s.steps kind stop = .ok (r, rest)) :
    rest.tokens ≠ [] := by
  fun_induction steps kind stop s with
  | case2 => exact absurd rfl hne
  | case4 kind stop t ending hd step ts hstep ih =>
    have hts : ts ≠ [] := hs.tail.ne_nil fun hk => by
      rw [isStep_newline hk] at hstep
      cases hstep
    exact ih hs.tail.tail hts h
  | case7 kind stop t ts ending hd hb stop' rest' hg ih =>
    exact ih (hs.tail.of_suffix (suffix_of_skipGroup hg).tokens) (hs.tail.ne_nil_of_skipGroup hg) h
  | case9 kind stop t ts ending hd hb hp stop' rest' hg ih =>
    exact ih (hs.tail.of_suffix (suffix_of_skipGroup hg).tokens) (hs.tail.ne_nil_of_skipGroup hg) h
  | case10 kind stop t ts ending hd hb hp =>
    simp only [Except.ok.injEq, Prod.mk.injEq] at h
    obtain ⟨-, rfl⟩ := h
    exact List.cons_ne_nil t ts
  | _ => cases h

theorem steps_extend {kind : EvalKind} {stop : Option Span} {r : EvalKind × Option Span}
    (hrest : rest.tokens ≠ []) (h : s.steps kind stop = .ok (r, rest)) (more : TokenStream) :
    (s.extend more).steps kind stop = .ok (r, rest.extend more) := by
  fun_induction steps kind stop s with
  | case2 =>
    simp only [Except.ok.injEq, Prod.mk.injEq] at h
    exact absurd (h.2 ▸ rfl) hrest
  | case4 kind stop t ending hd step ts hstep ih =>
    rw [extend_cons, List.cons_append, steps_cons, if_pos hd]
    simp only [hstep, if_true]
    exact ih h
  | case7 kind stop t ts ending hd hb stop' rest' hg ih =>
    have hg' := skipGroup_extend hg more
    rw [extend_cons, steps_cons, if_neg hd, if_pos hb]
    rw [extend] at hg'
    simp only [hg', ih h]
  | case9 kind stop t ts ending hd hb hp stop' rest' hg ih =>
    have hg' := skipGroup_extend hg more
    rw [extend_cons, steps_cons, if_neg hd, if_neg hb, if_pos hp]
    rw [extend] at hg'
    simp only [hg', ih h]
  | case10 kind stop t ts ending hd hb hp =>
    simp only [Except.ok.injEq, Prod.mk.injEq] at h
    obtain ⟨rfl, rfl⟩ := h
    rw [extend_cons, steps_cons, if_neg hd, if_neg hb, if_neg hp]
  | _ => cases h

theorem Settled.ne_nil_of_operand {first : Token} {value : Symbol} (hs : Settled s.tokens)
    (hne : s.tokens ≠ []) (h : ReadsOperand source first s value rest) : rest.tokens ≠ [] := by
  cases h with
  | literal => exact hne
  | keyword _ hsteps _ => exact hs.ne_nil_of_steps hne hsteps
  | traversal _ hsteps _ => exact hs.ne_nil_of_steps hne hsteps
  | group _ hg => exact hs.ne_nil_of_skipGroup hg
  | operation _ _ hx => exact hs.ne_nil_of_expressionEnd hne hx

theorem ReadsOperand.extend {first : Token} {value : Symbol}
    (h : ReadsOperand source first s value rest) (hrest : rest.tokens ≠ []) (text : List Char)
    (more : TokenStream) :
    ∃ value', ReadsOperand (source ++ text) first (s.extend more) value' (rest.extend more) ∧
      value.Extended source value' := by
  cases h with
  | literal hk => exact ⟨_, .literal hk, rfl, fun _ => rfl⟩
  | keyword hk hsteps hkeyword =>
    exact ⟨_, .keyword hk (steps_extend hrest hsteps more) hkeyword, rfl, fun _ => rfl⟩
  | traversal hk hsteps hnot =>
    exact ⟨_, .traversal hk (steps_extend hrest hsteps more) hnot, Symbol.extended_eval ..⟩
  | group hk hg => exact ⟨_, .group hk (skipGroup_extend hg more), Symbol.extended_eval ..⟩
  | operation hk hsign hx =>
    exact ⟨_, .operation hk hsign (expressionEnd_extend hrest hx more), Symbol.extended_eval ..⟩

/-- A comprehension ends with its closing bracket. -/
theorem exists_closing_of_comprehension {first : Token} {value : Symbol}
    (h : s.comprehension source first = .ok (value, rest)) :
    ∃ front t, s.tokens = front ++ t :: rest.tokens ∧ t.kind.closesBracket = true := by
  obtain ⟨⟨stop, rest'⟩, hg, hr⟩ := exists_of_map_ok h
  obtain rfl : rest' = rest := (Prod.mk.inj hr).2
  exact exists_closing_of_skipGroupFrom hg

theorem closes_of_comprehension {first : Token} {value : Symbol}
    (h : s.comprehension source first = .ok (value, rest)) :
    ∃ u ∈ s.tokens, u.kind.closesBracket = true := by
  obtain ⟨front, u, hts, hu⟩ := exists_closing_of_comprehension h
  exact ⟨u, by rw [hts]; exact List.mem_append_right _ List.mem_cons_self, hu⟩

theorem Settled.ne_nil_of_comprehension {first : Token} {value : Symbol} (hs : Settled s.tokens)
    (h : s.comprehension source first = .ok (value, rest)) : rest.tokens ≠ [] := by
  obtain ⟨⟨stop, rest'⟩, hg, hr⟩ := exists_of_map_ok h
  obtain rfl : rest' = rest := (Prod.mk.inj hr).2
  exact hs.ne_nil_of_skipGroup hg

theorem comprehension_extend {first : Token} {value : Symbol}
    (h : s.comprehension source first = .ok (value, rest)) (text : List Char)
    (more : TokenStream) :
    ∃ value', (s.extend more).comprehension (source ++ text) first =
        .ok (value', rest.extend more) ∧ value.Extended source value' := by
  obtain ⟨⟨stop, rest'⟩, hg, hr⟩ := exists_of_map_ok h
  simp only [Prod.mk.injEq] at hr
  obtain ⟨rfl, rfl⟩ := hr
  rw [comprehension, skipGroup_extend hg]
  exact ⟨_, rfl, Symbol.extended_eval ..⟩

/-! ## Blocks -/

theorem labelsFrom_extend {read names : List String}
    (h : labelsFrom ending read ts = .ok (names, rest)) (more : TokenStream) :
    labelsFrom more.ending read (ts ++ more.tokens) = .ok (names, rest.extend more) := by
  induction ts generalizing read with
  | nil =>
    simp only [labelsFrom] at h
    split at h <;> cases h
  | cons t ts ih =>
    simp only [List.cons_append, labelsFrom] at h ⊢
    split at h
    · rename_i hname
      rw [if_pos hname]
      exact ih h
    rename_i hname
    rw [if_neg hname]
    split at h
    · rename_i hbrace
      simp only [Except.ok.injEq, Prod.mk.injEq] at h
      obtain ⟨rfl, rfl⟩ := h
      rw [if_pos hbrace]
      rfl
    · cases h

theorem labels_extend {name : String} {names : List String}
    (h : s.labels name = .ok (names, rest)) (more : TokenStream) :
    (s.extend more).labels name = .ok (names, rest.extend more) :=
  labelsFrom_extend h more

end TokenStream

end Hcl
