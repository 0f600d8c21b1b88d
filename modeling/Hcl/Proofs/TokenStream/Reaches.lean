import Hcl.Proofs.TokenStream.Cut

/-!
# The last token of an expression

An expression ends with a token; line breaks that belong to it may follow. Where one line break
stands behind that token instead of all that follows, the expression still ends there.
-/

namespace Hcl.TokenStream

variable {nl t : Token} {back ts ts' ns : List Token} {ending : Except LexicalError Position}
  {start : Position} {stop last : Span} {rest : TokenStream}

/-- Of the tokens `ts`, the last one in front of the line breaks `ns` and of `rest` covers `stop`. -/
structure Reaches (ts : List Token) (stop : Span) (ns rest : List Token) : Prop where
  newlines : ∀ n ∈ ns, n.kind = .newline
  exists_last : ∃ front t, ts = front ++ t :: (ns ++ rest) ∧ t.span = stop ∧ t.kind ≠ .newline

theorem Reaches.append (h : Reaches ts stop ns rest.tokens) (front : List Token) :
    Reaches (front ++ ts) stop ns rest.tokens := by
  obtain ⟨hns, more, t, rfl, ht⟩ := h
  exact ⟨hns, front ++ more, t, by rw [List.append_assoc], ht⟩

theorem Reaches.cons (h : Reaches ts stop ns rest.tokens) (t : Token) :
    Reaches (t :: ts) stop ns rest.tokens := h.append [t]

theorem Reaches.here (hk : t.kind ≠ .newline) (ts : List Token) : Reaches (t :: ts) t.span [] ts :=
  ⟨by simp, [], t, rfl, rfl, hk⟩

theorem Reaches.length_le {stop : Span} (h : Reaches (t :: ts) stop ns rest.tokens) :
    (ns ++ rest.tokens).length ≤ ts.length := by
  obtain ⟨-, front, last, hts, -, -⟩ := h
  have hlength := congrArg List.length hts
  simp only [List.length_append, List.length_cons] at hlength ⊢
  omega

/-- There is one last token in front of line breaks. -/
theorem eq_of_append_newlines {as bs ms ns : List Token} {a b : Token}
    (h : as ++ a :: ms = bs ++ b :: ns) (ha : a.kind ≠ .newline) (hb : b.kind ≠ .newline)
    (hms : ∀ m ∈ ms, m.kind = .newline) (hns : ∀ n ∈ ns, n.kind = .newline) :
    as = bs ∧ a = b ∧ ms = ns := by
  rcases List.append_eq_append_iff.mp h with ⟨ws, hbs, hws⟩ | ⟨ws, has, hws⟩
  · cases ws with
    | nil => exact ⟨by simpa using hbs.symm, List.cons.inj hws⟩
    | cons w ws =>
      have hmem : b ∈ ms := by
        rw [(List.cons.inj hws).2]
        simp
      exact absurd (hms b hmem) hb
  · cases ws with
    | nil =>
      obtain ⟨rfl, rfl⟩ := List.cons.inj hws
      exact ⟨by simpa using has, rfl, rfl⟩
    | cons w ws =>
      have hmem : a ∈ ns := by
        rw [(List.cons.inj hws).2]
        simp
      exact absurd (hns a hmem) ha

theorem reaches_of_skipGroupFrom {depth : Nat}
    (h : skipGroupFrom start ending depth ts = .ok (stop, rest)) :
    Reaches ts stop [] rest.tokens := by
  obtain ⟨front, t, hts, ht, hc⟩ := exists_last_of_skipGroupFrom h
  exact ⟨by simp, front, t, hts, ht, fun hk => by simp [hk, TokenKind.closesBracket] at hc⟩

/-- What is around an expression ends or goes on here: with a comma, with a closing bracket, or
because no token is left. -/
def EndsHere (ts : List Token) : Prop :=
  ∀ t ∈ ts.head?, t.kind = .comma ∨ t.kind.closesBracket = true

/-- The next token is a line break. -/
def BreaksHere (ts : List Token) : Prop := ∃ nl more, ts = nl :: more ∧ nl.kind = .newline

/-- Of the tokens `ts`, the last one in front of line breaks and of `rest` covers `last`. If an
operand is missing behind that token, what is around ends with it; or else it is the first of them,
of which nobody knew that an operand is missing, and a line break follows. -/
def Finishes (dangling : Bool) (ts : List Token) (last : Span) (rest : List Token) : Prop :=
  ∃ front u ms, ts = front ++ u :: (ms ++ rest) ∧ u.span = last ∧ u.kind ≠ .newline ∧
    (∀ m ∈ ms, m.kind = .newline) ∧ (leavesDangling u.kind = true →
      EndsHere rest ∨ (front = [] ∧ dangling = false ∧ BreaksHere rest))

theorem finishes_of_expressionEndFrom {depth : Nat} {dangling : Bool} (ns : List Token)
    (hk : t.kind ≠ .newline) (hns : ∀ n ∈ ns, n.kind = .newline)
    (h : expressionEndFrom start ending t.span depth dangling ts = .ok (last, rest)) :
    Finishes dangling (t :: (ns ++ ts)) last rest.tokens := by
  induction ts generalizing t ns depth dangling with
  | nil =>
    simp only [expressionEndFrom] at h
    split at h
    · cases h
    split at h
    · simp only [Except.ok.injEq, Prod.mk.injEq] at h
      obtain ⟨rfl, rfl⟩ := h
      exact ⟨[], t, ns, rfl, rfl, hk, hns, fun _ => .inl (by simp [EndsHere])⟩
    · cases h
  | cons u ts ih =>
    have hend : EndsHere (u :: ts) ∨ (dangling = false ∧ BreaksHere (u :: ts)) →
        (Except.ok (t.span, ⟨u :: ts, ending⟩) : Reading Span) = .ok (last, rest) →
        Finishes dangling (t :: (ns ++ u :: ts)) last rest.tokens := fun hstop h => by
      simp only [Except.ok.injEq, Prod.mk.injEq] at h
      obtain ⟨rfl, rfl⟩ := h
      exact ⟨[], t, ns, rfl, rfl, hk, hns, fun _ => hstop.imp_right fun hstop => ⟨rfl, hstop⟩⟩
    -- behind every token that is read here it is known whether an operand is missing
    have hmore : u.kind ≠ .newline → ∀ {depth : Nat},
        expressionEndFrom start ending u.span depth (leavesDangling u.kind) ts = .ok (last, rest) →
        Finishes dangling (t :: (ns ++ u :: ts)) last rest.tokens := fun hu _ h => by
      obtain ⟨front, v, ms, hts, hv, hvk, hms, hstop⟩ := ih [] hu (by simp) h
      refine ⟨t :: (ns ++ front), v, ms, by simpa using hts, hv, hvk, hms, fun hd => .inl ?_⟩
      refine (hstop hd).resolve_right ?_
      rintro ⟨rfl, hfalse, -⟩
      obtain ⟨rfl, -⟩ := List.cons.inj hts
      rw [hd] at hfalse
      cases hfalse
    simp only [expressionEndFrom] at h
    split at h
    · rename_i hu
      split at h
      · rename_i hstop
        exact hend (.inr ⟨hstop.2, u, ts, rfl, hu⟩) h
      · have hns' : ∀ n ∈ ns ++ [u], n.kind = .newline := fun n hn =>
          (List.mem_append.mp hn).elim (hns n) fun hn => List.mem_singleton.mp hn ▸ hu
        simpa using ih (ns ++ [u]) hk hns' h
    rename_i hu
    split at h
    · rename_i hc
      have hd : leavesDangling u.kind = false := by
        revert hc
        cases u.kind <;> simp [TokenKind.closesBracket, leavesDangling]
      split at h
      · exact hend (.inl (by simp [EndsHere, hc])) h
      · exact hmore hu (hd.symm ▸ h)
    split at h
    · rename_i hcomma
      exact hend (.inl (by simp [EndsHere, hcomma.1])) h
    · exact hmore hu h

theorem exists_reaches_of_expressionEndFrom {depth : Nat} {dangling : Bool} (ns : List Token)
    (hk : t.kind ≠ .newline) (hns : ∀ n ∈ ns, n.kind = .newline)
    (h : expressionEndFrom start ending t.span depth dangling ts = .ok (last, rest)) :
    ∃ ms, Reaches (t :: (ns ++ ts)) last ms rest.tokens := by
  obtain ⟨front, u, ms, hts, hu, huk, hms, -⟩ := finishes_of_expressionEndFrom ns hk hns h
  exact ⟨ms, hms, front, u, hts, hu, huk⟩

theorem exists_reaches_of_steps {s : TokenStream} {kind : EvalKind} {stop : Option Span}
    {r : EvalKind × Option Span} (h : steps kind stop s = .ok (r, rest)) :
    (r.2 = stop ∧ rest = s) ∨ ∃ last, r.2 = some last ∧ Reaches s.tokens last [] rest.tokens := by
  have hgroup : ∀ {start : Position} {t : Token} {ts : List Token}
      {ending : Except LexicalError Position} {stop' : Span} {rest' : TokenStream},
      skipGroup start ⟨ts, ending⟩ = .ok (stop', rest') →
      ((r.2 = some stop' ∧ rest = rest') ∨
        ∃ last, r.2 = some last ∧ Reaches rest'.tokens last [] rest.tokens) →
      ∀ stop, (r.2 = stop ∧ rest = ⟨t :: ts, ending⟩) ∨
        ∃ last, r.2 = some last ∧ Reaches (t :: ts) last [] rest.tokens := fun hg h stop => by
    rcases h with ⟨hlast, rfl⟩ | ⟨last, hlast, hreaches⟩
    · exact .inr ⟨_, hlast, (reaches_of_skipGroupFrom hg).cons _⟩
    · obtain ⟨front, hfront⟩ := (suffix_of_skipGroup hg).tokens
      exact .inr ⟨last, hlast, (hfront ▸ hreaches.append front).cons _⟩
  fun_induction steps kind stop s with
  | case4 kind stop t ending hd step ts hstep ih =>
    have hk : step.kind ≠ .newline := fun hk => by
      simp [isStep, Token.isOperator, hk] at hstep
    rcases ih h with ⟨hlast, rfl⟩ | ⟨last, hlast, hreaches⟩
    · exact .inr ⟨step.span, hlast, (Reaches.here hk ts).cons t⟩
    · exact .inr ⟨last, hlast, (hreaches.cons step).cons t⟩
  | case7 kind stop t ts ending hd hb stop' rest' hg ih => exact hgroup hg (ih h) stop
  | case9 kind stop t ts ending hd hb hp stop' rest' hg ih => exact hgroup hg (ih h) stop
  | case2 | case10 =>
    simp only [Except.ok.injEq, Prod.mk.injEq] at h
    obtain ⟨rfl, rfl⟩ := h
    exact .inl ⟨rfl, rfl⟩
  | _ => cases h

/-- An operator or `?` is taken into the expression. -/
theorem expressionEndFrom_operator {start : Position} {stop : Span} {dangling : Bool}
    (hk : t.kind = .operator ∨ t.kind = .question) :
    expressionEndFrom start ending stop 0 dangling (t :: ts) =
      expressionEndFrom start ending t.span 0 true ts := by
  rcases hk with hk | hk <;>
    simp [expressionEndFrom, hk, TokenKind.closesBracket, TokenKind.opensBracket, leavesDangling]

theorem exists_reaches_of_operation {first stop : Span}
    (hk : t.kind = .operator ∨ t.kind = .question)
    (h : expressionEnd first ⟨t :: ts, ending⟩ = .ok (stop, rest)) :
    ∃ ns, Reaches (t :: ts) stop ns rest.tokens := by
  rw [expressionEnd, expressionEndFrom_operator hk] at h
  exact exists_reaches_of_expressionEndFrom [] (by rcases hk with hk | hk <;> simp [hk]) (by simp) h

/-! ## A line break behind the last token -/

/-- An expression that ends takes no bracket that it has not opened. -/
theorem depth_of_expressionEndFrom {depth : Nat} {dangling : Bool} {ns : List Token}
    (hns : ∀ n ∈ ns, n.kind = .newline)
    (he : expressionEndFrom start ending stop depth dangling (ns ++ rest.tokens) =
      .ok (last, rest)) : depth = 0 := by
  induction ns generalizing dangling with
  | nil =>
    cases hts : rest.tokens with
    | nil =>
      simp only [hts, List.nil_append, expressionEndFrom] at he
      split at he
      · cases he
      split at he
      · assumption
      · cases he
    | cons t ts =>
      -- behind a token that is read there is less than what is left
      have hread : ∀ {stop : Span} {depth : Nat} {dangling : Bool},
          expressionEndFrom start ending stop depth dangling ts ≠ .ok (last, rest) := fun he => by
        have := length_expressionEndFrom_le he
        rw [hts, List.length_cons] at this
        omega
      simp only [hts, List.nil_append, expressionEndFrom] at he
      split at he
      · split at he
        · rename_i hstop
          exact hstop.1
        · exact absurd he hread
      split at he
      · split at he
        · rfl
        · exact absurd he hread
      split at he
      · rename_i hcomma
        exact hcomma.2
      · exact absurd he hread
  | cons n ns ih =>
    simp only [List.cons_append, expressionEndFrom, hns n List.mem_cons_self, if_true] at he
    split at he
    · rename_i hstop
      exact hstop.1
    · exact ih (fun n hn => hns n (List.mem_cons_of_mem _ hn)) he

/-- An expression that ends at `back`, or behind the line breaks that `back` begins with. -/
theorem expressionEndFrom_cut_end {depth : Nat} {dangling : Bool} {ns : List Token}
    (hnl : nl.kind = .newline) (hns : ∀ n ∈ ns, n.kind = .newline)
    (h : Cut nl (ns ++ rest.tokens) ts ts')
    (he : expressionEndFrom start ending stop depth dangling ts = .ok (last, rest))
    (start' : Position) (stop' : Span) (p : Position) :
    ∃ last' rest', expressionEndFrom start' (.ok p) stop' depth dangling ts' =
        .ok (last', ⟨rest', .ok p⟩) ∧ (rest' = [nl] ∨ rest' = []) := by
  induction h generalizing stop stop' depth dangling with
  | nil =>
    obtain rfl := depth_of_expressionEndFrom hns he
    simp only [expressionEndFrom, hnl, if_true]
    cases dangling with
    | false => exact ⟨_, _, rfl, .inl rfl⟩
    | true => exact ⟨_, _, rfl, .inr rfl⟩
  | @cons t t' ts ts' ht hts ih =>
    have hk := Token.kind_eq ht
    -- the end is not in front of a token that is kept
    have hend : (Except.ok (stop, ⟨t :: ts, ending⟩) : Reading Span) ≠ .ok (last, rest) := by
      simp only [ne_eq, Except.ok.injEq, Prod.mk.injEq, not_and]
      rintro - rfl
      have := hts.length_le
      simp only [List.length_append, List.length_cons] at this
      omega
    simp only [expressionEndFrom, hk] at he ⊢
    split at he
    · rename_i hn
      rw [if_pos hn]
      split at he
      · exact absurd he hend
      · rename_i hstop
        rw [if_neg hstop]
        exact ih he _
    rename_i hn
    rw [if_neg hn]
    split at he
    · rename_i hc
      rw [if_pos hc]
      split at he
      · exact absurd he hend
      · exact ih he _
    rename_i hc
    rw [if_neg hc]
    split at he
    · exact absurd he hend
    · rename_i hcomma
      rw [if_neg hcomma]
      exact ih he _

/-! ## Operands -/

variable {source : List Char} {first first' : Token} {value : Symbol} {s : TokenStream} {e : Eval}

theorem ReadsOperand.exists_reaches (h : ReadsOperand source first s value rest)
    (he : value.kind = .eval e) :
    ∃ kind name stop ns, value = .eval source kind name first.span stop ∧
      Reaches (first :: s.tokens) stop ns rest.tokens ∧ (first.kind ≠ .operator → ns = []) := by
  cases h with
  | literal _ => cases he
  | keyword _ _ _ => cases he
  | traversal hk hs hnot =>
    refine ⟨_, _, _, [], rfl, ?_, fun _ => rfl⟩
    rcases exists_reaches_of_steps hs with ⟨rfl, rfl⟩ | ⟨last, rfl, hreaches⟩
    · exact .here (by simp [hk]) _
    · exact hreaches.cons first
  | group hk hg => exact ⟨_, _, _, [], rfl, (reaches_of_skipGroupFrom hg).cons first, fun _ => rfl⟩
  | operation hk _ hx =>
    obtain ⟨ns, hreaches⟩ := exists_reaches_of_expressionEndFrom [] (by simp [hk]) (by simp) hx
    exact ⟨_, _, _, ns, rfl, hreaches, fun hne => absurd hk hne⟩

theorem exists_reaches_of_comprehension (h : s.comprehension source first = .ok (value, rest)) :
    ∃ stop, value = .eval source .comprehension none first.span stop ∧
      Reaches (first :: s.tokens) stop [] rest.tokens := by
  obtain ⟨⟨stop, rest'⟩, hg, hr⟩ := exists_of_map_ok h
  simp only [Prod.mk.injEq] at hr
  obtain ⟨rfl, rfl⟩ := hr
  exact ⟨stop, rfl, (reaches_of_skipGroupFrom hg).cons first⟩

/-- An operand that ends where the line break stands. -/
theorem ReadsOperand.cut_end (h : ReadsOperand source first ⟨ts, ending⟩ value rest)
    (hnl : nl.kind = .newline) (hns : ∀ n ∈ ns, n.kind = .newline)
    (hcut : Cut nl (ns ++ rest.tokens) ts ts') (hop : first.kind ≠ .operator → ns = [])
    (hfirst : first'.view = first.view) (source' : List Char) (p : Position) :
    ∃ value' rest', ReadsOperand source' first' ⟨ts', .ok p⟩ value' ⟨rest', .ok p⟩ ∧
      SameEval value value' ∧ (rest' = [nl] ∨ rest' = []) := by
  by_cases hk : first.kind = .operator
  · obtain ⟨hsign, stop, hx, rfl⟩ := h.exists_expressionEnd hk
    obtain ⟨stop', rest', hx', hrest⟩ :=
      expressionEndFrom_cut_end hnl hns hcut hx first'.span.start first'.span p
    refine ⟨_, rest', .operation ((Token.kind_eq hfirst).trans hk) ?_ hx', sameEval_eval, hrest⟩
    rwa [Token.text_eq hfirst]
  · obtain rfl := hop hk
    obtain ⟨value', rest', h', hsame, hrest⟩ :=
      h.cut_of_ne_operator hnl hcut hfirst hk (Nat.le_refl _) source' p
    exact ⟨value', rest', h', hsame, .inl hrest.eq_nl⟩

end Hcl.TokenStream
