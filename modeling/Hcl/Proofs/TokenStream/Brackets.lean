import Hcl.Proofs.TokenStream.Suffix

/-!
# Nested brackets

Brackets are nested if every closing one pairs with the innermost one that is open, and none stays
open. They are matched if the two of a pair are of one kind, and balanced if any two may pair. A
reader that counts brackets takes balanced ones.
-/

namespace Hcl

namespace TokenKind

/-- Whether a bracket of the kind `close` is the counterpart of the first one. -/
def closedBy (opening close : TokenKind) : Bool :=
  match opening, close with
  | lBrace, rBrace | lBracket, rBracket | lParen, rParen => true
  | _, _ => false

def isBracket (kind : TokenKind) : Bool := kind.opensBracket || kind.closesBracket

theorem isBracket_of_literalType? {kind : TokenKind} {type : LiteralType}
    (h : kind.literalType? = some type) : kind.isBracket = false := by
  cases kind <;> first | rfl | cases h

theorem opensBracket_of_closes {kind : TokenKind} (h : kind.closesBracket = true) :
    kind.opensBracket = false := by
  cases kind <;> first | rfl | cases h

theorem opens_of_closedBy {opening close : TokenKind} (h : opening.closedBy close = true) :
    opening.opensBracket = true := by
  cases opening <;> first | rfl | cases h

theorem closes_of_closedBy {opening close : TokenKind} (h : opening.closedBy close = true) :
    close.closesBracket = true := by
  cases opening <;> cases close <;> first | rfl | cases h

end TokenKind

variable {pairs : TokenKind → TokenKind → Bool}

/-- The kinds of the open brackets behind the token, innermost first, if those in front of it are
`stack`. There are none if it closes nothing that it pairs with. -/
def Token.nest (pairs : TokenKind → TokenKind → Bool) (stack : List TokenKind) (t : Token) :
    Option (List TokenKind) :=
  if t.kind.opensBracket then some (t.kind :: stack)
  else if t.kind.closesBracket then
    match stack with
    | [] => none
    | kind :: stack => if pairs kind t.kind then some stack else none
  else some stack

/-- The same behind one token after another. -/
def nest (pairs : TokenKind → TokenKind → Bool) (stack : List TokenKind) (ts : List Token) :
    Option (List TokenKind) :=
  ts.foldlM (Token.nest pairs) stack

/-- Of two brackets any one closes the other. -/
def anyPair (_ _ : TokenKind) : Bool := true

/-- No closing bracket is without an open one, and none stays open. -/
def Balanced (ts : List Token) : Prop := nest anyPair [] ts = some []

/-- Every closing bracket is of the kind of the innermost open one, and none stays open. -/
def Matched (ts : List Token) : Prop := nest TokenKind.closedBy [] ts = some []

instance (ts : List Token) : Decidable (Matched ts) := inferInstanceAs (Decidable (_ = _))

variable {t first last : Token} {ts us : List Token} {stack stack' : List TokenKind}

/-! ## Stacks -/

@[simp] theorem nest_nil (pairs : TokenKind → TokenKind → Bool) (stack : List TokenKind) :
    nest pairs stack [] = some stack := rfl

@[simp] theorem nest_cons (pairs : TokenKind → TokenKind → Bool) (stack : List TokenKind)
    (t : Token) (ts : List Token) :
    nest pairs stack (t :: ts) = (t.nest pairs stack).bind (nest pairs · ts) := rfl

theorem nest_append (pairs : TokenKind → TokenKind → Bool) (stack : List TokenKind)
    (ts us : List Token) :
    nest pairs stack (ts ++ us) = (nest pairs stack ts).bind (nest pairs · us) :=
  List.foldlM_append

theorem Token.nest_of_opens (h : t.kind.opensBracket = true) :
    t.nest pairs stack = some (t.kind :: stack) := if_pos h

theorem Token.nest_of_closes {kind : TokenKind} (h : t.kind.closesBracket = true)
    (hp : pairs kind t.kind = true) : t.nest pairs (kind :: stack) = some stack := by
  simp [Token.nest, TokenKind.opensBracket_of_closes h, h, hp]

theorem Token.nest_of_other (h : t.kind.isBracket = false) : t.nest pairs stack = some stack := by
  simp only [TokenKind.isBracket, Bool.or_eq_false_iff] at h
  simp [Token.nest, h.1, h.2]

theorem nest_of_others (h : ∀ t ∈ ts, t.kind.isBracket = false) :
    nest pairs stack ts = some stack := by
  induction ts with
  | nil => rfl
  | cons t ts ih =>
    rw [nest_cons, Token.nest_of_other (h t List.mem_cons_self), Option.bind_some]
    exact ih fun u hu => h u (List.mem_cons_of_mem t hu)

/-- What is below the stack does not matter. -/
theorem Token.nest_under (h : t.nest pairs stack = some stack') (below : List TokenKind) :
    t.nest pairs (stack ++ below) = some (stack' ++ below) := by
  simp only [Token.nest] at h ⊢
  split at h
  · rw [if_pos ‹_›, ← Option.some.inj h]
    rfl
  rw [if_neg ‹_›]
  split at h
  · rw [if_pos ‹_›]
    cases stack with
    | nil => cases h
    | cons kind stack =>
      simp only [List.cons_append] at h ⊢
      split at h
      · rw [if_pos ‹_›, ← Option.some.inj h]
      · cases h
  · rw [if_neg ‹_›, ← Option.some.inj h]

theorem nest_under (h : nest pairs stack ts = some stack') (below : List TokenKind) :
    nest pairs (stack ++ below) ts = some (stack' ++ below) := by
  induction ts generalizing stack with
  | nil =>
    cases h
    rfl
  | cons t ts ih =>
    rw [nest_cons] at h ⊢
    obtain ⟨mid, ht, hts⟩ := Option.bind_eq_some_iff.mp h
    rw [Token.nest_under ht, Option.bind_some]
    exact ih hts

/-- Where as many brackets are open, a closing bracket takes none from below those that it takes if
any two may pair. -/
theorem Token.exists_nest {count count' below : List TokenKind}
    (h : t.nest anyPair count = some count') (hlength : count.length = stack.length)
    (hnest : t.nest pairs (stack ++ below) = some stack') :
    ∃ above, t.nest pairs stack = some above ∧ stack' = above ++ below ∧
      count'.length = above.length := by
  simp only [Token.nest] at h hnest ⊢
  split at h
  · rename_i hopens
    simp only [if_pos hopens, Option.some.injEq] at h hnest ⊢
    exact ⟨t.kind :: stack, rfl, hnest.symm, by simp [← h, hlength]⟩
  rename_i hopens
  simp only [if_neg hopens] at hnest ⊢
  split at h
  · rename_i hcloses
    simp only [if_pos hcloses] at hnest ⊢
    cases count with
    | nil => cases h
    | cons c count =>
    cases stack with
    | nil => cases hlength
    | cons kind stack =>
    simp only [List.cons_append] at hnest
    split at hnest
    · rename_i hp
      simp only [anyPair, if_true, Option.some.injEq] at h
      exact ⟨stack, if_pos hp, (Option.some.inj hnest).symm, h ▸ Nat.succ.inj hlength⟩
    · cases hnest
  · rename_i hcloses
    simp only [if_neg hcloses, Option.some.injEq] at hnest ⊢
    exact ⟨stack, rfl, hnest.symm, by rw [← Option.some.inj h, hlength]⟩

theorem exists_nest {count count' below : List TokenKind} (h : nest anyPair count ts = some count')
    (hlength : count.length = stack.length) (hnest : nest pairs (stack ++ below) ts = some stack') :
    ∃ above, nest pairs stack ts = some above ∧ stack' = above ++ below ∧
      count'.length = above.length := by
  induction ts generalizing count stack with
  | nil =>
    cases h
    cases hnest
    exact ⟨stack, rfl, rfl, hlength⟩
  | cons t ts ih =>
    rw [nest_cons] at h hnest
    obtain ⟨mid, ht, hts⟩ := Option.bind_eq_some_iff.mp h
    obtain ⟨mid', ht', hts'⟩ := Option.bind_eq_some_iff.mp hnest
    obtain ⟨above, htop, rfl, hmid⟩ := Token.exists_nest ht hlength ht'
    rw [nest_cons, htop, Option.bind_some]
    exact ih hts hmid hts'

/-! ## Nested brackets -/

theorem Balanced.nest_eq (h : Balanced ts) (stack : List TokenKind) :
    nest anyPair stack ts = some stack := nest_under h stack

theorem Matched.nest_eq (h : Matched ts) (stack : List TokenKind) :
    nest TokenKind.closedBy stack ts = some stack := nest_under h stack

theorem Balanced.append (h : Balanced ts) (h' : Balanced us) : Balanced (ts ++ us) := by
  rw [Balanced, nest_append, h, Option.bind_some]
  exact h'

theorem Balanced.of_append (h : Balanced (ts ++ us)) (h' : ∀ t ∈ us, t.kind.isBracket = false) :
    Balanced ts := by
  rw [Balanced, nest_append] at h
  obtain ⟨stack, hts, hus⟩ := Option.bind_eq_some_iff.mp h
  rw [nest_of_others h'] at hus
  exact hts.trans hus

theorem balanced_of_others (h : ∀ t ∈ ts, t.kind.isBracket = false) : Balanced ts :=
  nest_of_others h

theorem matched_of_others (h : ∀ t ∈ ts, t.kind.isBracket = false) : Matched ts := nest_of_others h

/-- Behind balanced brackets those that are nested leave the stack as it was. -/
theorem Balanced.eq_of_nest (h : Balanced ts) (hnest : nest pairs stack ts = some stack') :
    stack' = stack ∧ nest pairs [] ts = some [] := by
  have hnest : nest pairs ([] ++ stack) ts = some stack' := hnest
  obtain ⟨above, habove, rfl, hlength⟩ := exists_nest h rfl hnest
  obtain rfl := List.length_eq_zero_iff.mp hlength.symm
  exact ⟨rfl, habove⟩

theorem matched_append_iff (h : Balanced ts) : Matched (ts ++ us) ↔ Matched ts ∧ Matched us := by
  constructor
  · intro hm
    rw [Matched, nest_append] at hm
    obtain ⟨stack, hts, hus⟩ := Option.bind_eq_some_iff.mp hm
    obtain ⟨rfl, hts⟩ := h.eq_of_nest hts
    exact ⟨hts, hus⟩
  · rintro ⟨hts, hus⟩
    rw [Matched, nest_append, hts, Option.bind_some]
    exact hus

section Group

variable (ho : first.kind.opensBracket = true) (hc : last.kind.closesBracket = true)

include ho hc

theorem Balanced.group (h : Balanced ts) : Balanced (first :: (ts ++ [last])) := by
  rw [Balanced, nest_cons, Token.nest_of_opens ho, Option.bind_some, nest_append, h.nest_eq,
    Option.bind_some, nest_cons, Token.nest_of_closes hc rfl]
  rfl

theorem matched_group_iff (hp : first.kind.closedBy last.kind = true) (h : Balanced ts) :
    Matched (first :: (ts ++ [last])) ↔ Matched ts := by
  rw [Matched, nest_cons, Token.nest_of_opens ho, Option.bind_some, nest_append]
  constructor
  · intro hm
    obtain ⟨stack, hts, -⟩ := Option.bind_eq_some_iff.mp hm
    exact (h.eq_of_nest hts).2
  · intro hm
    rw [hm.nest_eq, Option.bind_some, nest_cons, Token.nest_of_closes hc hp]
    rfl

end Group

/-! ## Brackets that are counted -/

/-- The tokens close the `n` brackets that are open in front of them, and all that they open. -/
def Closes (n : Nat) (ts : List Token) : Prop :=
  ∀ stack, stack.length = n → nest anyPair stack ts = some []

namespace Closes

variable {n : Nat}

theorem nil : Closes 0 [] := fun stack h => by
  rw [List.length_eq_zero_iff.mp h]
  rfl

theorem opening (h : t.kind.opensBracket = true) (hts : Closes (n + 1) ts) :
    Closes n (t :: ts) := fun stack hstack => by
  rw [nest_cons, Token.nest_of_opens h]
  exact hts _ (congrArg (· + 1) hstack)

theorem closing (h : t.kind.closesBracket = true) (hts : Closes n ts) :
    Closes (n + 1) (t :: ts) := fun stack hstack => by
  obtain ⟨kind, stack, rfl⟩ := List.exists_cons_of_length_eq_add_one hstack
  rw [nest_cons, Token.nest_of_closes h rfl]
  exact hts _ (Nat.succ.inj hstack)

theorem other (h : t.kind.isBracket = false) (hts : Closes n ts) : Closes n (t :: ts) :=
  fun stack hstack => by
    rw [nest_cons, Token.nest_of_other h]
    exact hts _ hstack

theorem balanced (h : Closes 0 ts) : Balanced ts := h [] rfl

theorem of_balanced (h : Balanced ts) : Closes 0 ts := fun stack hstack => by
  rw [List.length_eq_zero_iff.mp hstack]
  exact h

end Closes

namespace TokenStream

variable {source : List Char} {s rest : TokenStream} {ending : Except LexicalError Position}
  {start : Position} {stop : Span} {value : Symbol}

theorem closes_of_skipGroupFrom {depth : Nat}
    (h : skipGroupFrom start ending depth ts = .ok (stop, rest)) :
    ∃ us, ts = us ++ rest.tokens ∧ Closes (depth + 1) us := by
  induction ts generalizing depth with
  | nil =>
    simp only [skipGroupFrom] at h
    split at h <;> cases h
  | cons t ts ih =>
    simp only [skipGroupFrom] at h
    split at h
    · rename_i hopens
      obtain ⟨us, rfl, hus⟩ := ih h
      exact ⟨t :: us, rfl, hus.opening hopens⟩
    rename_i hopens
    split at h
    · rename_i hcloses
      split at h
      · simp only [Except.ok.injEq, Prod.mk.injEq] at h
        obtain ⟨-, rfl⟩ := h
        exact ⟨[t], rfl, Closes.nil.closing hcloses⟩
      · obtain ⟨us, rfl, hus⟩ := ih h
        exact ⟨t :: us, rfl, hus.closing hcloses⟩
    · rename_i hcloses
      obtain ⟨us, rfl, hus⟩ := ih h
      exact ⟨t :: us, rfl, hus.other (by simp [TokenKind.isBracket, hopens, hcloses])⟩

/-- A group ends with the bracket that brings the count back to where it was. -/
theorem balanced_of_skipGroup (ho : first.kind.opensBracket = true)
    (h : s.skipGroup start = .ok (stop, rest)) :
    ∃ us, s.tokens = us ++ rest.tokens ∧ Balanced (first :: us) := by
  obtain ⟨us, hs, hus⟩ := closes_of_skipGroupFrom h
  exact ⟨us, hs, (hus.opening ho).balanced⟩

theorem closes_of_expressionEndFrom {last : Span} {depth : Nat} {dangling : Bool}
    (h : expressionEndFrom start ending stop depth dangling ts = .ok (last, rest)) :
    ∃ us, ts = us ++ rest.tokens ∧ Closes depth us := by
  induction ts generalizing stop depth dangling with
  | nil =>
    simp only [expressionEndFrom] at h
    split at h
    · cases h
    split at h
    · simp only [Except.ok.injEq, Prod.mk.injEq] at h
      obtain ⟨-, rfl⟩ := h
      rename_i hdepth
      exact ⟨[], rfl, hdepth ▸ .nil⟩
    · cases h
  | cons t ts ih =>
    have hend : Except.ok (stop, ⟨t :: ts, ending⟩) = (Except.ok (last, rest) : Reading Span) →
        ∃ us, t :: ts = us ++ rest.tokens ∧ Closes 0 us := fun h => by
      simp only [Except.ok.injEq, Prod.mk.injEq] at h
      obtain ⟨-, rfl⟩ := h
      exact ⟨[], rfl, .nil⟩
    simp only [expressionEndFrom] at h
    split at h
    · rename_i hk
      split at h
      · rename_i hstop
        exact hstop.1 ▸ hend h
      · obtain ⟨us, rfl, hus⟩ := ih h
        exact ⟨t :: us, rfl, hus.other (by rw [hk]; rfl)⟩
    split at h
    · rename_i hcloses
      split at h
      · exact hend h
      · obtain ⟨us, rfl, hus⟩ := ih h
        exact ⟨t :: us, rfl, hus.closing hcloses⟩
    rename_i hcloses
    split at h
    · rename_i hcomma
      exact hcomma.2 ▸ hend h
    obtain ⟨us, rfl, hus⟩ := ih h
    by_cases hopens : t.kind.opensBracket = true
    · rw [if_pos hopens] at hus
      exact ⟨t :: us, rfl, hus.opening hopens⟩
    · rw [if_neg hopens] at hus
      exact ⟨t :: us, rfl, hus.other (by simp [TokenKind.isBracket, hopens, hcloses])⟩

/-- An expression ends in front of a bracket that it has not opened. -/
theorem balanced_of_expressionEnd {first last : Span}
    (h : s.expressionEnd first = .ok (last, rest)) :
    ∃ us, s.tokens = us ++ rest.tokens ∧ Balanced us := by
  obtain ⟨us, hs, hus⟩ := closes_of_expressionEndFrom h
  exact ⟨us, hs, hus.balanced⟩

theorem balanced_of_steps {kind : EvalKind} {stop : Option Span} {r : EvalKind × Option Span}
    (h : steps kind stop s = .ok (r, rest)) : ∃ us, s.tokens = us ++ rest.tokens ∧ Balanced us := by
  have hgroup : ∀ {start : Position} {t : Token} {ts : List Token} {stop' : Span}
      {ending : Except LexicalError Position} {rest' : TokenStream}, t.kind.opensBracket = true →
      skipGroup start ⟨ts, ending⟩ = .ok (stop', rest') →
      (∃ us, rest'.tokens = us ++ rest.tokens ∧ Balanced us) →
      ∃ us, t :: ts = us ++ rest.tokens ∧ Balanced us := fun hopens hg h => by
    obtain ⟨us, rfl, hus⟩ := balanced_of_skipGroup hopens hg
    obtain ⟨more, hmore, hbalanced⟩ := h
    exact ⟨_ :: us ++ more, by simp [hmore], hus.append hbalanced⟩
  fun_induction steps kind stop s with
  | case4 kind stop t ending hd step ts hstep ih =>
    obtain ⟨us, rfl, hus⟩ := ih h
    have hk : step.kind.isBracket = false := by
      simp only [isStep, Token.isOperator, Bool.or_eq_true, Bool.and_eq_true, beq_iff_eq] at hstep
      rcases hstep with (hk | hk) | ⟨hk, -⟩ <;> rw [hk] <;> rfl
    have hdot : t.kind.isBracket = false := by
      rw [hd]
      rfl
    exact ⟨t :: step :: us, rfl, (((Closes.of_balanced hus).other hk).other hdot).balanced⟩
  | case7 kind stop t ts ending hd hb stop' rest' hg ih =>
    exact hgroup (by rw [hb]; rfl) hg (ih h)
  | case9 kind stop t ts ending hd hb hp stop' rest' hg ih =>
    exact hgroup (by rw [hp.1]; rfl) hg (ih h)
  | case2 | case10 =>
    simp only [Except.ok.injEq, Prod.mk.injEq] at h
    obtain ⟨-, rfl⟩ := h
    exact ⟨[], rfl, Closes.nil.balanced⟩
  | _ => cases h

theorem ReadsOperand.balanced (h : ReadsOperand source first s value rest) :
    ∃ us, s.tokens = us ++ rest.tokens ∧ Balanced (first :: us) := by
  have hword : first.kind.isBracket = false → (∃ us, s.tokens = us ++ rest.tokens ∧ Balanced us) →
      ∃ us, s.tokens = us ++ rest.tokens ∧ Balanced (first :: us) := fun hk ⟨us, hs, hus⟩ =>
    ⟨us, hs, ((Closes.of_balanced hus).other hk).balanced⟩
  cases h with
  | literal hk =>
    exact hword (TokenKind.isBracket_of_literalType? hk) ⟨[], rfl, Closes.nil.balanced⟩
  | keyword hk hs _ => exact hword (by rw [hk]; rfl) (balanced_of_steps hs)
  | traversal hk hs _ => exact hword (by rw [hk]; rfl) (balanced_of_steps hs)
  | group hk hg => exact balanced_of_skipGroup (by rw [hk]; rfl) hg
  | operation hk _ hx => exact hword (by rw [hk]; rfl) (balanced_of_expressionEnd hx)

theorem exists_of_labelsFrom {read names : List String}
    (h : labelsFrom ending read ts = .ok (names, rest)) :
    ∃ front brace, ts = front ++ brace :: rest.tokens ∧ brace.kind = .lBrace ∧
      ∀ t ∈ front, t.kind.isBracket = false := by
  induction ts generalizing read with
  | nil =>
    simp only [labelsFrom] at h
    split at h <;> cases h
  | cons t ts ih =>
    simp only [labelsFrom] at h
    split at h
    · rename_i hk
      obtain ⟨front, brace, rfl, hbrace, hfront⟩ := ih h
      refine ⟨t :: front, brace, rfl, hbrace, ?_⟩
      have hother : t.kind.isBracket = false := by rcases hk with hk | hk <;> rw [hk] <;> rfl
      simpa [hother] using hfront
    split at h
    · rename_i hk
      simp only [Except.ok.injEq, Prod.mk.injEq] at h
      obtain ⟨-, rfl⟩ := h
      exact ⟨[], t, rfl, hk, by simp⟩
    · cases h

end TokenStream

end Hcl
