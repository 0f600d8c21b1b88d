import Hcl.Proofs.Builder.Brackets
import Hcl.Proofs.Builder.Deferred

/-!
# Line breaks behind operators

A line break behind an operator does not end an expression: an operand must follow, and it may stand
in the next line. Only what the expression stands in can cut the operand off. For the sign that an
expression begins with this is forgotten, and the sign alone is taken for the expression.
-/

namespace Hcl

open Hcl.Tree Hcl.TokenStream

variable {source : List Char} {d : Nat} {s rest : TokenStream} {value : Symbol} {text : String}
  {before after all as bs cs ds ts : List Token} {a c t sign : Token} {stop : Span}
  {e : Except LexicalError Position}

/-! ## The last token of an operation -/

namespace TokenStream

/-- Where a missing operand is always noticed, what was read before makes no difference. -/
theorem Finishes.append {rest : List Token} (h : Finishes true ts stop rest) (before : List Token) :
    Finishes true (before ++ ts) stop rest := by
  obtain ⟨front, u, ms, rfl, hu, huk, hms, hend⟩ := h
  refine ⟨before ++ front, u, ms, by simp, hu, huk, hms, fun hd => .inl ?_⟩
  exact (hend hd).resolve_right fun hfalse => Bool.noConfusion hfalse.2.1

theorem finishes_of_skipGroup {start : Position} (h : s.skipGroup start = .ok (stop, rest)) :
    Finishes true s.tokens stop rest.tokens := by
  obtain ⟨front, t, hts, ht, hc⟩ := exists_last_of_skipGroupFrom h
  refine ⟨front, t, [], hts, ht, fun hk => ?_, by simp, fun hd => ?_⟩
  · simp [hk, TokenKind.closesBracket] at hc
  · revert hc hd
    cases t.kind <;> simp [TokenKind.closesBracket, leavesDangling]

end TokenStream

/-- A sign is an operator that an operand may begin with. -/
def Token.IsSign (t : Token) : Prop := t.kind = .operator ∧ (t.text = "-" ∨ t.text = "!")

theorem ReadsAtom.exists_finishes (h : ReadsAtom source s value rest)
    (he : value.kind = .eval ⟨.operation, text⟩) :
    ∃ stop, Spells source value s.tokens stop ∧ (Finishes true s.tokens stop rest.tokens ∨
      (Finishes false s.tokens stop rest.tokens ∧ ∃ sign ∈ s.tokens.head?, sign.IsSign)) := by
  cases h with
  | @operand first ts e value rest hv =>
    cases hv with
    | literal | keyword => cases he
    | @traversal _ kind stop _ hs _ =>
      obtain rfl : kind = .operation := congrArg Eval.kind (SymbolKind.eval.inj he)
      simpa using kind_of_steps hs
    | group hk hg =>
      exact ⟨_, ⟨_, _, _, rfl, by simp⟩, .inl ((finishes_of_skipGroup hg).append [first])⟩
    | operation hk hsign hx =>
      have hfinishes := finishes_of_expressionEndFrom [] (by simp [hk]) (by simp) hx
      exact ⟨_, ⟨_, _, _, rfl, by simp⟩, .inr ⟨hfinishes, first, rfl, hk, hsign⟩⟩
  | comprehension _ _ hv =>
    obtain ⟨_, rfl, -⟩ := exists_reaches_of_comprehension hv
    cases he

/-- If an operand is missing at the end of an operation, what is around it ends there, or the
operation is a sign in front of a line break. -/
theorem ReadsDeferred.exists_finishes (h : ReadsDeferred source d s value rest)
    (he : value.kind = .eval ⟨.operation, text⟩) :
    ∃ stop, Spells source value s.tokens stop ∧ (Finishes true s.tokens stop rest.tokens ∨
      (Finishes false s.tokens stop rest.tokens ∧ ∃ sign ∈ s.tokens.head?, sign.IsSign)) := by
  cases h with
  | atom h => exact h.exists_finishes he
  | @operation _ v t ts ending stop hv hk hx =>
    obtain ⟨front, hfront⟩ := hv.suffix.tokens
    obtain ⟨first, us, hfirst, -, hstart⟩ := hv.exists_first
    rw [expressionEnd, expressionEndFrom_operator hk] at hx
    have ht : t.kind ≠ .newline := by rcases hk with hk | hk <;> simp [hk]
    have hfinishes := finishes_of_expressionEndFrom [] ht (by simp) hx
    exact ⟨stop, ⟨_, _, _, rfl, by simp [hfirst, hstart]⟩, .inl (hfront ▸ hfinishes.append front)⟩

/-! ## A sign in front of a line break -/

theorem ReadsAtom.sign_alone (h : ReadsAtom source ⟨sign :: ts, e⟩ value rest)
    (hk : sign.kind = .operator) (hts : BreaksHere ts) :
    value.span = sign.span.upTo sign.span ∧ rest.tokens = ts := by
  cases h with
  | operand hv =>
    obtain ⟨-, stop, hx, rfl⟩ := hv.exists_expressionEnd hk
    obtain ⟨nl, more, rfl, hnl⟩ := hts
    simp only [expressionEnd, expressionEndFrom, hnl, if_true, and_self, Except.ok.injEq,
      Prod.mk.injEq] at hx
    obtain ⟨rfl, rfl⟩ := hx
    exact ⟨rfl, rfl⟩
  | comprehension hfirst => simp [hk] at hfirst

theorem ReadsDeferred.sign_alone (h : ReadsDeferred source d ⟨sign :: ts, e⟩ value rest)
    (hk : sign.kind = .operator) (hts : BreaksHere ts) :
    value.span = sign.span.upTo sign.span := by
  cases h with
  | atom h => exact (h.sign_alone hk hts).1
  | operation hv ho hx =>
    cases hv with
    | atom h =>
      -- the line break is left, so no operation goes on here
      obtain ⟨nl, more, rfl, hnl⟩ := hts
      obtain ⟨rfl, -⟩ := List.cons.inj (h.sign_alone hk ⟨nl, more, rfl, hnl⟩).2
      simp [hnl] at ho
    | array hfirst | map hfirst => simp [hk] at hfirst

/-! ## Tokens of a symbol -/

/-- Two tokens that cover the same place are one. -/
theorem Tiles.eq_of_overlap (h : Tiles source all) (ha : all = as ++ a :: bs)
    (hc : all = cs ++ c :: ds) (hac : a.span.start.offset < c.span.stop)
    (hca : c.span.start.offset < a.span.stop) : as = cs ∧ a = c ∧ bs = ds := by
  rcases List.append_eq_append_iff.mp (ha.symm.trans hc) with ⟨ws, hcs, hws⟩ | ⟨ws, has, hws⟩
  · cases ws with
    | nil => exact ⟨by simpa using hcs.symm, List.cons.inj hws⟩
    | cons w ws =>
      obtain ⟨rfl, -⟩ := List.cons.inj hws
      have hle := (hc ▸ h).le (t := a) (u := c) (by simp [hcs]) (by simp)
      omega
  · cases ws with
    | nil =>
      obtain ⟨rfl, rfl⟩ := List.cons.inj hws
      exact ⟨by simpa using has, rfl, rfl⟩
    | cons w ws =>
      obtain ⟨rfl, -⟩ := List.cons.inj hws
      have hle := (ha ▸ h).le (t := c) (u := a) (by simp [has]) (by simp)
      omega

/-- The next token that is no line break is a comma, a closing bracket or the end of the source. -/
def TokenStream.EndsAround (s : TokenStream) : Prop :=
  ∃ t, s.skipNewlines.peek = .ok t ∧
    (t.kind = .eof ∨ t.kind = .comma ∨ t.kind.closesBracket = true)

/-- How an operation of a source treats the line breaks behind its operators. If it ends with an
operator, `?` or `:`, then what is around it ends there, or the operation is a sign in front of a
line break. In front of a line break, a sign at its beginning is the whole of it. -/
structure Symbol.KeepsOperands (s : TokenStream) (symbol : Symbol) : Prop where
  behind : ∀ {before after : List Token} {last : Token}, s.tokens = before ++ last :: after →
    last.span.stop = symbol.span.stop → leavesDangling last.kind = true →
    EndsAround ⟨after, s.ending⟩ ∨ (last.IsSign ∧ BreaksHere after ∧ symbol.span = last.span)
  sign : ∀ {before after : List Token} {sign : Token}, s.tokens = before ++ sign :: after →
    sign.span.start = symbol.span.start → sign.kind = .operator → BreaksHere after →
    symbol.span = sign.span

theorem Span.upTo_of_start {first last : Span} (h : first.start = last.start) :
    first.upTo last = last := by
  simp [upTo, stop, h]

/-- A symbol that is spelled with the tokens `front ++ [u]` begins where the first of them does and
ends where `u` does. -/
theorem Spells.span_eq {front more : List Token} {u : Token} (h : Spells source value ts u.span)
    (hts : ts = front ++ u :: more) (hall : Tiles source (before ++ ts)) :
    value.span.stop = u.span.stop ∧ ∀ t ∈ ts.head?, value.span.start = t.span.start := by
  obtain ⟨kind, name, first, rfl, hfirst⟩ := h
  refine ⟨Span.stop_upTo ?_, hfirst⟩
  obtain ⟨t, us, hcons⟩ : ∃ t us, ts = t :: us := List.exists_cons_of_ne_nil (by simp [hts])
  rw [hfirst t (by simp [hcons])]
  have hlt := hall.lt (t := u) (by simp [hts])
  rw [hcons] at hall
  have hle := hall.start_le (u := u) (by rw [← hcons, hts]; simp)
  omega

theorem TokenStream.BreaksHere.append {ms : List Token} (h : BreaksHere ts)
    (hms : ∀ m ∈ ms, m.kind = .newline) : BreaksHere (ms ++ ts) := by
  cases ms with
  | nil => exact h
  | cons m ms => exact ⟨m, ms ++ ts, rfl, hms m List.mem_cons_self⟩

theorem TokenStream.EndsHere.endsAround {ms : List Token} {p : Position} (h : EndsHere ts)
    (hms : ∀ m ∈ ms, m.kind = .newline) : EndsAround ⟨ms ++ ts, .ok p⟩ := by
  have hskip : skipNewlines ⟨ms ++ ts, .ok p⟩ = skipNewlines ⟨ts, .ok p⟩ := by
    simp only [skipNewlines]
    rw [List.dropWhile_append_of_pos (by simpa using hms)]
  rw [EndsAround, hskip]
  cases ts with
  | nil => exact ⟨.atEnd p, rfl, .inl rfl⟩
  | cons t ts =>
    have ht := h t rfl
    have hk : t.kind ≠ .newline := fun hk => by simp [hk, TokenKind.closesBracket] at ht
    rw [skipNewlines_cons_of_ne hk]
    exact ⟨t, rfl, .inr ht⟩

section Kept

variable {p : Position}

/-- If an operation ends with an operator, `?` or `:`, then what is around it ends there, or it is a
sign in front of a line break. -/
theorem ReadsDeferred.endsAround_or (hv : ReadsDeferred source d s value rest)
    (he : value.kind = .eval ⟨.operation, text⟩) (htiles : Tiles source (as ++ s.tokens))
    (htokens : as ++ s.tokens = before ++ t :: after) (ht : t.span.stop = value.span.stop)
    (hk : leavesDangling t.kind = true) :
    EndsAround ⟨after, .ok p⟩ ∨ (t.IsSign ∧ BreaksHere after ∧ value.span = t.span) := by
  obtain ⟨stop, hspells, hfinishes⟩ := hv.exists_finishes he
  have hfinishes : ∃ dangling, Finishes dangling s.tokens stop rest.tokens ∧
      (dangling = false → ∃ sign ∈ s.tokens.head?, sign.IsSign) :=
    hfinishes.elim (fun h => ⟨true, h, nofun⟩) fun h => ⟨false, h.1, fun _ => h.2⟩
  obtain ⟨dangling, ⟨front, u, ms, hts, rfl, -, hms, hend⟩, hsign⟩ := hfinishes
  obtain ⟨hstop, hstart⟩ := hspells.span_eq hts htiles
  have hu : as ++ s.tokens = (as ++ front) ++ u :: (ms ++ rest.tokens) := by simp [hts]
  have hlt := htiles.lt (t := t) (by simp [htokens])
  have hlt' := htiles.lt (t := u) (by simp [hu])
  -- the last token of the operation is the one that it was found to end with
  obtain ⟨-, rfl, rfl⟩ := htiles.eq_of_overlap htokens hu (by omega) (by omega)
  refine (hend hk).imp (fun hend => hend.endsAround hms) ?_
  rintro ⟨rfl, hfalse, hbreaks⟩
  obtain ⟨sign, hmem, hsign⟩ := hsign hfalse
  rw [hts] at hmem
  cases hmem
  obtain ⟨kind, name, first, rfl, hfirst⟩ := hspells
  exact ⟨hsign, hbreaks.append hms, Span.upTo_of_start (hfirst t (by rw [hts]; rfl))⟩

/-- In front of a line break, a sign at its beginning is the whole of an operation. -/
theorem ReadsDeferred.span_eq_sign (hv : ReadsDeferred source d s value rest)
    (he : value.kind = .eval ⟨.operation, text⟩) (htiles : Tiles source (as ++ s.tokens))
    (htokens : as ++ s.tokens = before ++ sign :: after)
    (hstart : sign.span.start = value.span.start) (hk : sign.kind = .operator)
    (hafter : BreaksHere after) : value.span = sign.span := by
  obtain ⟨stop, hspells, -⟩ := hv.exists_finishes he
  obtain ⟨tokens, e⟩ := s
  obtain ⟨t, ts, rfl, -⟩ := hv.exists_first
  obtain ⟨kind, name, first, hvalue, hfirst⟩ := hspells
  have hsame : sign.span.start = t.span.start := by
    rw [hstart, hvalue]
    exact hfirst t rfl
  have hlt := htiles.lt (t := sign) (by simp [htokens])
  have hlt' := htiles.lt (t := t) (by simp)
  obtain ⟨-, rfl, rfl⟩ := htiles.eq_of_overlap htokens rfl (by rw [hsame]; exact hlt')
    (by rw [← hsame]; exact hlt)
  exact (hv.sign_alone hk hafter).trans (Span.upTo_of_start rfl)

end Kept

/-! ## Sources -/

/-- The operations of a source that is read without an error keep their operands behind a line
break, a sign at their beginning apart. -/
theorem dangling_parseTree {source : String} (herror : (parseTree source).error = none) {id : Nat}
    {entry : Entry} (h : (parseTree source).tree.get? id = some entry)
    (he : entry.symbol.kind = .eval ⟨.operation, text⟩) :
    entry.symbol.KeepsOperands (ofString source) := by
  obtain ⟨-, -, p, -, -, hending, -⟩ := exists_items_parseTree source herror
  have htiles := tiles_ofString source hending
  obtain ⟨d, s, rest, -, ⟨front, b, hall, -⟩, hv⟩ := symbol_readFrom_parseTree h _ he
  have hall : (front ++ [b]) ++ s.tokens = (ofString source).tokens := by simp [hall]
  rw [← hall] at htiles
  constructor
  · intro before after last htokens hlast hk
    rw [hending]
    exact hv.endsAround_or he htiles (hall.trans htokens) hlast hk
  · intro before after sign htokens hstart hk hafter
    exact hv.span_eq_sign he htiles (hall.trans htokens) hstart hk hafter

/-- In an array, with a comma behind the line break. -/
theorem dangling_parseTree_comma :
    (parseTree "x = [1 -\n, 2]\n").error = none ∧
      ∃ entry, (parseTree "x = [1 -\n, 2]\n").tree.get? 2 = some entry ∧
        entry.symbol.kind = .eval ⟨.operation, "1 -"⟩ ∧
        entry.symbol.KeepsOperands (ofString "x = [1 -\n, 2]\n") := by
  have herror : (parseTree "x = [1 -\n, 2]\n").error = none := by decide +kernel
  have h : ((parseTree "x = [1 -\n, 2]\n").tree.get? 2).map (·.symbol.kind) =
      some (.eval ⟨.operation, "1 -"⟩) := by decide +kernel
  obtain ⟨entry, hentry, hk⟩ := Option.map_eq_some_iff.mp h
  exact ⟨herror, entry, hentry, hk, dangling_parseTree herror hentry hk⟩

/-- A sign at the end of a line is cut off from its operand: two elements are read for one. -/
theorem cutOff_parseTree :
    (parseTree "x = [-\n1]\n").error = none ∧ ∃ entry before last after,
      (parseTree "x = [-\n1]\n").tree.get? 2 = some entry ∧
        entry.symbol.kind = .eval ⟨.operation, "-"⟩ ∧
        (ofString "x = [-\n1]\n").tokens = before ++ last :: after ∧
        last.span.stop = entry.symbol.span.stop ∧ last.view = (.operator, "-") ∧
        ¬EndsAround ⟨after, (ofString "x = [-\n1]\n").ending⟩ := by
  have h : ((parseTree "x = [-\n1]\n").tree.get? 2).map
      (fun entry => (entry.symbol.kind, entry.symbol.span.stop)) =
        some (.eval ⟨.operation, "-"⟩, 6) := by decide +kernel
  obtain ⟨entry, hentry, hk⟩ := Option.map_eq_some_iff.mp h
  refine ⟨by decide +kernel, entry, [⟨.ident, "x", ⟨⟨1, 1, 0⟩, 1⟩⟩, ⟨.equals, "=", ⟨⟨1, 3, 2⟩, 1⟩⟩,
    ⟨.lBracket, "[", ⟨⟨1, 5, 4⟩, 1⟩⟩], ⟨.operator, "-", ⟨⟨1, 6, 5⟩, 1⟩⟩,
    [⟨.newline, "\n", ⟨⟨1, 7, 6⟩, 1⟩⟩, ⟨.number, "1", ⟨⟨2, 1, 7⟩, 1⟩⟩,
      ⟨.rBracket, "]", ⟨⟨2, 2, 8⟩, 1⟩⟩, ⟨.newline, "\n", ⟨⟨2, 3, 9⟩, 1⟩⟩], hentry,
    congrArg Prod.fst hk, by decide +kernel, (congrArg Prod.snd hk).symm, rfl, ?_⟩
  rintro ⟨t, ht, hend⟩
  cases ht
  simp [TokenKind.closesBracket] at hend

end Hcl
