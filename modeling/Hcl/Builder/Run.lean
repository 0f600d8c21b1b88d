import Hcl.Builder.Step

/-!
# Running the builder

A builder is run until no scope is open or a step fails. It ends because every step reads a token or
closes a scope: a token weighs more than the scope it may open and the value it may complete.
-/

namespace Hcl

/-! ## The measure -/

/-- A scope weighs more while it holds a complete value. -/
def Scope.weight : Scope → Nat
  | attr _ true | array _ true => 3
  | _ => 2

namespace Builder

def scopesWeight : List Scope → Nat
  | [] => 0
  | s :: scopes => s.weight + scopesWeight scopes

/-- What is left to be done, at most. -/
def measure (b : Builder) : Nat := 3 * b.stream.tokens.length + scopesWeight b.scopes

theorem weight_completed_le (s : Scope) : s.completed.weight ≤ s.weight + 1 := by
  cases s <;> simp only [Scope.completed, Scope.weight] <;> (try split) <;> omega

theorem two_le_weight (s : Scope) : 2 ≤ s.weight := by
  unfold Scope.weight
  split <;> omega

theorem scopesWeight_complete_le (scopes : List Scope) :
    scopesWeight (complete scopes) ≤ scopesWeight scopes + 1 := by
  cases scopes with
  | nil => simp [complete, scopesWeight]
  | cons s ss =>
    have := weight_completed_le s
    simp only [complete, scopesWeight] at *
    omega

@[simp] theorem stream_leave (b : Builder) : b.leave.stream = b.stream := rfl

theorem measure_leave_le {b : Builder} {s : Scope} {outer : List Scope}
    (h : b.scopes = s :: outer) : b.leave.measure + s.weight ≤ b.measure + 1 := by
  have := scopesWeight_complete_le outer
  simp only [measure, leave, h, List.tail_cons, scopesWeight] at *
  omega

/-! ## Outcomes of a step -/

theorem attempt_eq_ok {α : Type} {r : Except Error α} {b b' : Builder} {go : α → Step}
    (h : b.attempt r go = .ok b') : ∃ a, r = .ok a ∧ go a = .ok b' := by
  cases r with
  | error e => simp [attempt, fail] at h
  | ok a => exact ⟨a, rfl, h⟩

theorem read_eq_ok {α : Type} {r : Reading α} {b b' : Builder} {go : α → Builder → Step}
    (h : b.read r go = .ok b') :
    ∃ a stream, r = .ok (a, stream) ∧ go a { b with stream } = .ok b' := by
  cases r with
  | error e => simp [read, fail] at h
  | ok r => exact ⟨r.1, r.2, rfl, h⟩

theorem pushScope_eq_ok {parent : Option Nat} {symbol : Symbol} {scope : Nat → Scope}
    {b b' : Builder} (h : b.pushScope parent symbol scope = .ok b') :
    b'.stream = b.stream ∧ b'.scopes = scope b.tree.size :: b.scopes := by
  simp only [pushScope, enter] at h
  split at h
  · simp [fail] at h
  · simp only [Except.ok.injEq] at h
    subst h
    exact ⟨rfl, rfl⟩

theorem measure_pushScope {parent : Option Nat} {symbol : Symbol} {scope : Nat → Scope}
    {b b' : Builder} (hw : ∀ id, (scope id).weight = 2)
    (h : b.pushScope parent symbol scope = .ok b') : b'.measure = b.measure + 2 := by
  obtain ⟨hs, hc⟩ := pushScope_eq_ok h
  simp only [measure, hs, hc, scopesWeight, hw]
  omega

theorem measure_pushValue_le (parent : Nat) (symbol : Symbol) (b : Builder) :
    (b.pushValue parent symbol).measure ≤ b.measure + 1 := by
  have := scopesWeight_complete_le b.scopes
  simp only [measure, pushValue, push]
  omega

theorem measure_with_stream {b : Builder} {stream : TokenStream} {n : Nat}
    (h : stream.tokens.length + n ≤ b.stream.tokens.length) :
    ({ b with stream } : Builder).measure + 3 * n ≤ b.measure := by
  simp only [measure]
  omega

theorem measure_tail_le (b : Builder) : ({ b with stream := b.stream.tail } : Builder).measure ≤
    b.measure := by
  have : b.stream.tail.tokens.length ≤ b.stream.tokens.length := by simp [TokenStream.tail]
  exact measure_with_stream (n := 0) this

theorem measure_skipNewlines_le (b : Builder) :
    ({ b with stream := b.stream.skipNewlines } : Builder).measure ≤ b.measure :=
  measure_with_stream (n := 0) b.stream.tokens_skipNewlines_le

/-! ## Every step makes the measure smaller -/

theorem value_lt {parent : Nat} {b b' : Builder} (h : b.value parent = .ok b') :
    b'.measure < b.measure := by
  obtain ⟨first, s, hn, h⟩ := read_eq_ok h
  have hstep : first.kind ≠ .eof → ({ b with stream := s } : Builder).measure + 3 ≤ b.measure :=
    fun hk => measure_with_stream (n := 1) (TokenStream.length_next_lt hn hk)
  split at h
  · rename_i hb
    have := hstep (by rcases hb with hb | hb <;> simp [hb])
    obtain ⟨comprehension, hc, h⟩ := attempt_eq_ok h
    split at h
    · obtain ⟨symbol, s', hr, h⟩ := read_eq_ok h
      have := measure_with_stream (b := { b with stream := s }) (n := 0)
        (TokenStream.length_comprehension_le hr)
      simp only [Except.ok.injEq] at h
      have := measure_pushValue_le parent symbol { b with stream := s' }
      rw [← h]
      simp only at *
      omega
    · split at h <;> have := measure_pushScope (fun _ => rfl) h <;> omega
  · obtain ⟨symbol, s', hr, h⟩ := read_eq_ok h
    have hk : first.kind ≠ .eof := fun hk => by simp [TokenStream.operand, hk] at hr
    have := hstep hk
    have := measure_with_stream (b := { b with stream := s }) (n := 0)
      (TokenStream.length_operand_le hr)
    simp only [Except.ok.injEq] at h
    have := measure_pushValue_le parent symbol { b with stream := s' }
    rw [← h]
    simp only at *
    omega

theorem continuation_le {parent : Nat} {b b' : Builder}
    (h : b.continuation parent = .ok b') :
    b'.stream.tokens.length ≤ b.stream.tokens.length ∧ b'.scopes = b.scopes := by
  simp only [continuation] at h
  split at h
  · simp only [Except.ok.injEq] at h
    simp [h]
  · obtain ⟨t, ht, h⟩ := attempt_eq_ok h
    split at h
    · obtain ⟨stop, s, hs, h⟩ := read_eq_ok h
      simp only [Except.ok.injEq] at h
      rw [← h]
      exact ⟨TokenStream.length_expressionEnd_le hs, rfl⟩
    · simp only [Except.ok.injEq] at h
      simp [h]

theorem length_labelsFrom_le {ending : Except LexicalError Position} {names result : List String}
    {ts : List Token} {rest : TokenStream}
    (h : TokenStream.labelsFrom ending names ts = .ok (result, rest)) :
    rest.tokens.length ≤ ts.length := by
  induction ts generalizing names with
  | nil => cases ending <;> simp [TokenStream.labelsFrom] at h
  | cons t ts ih =>
    simp only [TokenStream.labelsFrom] at h
    split at h
    · exact Nat.le_succ_of_le (ih h)
    split at h
    · simp only [Except.ok.injEq, Prod.mk.injEq] at h
      simp [← h.2]
    · simp at h

theorem item_le {parent : Option Nat} {first : Token} {b b' : Builder}
    (h : b.item parent first = .ok b') : b'.measure ≤ b.measure + 2 := by
  obtain ⟨equalsAhead, _, h⟩ := attempt_eq_ok h
  split at h
  · have := measure_pushScope (fun _ => rfl) h
    have := measure_tail_le b
    omega
  · obtain ⟨names, s, hs, h⟩ := read_eq_ok h
    have := measure_pushScope (fun _ => rfl) h
    have := measure_with_stream (b := b) (n := 0) (length_labelsFrom_le hs)
    omega

theorem next_skipNewlines_le {b : Builder} {t : Token} {s : TokenStream}
    (h : b.stream.skipNewlines.next = .ok (t, s)) :
    ({ b with stream := s } : Builder).measure ≤ b.measure ∧
      (t.kind ≠ .eof → ({ b with stream := s } : Builder).measure + 3 ≤ b.measure) := by
  have hle := TokenStream.length_next_le h
  have hsk := b.stream.tokens_skipNewlines_le
  refine ⟨measure_with_stream (n := 0) (Nat.le_trans hle hsk), fun hk => ?_⟩
  have hlt := TokenStream.length_next_lt h hk
  exact measure_with_stream (n := 1) (Nat.le_trans hlt hsk)

theorem body_lt {parent : Option Nat} {b b' : Builder} {s : Scope} {outer : List Scope}
    (hs : b.scopes = s :: outer) (h : b.body parent = .ok b') : b'.measure < b.measure := by
  obtain ⟨t, stream, hn, h⟩ := read_eq_ok h
  obtain ⟨hle, hlt⟩ := next_skipNewlines_le hn
  have hw := two_le_weight s
  split at h
  · simp only [Except.ok.injEq] at h
    have := measure_leave_le (b := { b with stream }) hs
    rw [← h]
    omega
  · simp [fail] at h
  · rename_i id hk _
    simp only [Except.ok.injEq] at h
    have := hlt (by simp [hk])
    have := measure_leave_le (b := { b with stream, tree := b.tree.close id t.span }) hs
    rw [← h]
    simp only [measure] at *
    omega
  · simp [fail] at h
  · simp [fail] at h
  · simp [fail] at h
  · rename_i hk _
    have := hlt (by simp [hk])
    have := item_le h
    omega
  · rename_i hk _
    have := hlt (by simp [hk])
    have := item_le h
    omega
  · rename_i hk _
    have := hlt (by simp [hk])
    have := measure_pushScope (fun _ => rfl) h
    omega
  · simp [fail] at h

theorem attrEnd_le {b b' : Builder} (h : b.attrEnd = .ok b') : b'.measure ≤ b.measure := by
  obtain ⟨t, _, h⟩ := attempt_eq_ok h
  have := measure_tail_le b
  split at h
  · simp only [Except.ok.injEq] at h
    rwa [← h]
  · simp only [Except.ok.injEq] at h
    exact h ▸ Nat.le_refl _
  · simp only [Except.ok.injEq] at h
    exact h ▸ Nat.le_refl _
  · split at h
    · simp only [Except.ok.injEq] at h
      rwa [← h]
    · simp [fail] at h
  · simp [fail] at h

theorem attr_lt {id : Nat} {complete : Bool} {b b' : Builder} {outer : List Scope}
    (hs : b.scopes = .attr id complete :: outer) (h : b.attr id complete = .ok b') :
    b'.measure < b.measure := by
  simp only [attr] at h
  split at h
  · rename_i hc
    cases hk : b.continuation id with
    | error e => simp [hk, Except.bind] at h
    | ok b₁ =>
      simp only [hk, Except.bind] at h
      obtain ⟨hlen, hsc⟩ := continuation_le hk
      have := attrEnd_le h
      have := measure_leave_le (b := { b₁ with tree := b₁.tree.closeAround id }) (hsc.trans hs)
      simp only [measure, hsc, hs, hc, Scope.weight] at *
      omega
  · exact value_lt h

theorem separator_le {b b' : Builder} (h : b.separator = .ok b') : b'.measure ≤ b.measure := by
  obtain ⟨first, _, h⟩ := attempt_eq_ok h
  obtain ⟨t, _, h⟩ := attempt_eq_ok h
  have hsk := measure_skipNewlines_le b
  split at h
  · simp only [Except.ok.injEq] at h
    have := measure_tail_le { b with stream := b.stream.skipNewlines }
    rw [← h]
    exact Nat.le_trans this hsk
  split at h
  · simp only [Except.ok.injEq] at h
    rwa [← h]
  · simp [fail] at h

theorem array_lt {id : Nat} {complete : Bool} {b b' : Builder} {outer : List Scope}
    (hs : b.scopes = .array id complete :: outer) (h : b.array id complete = .ok b') :
    b'.measure < b.measure := by
  simp only [array] at h
  split at h
  · rename_i hc
    subst hc
    cases hk : continuation id { b with scopes := .array id false :: b.scopes.tail } with
    | error e => simp [hk, Except.bind] at h
    | ok b₁ =>
      simp only [hk, Except.bind] at h
      obtain ⟨hlen, hsc⟩ := continuation_le hk
      have := separator_le h
      simp only [measure, hsc, hs, scopesWeight, List.tail_cons, Scope.weight] at *
      omega
  · obtain ⟨t, ht, h⟩ := attempt_eq_ok h
    have hsk := measure_skipNewlines_le b
    split at h
    · rename_i hk
      simp only [Except.ok.injEq] at h
      have hn : b.stream.skipNewlines.next = .ok (t, b.stream.skipNewlines.tail) := by
        simp [TokenStream.next, ht, Except.map]
      have := (next_skipNewlines_le hn).2 (by simp [hk])
      have := measure_leave_le (b := { b with
        stream := b.stream.skipNewlines.tail, tree := b.tree.close id t.span }) hs
      have := two_le_weight (.array id complete)
      rw [← h]
      simp only [measure] at *
      omega
    · simp [fail] at h
    · exact Nat.lt_of_lt_of_le (value_lt h) hsk

theorem entry_lt {id : Nat} {key : String} {span : Span} {b b' : Builder}
    (h : b.entry id key span = .ok b') : b'.measure < b.measure := by
  obtain ⟨t, s, hn, h⟩ := read_eq_ok h
  split at h
  · rename_i hk
    have hne : t.kind ≠ .eof := by rcases hk with hk | hk <;> simp [hk]
    have := measure_with_stream (n := 1) (TokenStream.length_next_lt hn hne)
    have := measure_pushScope (fun _ => rfl) h
    omega
  · simp [fail] at h

theorem map_lt {id : Nat} {b b' : Builder} {outer : List Scope}
    (hs : b.scopes = .map id :: outer) (h : b.map id = .ok b') : b'.measure < b.measure := by
  obtain ⟨t, stream, hn, h⟩ := read_eq_ok h
  obtain ⟨hle, hlt⟩ := next_skipNewlines_le hn
  split at h
  · rename_i hk
    simp only [Except.ok.injEq] at h
    have := hlt (by simp [hk])
    have := measure_leave_le (b := { b with stream, tree := b.tree.close id t.span }) hs
    rw [← h]
    simp only [measure, Scope.weight] at *
    omega
  · simp [fail] at h
  · exact Nat.lt_of_lt_of_le (entry_lt h) hle
  · exact Nat.lt_of_lt_of_le (entry_lt h) hle
  · exact Nat.lt_of_lt_of_le (entry_lt h) hle
  · exact Nat.lt_of_lt_of_le (entry_lt h) hle
  · exact Nat.lt_of_lt_of_le (entry_lt h) hle
  · obtain ⟨stop, s, hg, h⟩ := read_eq_ok h
    have := measure_with_stream (b := { b with stream }) (n := 0)
      (Nat.le_of_lt (TokenStream.length_skipGroup_lt hg))
    exact Nat.lt_of_lt_of_le (entry_lt h) (Nat.le_trans this hle)
  · simp [fail] at h

theorem step_lt {scope : Scope} {outer : List Scope} {b b' : Builder}
    (hs : b.scopes = scope :: outer) (h : b.step scope = .ok b') : b'.measure < b.measure := by
  cases scope with
  | document => exact body_lt hs h
  | block id => exact body_lt hs h
  | attr id complete => exact attr_lt hs h
  | array id complete => exact array_lt hs h
  | map id => exact map_lt hs h

end Builder

/-! ## The run -/

/-- What was read of a source, and the error that ended the reading, if one did. -/
structure Parsed where
  tree : SymbolTree
  error : Option Error
deriving DecidableEq, Repr

/-- Takes steps until no scope is open or a step fails. -/
def Builder.run (b : Builder) : Parsed :=
  match _ : b.scopes with
  | [] => ⟨b.tree, none⟩
  | scope :: _ =>
    match _ : b.step scope with
    | .error stopped => ⟨stopped.tree, some stopped.error⟩
    | .ok next => next.run
termination_by b.measure
decreasing_by
  rename_i hs h
  exact step_lt hs h

/-- Builds the symbol tree of `source`. -/
def parseTree (source : String) : Parsed := (Builder.ofString source).run

end Hcl
