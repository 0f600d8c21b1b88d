import Mathlib.Logic.Relation
import Hcl.Proofs.Builder.Outcome

/-!
# Every move is a step

The converse of `Stage.outcome_step`: where a move is possible, the builder makes it.
-/

namespace Hcl

open Hcl.Tree Hcl.TokenStream

variable {source : List Char} {outer sp : Spine} {symbol : Symbol} {trees : List Tree} {c : Bool}
  {s s' rest : TokenStream} {t : Token} {ts : List Token} {e : Except LexicalError Position}

theorem TokenStream.next_of_eq (h : s = ⟨t :: ts, e⟩) : s.next = .ok (t, ⟨ts, e⟩) := by
  rw [h]
  exact next_cons t ts e

namespace Stage

/-! ## Bodies -/

theorem step_body (hb : sp.InBody) (s : TokenStream) (c : Bool) :
    step source ⟨sp, c, s⟩ = (builder source ⟨sp, c, s⟩).body sp.id? := by
  cases sp with
  | root ts => rfl
  | under outer symbol ts =>
    obtain ⟨names, hk⟩ := hb
    simp only [step, Spine.scope, hk, Scope.ofKind]
    rfl

theorem body_eq (hs : s.skipNewlines = ⟨t :: ts, e⟩) (hk : t.kind = .ident ∨ t.kind = .string) :
    (builder source ⟨sp, c, s⟩).body sp.id? = (builder source ⟨sp, c, ⟨ts, e⟩⟩).item sp.id? t := by
  have hn : s.skipNewlines.next = .ok (t, ⟨ts, e⟩) := next_of_eq hs
  rw [Builder.body]
  refine (read_ok hn).trans ?_
  rcases hk with hk | hk <;> simp only [hk]

theorem step_attr {sign : Token} (hb : sp.InBody) (hs : s.skipNewlines = ⟨t :: sign :: ts, e⟩)
    (hk : t.kind = .ident) (hsign : sign.kind = .equals) (hd : sp.depth + 1 < maxDepth) :
    step source ⟨sp, c, s⟩ =
      .ok (builder source ⟨sp.under (.attr t.text t.span) [], false, ⟨ts, e⟩⟩) := by
  have hahead : (if t.kind = .ident then
      (peek ⟨sign :: ts, e⟩).map (·.kind == .equals) else .ok false) = .ok true := by
    simp [hk, hsign, Except.map]
  rw [step_body hb, body_eq hs (.inl hk), Builder.item]
  refine (attempt_ok _ hahead).trans ?_
  simp only [if_true]
  exact pushScope_builder ⟨ts, e⟩ (by rfl) hd (hb.scopes_eq c)

/-- A label or brace behind a name begins a block. -/
theorem ne_equals_of_labels {sign : Token} {name : String} {names : List String}
    (h : labels name ⟨sign :: ts, e⟩ = .ok (names, rest)) : sign.kind ≠ .equals := by
  intro hk
  simp [labels, labelsFrom, hk] at h

theorem step_block {names : List String} (hb : sp.InBody) (hs : s.skipNewlines = ⟨t :: ts, e⟩)
    (hk : t.kind = .ident ∨ t.kind = .string) (hl : labels t.text ⟨ts, e⟩ = .ok (names, rest))
    (hd : sp.depth + 1 < maxDepth) :
    step source ⟨sp, c, s⟩ =
      .ok (builder source ⟨sp.under (.block names t.span) [], false, rest⟩) := by
  have hahead : (if t.kind = .ident then
      (peek ⟨ts, e⟩).map (·.kind == .equals) else .ok false) = .ok false := by
    cases ts with
    | nil => cases e <;> simp [labels, labelsFrom] at hl
    | cons sign ts =>
      have hne := ne_equals_of_labels hl
      simp [Except.map, hne]
  rw [step_body hb, body_eq hs hk, Builder.item]
  refine (attempt_ok _ hahead).trans ?_
  refine (read_ok hl).trans ?_
  exact pushScope_builder rest rfl hd (hb.scopes_eq c)

theorem step_bodyArray (hb : sp.InBody) (hs : s.skipNewlines = ⟨t :: ts, e⟩)
    (hk : t.kind = .lBracket) (hd : sp.depth + 1 < maxDepth) :
    step source ⟨sp, c, s⟩ =
      .ok (builder source ⟨sp.under (.array t.span) [], false, ⟨ts, e⟩⟩) := by
  have hn : s.skipNewlines.next = .ok (t, ⟨ts, e⟩) := next_of_eq hs
  rw [step_body hb, Builder.body]
  refine (read_ok hn).trans ?_
  simp only [hk]
  exact pushScope_builder ⟨ts, e⟩ rfl hd (hb.scopes_eq c)

theorem step_blockEnd {names : List String} (hk : symbol.kind = .block names)
    (hs : s.skipNewlines = ⟨t :: ts, e⟩) (ht : t.kind = .rBrace) :
    step source ⟨outer.under symbol trees, c, s⟩ =
      .ok (builder source ⟨outer.append [node (symbol.extendTo t.span) trees], true, ⟨ts, e⟩⟩) := by
  have hb : (outer.under symbol trees).InBody := ⟨names, hk⟩
  have hn : s.skipNewlines.next = .ok (t, ⟨ts, e⟩) := next_of_eq hs
  rw [step_body hb, Builder.body]
  refine (read_ok hn).trans ?_
  simp only [ht, Spine.id?_under]
  exact congrArg Except.ok (close_builder source outer c ⟨ts, e⟩ symbol trees t.span)

/-! ## Values -/

theorem step_value (hk : symbol.kind = .attr ∨ symbol.kind = .array)
    (hs : Spine.valueStream symbol.kind s = ⟨t :: ts, e⟩) (ht : t.kind ≠ .rBracket)
    (he : t.kind ≠ .eof) :
    step source ⟨outer.under symbol trees, false, s⟩ =
      (builder source ⟨outer.under symbol trees, false, ⟨t :: ts, e⟩⟩).value outer.size := by
  rw [Spine.valueStream] at hs
  rcases hk with hk | hk
  · have hs : s = ⟨t :: ts, e⟩ := by simpa [hk] using hs
    simp only [step, Spine.scope, hk, Scope.ofKind, Builder.step, Builder.attr, Bool.false_eq_true,
      if_false, hs]
  · have hs : s.skipNewlines = ⟨t :: ts, e⟩ := by simpa [hk] using hs
    have hp : s.skipNewlines.peek = .ok t := hs ▸ peek_cons t ts e
    simp only [step, Spine.scope, hk, Scope.ofKind, Builder.step, Builder.array, Bool.false_eq_true,
      if_false]
    refine (attempt_ok _ hp).trans ?_
    have hb : { builder source ⟨outer.under symbol trees, false, s⟩ with
        stream := (builder source ⟨outer.under symbol trees, false, s⟩).stream.skipNewlines } =
        builder source ⟨outer.under symbol trees, false, ⟨t :: ts, e⟩⟩ := by
      rw [← hs]
      rfl
    rw [hb]
    split
    · rename_i hbracket
      exact absurd hbracket ht
    · rename_i heof
      exact absurd heof he
    · rfl

theorem value_eq (source : List Char) (sp : Spine) (parent : Nat) :
    (builder source ⟨sp, c, ⟨t :: ts, e⟩⟩).value parent =
      if t.kind = .lBracket ∨ t.kind = .lBrace then
        (builder source ⟨sp, c, ⟨ts, e⟩⟩).attempt (comprehensionAhead ⟨ts, e⟩) fun ahead =>
          if ahead then
            (builder source ⟨sp, c, ⟨ts, e⟩⟩).read (comprehension source t ⟨ts, e⟩) fun v b =>
              .ok (b.pushValue parent v)
          else if t.kind = .lBracket then
            (builder source ⟨sp, c, ⟨ts, e⟩⟩).pushScope (some parent) (.array t.span) (.array · false)
          else (builder source ⟨sp, c, ⟨ts, e⟩⟩).pushScope (some parent) (.map t.span) .map
      else
        (builder source ⟨sp, c, ⟨ts, e⟩⟩).read (operand source t ⟨ts, e⟩) fun v b =>
          .ok (b.pushValue parent v) := by
  rw [Builder.value]
  exact read_ok (next_cons t ts e)

theorem step_operand {v : Symbol} (hk : symbol.kind = .attr ∨ symbol.kind = .array)
    (hs : Spine.valueStream symbol.kind s = ⟨t :: ts, e⟩)
    (hv : operand source t ⟨ts, e⟩ = .ok (v, rest)) :
    step source ⟨outer.under symbol trees, false, s⟩ =
      .ok (builder source ⟨outer.under symbol (trees ++ [leaf v]), true, rest⟩) := by
  have hkind : ∀ kind, kind = .lBracket ∨ kind = .lBrace ∨ kind = .rBracket ∨ kind = .eof →
      t.kind ≠ kind := by
    rintro kind hkind rfl
    rcases hkind with h | h | h | h <;> simp [operand, h] at hv
  rw [step_value hk hs (hkind _ (by simp)) (hkind _ (by simp)), value_eq]
  rw [if_neg (not_or.mpr ⟨hkind _ (by simp), hkind _ (by simp)⟩)]
  refine (read_ok hv).trans ?_
  exact congrArg Except.ok (pushValue_builder source outer symbol trees v rest)

theorem step_comprehension {v : Symbol} (hk : symbol.kind = .attr ∨ symbol.kind = .array)
    (hs : Spine.valueStream symbol.kind s = ⟨t :: ts, e⟩)
    (ht : t.kind = .lBracket ∨ t.kind = .lBrace) (ha : comprehensionAhead ⟨ts, e⟩ = .ok true)
    (hv : comprehension source t ⟨ts, e⟩ = .ok (v, rest)) :
    step source ⟨outer.under symbol trees, false, s⟩ =
      .ok (builder source ⟨outer.under symbol (trees ++ [leaf v]), true, rest⟩) := by
  rw [step_value hk hs (by rcases ht with h | h <;> simp [h]) (by rcases ht with h | h <;> simp [h]),
    value_eq, if_pos ht]
  refine (attempt_ok _ ha).trans ?_
  rw [if_pos rfl]
  refine (read_ok hv).trans ?_
  exact congrArg Except.ok (pushValue_builder source outer symbol trees v rest)

theorem step_array (hk : symbol.kind = .attr ∨ symbol.kind = .array)
    (hs : Spine.valueStream symbol.kind s = ⟨t :: ts, e⟩) (ht : t.kind = .lBracket)
    (ha : comprehensionAhead ⟨ts, e⟩ = .ok false)
    (hd : (outer.under symbol trees).depth + 1 < maxDepth) :
    step source ⟨outer.under symbol trees, false, s⟩ =
      .ok (builder source
        ⟨(outer.under symbol trees).under (.array t.span) [], false, ⟨ts, e⟩⟩) := by
  rw [step_value hk hs (by simp [ht]) (by simp [ht]), value_eq, if_pos (.inl ht)]
  refine (attempt_ok _ ha).trans ?_
  simp only [Bool.false_eq_true, if_false, ht, if_true]
  exact pushScope_builder ⟨ts, e⟩ rfl hd rfl

theorem step_map (hk : symbol.kind = .attr ∨ symbol.kind = .array)
    (hs : Spine.valueStream symbol.kind s = ⟨t :: ts, e⟩) (ht : t.kind = .lBrace)
    (ha : comprehensionAhead ⟨ts, e⟩ = .ok false)
    (hd : (outer.under symbol trees).depth + 1 < maxDepth) :
    step source ⟨outer.under symbol trees, false, s⟩ =
      .ok (builder source ⟨(outer.under symbol trees).under (.map t.span) [], false, ⟨ts, e⟩⟩) := by
  rw [step_value hk hs (by simp [ht]) (by simp [ht]), value_eq, if_pos (.inr ht)]
  refine (attempt_ok _ ha).trans ?_
  simp only [Bool.false_eq_true, if_false, ht, reduceCtorEq]
  exact pushScope_builder ⟨ts, e⟩ rfl hd rfl

/-! ## Behind a value -/

theorem continuation_eq {v v' : Tree} (outer : Spine) (c : Bool)
    (hk : symbol.kind = .attr ∨ symbol.kind = .array)
    (trees : List Tree) (hx : Extends source v s v' s') :
    (builder source ⟨outer.under symbol (trees ++ [v]), c, s⟩).continuation outer.size =
      .ok (builder source ⟨outer.under symbol (trees ++ [v']), c, s'⟩) := by
  rw [continuation_builder]
  cases hx with
  | @stay s t hp hoperator hquestion =>
    refine (attempt_ok _ hp).trans ?_
    rw [if_neg (not_or.mpr ⟨hoperator, hquestion⟩)]
  | @operation t ts e stop rest hop he =>
    refine (attempt_ok _ (peek_cons t ts e)).trans ?_
    rw [if_pos hop]
    refine (read_ok he).trans ?_
    exact congrArg Except.ok (collapse_builder source outer hk trees v c _ _)

theorem attrEnd_eq (sp : Spine) (c : Bool) (h : AttrEnd sp.InMap s rest) :
    (builder source ⟨sp, c, s⟩).attrEnd = .ok (builder source ⟨sp, c, rest⟩) := by
  rw [Builder.attrEnd]
  cases h with
  | @newline t ts e hk =>
    refine (attempt_ok _ (peek_cons t ts e)).trans ?_
    simp only [hk]
    rfl
  | @comma t ts e hk hmap =>
    have hin : (builder source ⟨sp, c, ⟨t :: ts, e⟩⟩).inMap = true := by
      cases sp with
      | root trees => exact hmap.elim
      | under outer symbol trees =>
        have hkind : symbol.kind = .map := hmap
        simp only [Builder.inMap, builder, Spine.scopes_under, hkind, Scope.ofKind]
    refine (attempt_ok _ (peek_cons t ts e)).trans ?_
    simp only [hk, hin, if_true]
    rfl
  | @stop s t hp hk =>
    refine (attempt_ok _ hp).trans ?_
    rcases hk with hk | hk <;> simp only [hk]

theorem step_attrEnd {v v' : Tree} (hk : symbol.kind = .attr) (hx : Extends source v s v' s')
    (hend : AttrEnd outer.InMap s' rest) :
    step source ⟨outer.under symbol [v], true, s⟩ =
      .ok (builder source
        ⟨outer.append [node (symbol.extendTo v'.symbol.span) [v']], true, rest⟩) := by
  have hcontinuation := continuation_eq outer true (.inl hk) [] hx
  have hclose : (builder source ⟨outer.under symbol [v'], true, s'⟩).tree.closeAround outer.size =
      (outer.under (symbol.extendTo v'.symbol.span) [v']).tree :=
    Spine.closeAround_tree outer symbol [] v'
  have hleave := leave_builder source outer true s' symbol [v'] v'.symbol.span
  have hend : AttrEnd (outer.append [node (symbol.extendTo v'.symbol.span) [v']]).InMap s' rest := by
    cases outer <;> exact hend
  simp only [List.nil_append] at hcontinuation
  simp only [step, Spine.scope, hk, Scope.ofKind, Builder.step, Builder.attr, if_true,
    hcontinuation, Except.bind, hclose]
  rw [hleave]
  exact attrEnd_eq _ true hend

/-! ## Arrays -/

theorem separator_eq (sp : Spine) (c : Bool) (h : Separator s rest) :
    (builder source ⟨sp, c, s⟩).separator = .ok (builder source ⟨sp, c, rest⟩) := by
  rw [Builder.separator]
  cases h with
  | @comma t ts e hs hk =>
    have hp : s.skipNewlines.peek = .ok t := hs ▸ peek_cons t ts e
    obtain ⟨first, hfirst⟩ : ∃ first, s.peek = .ok first := by
      obtain ⟨tokens, ending⟩ := s
      cases tokens with
      | nil => simp [skipNewlines] at hs
      | cons u us => exact ⟨u, rfl⟩
    refine (attempt_ok _ hfirst).trans ?_
    refine (attempt_ok _ hp).trans ?_
    rw [if_pos hk]
    have htail : s.skipNewlines.tail = ⟨ts, e⟩ := hs ▸ tail_cons t ts e
    rw [← htail]
    rfl
  | @stop first t hfirst hp hk hstop =>
    refine (attempt_ok _ hfirst).trans ?_
    refine (attempt_ok _ hp).trans ?_
    rw [if_neg hk, if_pos hstop]
    rfl

theorem step_element {v v' : Tree} (hk : symbol.kind = .array) (hx : Extends source v s v' s')
    (hsep : Separator s' rest) :
    step source ⟨outer.under symbol (trees ++ [v]), true, s⟩ =
      .ok (builder source ⟨outer.under symbol (trees ++ [v']), false, rest⟩) := by
  have hb : { builder source ⟨outer.under symbol (trees ++ [v]), true, s⟩ with
      scopes := .array outer.size false ::
        (builder source ⟨outer.under symbol (trees ++ [v]), true, s⟩).scopes.tail } =
      builder source ⟨outer.under symbol (trees ++ [v]), false, s⟩ := by
    simp only [builder, Spine.scopes_under, hk, Scope.ofKind, List.tail_cons]
  simp only [step, Spine.scope, hk, Scope.ofKind, Builder.step, Builder.array, if_true, hb]
  rw [continuation_eq outer false (.inr hk) trees hx]
  exact separator_eq _ false hsep

theorem step_arrayEnd (hk : symbol.kind = .array) (hs : s.skipNewlines = ⟨t :: ts, e⟩)
    (ht : t.kind = .rBracket) :
    step source ⟨outer.under symbol trees, false, s⟩ =
      .ok (builder source ⟨outer.append [node (symbol.extendTo t.span) trees], true, ⟨ts, e⟩⟩) := by
  have hp : s.skipNewlines.peek = .ok t := hs ▸ peek_cons t ts e
  have htail : s.skipNewlines.tail = ⟨ts, e⟩ := hs ▸ tail_cons t ts e
  simp only [step, Spine.scope, hk, Scope.ofKind, Builder.step, Builder.array, Bool.false_eq_true,
    if_false]
  refine (attempt_ok _ hp).trans ?_
  simp only [ht]
  rw [← htail]
  exact congrArg Except.ok
    (close_builder source outer false s.skipNewlines.tail symbol trees t.span)

/-! ## Maps -/

theorem step_of_map (hk : symbol.kind = .map) (s : TokenStream) :
    step source ⟨outer.under symbol trees, c, s⟩ =
      (builder source ⟨outer.under symbol trees, c, s⟩).map outer.size := by
  simp only [step, Spine.scope, hk, Scope.ofKind, Builder.step]

theorem entry_eq {sign : Token} {key : String} {span : Span} (hk : symbol.kind = .map)
    (hsign : sign.kind = .equals ∨ sign.kind = .colon)
    (hd : (outer.under symbol trees).depth + 1 < maxDepth) :
    (builder source ⟨outer.under symbol trees, c, ⟨sign :: ts, e⟩⟩).entry outer.size key span =
      .ok (builder source
        ⟨(outer.under symbol trees).under (.attr key span) [], false, ⟨ts, e⟩⟩) := by
  rw [Builder.entry]
  refine (read_ok (next_cons sign ts e)).trans ?_
  rw [if_pos hsign]
  exact pushScope_builder ⟨ts, e⟩ (by rfl) hd (Spine.scopes_of_map hk c)

theorem step_entry {sign : Token} {key : String} {span : Span} (hk : symbol.kind = .map)
    (hkey : EntryKey source s.skipNewlines key span ⟨sign :: ts, e⟩)
    (hsign : sign.kind = .equals ∨ sign.kind = .colon)
    (hd : (outer.under symbol trees).depth + 1 < maxDepth) :
    step source ⟨outer.under symbol trees, c, s⟩ =
      .ok (builder source
        ⟨(outer.under symbol trees).under (.attr key span) [], false, ⟨ts, e⟩⟩) := by
  rw [step_of_map hk, Builder.map]
  generalize hskip : s.skipNewlines = s₀ at hkey
  have hstream : (builder source ⟨outer.under symbol trees, c, s⟩).stream.skipNewlines = s₀ := hskip
  rw [hstream]
  cases hkey with
  | @word t _ _ ht =>
    refine (read_ok (next_cons t _ e)).trans ?_
    rcases ht with ht | ht | ht | ht | ht <;> simp only [ht] <;> exact entry_eq hk hsign hd
  | @group t ts' _ stop _ ht hg =>
    refine (read_ok (next_cons t ts' _)).trans ?_
    simp only [ht]
    refine (read_ok hg).trans ?_
    exact entry_eq hk hsign hd

theorem step_mapEnd (hk : symbol.kind = .map) (hs : s.skipNewlines = ⟨t :: ts, e⟩)
    (ht : t.kind = .rBrace) :
    step source ⟨outer.under symbol trees, c, s⟩ =
      .ok (builder source ⟨outer.append [node (symbol.extendTo t.span) trees], true, ⟨ts, e⟩⟩) := by
  have hn : s.skipNewlines.next = .ok (t, ⟨ts, e⟩) := next_of_eq hs
  rw [step_of_map hk, Builder.map]
  refine (read_ok hn).trans ?_
  simp only [ht]
  exact congrArg Except.ok (close_builder source outer c ⟨ts, e⟩ symbol trees t.span)

end Stage

/-! ## One move -/

theorem Move.step_eq {st st' : Stage} (h : Move source st st') :
    st.step source = .ok (st'.builder source) := by
  cases h with
  | attr hb hs hk hsign hd => exact Stage.step_attr hb hs hk hsign hd
  | block hb hs hk hl hd => exact Stage.step_block hb hs hk hl hd
  | bodyArray hb hs hk hd => exact Stage.step_bodyArray hb hs hk hd
  | blockEnd hk hs ht => exact Stage.step_blockEnd hk hs ht
  | operand hk hs hv => exact Stage.step_operand hk hs hv
  | comprehension hk hs ht ha hv => exact Stage.step_comprehension hk hs ht ha hv
  | array hk hs ht ha hd => exact Stage.step_array hk hs ht ha hd
  | map hk hs ht ha hd => exact Stage.step_map hk hs ht ha hd
  | attrEnd hk hx hend => exact Stage.step_attrEnd hk hx hend
  | element hk hx hsep => exact Stage.step_element hk hx hsep
  | arrayEnd hk hs ht => exact Stage.step_arrayEnd hk hs ht
  | entry hk hkey hsign hd => exact Stage.step_entry hk hkey hsign hd
  | mapEnd hk hs ht => exact Stage.step_mapEnd hk hs ht

/-- A builder comes to the same end from every stage it passes. -/
theorem Move.run_eq {st st' : Stage} (h : Relation.ReflTransGen (Move source) st st') :
    (st.builder source).run = (st'.builder source).run := by
  induction h with
  | refl => rfl
  | tail _ hmove ih => rw [ih, Stage.run_builder, hmove.step_eq]

/-- The end of the source is the end of a run outside of all symbols. -/
theorem run_of_skipNewlines_eq {p : Position} (h : s.skipNewlines = ⟨[], .ok p⟩) :
    (Stage.builder source ⟨.root trees, c, s⟩).run = ⟨(Spine.root trees).tree, none⟩ := by
  have hn : s.skipNewlines.next = .ok (.atEnd p, ⟨[], .ok p⟩) := by
    rw [h]
    rfl
  have hstep : Stage.step source ⟨.root trees, c, s⟩ =
      .ok (Stage.builder source ⟨.root trees, c, ⟨[], .ok p⟩⟩).leave := by
    have hb : (Spine.root trees).InBody := trivial
    rw [Stage.step_body hb, Builder.body]
    exact Stage.read_ok hn
  rw [Stage.run_builder, hstep]
  exact Builder.run_of_scopes_nil rfl

end Hcl
