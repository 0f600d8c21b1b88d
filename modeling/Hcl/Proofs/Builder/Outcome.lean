import Hcl.Proofs.Builder.Move
import Hcl.Proofs.Forest.Sound

/-!
# Outcomes of a step

From a sound stage a step makes a move, ends the reading at the end of the source, or stops with an
error and a tree that is sound as far as it goes.
-/

namespace Hcl

open Hcl.Tree Hcl.TokenStream

variable {source : List Char}

/-- What a step from a stage may have made of the forest when it fails. Only a symbol that is opened
too deep, and an operation behind which a separator is missing, show in it. -/
inductive Leaves (source : List Char) : Stage → Spine → Prop where
  | same {sp : Spine} {c : Bool} {s : TokenStream} : Leaves source ⟨sp, c, s⟩ sp
  | opened {sp : Spine} {c : Bool} {s : TokenStream} {symbol : Symbol} :
      (∀ e, symbol.kind ≠ .eval e) → Leaves source ⟨sp, c, s⟩ (sp.under symbol [])
  | attr {outer : Spine} {symbol : Symbol} {v v' : Tree} {s s' : TokenStream} :
      symbol.kind = .attr → Extends source v s v' s' →
      Leaves source ⟨outer.under symbol [v], true, s⟩
        (outer.append [node (symbol.extendTo v'.symbol.span) [v']])
  | element {outer : Spine} {symbol : Symbol} {trees : List Tree} {v v' : Tree}
      {s s' : TokenStream} : symbol.kind = .array → Extends source v s v' s' →
      Leaves source ⟨outer.under symbol (trees ++ [v]), true, s⟩
        (outer.under symbol (trees ++ [v']))

inductive Outcome (source : List Char) (st : Stage) : Builder.Step → Prop where
  | move {st' : Stage} : Move source st st' → Outcome source st (.ok (st'.builder source))
  | finish {trees : List Tree} {t : Token} {b : Builder} : st.spine = .root trees →
      st.stream.skipNewlines.peek = .ok t → t.kind = .eof → b.scopes = [] →
      b.tree = st.spine.tree → Outcome source st (.ok b)
  | stop {stopped : Stopped} {sp : Spine} {c : Bool} : stopped.tree = sp.tree → sp.Sound c →
      Leaves source st sp → Outcome source st (.error stopped)

namespace TokenStream

theorem head?_of_labelsFrom {ending : Except LexicalError Position} {read names : List String}
    {name : String} {ts : List Token} {rest : TokenStream}
    (h : labelsFrom ending (read ++ [name]) ts = .ok (names, rest)) : names.head? = some name := by
  induction ts generalizing read with
  | nil => cases ending <;> simp [labelsFrom] at h
  | cons t ts ih =>
    rw [labelsFrom] at h
    split at h
    · rw [← List.cons_append] at h
      exact ih h
    · split at h
      · cases h
        simp
      · cases h

/-- The first name of a block is the one it begins with. -/
theorem head?_of_labels {name : String} {s rest : TokenStream} {names : List String}
    (h : s.labels name = .ok (names, rest)) : names.head? = some name := by
  rw [labels, ← List.nil_append [name]] at h
  exact head?_of_labelsFrom h

end TokenStream

theorem Extends.sound {v v' : Tree} {s s' : TokenStream} (h : Extends source v s v' s')
    (hk : v.symbol.kind.isValue = true) (hv : v.Sound) :
    v'.symbol.kind.isValue = true ∧ v'.Sound := by
  cases h with
  | stay => exact ⟨hk, hv⟩
  | operation => exact ⟨rfl, sound_leaf rfl⟩

/-- Attributes and arrays take values. -/
theorem SymbolKind.admits_eq_isValue {kind : SymbolKind} (hk : kind = .attr ∨ kind = .array)
    (child : SymbolKind) : kind.admits child = child.isValue := by
  rcases hk with rfl | rfl <;> rfl

/-- An attribute or element whose value goes on. -/
theorem Spine.Sound.extend {outer : Spine} {symbol : Symbol} (trees : List Tree) {v v' : Tree}
    {c : Bool} {s s' : TokenStream} (h : (outer.under symbol (trees ++ [v])).Sound c)
    (hk : symbol.kind = .attr ∨ symbol.kind = .array) (hx : Extends source v s v' s') :
    (outer.under symbol (trees ++ [v'])).Sound c := by
  obtain ⟨ho, ha, hn, hts, hh⟩ := h
  obtain ⟨hts, hv⟩ := soundAll_append.mp hts
  obtain ⟨hkv, hv⟩ := soundAll_singleton.mp hv
  rw [SymbolKind.admits_eq_isValue hk] at hkv
  obtain ⟨hkv', hv'⟩ := Extends.sound hx hkv hv
  refine ⟨ho, ha, hn, soundAll_append.mpr ⟨hts, soundAll_singleton.mpr ⟨?_, hv'⟩⟩, ?_⟩
  · rw [SymbolKind.admits_eq_isValue hk]
    exact hkv'
  · rcases hk with hk | hk
    · simpa [hk, Spine.Holds] using hh
    · simp [hk, Spine.Holds]

/-! ## Opened symbols -/

namespace Spine

variable {sp outer : Spine} {symbol : Symbol} {trees : List Tree} {c : Bool}

theorem InBody.sound_false (hb : sp.InBody) (h : sp.Sound c) : sp.Sound false :=
  h.of_complete fun outer symbol ts hsp => by
    subst hsp
    obtain ⟨names, hk⟩ := hb
    simp [hk]

theorem InBody.admits (hb : sp.InBody) {kind : SymbolKind} (hi : kind.isItem = true) :
    sp.admits kind = true := by
  cases sp with
  | root ts => exact hi
  | under outer symbol ts =>
    obtain ⟨names, hk⟩ := hb
    simpa [Spine.admits, hk, SymbolKind.admits] using hi

theorem InBody.sound_attr (hb : sp.InBody) (h : sp.Sound c) (name : String) (span : Span) :
    (sp.under (.attr name span) []).Sound false :=
  .under (hb.sound_false h) (hb.admits rfl) (Symbol.named_attr name span) rfl

theorem InBody.sound_block {s rest : TokenStream} {name : String} {names : List String}
    (hb : sp.InBody) (h : sp.Sound c) (hl : s.labels name = .ok (names, rest)) (span : Span) :
    (sp.under (.block names span) []).Sound false := by
  refine .under (hb.sound_false h) (hb.admits rfl) ?_ trivial
  rintro names' ⟨⟩
  refine ⟨?_, rfl⟩
  rintro rfl
  cases head?_of_labels hl

theorem InBody.sound_array (hb : sp.InBody) (h : sp.Sound c) (span : Span) :
    (sp.under (.array span) []).Sound false :=
  .under (hb.sound_false h) (hb.admits rfl) (Symbol.named_array span) nofun

theorem Sound.array (h : (outer.under symbol trees).Sound false)
    (hk : symbol.kind = .attr ∨ symbol.kind = .array) (span : Span) :
    ((outer.under symbol trees).under (.array span) []).Sound false :=
  .under h (SymbolKind.admits_eq_isValue hk .array) (Symbol.named_array span) nofun

theorem Sound.map (h : (outer.under symbol trees).Sound false)
    (hk : symbol.kind = .attr ∨ symbol.kind = .array) (span : Span) :
    ((outer.under symbol trees).under (.map span) []).Sound false :=
  .under h (SymbolKind.admits_eq_isValue hk .map) (Symbol.named_map span) trivial

theorem Sound.entry (h : (outer.under symbol trees).Sound c) (hk : symbol.kind = .map)
    (key : String) (span : Span) :
    ((outer.under symbol trees).under (.attr key span) []).Sound false := by
  refine .under (h.of_complete fun outer' symbol' ts hsp => ?_) ?_ (Symbol.named_attr key span) rfl
  · obtain ⟨-, rfl, -⟩ := Spine.under.inj hsp
    simp [hk]
  · simp [Spine.admits, hk, SymbolKind.admits, Symbol.attr]

end Spine

namespace Outcome

variable {st : Stage} {sp outer : Spine} {c : Bool} {s : TokenStream} {α : Type}

theorem fail (h : sp.Sound c) (hl : Leaves source st sp) (e : Error) :
    Outcome source st ((Stage.builder source ⟨sp, c, s⟩).fail e) :=
  .stop rfl h hl

theorem attempt {r : Except Error α} {go : α → Builder.Step} (h : sp.Sound c)
    (hl : Leaves source st sp) (hgo : ∀ a, r = .ok a → Outcome source st (go a)) :
    Outcome source st ((Stage.builder source ⟨sp, c, s⟩).attempt r go) := by
  cases r with
  | error e => exact fail h hl e
  | ok a => exact hgo a rfl

theorem read {r : Reading α} {go : α → Builder → Builder.Step} (h : sp.Sound c)
    (hl : Leaves source st sp) (hgo : ∀ a s', r = .ok (a, s') →
      Outcome source st (go a (Stage.builder source ⟨sp, c, s'⟩))) :
    Outcome source st ((Stage.builder source ⟨sp, c, s⟩).read r go) := by
  cases r with
  | error e => exact fail h hl e
  | ok r => exact hgo r.1 r.2 rfl

/-- Opening the scope of a new symbol either succeeds or leaves the new symbol as the last one. -/
theorem pushScope {symbol : Symbol} {scope : Nat → Scope}
    (h : (Spine.under sp symbol []).Sound false) (hl : Leaves source st (sp.under symbol []))
    (hscope : scope sp.size = .ofKind symbol.kind sp.size false)
    (hmove : sp.depth + 1 < maxDepth →
      Move source st ⟨sp.under symbol [], false, s⟩) (hc : sp.scopes c = sp.scopes false) :
    Outcome source st ((Stage.builder source ⟨sp, c, s⟩).pushScope sp.id? symbol scope) := by
  by_cases hd : sp.depth + 1 < maxDepth
  · rw [Stage.pushScope_builder s hscope hd hc]
    exact .move (hmove hd)
  · have htree := Spine.tree_open sp symbol
    simp only [Builder.pushScope, Builder.enter, Builder.push, Stage.builder, Spine.length_scopes,
      Spine.size_tree, ← htree, Nat.not_lt.mp hd, if_true]
    exact .stop rfl h hl

/-! ## Values -/

/-- Reading a value on the level of an attribute or array, behind what stands before it. -/
theorem value {symbol : Symbol} {trees : List Tree} {s₀ : TokenStream}
    (h : (Spine.under outer symbol trees).Sound false)
    (hk : symbol.kind = .attr ∨ symbol.kind = .array) (hs : Spine.valueStream symbol.kind s₀ = s) :
    Outcome source ⟨outer.under symbol trees, false, s₀⟩
      ((Stage.builder source ⟨outer.under symbol trees, false, s⟩).value outer.size) := by
  have hvalue := Stage.pushValue_builder source outer symbol trees
  refine read h .same fun first s' hn => ?_
  split
  · rename_i hb
    have hne : first.kind ≠ .eof := by rcases hb with hb | hb <;> simp [hb]
    have hs' := hs.trans (eq_of_next hn hne)
    refine attempt h .same fun ahead ha => ?_
    split
    · rename_i hahead
      subst hahead
      refine read h .same fun v rest hr => ?_
      rw [hvalue]
      exact .move (.comprehension hk hs' hb ha hr)
    have hahead : ahead = false := by simpa using ‹¬ahead = true›
    subst hahead
    split
    · rename_i hl
      exact pushScope (h.array hk first.span) (.opened fun _ h => nomatch h) rfl
        (fun hd => .array hk hs' hl ha hd) rfl
    · rename_i hl
      exact pushScope (h.map hk first.span) (.opened fun _ h => nomatch h) rfl
        (fun hd => .map hk hs' (hb.resolve_left hl) ha hd) rfl
  · refine read h .same fun v rest hr => ?_
    have hne : first.kind ≠ .eof := fun hk => by simp [TokenStream.operand, hk] at hr
    rw [hvalue]
    exact .move (.operand hk (hs.trans (eq_of_next hn hne)) hr)

/-! ## Bodies -/

theorem item {t : Token} {s₀ : TokenStream} (h : sp.Sound c) (hb : sp.InBody)
    (hs : s₀.skipNewlines = ⟨t :: s.tokens, s.ending⟩) (hk : t.kind = .ident ∨ t.kind = .string) :
    Outcome source ⟨sp, c, s₀⟩ ((Stage.builder source ⟨sp, c, s⟩).item sp.id? t) := by
  have hc := hb.scopes_eq c
  refine attempt h .same fun equalsAhead he => ?_
  split
  · rename_i hequals
    have hident : t.kind = .ident := by
      refine hk.resolve_right fun hstring => ?_
      simp [hstring, hequals] at he
    simp only [hident, ↓reduceIte] at he
    obtain ⟨sign, hsign, hequals'⟩ := exists_of_map_ok he
    have hsk : sign.kind = .equals := by simpa [hequals] using hequals'
    have hs' := eq_of_peek hsign (by simp [hsk])
    have hs₀ : s₀.skipNewlines = ⟨t :: sign :: s.tail.tokens, s.ending⟩ := by
      rw [hs]
      exact congrArg (fun ts => (⟨t :: ts, s.ending⟩ : TokenStream)) (congrArg tokens hs')
    exact pushScope (hb.sound_attr h t.text t.span) (.opened fun _ h => nomatch h) rfl
      (fun hd => .attr hb hs₀ hident hsk hd) hc
  · refine read h .same fun names rest hl => ?_
    exact pushScope (hb.sound_block h hl t.span) (.opened fun _ h => nomatch h) rfl
      (fun hd => .block hb hs hk hl hd) hc

/-! ## Behind a value -/

theorem continuation (source : List Char) (outer : Spine) {symbol : Symbol} (trees : List Tree)
    (v : Tree) (c : Bool) (s : TokenStream) (hk : symbol.kind = .attr ∨ symbol.kind = .array) :
    (∃ e, (Stage.builder source ⟨outer.under symbol (trees ++ [v]), c, s⟩).continuation outer.size =
      (Stage.builder source ⟨outer.under symbol (trees ++ [v]), c, s⟩).fail e) ∨
    ∃ v' s', Extends source v s v' s' ∧
      (Stage.builder source ⟨outer.under symbol (trees ++ [v]), c, s⟩).continuation outer.size =
        .ok (Stage.builder source ⟨outer.under symbol (trees ++ [v']), c, s'⟩) := by
  rw [Stage.continuation_builder]
  cases hp : s.peek with
  | error e => exact .inl ⟨e, rfl⟩
  | ok t =>
    simp only [Builder.attempt]
    split
    · rename_i hop
      have hs : s = ⟨t :: s.tail.tokens, s.ending⟩ :=
        eq_of_peek hp (by rcases hop with h | h <;> simp [h])
      cases hx : expressionEnd v.symbol.span s with
      | error e => exact .inl ⟨e, rfl⟩
      | ok r =>
        obtain ⟨stop, rest⟩ := r
        have hextends : Extends source v s
            (leaf (.eval source .operation none v.symbol.span stop)) rest := by
          rw [hs] at hx ⊢
          exact .operation hop hx
        refine .inr ⟨_, rest, hextends, ?_⟩
        exact congrArg Except.ok (Stage.collapse_builder source outer hk trees v c rest _)
    · rename_i hop
      simp only [not_or] at hop
      exact .inr ⟨v, s, .stay hp hop.1 hop.2, rfl⟩

/-! ## Attributes -/

theorem attrEnd {st : Stage} (h : sp.Sound c) (hl : Leaves source st sp)
    (hmove : ∀ rest, AttrEnd sp.InMap s rest → Move source st ⟨sp, c, rest⟩) :
    Outcome source st (Stage.builder source ⟨sp, c, s⟩).attrEnd := by
  refine attempt h hl fun t ht => ?_
  have heq := eq_of_peek (s := s) ht
  have htail : ∀ rest, AttrEnd sp.InMap s rest → Outcome source st
      (.ok (Stage.builder source ⟨sp, c, rest⟩)) := fun rest hrest => .move (hmove rest hrest)
  split
  · rename_i hk
    have hs := heq (by simp [hk])
    exact htail s.tail (by rw [hs]; exact .newline hk)
  · rename_i hk
    exact htail s (.stop ht (.inl hk))
  · rename_i hk
    exact htail s (.stop ht (.inr hk))
  · rename_i hk
    split
    · rename_i hmap
      have hin : sp.InMap := by
        cases sp with
        | root ts => simp [Stage.builder, Builder.inMap, Spine.scopes, Spine.scope] at hmap
        | under outer symbol ts =>
          obtain ⟨-, -, -, -, hh⟩ := h
          simp only [Stage.builder, Builder.inMap, Spine.scopes, Spine.scope] at hmap
          show symbol.kind = .map
          cases hkind : symbol.kind with
          | map => rfl
          | literal _ _ | eval _ | keyword _ =>
            rw [hkind] at hh
            exact hh.elim
          | block _ | attr | array =>
            rw [hkind] at hmap
            cases hmap
      have hs := heq (by simp [hk])
      exact htail s.tail (by rw [hs]; exact .comma hk hin)
    · exact fail h hl _
  · exact fail h hl _

theorem sound_closed {symbol : Symbol} {trees : List Tree}
    (h : (outer.under symbol trees).Sound c) (hk : symbol.kind = .attr → c = true) (stop : Span) :
    (outer.append [node (symbol.extendTo stop) trees]).Sound true := by
  obtain ⟨ho, ha, hn, hts, hh⟩ := h
  refine ho.append ha (sound_node.mpr ⟨hn, fun hattr => ?_, hts⟩)
  have hkind : symbol.kind = .attr := hattr
  simpa [hkind, Spine.Holds, hk hkind] using hh

theorem attr {symbol : Symbol} {trees : List Tree}
    (h : (outer.under symbol trees).Sound c) (hk : symbol.kind = .attr) :
    Outcome source ⟨outer.under symbol trees, c, s⟩
      ((Stage.builder source ⟨outer.under symbol trees, c, s⟩).attr outer.size c) := by
  have hlength : trees.length = c.toNat := by
    obtain ⟨-, -, -, -, hh⟩ := h
    simpa [hk, Spine.Holds] using hh
  cases c with
  | false => exact value h (.inl hk) (by simp [Spine.valueStream, hk])
  | true =>
    obtain ⟨v, rfl⟩ := List.length_eq_one_iff.mp hlength
    simp only [Builder.attr, ↓reduceIte]
    rcases continuation source outer [] v true s (.inl hk) with ⟨e, he⟩ | ⟨v', s', hx, hc⟩
    · rw [List.nil_append] at he
      rw [he]
      exact fail h .same e
    · simp only [List.nil_append] at hc
      rw [hc]
      have hsound := Spine.Sound.extend [] h (.inl hk) hx
      have hclosed := sound_closed hsound (fun _ => rfl) v'.symbol.span
      have hclose : (Stage.builder source ⟨outer.under symbol [v'], true, s'⟩).tree.closeAround
          outer.size = (outer.under (symbol.extendTo v'.symbol.span) [v']).tree :=
        Spine.closeAround_tree outer symbol [] v'
      simp only [Except.bind, hclose]
      refine Stage.leave_builder source outer true s' symbol [v'] v'.symbol.span ▸
        attrEnd hclosed (.attr hk hx) fun rest hrest => .attrEnd hk hx ?_
      cases outer <;> exact hrest

/-! ## Arrays -/

theorem separator {st : Stage} (h : sp.Sound c) (hl : Leaves source st sp)
    (hmove : ∀ rest, Separator s rest → Move source st ⟨sp, c, rest⟩) :
    Outcome source st (Stage.builder source ⟨sp, c, s⟩).separator := by
  refine attempt h hl fun first hfirst => attempt (s := s.skipNewlines) h hl fun t ht => ?_
  have heq := eq_of_peek (s := s.skipNewlines) ht
  split
  · rename_i hk
    have hs := heq (by simp [hk])
    exact .move (hmove s.skipNewlines.tail (.comma hs hk))
  · rename_i hk
    split
    · rename_i hstop
      exact .move (hmove s.skipNewlines (.stop hfirst ht hk hstop))
    · exact fail (s := s.skipNewlines) h hl _

theorem array {symbol : Symbol} {trees : List Tree}
    (h : (outer.under symbol trees).Sound c) (hk : symbol.kind = .array) :
    Outcome source ⟨outer.under symbol trees, c, s⟩
      ((Stage.builder source ⟨outer.under symbol trees, c, s⟩).array outer.size c) := by
  cases c with
  | true =>
    have hne : trees ≠ [] := by
      obtain ⟨-, -, -, -, hh⟩ := h
      exact (by simpa [hk, Spine.Holds] using hh)
    obtain ⟨before, v, rfl⟩ : ∃ before v, trees = before ++ [v] :=
      ⟨_, _, (List.dropLast_concat_getLast hne).symm⟩
    have hopen : (outer.under symbol (before ++ [v])).Sound false :=
      h.of_complete fun outer' symbol' ts hsp => by
        obtain ⟨-, rfl, -⟩ := Spine.under.inj hsp
        simp [hk]
    have hb : { Stage.builder source ⟨outer.under symbol (before ++ [v]), true, s⟩ with
        scopes := .array outer.size false ::
          (Stage.builder source ⟨outer.under symbol (before ++ [v]), true, s⟩).scopes.tail } =
        Stage.builder source ⟨outer.under symbol (before ++ [v]), false, s⟩ := by
      simp only [Stage.builder, Spine.scopes_under, hk, Scope.ofKind, List.tail_cons]
    simp only [Builder.array, ↓reduceIte, hb]
    rcases continuation source outer before v false s (.inr hk) with ⟨e, he⟩ | ⟨v', s', hx, hc⟩
    · rw [he]
      exact fail hopen .same e
    · rw [hc]
      exact separator (hopen.extend before (.inr hk) hx) (.element hk hx) fun rest hrest =>
        .element hk hx hrest
  | false =>
    simp only [Builder.array, Bool.false_eq_true, ↓reduceIte]
    refine attempt (s := s.skipNewlines) h .same fun t ht => ?_
    have heq := eq_of_peek (s := s.skipNewlines) ht
    split
    · rename_i hbracket
      have hclose := Stage.close_builder source outer false s.skipNewlines.tail symbol trees t.span
      exact hclose ▸ .move (.arrayEnd hk (heq (by simp [hbracket])) hbracket)
    · exact fail (s := s.skipNewlines) h .same _
    · exact value (s := s.skipNewlines) h (.inr hk) (by simp only [Spine.valueStream, hk, ↓reduceIte])

/-! ## Maps -/

theorem entry {symbol : Symbol} {trees : List Tree} {s₀ : TokenStream} {key : String} {span : Span}
    (h : (outer.under symbol trees).Sound c) (hk : symbol.kind = .map)
    (hkey : EntryKey source s₀.skipNewlines key span s) :
    Outcome source ⟨outer.under symbol trees, c, s₀⟩
      ((Stage.builder source ⟨outer.under symbol trees, c, s⟩).entry outer.size key span) := by
  refine read h .same fun sign rest hn => ?_
  split
  · rename_i hsign
    have hs := eq_of_next (s := s) hn (by rcases hsign with hs | hs <;> simp [hs])
    exact pushScope (h.entry hk key span) (.opened fun _ h => nomatch h) rfl
      (fun hd => .entry hk (hs ▸ hkey) hsign hd) (Spine.scopes_of_map hk c)
  · exact fail h .same _

theorem map {symbol : Symbol} {trees : List Tree}
    (h : (outer.under symbol trees).Sound c) (hk : symbol.kind = .map) :
    Outcome source ⟨outer.under symbol trees, c, s⟩
      ((Stage.builder source ⟨outer.under symbol trees, c, s⟩).map outer.size) := by
  refine read h .same fun t rest hn => ?_
  have heq := eq_of_next (s := s.skipNewlines) hn
  have hword : t.kind = .ident ∨ t.kind = .string ∨ t.kind = .number ∨ t.kind = .bool ∨
      t.kind = .null → EntryKey source s.skipNewlines t.text t.span rest := by
    intro hw
    rw [heq (by rcases hw with h | h | h | h | h <;> simp [h])]
    exact .word hw
  split
  · rename_i hbrace
    have hclose := Stage.close_builder source outer c rest symbol trees t.span
    exact hclose ▸ .move (.mapEnd hk (heq (by simp [hbrace])) hbrace)
  · exact fail h .same _
  · rename_i ht
    exact entry h hk (hword (.inl ht))
  · rename_i ht
    exact entry h hk (hword (.inr (.inl ht)))
  · rename_i ht
    exact entry h hk (hword (.inr (.inr (.inl ht))))
  · rename_i ht
    exact entry h hk (hword (.inr (.inr (.inr (.inl ht)))))
  · rename_i ht
    exact entry h hk (hword (.inr (.inr (.inr (.inr ht)))))
  · rename_i ht
    refine read h .same fun stop rest' hg => ?_
    refine entry h hk ?_
    rw [heq (by simp [ht])]
    exact .group ht hg
  · exact fail h .same _

/-! ## One step -/

theorem body (h : sp.Sound c) (hb : sp.InBody) :
    Outcome source ⟨sp, c, s⟩ ((Stage.builder source ⟨sp, c, s⟩).body sp.id?) := by
  have hc := hb.scopes_eq c
  refine read h .same fun t rest hn => ?_
  have heq := eq_of_next (s := s.skipNewlines) hn
  split
  · rename_i hk hid
    cases sp with
    | under outer symbol trees => cases hid
    | root trees => exact .finish rfl (peek_of_next hn) hk rfl rfl
  · exact fail h .same _
  · rename_i id hk hid
    cases sp with
    | root trees => cases hid
    | under outer symbol trees =>
      obtain ⟨names, hkind⟩ := hb
      cases hid
      have hclose := Stage.close_builder source outer c rest symbol trees t.span
      exact hclose ▸ .move (.blockEnd hkind (heq (by simp [hk])) hk)
  · exact fail h .same _
  · exact fail h .same _
  · exact fail h .same _
  · rename_i hk
    exact item h hb (heq (by simp [hk])) (.inl hk)
  · rename_i hk
    exact item h hb (heq (by simp [hk])) (.inr hk)
  · rename_i hk
    exact pushScope (hb.sound_array h t.span) (.opened fun _ h => nomatch h) rfl
      (fun hd => .bodyArray hb (heq (by simp [hk])) hk hd) hc
  · exact fail h .same _

end Outcome

/-- What a step does at a sound stage. -/
theorem Stage.outcome_step {st : Stage} (h : st.spine.Sound st.complete) :
    Outcome source st (st.step source) := by
  obtain ⟨sp, c, s⟩ := st
  cases sp with
  | root trees => exact Outcome.body h trivial
  | under outer symbol trees =>
    rw [Stage.step, Spine.scope]
    cases hk : symbol.kind with
    | block names => exact Outcome.body h ⟨names, hk⟩
    | attr => exact Outcome.attr h hk
    | array => exact Outcome.array h hk
    | map => exact Outcome.map h hk
    | literal _ _ | eval _ | keyword _ =>
      obtain ⟨-, -, -, -, hh⟩ := h
      rw [hk] at hh
      exact hh.elim

end Hcl
