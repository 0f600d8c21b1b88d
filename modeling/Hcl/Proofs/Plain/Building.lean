import Mathlib.Logic.Relation
import Hcl.Proofs.Builder.Forward
import Hcl.Proofs.Builder.Run
import Hcl.Proofs.Plain.Lexing

/-!
# The trees of plain documents

From the tokens of a plain document the builder makes the moves that build its tree: an expression
is read into the scope that waits for it, and the items of a body one after the other.
-/

namespace Hcl.Plain

open Hcl.Tree Hcl.TokenStream Lexer
open Relation (ReflTransGen)

variable {source : List Char} {outer sp : Spine} {symbol : Symbol} {trees : List Tree} {v : Tree}
  {c : Bool} {s : TokenStream} {t : Token} {ts ms : List Token} {ending : Except LexicalError Position}

/-! ## Single tokens -/

theorem kind_of_view {kind : TokenKind} {text : String} (h : t.view = (kind, text)) :
    t.kind = kind :=
  congrArg Prod.fst h

theorem text_of_view {kind : TokenKind} {text : String} (h : t.view = (kind, text)) :
    t.text = text :=
  congrArg Prod.snd h

theorem comprehensionAhead_cons (hn : t.kind ≠ .newline) (hi : t.kind ≠ .ident) :
    comprehensionAhead ⟨t :: ts, ending⟩ = .ok false := by
  simp only [comprehensionAhead, skipNewlines_cons_of_ne hn, peek_cons, Except.bind, hi, false_and,
    if_false]

/-- The first token of a value is on the line where the value is expected. -/
theorem valueStream_cons (hn : t.kind ≠ .newline) (kind : SymbolKind) :
    Spine.valueStream kind ⟨t :: ts, ending⟩ = ⟨t :: ts, ending⟩ := by
  rw [Spine.valueStream, skipNewlines_cons_of_ne hn]
  split <;> rfl

/-- A value is not an operand if a comma, a bracket or a line break follows. -/
theorem extends_stay (ho : t.kind ≠ .operator) (hq : t.kind ≠ .question) :
    Extends source v ⟨t :: ts, ending⟩ v ⟨t :: ts, ending⟩ :=
  .stay (peek_cons t ts ending) ho hq

/-! ## Expressions -/

/-- From the tokens `ts` a value is read whose tree is `tree` but for the spans. -/
def Reads (source : List Char) (sp : Spine) (ts : List Token) (tree : Tree) (sp' : Tree → Spine) :
    Prop :=
  ∀ ms ending, ∃ v, v.map withoutSpan = tree ∧
    ReflTransGen (Move source) ⟨sp, false, ⟨ts ++ ms, ending⟩⟩ ⟨sp' v, true, ⟨ms, ending⟩⟩

theorem views_cons (e : Expression) : ∃ view views, e.views = view :: views ∧
    view.1 ≠ .newline ∧ view.1 ≠ .ident := by
  fun_cases Expression.views e <;> exact ⟨_, _, rfl, by simp [mark]⟩

theorem reads_literal {type : LiteralType} {kind : TokenKind} {raw : List Char}
    (hk : symbol.kind = .attr ∨ symbol.kind = .array)
    (hkind : (kind = .string ∧ type = .string) ∨ (kind = .number ∧ type = .number) ∨
      (kind = .bool ∧ type = .boolean) ∨ (kind = .null ∧ type = .null))
    (hts : ts.map Token.view = [(kind, String.ofList raw)]) :
    Reads source (outer.under symbol trees) ts (literal type raw)
      fun v => outer.under symbol (trees ++ [v]) := by
  intro ms ending
  obtain ⟨t, rfl, ht⟩ := List.map_eq_singleton_iff.mp hts
  have hoperand : operand source t ⟨ms, ending⟩ = .ok (.literal type t.text t.span, ⟨ms, ending⟩) := by
    rcases hkind with ⟨rfl, rfl⟩ | ⟨rfl, rfl⟩ | ⟨rfl, rfl⟩ | ⟨rfl, rfl⟩ <;>
      simp only [operand, kind_of_view ht]
  have hn : t.kind ≠ .newline := by
    rcases hkind with ⟨rfl, -⟩ | ⟨rfl, -⟩ | ⟨rfl, -⟩ | ⟨rfl, -⟩ <;> simp [kind_of_view ht]
  refine ⟨leaf (.literal type t.text t.span), ?_,
    .single (.operand hk (valueStream_cons hn _) hoperand)⟩
  rw [text_of_view ht]
  simp [leaf, literal, withoutSpan, Symbol.literal]

theorem comprehensionAhead_of_views {view : TokenKind × String} {views : List (TokenKind × String)}
    (h : ts.map Token.view = view :: views) (hn : view.1 ≠ .newline) (hi : view.1 ≠ .ident)
    (ms : List Token) : comprehensionAhead ⟨ts ++ ms, ending⟩ = .ok false := by
  obtain ⟨t, rest, rfl, rfl, -⟩ := List.map_eq_cons_iff.mp h
  exact comprehensionAhead_cons hn hi

theorem skipNewlines_cons_of_view {kind : TokenKind} {text : String} (h : t.view = (kind, text))
    (hn : kind ≠ .newline) : skipNewlines ⟨t :: ts, ending⟩ = ⟨t :: ts, ending⟩ :=
  skipNewlines_cons_of_ne (by rwa [kind_of_view h])

/-- An entry of a map begins with a quoted key. -/
theorem move_entry (hk : symbol.kind = .map) {key sign : Token} (hkey : key.kind = .string)
    (hsign : sign.kind = .equals) (hd : (outer.under symbol trees).depth + 1 < maxDepth) (c : Bool) :
    Move source ⟨outer.under symbol trees, c, ⟨key :: sign :: ts, ending⟩⟩
      ⟨(outer.under symbol trees).under (.attr key.text key.span) [], false, ⟨ts, ending⟩⟩ := by
  have hskip : skipNewlines ⟨key :: sign :: ts, ending⟩ = ⟨key :: sign :: ts, ending⟩ :=
    skipNewlines_cons_of_ne (by simp [hkey])
  refine .entry hk ?_ (.inl hsign) hd
  rw [hskip]
  exact .word (.inr (.inl hkey))

theorem move_array (hk : symbol.kind = .attr ∨ symbol.kind = .array)
    (ht : t.view = mark .lBracket '[') (ha : comprehensionAhead ⟨ts, ending⟩ = .ok false)
    (hd : (outer.under symbol trees).depth + 1 < maxDepth) :
    Move source ⟨outer.under symbol trees, false, ⟨t :: ts, ending⟩⟩
      ⟨(outer.under symbol trees).under (.array t.span) [], false, ⟨ts, ending⟩⟩ := by
  have hkind : t.kind = .lBracket := kind_of_view ht
  exact .array hk (valueStream_cons (by simp [hkind]) _) hkind ha hd

theorem move_map (hk : symbol.kind = .attr ∨ symbol.kind = .array)
    (ht : t.view = mark .lBrace '{') (ha : comprehensionAhead ⟨ts, ending⟩ = .ok false)
    (hd : (outer.under symbol trees).depth + 1 < maxDepth) :
    Move source ⟨outer.under symbol trees, false, ⟨t :: ts, ending⟩⟩
      ⟨(outer.under symbol trees).under (.map t.span) [], false, ⟨ts, ending⟩⟩ := by
  have hkind : t.kind = .lBrace := kind_of_view ht
  exact .map hk (valueStream_cons (by simp [hkind]) _) hkind ha hd

mutual
theorem Expression.reads (outer : Spine) (symbol : Symbol) (trees : List Tree) {ts : List Token}
    (hk : symbol.kind = .attr ∨ symbol.kind = .array) : (e : Expression) →
    (outer.under symbol trees).depth + 1 + e.depth ≤ maxDepth → ts.map Token.view = e.views →
    Reads source (outer.under symbol trees) ts e.tree fun v => outer.under symbol (trees ++ [v])
  | .string _, _, hts => reads_literal hk (.inl ⟨rfl, rfl⟩) hts
  | .number _, _, hts => reads_literal hk (.inr (.inl ⟨rfl, rfl⟩)) hts
  | .boolean _, _, hts => reads_literal hk (.inr (.inr (.inl ⟨rfl, rfl⟩))) hts
  | .null, _, hts => reads_literal hk (.inr (.inr (.inr ⟨rfl, rfl⟩))) hts
  | .array [], hd, hts => by
    intro ms ending
    rw [Expression.depth] at hd
    obtain ⟨t, rest, rfl, ht, hrest⟩ := List.map_eq_cons_iff.mp hts
    have ha : comprehensionAhead ⟨rest ++ ms, ending⟩ = .ok false :=
      comprehensionAhead_of_views hrest (by simp [mark]) (by simp [mark]) ms
    obtain ⟨close, rfl, hclose⟩ := List.map_eq_singleton_iff.mp hrest
    have hskip : skipNewlines ⟨close :: ms, ending⟩ = ⟨close :: ms, ending⟩ :=
      skipNewlines_cons_of_view hclose (by simp)
    refine ⟨node ((Symbol.array t.span).extendTo close.span) [], ?_, .head
      (move_array hk ht ha (by omega))
      (.single (.arrayEnd rfl hskip (kind_of_view hclose)))⟩
    simp [Expression.tree, elementTrees, withoutSpan, Symbol.array, Symbol.extendTo]
  | .array (e :: es), hd, hts => by
    intro ms ending
    rw [Expression.depth, elementsDepth] at hd
    obtain ⟨t, rest, rfl, ht, hrest⟩ := List.map_eq_cons_iff.mp hts
    have ha : comprehensionAhead ⟨rest ++ ms, ending⟩ = .ok false := by
      obtain ⟨view, views, hviews, hn, hi⟩ := views_cons e
      exact comprehensionAhead_of_views (hrest.trans (by rw [hviews]; rfl)) hn hi ms
    obtain ⟨te, tes, rfl, hte, htes⟩ := List.map_eq_append_iff.mp hrest
    have hopen : Move source ⟨outer.under symbol trees, false, ⟨t :: (te ++ tes ++ ms), ending⟩⟩
        ⟨(outer.under symbol trees).under (.array t.span) [], false, ⟨te ++ (tes ++ ms), ending⟩⟩ := by
      rw [← List.append_assoc]
      exact move_array hk ht ha (by omega)
    obtain ⟨v, hv, hfirst⟩ := Expression.reads (outer.under symbol trees) (.array t.span) []
      (.inr rfl) e
      (by simp only [Spine.depth] at *; omega) hte (tes ++ ms) ending
    obtain ⟨vs, stop, hvs, hmore⟩ := elements_read (outer.under symbol trees) (.array t.span) [] v
      rfl es
      (by simp only [Spine.depth] at *; omega) htes ms ending
    refine ⟨node ((Symbol.array t.span).extendTo stop) (v :: vs), ?_, .head hopen (hfirst.trans hmore)⟩
    simp [Expression.tree, elementTrees, withoutSpan, Symbol.array, Symbol.extendTo, hv, hvs]
  | .map [], hd, hts => by
    intro ms ending
    rw [Expression.depth] at hd
    obtain ⟨t, rest, rfl, ht, hrest⟩ := List.map_eq_cons_iff.mp hts
    have ha : comprehensionAhead ⟨rest ++ ms, ending⟩ = .ok false :=
      comprehensionAhead_of_views hrest (by simp [mark]) (by simp [mark]) ms
    obtain ⟨close, rfl, hclose⟩ := List.map_eq_singleton_iff.mp hrest
    have hskip : skipNewlines ⟨close :: ms, ending⟩ = ⟨close :: ms, ending⟩ :=
      skipNewlines_cons_of_view hclose (by simp)
    refine ⟨node ((Symbol.map t.span).extendTo close.span) [], ?_, .head
      (move_map hk ht ha (by omega))
      (.single (.mapEnd rfl hskip (kind_of_view hclose)))⟩
    simp [Expression.tree, entryTrees, withoutSpan, Symbol.map, Symbol.extendTo]
  | .map ((key, e) :: es), hd, hts => by
    intro ms ending
    rw [Expression.depth, entriesDepth] at hd
    obtain ⟨t, rest, rfl, ht, hrest⟩ := List.map_eq_cons_iff.mp hts
    have ha : comprehensionAhead ⟨rest ++ ms, ending⟩ = .ok false :=
      comprehensionAhead_of_views hrest (by simp) (by simp) ms
    obtain ⟨k, rest, rfl, hkey, hrest⟩ := List.map_eq_cons_iff.mp hrest
    obtain ⟨sign, rest, rfl, hsign, hrest⟩ := List.map_eq_cons_iff.mp hrest
    obtain ⟨te, tes, rfl, hte, htes⟩ := List.map_eq_append_iff.mp hrest
    have hentry : Move source ⟨(outer.under symbol trees).under (.map t.span) [], false,
        ⟨k :: sign :: (te ++ tes ++ ms), ending⟩⟩
        ⟨((outer.under symbol trees).under (.map t.span) []).under (.attr k.text k.span) [], false,
          ⟨te ++ (tes ++ ms), ending⟩⟩ := by
      rw [← List.append_assoc]
      exact move_entry rfl (kind_of_view hkey) (kind_of_view hsign)
        (by simp only [Spine.depth] at *; omega) false
    obtain ⟨v, hv, hfirst⟩ := Expression.reads ((outer.under symbol trees).under (.map t.span) [])
      (.attr k.text k.span) [] (.inl rfl) e (by simp only [Spine.depth] at *; omega) hte (tes ++ ms)
      ending
    obtain ⟨vs, stop, hvs, hmore⟩ := entries_read (outer.under symbol trees) (.map t.span) []
      (.attr k.text k.span) v rfl rfl es (by simp only [Spine.depth] at *; omega) htes ms ending
    refine ⟨node ((Symbol.map t.span).extendTo stop)
      (node ((Symbol.attr k.text k.span).extendTo v.symbol.span) [v] :: vs), ?_, .head
      (move_map hk ht ha (by omega))
      (.head hentry (hfirst.trans hmore))⟩
    rw [text_of_view hkey]
    simp [Expression.tree, entryTrees, withoutSpan, Symbol.map, Symbol.attr, Symbol.extendTo, hv, hvs]

theorem elements_read (outer : Spine) (symbol : Symbol) (trees : List Tree) (v : Tree)
    {ts : List Token} (hk : symbol.kind = .array) : (es : List Expression) →
    (outer.under symbol trees).depth + 1 + elementsDepth es ≤ maxDepth →
    ts.map Token.view = elementViews es → (ms : List Token) →
    (ending : Except LexicalError Position) →
    ∃ vs stop, mapAll withoutSpan vs = elementTrees es ∧
      ReflTransGen (Move source) ⟨outer.under symbol (trees ++ [v]), true, ⟨ts ++ ms, ending⟩⟩
        ⟨outer.append [node (symbol.extendTo stop) (trees ++ v :: vs)], true, ⟨ms, ending⟩⟩
  | [], hd, hts, ms, ending => by
    obtain ⟨close, rfl, hclose⟩ := List.map_eq_singleton_iff.mp hts
    have hkind := kind_of_view hclose
    have hskip : skipNewlines ⟨close :: ms, ending⟩ = ⟨close :: ms, ending⟩ :=
      skipNewlines_cons_of_view hclose (by simp)
    have hpeek : (skipNewlines ⟨close :: ms, ending⟩).peek = .ok close := by
      rw [hskip]
      rfl
    have hsep := Separator.stop (peek_cons close ms ending) hpeek (by simp [hkind]) (.inl hkind)
    rw [hskip] at hsep
    exact ⟨[], close.span, mapAll_nil, .head
      (.element hk (extends_stay (by simp [hkind]) (by simp [hkind])) hsep)
      (.single (.arrayEnd hk hskip hkind))⟩
  | e :: es, hd, hts, ms, ending => by
    rw [elementsDepth] at hd
    obtain ⟨comma, rest, rfl, hcomma, hrest⟩ := List.map_eq_cons_iff.mp hts
    obtain ⟨te, tes, rfl, hte, htes⟩ := List.map_eq_append_iff.mp hrest
    have hkind := kind_of_view hcomma
    have hsep : Separator ⟨comma :: (te ++ tes ++ ms), ending⟩ ⟨te ++ (tes ++ ms), ending⟩ := by
      rw [← List.append_assoc]
      exact .comma (skipNewlines_cons_of_view hcomma (by simp)) hkind
    obtain ⟨w, hw, hnext⟩ := Expression.reads outer symbol (trees ++ [v]) (.inr hk) e
      (by simp only [Spine.depth] at *; omega) hte (tes ++ ms) ending
    obtain ⟨vs, stop, hvs, hmore⟩ := elements_read outer symbol (trees ++ [v]) w hk es
      (by simp only [Spine.depth] at *; omega) htes ms ending
    refine ⟨w :: vs, stop, by rw [mapAll_cons, hw, hvs, elementTrees], .head
      (.element hk (extends_stay (by simp [hkind]) (by simp [hkind])) hsep) (hnext.trans ?_)⟩
    simpa using hmore

theorem entries_read (outer : Spine) (symbol : Symbol) (trees : List Tree) (attr : Symbol)
    (v : Tree) {ts : List Token} (hk : symbol.kind = .map) (ha : attr.kind = .attr) :
    (es : List (List Char × Expression)) →
    (outer.under symbol trees).depth + 1 + entriesDepth es ≤ maxDepth →
    ts.map Token.view = entryViews es → (ms : List Token) →
    (ending : Except LexicalError Position) →
    ∃ vs stop, mapAll withoutSpan vs = entryTrees es ∧
      ReflTransGen (Move source)
        ⟨(outer.under symbol trees).under attr [v], true, ⟨ts ++ ms, ending⟩⟩
        ⟨outer.append [node (symbol.extendTo stop)
          (trees ++ node (attr.extendTo v.symbol.span) [v] :: vs)], true, ⟨ms, ending⟩⟩
  | [], hd, hts, ms, ending => by
    obtain ⟨close, rfl, hclose⟩ := List.map_eq_singleton_iff.mp hts
    have hkind := kind_of_view hclose
    exact ⟨[], close.span, mapAll_nil, .head
      (.attrEnd ha (extends_stay (by simp [hkind]) (by simp [hkind]))
        (.stop (peek_cons close ms ending) (.inl hkind)))
      (.single (.mapEnd hk (skipNewlines_cons_of_view hclose (by simp)) hkind))⟩
  | (key, e) :: es, hd, hts, ms, ending => by
    rw [entriesDepth] at hd
    obtain ⟨comma, rest, rfl, hcomma, hrest⟩ := List.map_eq_cons_iff.mp hts
    obtain ⟨k, rest, rfl, hkey, hrest⟩ := List.map_eq_cons_iff.mp hrest
    obtain ⟨sign, rest, rfl, hsign, hrest⟩ := List.map_eq_cons_iff.mp hrest
    obtain ⟨te, tes, rfl, hte, htes⟩ := List.map_eq_append_iff.mp hrest
    have hkind := kind_of_view hcomma
    have hend : Move source ⟨(outer.under symbol trees).under attr [v], true,
        ⟨comma :: k :: sign :: (te ++ tes ++ ms), ending⟩⟩
        ⟨outer.under symbol (trees ++ [node (attr.extendTo v.symbol.span) [v]]), true,
          ⟨k :: sign :: (te ++ tes ++ ms), ending⟩⟩ :=
      .attrEnd ha (extends_stay (by simp [hkind]) (by simp [hkind])) (.comma hkind hk)
    have hentry : Move source
        ⟨outer.under symbol (trees ++ [node (attr.extendTo v.symbol.span) [v]]), true,
          ⟨k :: sign :: (te ++ tes ++ ms), ending⟩⟩
        ⟨(outer.under symbol (trees ++ [node (attr.extendTo v.symbol.span) [v]])).under
          (.attr k.text k.span) [], false, ⟨te ++ (tes ++ ms), ending⟩⟩ := by
      rw [← List.append_assoc]
      exact move_entry hk (kind_of_view hkey) (kind_of_view hsign)
        (by simp only [Spine.depth] at *; omega) true
    obtain ⟨w, hw, hnext⟩ := Expression.reads
      (outer.under symbol (trees ++ [node (attr.extendTo v.symbol.span) [v]]))
      (.attr k.text k.span) [] (.inl rfl) e (by simp only [Spine.depth] at *; omega) hte (tes ++ ms)
      ending
    obtain ⟨vs, stop, hvs, hmore⟩ := entries_read outer symbol
      (trees ++ [node (attr.extendTo v.symbol.span) [v]]) (.attr k.text k.span) w hk rfl es
      (by simp only [Spine.depth] at *; omega) htes ms ending
    refine ⟨node ((Symbol.attr k.text k.span).extendTo w.symbol.span) [w] :: vs, stop, ?_,
      .head hend (.head hentry (hnext.trans ?_))⟩
    · rw [text_of_view hkey]
      simp [entryTrees, withoutSpan, Symbol.attr, Symbol.extendTo, hw, hvs]
    · simpa using hmore
end

/-! ## Items -/

theorem labelsFrom_append (labels : List (List Char)) {ls : List Token}
    (hls : ls.map Token.view = labelViews labels) (ht : t.kind = .lBrace) (names : List String) :
    labelsFrom ending names (ls ++ t :: ts) =
      .ok (names.reverse ++ labels.map String.ofList, ⟨ts, ending⟩) := by
  induction labels generalizing ls names with
  | nil =>
    obtain rfl := List.map_eq_nil_iff.mp hls
    simp [labelsFrom, ht]
  | cons label labels ih =>
    obtain ⟨l, rest, rfl, hl, hrest⟩ := List.map_eq_cons_iff.mp hls
    rw [List.cons_append, labelsFrom, if_pos (.inr (kind_of_view hl)), ih hrest, text_of_view hl]
    simp

variable (source) in
mutual
/-- An item is read behind any line breaks and leaves at most some. -/
theorem Item.reads (sp : Spine) (hb : sp.InBody) {ts : List Token} : (item : Item) →
    sp.depth + 1 + item.depth ≤ maxDepth → ts.map Token.view = item.views → (c : Bool) →
    (s : TokenStream) → (ms : List Token) → (ending : Except LexicalError Position) →
    s.skipNewlines = skipNewlines ⟨ts ++ ms, ending⟩ →
    ∃ v s', v.map withoutSpan = item.tree ∧
      ReflTransGen (Move source) ⟨sp, c, s⟩ ⟨sp.append [v], true, s'⟩ ∧
      s'.skipNewlines = skipNewlines ⟨ms, ending⟩
  | .attribute name e, hd, hts, c, s, ms, ending, hs => by
    rw [Item.depth] at hd
    obtain ⟨t, rest, rfl, ht, hrest⟩ := List.map_eq_cons_iff.mp hts
    obtain ⟨sign, rest, rfl, hsign, hrest⟩ := List.map_eq_cons_iff.mp hrest
    obtain ⟨te, tnewline, rfl, hte, hnewline⟩ := List.map_eq_append_iff.mp hrest
    obtain ⟨nl, rfl, hnl⟩ := List.map_eq_singleton_iff.mp hnewline
    have hkind := kind_of_view hnl
    have hskip : s.skipNewlines = ⟨t :: sign :: (te ++ nl :: ms), ending⟩ := by
      rw [hs]
      simpa using skipNewlines_cons_of_view ht (by simp)
    have hopen : Move source ⟨sp, c, s⟩
        ⟨sp.under (.attr t.text t.span) [], false, ⟨te ++ nl :: ms, ending⟩⟩ :=
      .attr hb hskip (kind_of_view ht) (kind_of_view hsign) (by omega)
    obtain ⟨v, hv, hvalue⟩ := e.reads sp (.attr t.text t.span) [] (.inl rfl)
      (by simp only [Spine.depth] at *; omega) hte (nl :: ms) ending
    have hend : Move source ⟨sp.under (.attr t.text t.span) [v], true, ⟨nl :: ms, ending⟩⟩
        ⟨sp.append [node ((Symbol.attr t.text t.span).extendTo v.symbol.span) [v]], true,
          ⟨ms, ending⟩⟩ :=
      .attrEnd rfl (extends_stay (by simp [hkind]) (by simp [hkind])) (.newline hkind)
    refine ⟨_, _, ?_, .head hopen (hvalue.trans (.single hend)), rfl⟩
    rw [text_of_view ht]
    simp [Item.tree, withoutSpan, Symbol.attr, Symbol.extendTo, hv]
  | .block name names items, hd, hts, c, s, ms, ending, hs => by
    rw [Item.depth] at hd
    obtain ⟨t, rest, rfl, ht, hrest⟩ := List.map_eq_cons_iff.mp hts
    obtain ⟨ls, rest, rfl, hls, hrest⟩ := List.map_eq_append_iff.mp hrest
    obtain ⟨brace, rest, rfl, hbrace, hrest⟩ := List.map_eq_cons_iff.mp hrest
    obtain ⟨nl, rest, rfl, hnl, hrest⟩ := List.map_eq_cons_iff.mp hrest
    obtain ⟨tis, rest, rfl, htis, hrest⟩ := List.map_eq_append_iff.mp hrest
    obtain ⟨close, rest, rfl, hclose, hrest⟩ := List.map_eq_cons_iff.mp hrest
    obtain ⟨nl', rest, rfl, hnl', hnil⟩ := List.map_eq_cons_iff.mp hrest
    obtain rfl := List.map_eq_nil_iff.mp hnil
    have hskip : s.skipNewlines =
        ⟨t :: (ls ++ brace :: nl :: (tis ++ close :: nl' :: ms)), ending⟩ := by
      rw [hs]
      simpa using skipNewlines_cons_of_view ht (by simp)
    have hlabels : labels t.text ⟨ls ++ brace :: nl :: (tis ++ close :: nl' :: ms), ending⟩ =
        .ok ((name :: names).map String.ofList, ⟨nl :: (tis ++ close :: nl' :: ms), ending⟩) := by
      rw [labels, labelsFrom_append names hls (kind_of_view hbrace) [t.text], text_of_view ht]
      rfl
    have hopen : Move source ⟨sp, c, s⟩
        ⟨sp.under (.block ((name :: names).map String.ofList) t.span) [], false,
          ⟨nl :: (tis ++ close :: nl' :: ms), ending⟩⟩ :=
      .block hb hskip (.inr (kind_of_view ht)) hlabels (by omega)
    obtain ⟨vs, c', s', hvs, hinside, hs'⟩ := items_read
      (sp.under (.block ((name :: names).map String.ofList) t.span) []) ⟨_, rfl⟩ items
      (by simp only [Spine.depth] at *; omega) htis false _ (close :: nl' :: ms) ending
      (skipNewlines_cons_newline (kind_of_view hnl))
    have hskip' : s'.skipNewlines = ⟨close :: nl' :: ms, ending⟩ := by
      rw [hs', skipNewlines_cons_of_view hclose (by simp)]
    refine ⟨_, _, ?_,
      .head hopen (hinside.trans (.single (.blockEnd rfl hskip' (kind_of_view hclose)))),
      skipNewlines_cons_newline (kind_of_view hnl')⟩
    simp [Item.tree, withoutSpan, Symbol.block, Symbol.extendTo, hvs]

theorem items_read (sp : Spine) (hb : sp.InBody) {ts : List Token} : (items : List Item) →
    sp.depth + 1 + itemsDepth items ≤ maxDepth → ts.map Token.view = itemViews items → (c : Bool) →
    (s : TokenStream) → (ms : List Token) → (ending : Except LexicalError Position) →
    s.skipNewlines = skipNewlines ⟨ts ++ ms, ending⟩ →
    ∃ vs c' s', mapAll withoutSpan vs = itemTrees items ∧
      ReflTransGen (Move source) ⟨sp, c, s⟩ ⟨sp.append vs, c', s'⟩ ∧
      s'.skipNewlines = skipNewlines ⟨ms, ending⟩
  | [], _, hts, c, s, ms, ending, hs => by
    obtain rfl := List.map_eq_nil_iff.mp hts
    refine ⟨[], c, s, mapAll_nil, ?_, hs⟩
    cases sp <;> simp [Spine.append, ReflTransGen.refl]
  | item :: items, hd, hts, c, s, ms, ending, hs => by
    rw [itemsDepth] at hd
    obtain ⟨tis, rest, rfl, htis, hrest⟩ := List.map_eq_append_iff.mp hts
    rw [List.append_assoc] at hs
    obtain ⟨v, s', hv, hfirst, hs'⟩ := Item.reads sp hb item (by omega) htis c s (rest ++ ms) ending hs
    have hb' : (sp.append [v]).InBody := by cases sp <;> exact hb
    obtain ⟨vs, c', s'', hvs, hmore, hs''⟩ := items_read (sp.append [v]) hb' items
      (by rw [Spine.depth_append]; omega) hrest true s' ms ending hs'
    rw [Spine.append_append] at hmore
    exact ⟨v :: vs, c', s'', by rw [mapAll_cons, hv, hvs, itemTrees], hfirst.trans hmore, hs''⟩
end

/-! ## Documents -/

/-- The source of a plain document is read to its end and gives the trees of its items. -/
theorem exists_trees_print (d : Document) (h : d.depth ≤ maxDepth) :
    ∃ vs, parseTree d.print = ⟨(Spine.root vs).tree, none⟩ ∧
      mapAll withoutSpan vs = itemTrees d.items := by
  obtain ⟨last, hlexes⟩ := lexes_items [] none d.items
  obtain ⟨ts, next, hemits, hviews, hrest, -⟩ := hlexes (.ofString d.print)
    (by simp [Lexer.ofString, Document.print]) rfl
  have hstream : TokenStream.ofString d.print = ⟨ts ++ [], .ok next.position⟩ := by
    rw [TokenStream.ofString, hemits.stream_eq, stream_of_rest_nil hrest]
  obtain ⟨vs, c, s, hvs, hmoves, hs⟩ := items_read d.print.toList (.root []) trivial
    d.items (by rw [Spine.depth]; rw [Document.depth] at h; omega) hviews false _ [] (.ok next.position)
    (congrArg skipNewlines hstream)
  refine ⟨vs, ?_, hvs⟩
  rw [parseTree, ← Stage.builder_ofStream, Stage.ofStream, Move.run_eq hmoves]
  exact run_of_skipNewlines_eq hs

/-- Writing a plain document and reading it again gives its tree, with places in the source. -/
theorem parseTree_print (d : Document) (h : d.depth ≤ maxDepth) :
    (parseTree d.print).error = none ∧ (parseTree d.print).tree.mapSymbols withoutSpan = d.tree := by
  obtain ⟨vs, hrun, hvs⟩ := exists_trees_print d h
  rw [hrun]
  refine ⟨rfl, ?_⟩
  simp only [Spine.tree, Spine.forest, Spine.forestWith, List.append_nil]
  have hkind : ∀ s, (withoutSpan s).kind = s.kind := fun _ => rfl
  rw [SymbolTree.mapSymbols_ofForest hkind, hvs, Document.tree]

theorem parseTree_print_markers :
    let d : Document := ⟨[.block ['b'] []
      [.attribute ⟨['x'], by decide, by decide, by decide, by decide⟩
        (.array [.map [], .string ['$', '$', '{']])]]⟩
    d.depth ≤ maxDepth ∧ (parseTree d.print).error = none ∧
      (parseTree d.print).tree.mapSymbols withoutSpan = d.tree :=
  ⟨by decide, parseTree_print _ (by decide)⟩

end Hcl.Plain
