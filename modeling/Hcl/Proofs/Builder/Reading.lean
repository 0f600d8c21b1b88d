import Hcl.Proofs.Builder.Move
import Hcl.Proofs.TokenStream.Reaches

/-!
# Values that are read as a whole

A move reads a part of a value. `ReadsValue` reads a whole one, with all that is between its
brackets, and says what is left behind it. What it reads depends on the tokens of the value alone,
and the builder reads the same with one move after another.
-/

namespace Hcl

open Hcl.Tree Hcl.TokenStream
open Relation (ReflTransGen)

/-- A value that one move reads. -/
inductive ReadsAtom (source : List Char) : TokenStream → Symbol → TokenStream → Prop where
  | operand {first : Token} {ts : List Token} {e : Except LexicalError Position} {value : Symbol}
      {rest : TokenStream} : ReadsOperand source first ⟨ts, e⟩ value rest →
      ReadsAtom source ⟨first :: ts, e⟩ value rest
  | comprehension {first : Token} {ts : List Token} {e : Except LexicalError Position}
      {value : Symbol} {rest : TokenStream} : first.kind = .lBracket ∨ first.kind = .lBrace →
      comprehensionAhead ⟨ts, e⟩ = .ok true →
      comprehension source first ⟨ts, e⟩ = .ok (value, rest) →
      ReadsAtom source ⟨first :: ts, e⟩ value rest

mutual
/-- The value `v` is read below `d` open symbols. -/
inductive ReadsValue (source : List Char) : Nat → TokenStream → Tree → TokenStream → Prop where
  | atom {d : Nat} {s rest : TokenStream} {value : Symbol} : ReadsAtom source s value rest →
      ReadsValue source d s (leaf value) rest
  | array {d : Nat} {first t : Token} {ts us : List Token} {e e' : Except LexicalError Position}
      {trees : List Tree} {s : TokenStream} : first.kind = .lBracket →
      comprehensionAhead ⟨ts, e⟩ = .ok false → d + 1 < maxDepth →
      ReadsElements source (d + 1) ⟨ts, e⟩ trees s → s.skipNewlines = ⟨t :: us, e'⟩ →
      t.kind = .rBracket →
      ReadsValue source d ⟨first :: ts, e⟩ (node ((Symbol.array first.span).extendTo t.span) trees)
        ⟨us, e'⟩
  | map {d : Nat} {first t : Token} {ts us : List Token} {e e' : Except LexicalError Position}
      {trees : List Tree} {s : TokenStream} : first.kind = .lBrace →
      comprehensionAhead ⟨ts, e⟩ = .ok false → d + 1 < maxDepth →
      ReadsEntries source (d + 1) ⟨ts, e⟩ trees s → s.skipNewlines = ⟨t :: us, e'⟩ →
      t.kind = .rBrace →
      ReadsValue source d ⟨first :: ts, e⟩ (node ((Symbol.map first.span).extendTo t.span) trees)
        ⟨us, e'⟩

/-- Elements of an array, each with what separates it from the next one. -/
inductive ReadsElements (source : List Char) :
    Nat → TokenStream → List Tree → TokenStream → Prop where
  | nil {d : Nat} {s : TokenStream} : ReadsElements source d s [] s
  | concat {d : Nat} {s s₁ s₂ s₃ rest : TokenStream} {trees : List Tree} {v v' : Tree} :
      ReadsElements source d s trees s₁ → ReadsValue source d s₁.skipNewlines v s₂ →
      Extends source v s₂ v' s₃ → Separator s₃ rest →
      ReadsElements source d s (trees ++ [v']) rest

/-- Entries of a map, each with what separates it from the next one. -/
inductive ReadsEntries (source : List Char) :
    Nat → TokenStream → List Tree → TokenStream → Prop where
  | nil {d : Nat} {s : TokenStream} : ReadsEntries source d s [] s
  | concat {d : Nat} {s s₁ s₂ s₃ rest : TokenStream} {trees : List Tree} {key : String} {span : Span}
      {sign : Token} {ts : List Token} {e : Except LexicalError Position} {v v' : Tree} :
      ReadsEntries source d s trees s₁ → EntryKey source s₁.skipNewlines key span ⟨sign :: ts, e⟩ →
      sign.kind = .equals ∨ sign.kind = .colon → d + 1 < maxDepth →
      ReadsValue source (d + 1) ⟨ts, e⟩ v s₂ → Extends source v s₂ v' s₃ → AttrEnd True s₃ rest →
      ReadsEntries source d s
        (trees ++ [node ((Symbol.attr key span).extendTo v'.symbol.span) [v']]) rest
end

/-- Items of a body, each up to where the next one may begin. -/
inductive ReadsItems (source : List Char) : Nat → TokenStream → List Tree → TokenStream → Prop where
  | nil {d : Nat} {s : TokenStream} : ReadsItems source d s [] s
  | attr {d : Nat} {s s₁ s₂ s₃ rest : TokenStream} {trees : List Tree} {t sign : Token}
      {ts : List Token} {e : Except LexicalError Position} {v v' : Tree} :
      ReadsItems source d s trees s₁ → s₁.skipNewlines = ⟨t :: sign :: ts, e⟩ → t.kind = .ident →
      sign.kind = .equals → d + 1 < maxDepth → ReadsValue source (d + 1) ⟨ts, e⟩ v s₂ →
      Extends source v s₂ v' s₃ → AttrEnd False s₃ rest →
      ReadsItems source d s
        (trees ++ [node ((Symbol.attr t.text t.span).extendTo v'.symbol.span) [v']]) rest
  | block {d : Nat} {s s₁ s₂ s₃ : TokenStream} {trees children : List Tree} {t stop : Token}
      {ts us : List Token} {e e' : Except LexicalError Position} {names : List String} :
      ReadsItems source d s trees s₁ → s₁.skipNewlines = ⟨t :: ts, e⟩ →
      t.kind = .ident ∨ t.kind = .string → labels t.text ⟨ts, e⟩ = .ok (names, s₂) →
      d + 1 < maxDepth → ReadsItems source (d + 1) s₂ children s₃ →
      s₃.skipNewlines = ⟨stop :: us, e'⟩ → stop.kind = .rBrace →
      ReadsItems source d s
        (trees ++ [node ((Symbol.block names t.span).extendTo stop.span) children]) ⟨us, e'⟩
  | array {d : Nat} {s s₁ s₂ : TokenStream} {trees elements : List Tree} {t stop : Token}
      {ts us : List Token} {e e' : Except LexicalError Position} :
      ReadsItems source d s trees s₁ → s₁.skipNewlines = ⟨t :: ts, e⟩ → t.kind = .lBracket →
      d + 1 < maxDepth → ReadsElements source (d + 1) ⟨ts, e⟩ elements s₂ →
      s₂.skipNewlines = ⟨stop :: us, e'⟩ → stop.kind = .rBracket →
      ReadsItems source d s
        (trees ++ [node ((Symbol.array t.span).extendTo stop.span) elements]) ⟨us, e'⟩

variable {source : List Char} {d : Nat} {s rest : TokenStream} {v : Tree} {trees : List Tree}
  {value : Symbol}

/-! ## What is left -/

theorem ReadsAtom.suffix (h : ReadsAtom source s value rest) : rest.Suffix s := by
  cases h with
  | operand hv => exact (suffix_of_operand hv.operand_eq).cons
  | comprehension _ _ hv => exact (suffix_of_comprehension hv).cons

mutual
theorem ReadsValue.suffix {s rest : TokenStream} {d : Nat} {v : Tree} :
    ReadsValue source d s v rest → rest.Suffix s
  | .atom h => h.suffix
  | .array _ _ _ h hs _ => ((suffix_of_skipNewlines hs).trans h.suffix).cons
  | .map _ _ _ h hs _ => ((suffix_of_skipNewlines hs).trans h.suffix).cons

theorem ReadsElements.suffix {s rest : TokenStream} {d : Nat} {trees : List Tree} :
    ReadsElements source d s trees rest → rest.Suffix s
  | .nil => .refl _
  | .concat h hv hx hsep =>
    hsep.suffix.trans (hx.suffix.trans (hv.suffix.trans ((suffix_skipNewlines _).trans h.suffix)))

theorem ReadsEntries.suffix {s rest : TokenStream} {d : Nat} {trees : List Tree} :
    ReadsEntries source d s trees rest → rest.Suffix s
  | .nil => .refl _
  | .concat h hkey _ _ hv hx hend =>
    have hv := hv.suffix.trans ((Suffix.cons (.refl _)).trans (hkey.suffix.trans
      ((suffix_skipNewlines _).trans h.suffix)))
    hend.suffix.trans (hx.suffix.trans hv)
end

theorem ReadsItems.suffix (h : ReadsItems source d s trees rest) : rest.Suffix s := by
  induction h with
  | nil => exact .refl _
  | attr _ hs _ _ _ hv hx hend ih =>
    have hv := hv.suffix.trans ((Suffix.cons (.refl _)).trans ((suffix_of_skipNewlines hs).trans ih))
    exact hend.suffix.trans (hx.suffix.trans hv)
  | block _ hs _ hl _ _ hs' _ ih ih' =>
    have hbody := (suffix_of_labelsFrom hl).trans ((suffix_of_skipNewlines hs).trans ih)
    exact (suffix_of_skipNewlines hs').trans (ih'.trans hbody)
  | array _ hs _ _ h hs' _ ih =>
    exact (suffix_of_skipNewlines hs').trans (h.suffix.trans ((suffix_of_skipNewlines hs).trans ih))

/-! ## What a value begins with -/

theorem ReadsAtom.exists_first (h : ReadsAtom source s value rest) :
    ∃ first ts, s.tokens = first :: ts ∧ first.kind ≠ .rBracket ∧
      value.span.start = first.span.start := by
  cases h with
  | @operand first ts e value rest hv =>
    refine ⟨first, ts, rfl, fun hk => ?_, hv.start_eq⟩
    simpa [TokenStream.operand, hk] using hv.operand_eq
  | @comprehension first ts e value rest hb _ hv =>
    refine ⟨first, ts, rfl, fun hk => by simp [hk] at hb, ?_⟩
    obtain ⟨stop, rfl, -⟩ := exists_reaches_of_comprehension hv
    rfl

theorem ReadsValue.exists_first (h : ReadsValue source d s v rest) :
    ∃ first ts, s.tokens = first :: ts ∧ first.kind ≠ .rBracket ∧
      v.symbol.span.start = first.span.start := by
  cases h with
  | atom h => exact h.exists_first
  | @array d first t ts us e e' trees s hk _ _ _ _ _ =>
    exact ⟨first, ts, rfl, by simp [hk], rfl⟩
  | @map d first t ts us e e' trees s hk _ _ _ _ _ =>
    exact ⟨first, ts, rfl, by simp [hk], rfl⟩

/-! ## Tokens that are cut short

What separates two values looks at the token behind it, so a token must be left in front of `back`.
-/

section Cut

variable {nl : Token} {back ts ts' : List Token}

/-- The next token is read from the shorter stream if something is left of that behind it. -/
theorem TokenStream.peek_cut {t : Token} (h : Cut nl back s.tokens ts') (hs : s.peek = .ok t)
    (hb : back.length < s.tokens.length) (ending' : Except LexicalError Position) :
    ∃ t', peek ⟨ts', ending'⟩ = .ok t' ∧ t'.view = t.view := by
  obtain ⟨tokens, ending⟩ := s
  cases tokens with
  | nil => simp at hb
  | cons u us =>
    obtain ⟨u', us', rfl, hu, -⟩ := h.exists_cons (Nat.le_of_lt_succ hb)
    simp only [peek_cons, Except.ok.injEq] at hs
    exact ⟨u', rfl, hs ▸ hu⟩

theorem Extends.cut {v v' w : Tree} (h : Cut nl back s.tokens ts') (hx : Extends source v s v' rest)
    (hb : back.length < rest.tokens.length) (source' : List Char) (p : Position) :
    ∃ w' rest', Extends source' w ⟨ts', .ok p⟩ w' ⟨rest', .ok p⟩ ∧
      Cut nl back rest.tokens rest' := by
  cases hx with
  | stay hp ho hq =>
    obtain ⟨t', hp', ht⟩ := peek_cut h hp hb (.ok p)
    have hk := Token.kind_eq ht
    exact ⟨w, ts', .stay hp' (hk ▸ ho) (hk ▸ hq), h⟩
  | @operation t ts e stop rest hop he =>
    have hlt := length_expressionEnd_le he
    obtain ⟨t', us', rfl, ht, -⟩ := h.exists_cons (Nat.le_of_lt_succ (Nat.lt_of_lt_of_le hb hlt))
    obtain ⟨stop', rest', he', hcut⟩ :=
      expressionEndFrom_cut h he hb w.symbol.span.start w.symbol.span (.ok p)
    exact ⟨_, rest', .operation (Token.kind_eq ht ▸ hop) he', hcut⟩

theorem AttrEnd.cut {inMap : Prop} (h : Cut nl back s.tokens ts') (ha : AttrEnd inMap s rest)
    (hb : back.length < rest.tokens.length) (p : Position) :
    ∃ rest', AttrEnd inMap ⟨ts', .ok p⟩ ⟨rest', .ok p⟩ ∧ Cut nl back rest.tokens rest' := by
  cases ha with
  | newline hk =>
    obtain ⟨t', us', rfl, ht, hcut⟩ := h.exists_cons (Nat.le_of_lt hb)
    exact ⟨us', .newline ((Token.kind_eq ht).trans hk), hcut⟩
  | comma hk hin =>
    obtain ⟨t', us', rfl, ht, hcut⟩ := h.exists_cons (Nat.le_of_lt hb)
    exact ⟨us', .comma ((Token.kind_eq ht).trans hk) hin, hcut⟩
  | stop hp hk =>
    obtain ⟨t', hp', ht⟩ := peek_cut h hp hb (.ok p)
    exact ⟨ts', .stop hp' (Token.kind_eq ht ▸ hk), h⟩

theorem Separator.cut (h : Cut nl back s.tokens ts') (hsep : Separator s rest)
    (hb : back.length < rest.tokens.length) (p : Position) :
    ∃ rest', Separator ⟨ts', .ok p⟩ ⟨rest', .ok p⟩ ∧ Cut nl back rest.tokens rest' := by
  cases hsep with
  | comma hs hk =>
    obtain ⟨t', us', hs', ht, hcut⟩ := skipNewlines_cut h hs (Nat.le_of_lt hb) (.ok p)
    exact ⟨us', .comma hs' ((Token.kind_eq ht).trans hk), hcut⟩
  | @stop first t hfirst ht hne hk =>
    have hle := Nat.lt_of_lt_of_le hb s.tokens_skipNewlines_le
    obtain ⟨first', hfirst', hview⟩ := peek_cut h hfirst hle (.ok p)
    cases hs : s.skipNewlines.tokens with
    | nil => simp [hs] at hb
    | cons u us =>
      have hs' : s.skipNewlines = ⟨u :: us, s.ending⟩ := by rw [← hs]; rfl
      rw [hs', peek_cons, Except.ok.injEq] at ht
      subst ht
      rw [hs, List.length_cons] at hb
      obtain ⟨u', us', hs'', hu, hcut⟩ := skipNewlines_cut h hs' (Nat.le_of_lt_succ hb) (.ok p)
      have hku := Token.kind_eq hu
      refine ⟨u' :: us', ?_, .cons hu hcut⟩
      rw [← hs'']
      refine .stop hfirst' (by rw [hs'']; rfl) (hku ▸ hne) ?_
      rw [hku, Token.kind_eq hview]
      exact hk

theorem EntryKey.cut {key : String} {span : Span} (h : Cut nl back s.tokens ts')
    (hkey : EntryKey source s key span rest) (hb : back.length < rest.tokens.length)
    (source' : List Char) (p : Position) :
    ∃ key' span' rest', EntryKey source' ⟨ts', .ok p⟩ key' span' ⟨rest', .ok p⟩ ∧
      Cut nl back rest.tokens rest' := by
  cases hkey with
  | word hk =>
    obtain ⟨t', us', rfl, ht, hcut⟩ := h.exists_cons (Nat.le_of_lt hb)
    exact ⟨_, _, us', .word (Token.kind_eq ht ▸ hk), hcut⟩
  | group hk hg =>
    have hlt := length_skipGroup_lt hg
    obtain ⟨t', us', rfl, ht, hcut⟩ := h.exists_cons (Nat.le_of_lt (Nat.lt_trans hb hlt))
    obtain ⟨stop', rest', hg', hcut'⟩ :=
      skipGroup_cut hcut hg (Nat.le_of_lt hb) t'.span.start (.ok p)
    exact ⟨_, _, rest', .group ((Token.kind_eq ht).trans hk) hg', hcut'⟩

theorem ReadsAtom.cut {ts' : List Token} (hnl : nl.kind = .newline)
    (h : ReadsAtom source s value rest) (hcut : Cut nl back s.tokens ts')
    (hb : back.length < rest.tokens.length) (source' : List Char) (p : Position) :
    ∃ value' rest', ReadsAtom source' ⟨ts', .ok p⟩ value' ⟨rest', .ok p⟩ ∧
      Cut nl back rest.tokens rest' := by
  have hle : back.length < s.tokens.length := Nat.lt_of_lt_of_le hb h.suffix.tokens.length_le
  cases h with
  | @operand first ts e value rest hv =>
    obtain ⟨first', us', rfl, hfirst, hcut⟩ := hcut.exists_cons (Nat.le_of_lt_succ hle)
    obtain ⟨value', rest', hv', hrest⟩ := hv.cut hnl hcut hfirst hb source' p
    exact ⟨value', rest', .operand hv', hrest⟩
  | @comprehension first ts e value rest hk ha hv =>
    obtain ⟨first', us', rfl, hfirst, hcut⟩ := hcut.exists_cons (Nat.le_of_lt_succ hle)
    obtain ⟨⟨stop, rest₁⟩, hg, hr⟩ := exists_of_map_ok hv
    obtain rfl : rest₁ = rest := (Prod.mk.inj hr).2
    obtain ⟨value', rest', hv', -, hrest⟩ :=
      comprehension_cut hcut hv (Nat.le_of_lt hb) source' first' (.ok p)
    have hk' := Token.kind_eq hfirst
    refine ⟨value', rest', .comprehension (by rwa [hk']) ?_ hv', hrest⟩
    exact comprehensionAhead_cut_true hcut ha hg (Nat.le_of_lt hb) p

mutual
/-- A value in front of `back` is read from the shorter stream as well. -/
theorem ReadsValue.cut {d : Nat} {s rest : TokenStream} {v : Tree} {ts' : List Token}
    (hnl : nl.kind = .newline) : ReadsValue source d s v rest → Cut nl back s.tokens ts' →
    back.length < rest.tokens.length → ∀ (source' : List Char) (p : Position), ∃ v' rest',
      ReadsValue source' d ⟨ts', .ok p⟩ v' ⟨rest', .ok p⟩ ∧ Cut nl back rest.tokens rest'
  | .atom h, hcut, hb, source', p => by
    obtain ⟨value', rest', h', hrest⟩ := h.cut hnl hcut hb source' p
    exact ⟨leaf value', rest', .atom h', hrest⟩
  | .array hk ha hd h hs ht, hcut, hb, source', p => by
    have hsuffix := (suffix_of_skipNewlines hs).trans h.suffix
    obtain ⟨first', us', rfl, hfirst, hcut⟩ :=
      hcut.exists_cons (Nat.le_trans (Nat.le_of_lt hb) hsuffix.tokens.length_le)
    have hlt := Nat.lt_of_lt_of_le hb (suffix_of_skipNewlines hs).tokens.length_le
    obtain ⟨trees', rest', h', hcut'⟩ := h.cut hnl hcut hlt source' p
    obtain ⟨t', us', hs', ht', hrest⟩ := skipNewlines_cut hcut' hs (Nat.le_of_lt hb) (.ok p)
    exact ⟨_, us', .array ((Token.kind_eq hfirst).trans hk)
      (comprehensionAhead_cut_false hnl hcut ha p) hd h' hs' ((Token.kind_eq ht').trans ht), hrest⟩
  | .map hk ha hd h hs ht, hcut, hb, source', p => by
    have hsuffix := (suffix_of_skipNewlines hs).trans h.suffix
    obtain ⟨first', us', rfl, hfirst, hcut⟩ :=
      hcut.exists_cons (Nat.le_trans (Nat.le_of_lt hb) hsuffix.tokens.length_le)
    have hlt := Nat.lt_of_lt_of_le hb (suffix_of_skipNewlines hs).tokens.length_le
    obtain ⟨trees', rest', h', hcut'⟩ := h.cut hnl hcut hlt source' p
    obtain ⟨t', us', hs', ht', hrest⟩ := skipNewlines_cut hcut' hs (Nat.le_of_lt hb) (.ok p)
    exact ⟨_, us', .map ((Token.kind_eq hfirst).trans hk)
      (comprehensionAhead_cut_false hnl hcut ha p) hd h' hs' ((Token.kind_eq ht').trans ht), hrest⟩

theorem ReadsElements.cut {d : Nat} {s rest : TokenStream} {trees : List Tree} {ts' : List Token}
    (hnl : nl.kind = .newline) : ReadsElements source d s trees rest → Cut nl back s.tokens ts' →
    back.length < rest.tokens.length → ∀ (source' : List Char) (p : Position), ∃ trees' rest',
      ReadsElements source' d ⟨ts', .ok p⟩ trees' ⟨rest', .ok p⟩ ∧ Cut nl back rest.tokens rest'
  | .nil, hcut, _, _, _ => ⟨[], ts', .nil, hcut⟩
  | .concat h hv hx hsep, hcut, hb, source', p => by
    have hlt₃ := Nat.lt_of_lt_of_le hb hsep.suffix.tokens.length_le
    have hlt₂ := Nat.lt_of_lt_of_le hlt₃ hx.suffix.tokens.length_le
    have hlt₁ := Nat.lt_of_lt_of_le hlt₂ hv.suffix.tokens.length_le
    obtain ⟨trees', rest₁, h', hcut₁⟩ :=
      h.cut hnl hcut (Nat.lt_of_lt_of_le hlt₁ (tokens_skipNewlines_le _)) source' p
    obtain ⟨v', rest₂, hv', hcut₂⟩ := hv.cut hnl (hcut₁.skipNewlines hlt₁ (.ok p)) hlt₂ source' p
    obtain ⟨w', rest₃, hx', hcut₃⟩ := hx.cut hcut₂ hlt₃ source' p
    obtain ⟨rest', hsep', hrest⟩ := hsep.cut hcut₃ hb p
    exact ⟨_, rest', .concat h' hv' hx' hsep', hrest⟩

theorem ReadsEntries.cut {d : Nat} {s rest : TokenStream} {trees : List Tree} {ts' : List Token}
    (hnl : nl.kind = .newline) : ReadsEntries source d s trees rest → Cut nl back s.tokens ts' →
    back.length < rest.tokens.length → ∀ (source' : List Char) (p : Position), ∃ trees' rest',
      ReadsEntries source' d ⟨ts', .ok p⟩ trees' ⟨rest', .ok p⟩ ∧ Cut nl back rest.tokens rest'
  | .nil, hcut, _, _, _ => ⟨[], ts', .nil, hcut⟩
  | .concat h hkey hsign hd hv hx hend, hcut, hb, source', p => by
    have hlt₃ := Nat.lt_of_lt_of_le hb hend.suffix.tokens.length_le
    have hlt₂ := Nat.lt_of_lt_of_le hlt₃ hx.suffix.tokens.length_le
    have hltv := Nat.lt_of_lt_of_le hlt₂ hv.suffix.tokens.length_le
    have hltk := Nat.lt_succ_of_lt hltv
    have hlt₁ := Nat.lt_of_lt_of_le hltk hkey.suffix.tokens.length_le
    obtain ⟨trees', rest₁, h', hcut₁⟩ :=
      h.cut hnl hcut (Nat.lt_of_lt_of_le hlt₁ (tokens_skipNewlines_le _)) source' p
    obtain ⟨key', span', restk, hkey', hcutk⟩ :=
      hkey.cut (hcut₁.skipNewlines hlt₁ (.ok p)) hltk source' p
    obtain ⟨sign', us', rfl, hsign', hcutv⟩ := hcutk.exists_cons (Nat.le_of_lt hltv)
    obtain ⟨v', rest₂, hv', hcut₂⟩ := hv.cut hnl hcutv hlt₂ source' p
    obtain ⟨w', rest₃, hx', hcut₃⟩ := hx.cut hcut₂ hlt₃ source' p
    obtain ⟨rest', hend', hrest⟩ := hend.cut hcut₃ hb p
    refine ⟨_, rest', .concat h' hkey' ?_ hd hv' hx' hend', hrest⟩
    rwa [Token.kind_eq hsign']
end

end Cut

/-! ## Moves -/

theorem ReadsAtom.move {outer : Spine} {symbol : Symbol} {s₀ : TokenStream}
    (h : ReadsAtom source s value rest) (hk : symbol.kind = .attr ∨ symbol.kind = .array)
    (hs : Spine.valueStream symbol.kind s₀ = s) (trees : List Tree) :
    Move source ⟨outer.under symbol trees, false, s₀⟩
      ⟨outer.under symbol (trees ++ [leaf value]), true, rest⟩ := by
  cases h with
  | operand hv => exact .operand hk hs hv.operand_eq
  | comprehension hb ha hv => exact .comprehension hk hs hb ha hv

mutual
/-- The moves that read a value into an attribute or array. -/
theorem ReadsValue.moves {s rest s₀ : TokenStream} {d : Nat} {v : Tree} {outer : Spine}
    {symbol : Symbol} : ReadsValue source d s v rest → symbol.kind = .attr ∨ symbol.kind = .array →
    Spine.valueStream symbol.kind s₀ = s → outer.depth + 1 ≤ d → ∀ trees : List Tree,
      ReflTransGen (Move source) ⟨outer.under symbol trees, false, s₀⟩
        ⟨outer.under symbol (trees ++ [v]), true, rest⟩
  | .atom h, hk, hs, _, trees => .single (h.move hk hs trees)
  | .array hfirst ha hd h hs' ht, hk, hs, hle, trees =>
    have hle' : (outer.under symbol trees).depth + 1 ≤ _ := Nat.succ_le_succ hle
    have hopen := Move.array hk hs hfirst ha (Nat.lt_of_le_of_lt hle' hd)
    have helements := h.moves rfl hle'
    (helements.head hopen).tail (.arrayEnd rfl hs' ht)
  | .map hfirst ha hd h hs' ht, hk, hs, hle, trees =>
    have hle' : (outer.under symbol trees).depth + 1 ≤ _ := Nat.succ_le_succ hle
    have hopen := Move.map hk hs hfirst ha (Nat.lt_of_le_of_lt hle' hd)
    have ⟨_, hentries⟩ := h.moves rfl hle'
    (hentries.head hopen).tail (.mapEnd rfl hs' ht)

theorem ReadsElements.moves {s rest : TokenStream} {d : Nat} {trees : List Tree} {outer : Spine}
    {symbol : Symbol} : ReadsElements source d s trees rest → symbol.kind = .array →
    outer.depth + 1 ≤ d → ReflTransGen (Move source) ⟨outer.under symbol [], false, s⟩
      ⟨outer.under symbol trees, false, rest⟩
  | .nil, _, _ => .refl
  | .concat h hv hx hsep, hk, hle =>
    have hvalue := hv.moves (.inr hk) (by simp [Spine.valueStream, hk]) hle _
    ((h.moves hk hle).trans hvalue).tail (.element hk hx hsep)

theorem ReadsEntries.moves {s rest : TokenStream} {d : Nat} {trees : List Tree} {outer : Spine}
    {symbol : Symbol} : ReadsEntries source d s trees rest → symbol.kind = .map →
    outer.depth + 1 ≤ d → ∃ c, ReflTransGen (Move source) ⟨outer.under symbol [], false, s⟩
      ⟨outer.under symbol trees, c, rest⟩
  | .nil, _, _ => ⟨false, .refl⟩
  | .concat h hkey hsign hd hv hx hend, hk, hle =>
    have ⟨_, hbefore⟩ := h.moves hk hle
    have hle' : ∀ ts, (outer.under symbol ts).depth + 1 ≤ _ := fun _ => Nat.succ_le_succ hle
    have hopen := Move.entry hk hkey hsign (Nat.lt_of_le_of_lt (hle' _) hd)
    have hvalue := hv.moves (.inl rfl) rfl (hle' _) []
    ⟨true, ((hbefore.tail hopen).trans hvalue).tail (.attrEnd rfl hx (by simpa [Spine.InMap, hk]))⟩
end

end Hcl
