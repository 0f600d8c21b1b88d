import Hcl.Proofs.Builder.Places
import Hcl.Proofs.Builder.Scopes

/-!
# How expressions are read

An expression that is left for later is read at once, or it is a value with an operation behind it.
Either way its text ends with a token, and where a line break follows that token it is read again.
-/

namespace Hcl

open Hcl.Tree Hcl.TokenStream
open Relation (ReflTransGen)

/-- The symbol `value` is read below `d` open symbols. -/
inductive ReadsDeferred (source : List Char) (d : Nat) :
    TokenStream → Symbol → TokenStream → Prop where
  | atom {s rest : TokenStream} {value : Symbol} : ReadsAtom source s value rest →
      ReadsDeferred source d s value rest
  | operation {s rest : TokenStream} {v : Tree} {t : Token} {ts : List Token}
      {e : Except LexicalError Position} {stop : Span} : ReadsValue source d s v ⟨t :: ts, e⟩ →
      t.kind = .operator ∨ t.kind = .question →
      expressionEnd v.symbol.span ⟨t :: ts, e⟩ = .ok (stop, rest) →
      ReadsDeferred source d s (.eval source .operation none v.symbol.span stop) rest

/-- The symbol `value` is the text from the first of the tokens to `stop`. -/
def Spells (source : List Char) (value : Symbol) (ts : List Token) (stop : Span) : Prop :=
  ∃ kind name first, value = .eval source kind name first stop ∧
    ∀ t ∈ ts.head?, first.start = t.span.start

variable {source : List Char} {d : Nat} {s rest : TokenStream} {value : Symbol} {e : Eval}
  {nl : Token}

/-! ## The last token of an expression -/

theorem ReadsAtom.exists_reaches (h : ReadsAtom source s value rest) (he : value.kind = .eval e) :
    ∃ stop ns, Spells source value s.tokens stop ∧ Reaches s.tokens stop ns rest.tokens ∧
      ∀ {nl : Token} {ts' : List Token} (source' : List Char) (p : Position), nl.kind = .newline →
        Cut nl (ns ++ rest.tokens) s.tokens ts' → ∃ value' rest',
          ReadsAtom source' ⟨ts', .ok p⟩ value' ⟨rest', .ok p⟩ ∧ SameEval value value' ∧
            (rest' = [nl] ∨ rest' = []) := by
  cases h with
  | @operand first ts ending value rest hv =>
    obtain ⟨kind, name, stop, ns, hvalue, hreaches, hop⟩ := hv.exists_reaches he
    refine ⟨stop, ns, ⟨kind, name, first.span, hvalue, by simp⟩, hreaches, ?_⟩
    intro nl ts' source' p hnl hcut
    obtain ⟨first', us', rfl, hfirst, hcut⟩ := hcut.exists_cons hreaches.length_le
    obtain ⟨value', rest', hv', hsame, hrest⟩ :=
      hv.cut_end hnl hreaches.newlines hcut hop hfirst source' p
    exact ⟨value', rest', .operand hv', hsame, hrest⟩
  | @comprehension first ts ending value rest hk ha hv =>
    obtain ⟨stop, hvalue, hreaches⟩ := exists_reaches_of_comprehension hv
    refine ⟨stop, [], ⟨_, _, first.span, hvalue, by simp⟩, hreaches, ?_⟩
    intro nl ts' source' p hnl hcut
    obtain ⟨first', us', rfl, hfirst, hcut⟩ := hcut.exists_cons hreaches.length_le
    obtain ⟨⟨stop, rest₁⟩, hg, hr⟩ := exists_of_map_ok hv
    obtain rfl : rest₁ = rest := (Prod.mk.inj hr).2
    obtain ⟨value', rest', hv', hsame, hrest⟩ :=
      comprehension_cut hcut hv (Nat.le_refl _) source' first' (.ok p)
    refine ⟨value', rest', .comprehension ?_ ?_ hv', hsame, .inl hrest.eq_nl⟩
    · rwa [Token.kind_eq hfirst]
    · exact comprehensionAhead_cut_true hcut ha hg (Nat.le_refl _) p

/-- The text of an expression ends with a token. If line breaks follow it, they are at most `ns`;
with one line break behind that token, the expression is read again. -/
theorem ReadsDeferred.exists_reaches (h : ReadsDeferred source d s value rest)
    (he : value.kind = .eval e) :
    ∃ stop ns, Spells source value s.tokens stop ∧ Reaches s.tokens stop ns rest.tokens ∧
      ∀ {nl : Token} {ts' : List Token} (source' : List Char) (p : Position), nl.kind = .newline →
        Cut nl (ns ++ rest.tokens) s.tokens ts' → ∃ value' rest',
          ReadsDeferred source' d ⟨ts', .ok p⟩ value' ⟨rest', .ok p⟩ ∧ SameEval value value' ∧
            (rest' = [nl] ∨ rest' = []) := by
  cases h with
  | atom h =>
    obtain ⟨stop, ns, hspells, hreaches, hcut⟩ := h.exists_reaches he
    refine ⟨stop, ns, hspells, hreaches, fun source' p hnl hts => ?_⟩
    obtain ⟨value', rest', h', hsame⟩ := hcut source' p hnl hts
    exact ⟨value', rest', .atom h', hsame⟩
  | @operation _ v t ts ending stop hv hk hx =>
    obtain ⟨ns, hreaches⟩ := exists_reaches_of_operation hk hx
    obtain ⟨front, hfront⟩ := hv.suffix.tokens
    obtain ⟨first, us, hfirst, -, hstart⟩ := hv.exists_first
    refine ⟨stop, ns, ⟨_, _, _, rfl, ?_⟩, hfront ▸ hreaches.append front, ?_⟩
    · simp [hfirst, hstart]
    intro nl ts' source' p hnl hcut
    obtain ⟨v', rest₁, hv', hcut⟩ :=
      hv.cut hnl hcut (Nat.lt_succ_of_le hreaches.length_le) source' p
    obtain ⟨t', us', rfl, ht, hcut'⟩ := hcut.exists_cons hreaches.length_le
    obtain ⟨stop', rest', hx', hrest⟩ := expressionEndFrom_cut_end hnl hreaches.newlines hcut hx
      v'.symbol.span.start v'.symbol.span p
    exact ⟨_, rest', .operation hv' (by rwa [Token.kind_eq ht]) hx', sameEval_eval, hrest⟩

/-! ## Moves -/

/-- The builder reads the expression if no operation goes on with it. -/
theorem ReadsDeferred.exists_moves {outer : Spine} {symbol : Symbol} {s₀ : TokenStream} {t : Token}
    (h : ReadsDeferred source d s value rest) (hk : symbol.kind = .attr ∨ symbol.kind = .array)
    (hs : Spine.valueStream symbol.kind s₀ = s) (hle : outer.depth + 1 ≤ d) (trees : List Tree)
    (ht : rest.peek = .ok t) (hop : t.kind ≠ .operator) (hq : t.kind ≠ .question) :
    ∃ v s', ReflTransGen (Move source) ⟨outer.under symbol trees, false, s₀⟩
        ⟨outer.under symbol (trees ++ [v]), true, s'⟩ ∧ Extends source v s' (leaf value) rest := by
  cases h with
  | atom h => exact ⟨_, _, .single (h.move hk hs trees), .stay ht hop hq⟩
  | operation hv ho hx => exact ⟨_, _, hv.moves hk hs hle trees, .operation ho hx⟩

/-- An attribute of the document. -/
theorem ReadsDeferred.moves_attribute {s₀ last : TokenStream} {x sign t : Token}
    (h : ReadsDeferred source d s value rest) (hd : 1 ≤ d)
    (hs : s₀.skipNewlines = ⟨x :: sign :: s.tokens, s.ending⟩) (hx : x.kind = .ident)
    (hsign : sign.kind = .equals) (ht : rest.peek = .ok t) (hop : t.kind ≠ .operator)
    (hq : t.kind ≠ .question) (hend : AttrEnd False rest last) (trees : List Tree) (c : Bool) :
    ReflTransGen (Move source) ⟨.root trees, c, s₀⟩
      ⟨.root (trees ++ [node ((Symbol.attr x.text x.span).extendTo value.span) [leaf value]]),
        true, last⟩ := by
  have hopen : Move source ⟨.root trees, c, s₀⟩
      ⟨(Spine.root trees).under (.attr x.text x.span) [], false, s⟩ :=
    .attr trivial hs hx hsign (show 0 + 1 < maxDepth by decide)
  have hvalue : Spine.valueStream (Symbol.attr x.text x.span).kind s = s := rfl
  have hdepth : (Spine.root trees).depth + 1 ≤ d := hd
  obtain ⟨v, s', hmoves, hextends⟩ := h.exists_moves (.inl rfl) hvalue hdepth [] ht hop hq
  exact (hmoves.head hopen).tail (.attrEnd rfl hextends hend)

/-! ## Where expressions are read -/

/-- The expression is read from the tokens `all` at a place where a value may begin. -/
def Eval.ReadFrom (source : List Char) (all : List Token) (e : Eval) : Prop :=
  ∃ d s value rest, 1 ≤ d ∧ Fresh all s.tokens ∧ ReadsDeferred source d s value rest ∧
    value.kind = .eval e

/-- If the symbol is an expression, it is read from the tokens `all` at a place where a value may
begin. -/
def Symbol.ReadFrom (source : List Char) (all : List Token) (value : Symbol) : Prop :=
  ∀ e, value.kind = .eval e →
    ∃ d s rest, 1 ≤ d ∧ Fresh all s.tokens ∧ ReadsDeferred source d s value rest

/-- The expressions of a spine are read from the tokens `all`. -/
def Spine.ReadFrom (source : List Char) (all : List Token) (sp : Spine) : Prop :=
  sp.Each fun _ s => s.ReadFrom source all

variable {all : List Token} {outer sp : Spine} {symbol : Symbol} {trees : List Tree} {v v' : Tree}
  {s' : TokenStream}

theorem ReadsDeferred.exists_first (h : ReadsDeferred source d s value rest) :
    ∃ first ts, s.tokens = first :: ts ∧ first.kind ≠ .rBracket := by
  cases h with
  | atom h =>
    obtain ⟨first, ts, hs, hk, -⟩ := h.exists_first
    exact ⟨first, ts, hs, hk⟩
  | operation h _ _ =>
    obtain ⟨first, ts, hs, hk, -⟩ := h.exists_first
    exact ⟨first, ts, hs, hk⟩

theorem Symbol.readFrom_of_kind (h : ∀ e, value.kind ≠ .eval e) : value.ReadFrom source all :=
  fun e he => absurd he (h e)

theorem Spine.At.readFrom (h : (outer.under symbol trees).At source all s)
    (hk : symbol.kind = .attr ∨ symbol.kind = .array)
    (hv : ReadsDeferred source (outer.depth + 1) (valueStream symbol.kind s) value rest) :
    value.ReadFrom source all := fun _ _ => by
  obtain ⟨first, ts, hs, hfirst⟩ := hv.exists_first
  exact ⟨_, _, rest, Nat.succ_pos _, hs ▸ h.fresh hk hs hfirst, hv⟩

namespace Spine.ReadFrom

theorem opened (h : sp.ReadFrom source all) (hk : ∀ e, symbol.kind ≠ .eval e) :
    (sp.under symbol []).ReadFrom source all :=
  Each.opened h (Symbol.readFrom_of_kind hk)

theorem closed (h : (outer.under symbol trees).ReadFrom source all)
    (hk : ∀ e, symbol.kind ≠ .eval e) (stop : Span) :
    (outer.append [node (symbol.extendTo stop) trees]).ReadFrom source all :=
  Each.closed h (Symbol.readFrom_of_kind hk)

/-- A value that is added below a scope. -/
theorem add (h : (outer.under symbol trees).ReadFrom source all)
    (hb : Stage.Built source all ⟨outer.under symbol trees, false, s⟩)
    (hk : symbol.kind = .attr ∨ symbol.kind = .array) (hs : valueStream symbol.kind s = s')
    (hv : ReadsAtom source s' value rest) :
    (outer.under symbol (trees ++ [leaf value])).ReadFrom source all := by
  subst hs
  have hvalue := (hb.at (.inl rfl)).readFrom hk (.atom hv)
  exact Each.append h (eachOf_leaf.mpr hvalue : EachOf _ _ [leaf value])

/-- The operation that goes on with the last value below a scope. -/
theorem extend (h : (outer.under symbol (trees ++ [v])).ReadFrom source all)
    (hb : Stage.Built source all ⟨outer.under symbol (trees ++ [v]), true, s⟩)
    (hk : symbol.kind = .attr ∨ symbol.kind = .array) (hx : Extends source v s v' s') :
    (outer.under symbol (trees ++ [v'])).ReadFrom source all := by
  refine Each.extends h hx ?_
  cases hx with
  | stay => exact Each.last h
  | operation ho hx =>
    obtain ⟨s₀, hat, hv⟩ := hb.exists_value hk
    exact hat.readFrom hk (.operation hv ho hx)

end Spine.ReadFrom

theorem Move.readFrom {st st' : Stage} (h : Move source st st') (hb : st.Built source all)
    (hst : st.spine.ReadFrom source all) : st'.spine.ReadFrom source all := by
  cases h with
  | attr | block | bodyArray | array | map | entry => exact hst.opened fun _ hk => nomatch hk
  | blockEnd hk | arrayEnd hk | mapEnd hk => exact hst.closed (by simp [hk]) _
  | operand hk hs hv => exact hst.add hb hk hs (.operand (readsOperand_of_operand hv))
  | comprehension hk hs hfirst ha hv => exact hst.add hb hk hs (.comprehension hfirst ha hv)
  | @attrEnd outer symbol v v' s s' rest hk hx hend =>
    have hst : (outer.under symbol ([] ++ [v])).ReadFrom source all := hst
    exact (hst.extend hb (.inl hk) hx).closed (by simp [hk]) _
  | element hk hx hsep => exact hst.extend hb (.inr hk) hx

theorem Leaves.readFrom {st : Stage} (h : Leaves source st sp) (hb : st.Built source all)
    (hst : st.spine.ReadFrom source all) : sp.ReadFrom source all := by
  cases h with
  | same => exact hst
  | opened hne => exact hst.opened hne
  | @attr outer symbol v v' s s' hk hx =>
    have hst : (outer.under symbol ([] ++ [v])).ReadFrom source all := hst
    exact (hst.extend hb (.inl hk) hx).closed (by simp [hk]) _
  | element hk hx => exact hst.extend hb (.inr hk) hx

theorem Move.readFrom_of_reflTransGen {st st' : Stage} (h : ReflTransGen (Move source) st st')
    (hb : st.Built source all) (hst : st.spine.ReadFrom source all) :
    st'.spine.ReadFrom source all := by
  induction h with
  | refl => exact hst
  | tail hmoves hmove ih => exact hmove.readFrom (built_of_reflTransGen hmoves hb) ih

/-- Whether or not the reading of a source comes to its end, every expression in its tree was read
where a value may begin. -/
theorem symbol_readFrom_parseTree {source : String} {id : Nat} {entry : Entry}
    (h : (parseTree source).tree.get? id = some entry) :
    entry.symbol.ReadFrom source.toList (TokenStream.ofString source).tokens := by
  obtain ⟨st, hmoves, -, hends⟩ := exists_ends_parseTree source
  have hfirst : (Stage.ofStream (.ofString source)).Built source.toList
      (TokenStream.ofString source).tokens := .scope (.root rfl .nil) (by simp)
  have hst := Move.readFrom_of_reflTransGen hmoves hfirst trivial
  generalize parseTree source = parsed at h hends
  cases hends with
  | finish _ _ _ => exact Spine.Each.of_get? hst h
  | @stop stopped sp c hstep htree _ hleaves =>
    rw [htree] at h
    exact Spine.Each.of_get? (hleaves.readFrom (Move.built_of_reflTransGen hmoves hfirst) hst) h

theorem readFrom_parseTree {source : String} {id : Nat} {entry : Entry}
    (h : (parseTree source).tree.get? id = some entry) (he : entry.symbol.kind = .eval e) :
    e.ReadFrom source.toList (TokenStream.ofString source).tokens := by
  obtain ⟨d, s, rest, hd, hfresh, hv⟩ := symbol_readFrom_parseTree h e he
  exact ⟨d, s, _, rest, hd, hfresh, hv, he⟩

end Hcl
