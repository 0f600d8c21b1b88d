import Mathlib.Data.List.DropRight
import Hcl.Proofs.Builder.Cover
import Hcl.Proofs.Builder.Reading

/-!
# What the open scopes have read

Each open symbol of a spine began at some place inside of the scope around it, and what is finished
below it was read from there on. Moves keep this, so a value that is complete was read as a whole
from where its scope stood before it.
-/

namespace Hcl

open Hcl.Tree Hcl.TokenStream
open Relation (ReflTransGen)

variable {source : List Char} {all : List Token}

/-! ## Signs -/

/-- Of the tokens `all` those are left that stand behind a token that ends no operand. A `-` or `+`
in front of them is a sign. -/
def Fresh (all ts : List Token) : Prop :=
  ∃ before b, all = before ++ b :: ts ∧ b.kind.endsOperand = false

theorem Fresh.of_cons {t : Token} {ts : List Token} (h : t :: ts <:+ all)
    (hk : t.kind.endsOperand = false) : Fresh all ts := by
  obtain ⟨before, rfl⟩ := h
  exact ⟨before, t, rfl, hk⟩

theorem Fresh.skipNewlines {s : TokenStream} (h : Fresh all s.tokens) :
    Fresh all s.skipNewlines.tokens := by
  have hdrop : ∀ ts, Fresh all ts → Fresh all (ts.dropWhile (·.kind == .newline)) := fun ts => by
    induction ts with
    | nil => exact id
    | cons t ts ih =>
      intro h
      rw [List.dropWhile_cons]
      split
      · rename_i hk
        obtain ⟨before, b, rfl, -⟩ := h
        refine ih ⟨before ++ [b], t, by simp, ?_⟩
        rw [beq_iff_eq.mp hk]
        rfl
      · exact h
  exact hdrop s.tokens h

theorem Separator.fresh {s rest : TokenStream} {first : Token} {ts : List Token}
    (h : Separator s rest) (hall : s.tokens <:+ all) (hs : rest.skipNewlines.tokens = first :: ts)
    (hk : first.kind ≠ .rBracket) : Fresh all (first :: ts) := by
  rw [← hs]
  cases h with
  | comma hskip ht =>
    have hsuffix := (suffix_skipNewlines s).tokens.trans hall
    rw [hskip] at hsuffix
    exact (Fresh.of_cons hsuffix (by rw [ht]; rfl)).skipNewlines
  | @stop u t hu ht hcomma hstop =>
    have htwice : s.skipNewlines.skipNewlines = s.skipNewlines := by
      simp only [TokenStream.skipNewlines, List.dropWhile_idempotent _ _]
    rw [htwice] at hs ⊢
    have hfirst : first = t := by
      rw [TokenStream.peek, hs] at ht
      exact Except.ok.inj ht
    have hnewline : u.kind = .newline := hstop.resolve_left (hfirst ▸ hk)
    have hs' := eq_of_peek hu (by simp [hnewline])
    rw [hs'] at hall ⊢
    rw [skipNewlines_cons_newline hnewline]
    exact (Fresh.of_cons hall (by rw [hnewline]; rfl)).skipNewlines

theorem ReadsElements.fresh {d : Nat} {s rest : TokenStream} {trees : List Tree} {first : Token}
    {ts : List Token} (h : ReadsElements source d s trees rest) (hall : s.tokens <:+ all)
    (hfresh : Fresh all s.tokens) (hs : rest.skipNewlines.tokens = first :: ts)
    (hk : first.kind ≠ .rBracket) : Fresh all (first :: ts) := by
  cases h with
  | nil => exact hs ▸ hfresh.skipNewlines
  | concat h hv hx hsep =>
    have hbefore := hx.suffix.trans (hv.suffix.trans ((suffix_skipNewlines _).trans h.suffix))
    exact hsep.fresh (hbefore.tokens.trans hall) hs hk

/-! ## Scopes -/

/-- The scope of `sp`, with `s` left, opens the one of `symbol`, with `rest` left. -/
inductive Opens (source : List Char) : Spine → TokenStream → Symbol → TokenStream → Prop where
  | attr {sp : Spine} {s : TokenStream} {t sign : Token} {ts : List Token}
      {e : Except LexicalError Position} : sp.InBody → s.skipNewlines = ⟨t :: sign :: ts, e⟩ →
      t.kind = .ident → sign.kind = .equals → sp.depth + 1 < maxDepth →
      Opens source sp s (.attr t.text t.span) ⟨ts, e⟩
  | block {sp : Spine} {s rest : TokenStream} {t : Token} {ts : List Token}
      {e : Except LexicalError Position} {names : List String} : sp.InBody →
      s.skipNewlines = ⟨t :: ts, e⟩ → t.kind = .ident ∨ t.kind = .string →
      labels t.text ⟨ts, e⟩ = .ok (names, rest) → sp.depth + 1 < maxDepth →
      Opens source sp s (.block names t.span) rest
  | bodyArray {sp : Spine} {s : TokenStream} {t : Token} {ts : List Token}
      {e : Except LexicalError Position} : sp.InBody → s.skipNewlines = ⟨t :: ts, e⟩ →
      t.kind = .lBracket → sp.depth + 1 < maxDepth → Opens source sp s (.array t.span) ⟨ts, e⟩
  | array {outer : Spine} {symbol : Symbol} {trees : List Tree} {s : TokenStream} {first : Token}
      {ts : List Token} {e : Except LexicalError Position} :
      symbol.kind = .attr ∨ symbol.kind = .array →
      Spine.valueStream symbol.kind s = ⟨first :: ts, e⟩ → first.kind = .lBracket →
      comprehensionAhead ⟨ts, e⟩ = .ok false → (outer.under symbol trees).depth + 1 < maxDepth →
      Opens source (outer.under symbol trees) s (.array first.span) ⟨ts, e⟩
  | map {outer : Spine} {symbol : Symbol} {trees : List Tree} {s : TokenStream} {first : Token}
      {ts : List Token} {e : Except LexicalError Position} :
      symbol.kind = .attr ∨ symbol.kind = .array →
      Spine.valueStream symbol.kind s = ⟨first :: ts, e⟩ → first.kind = .lBrace →
      comprehensionAhead ⟨ts, e⟩ = .ok false → (outer.under symbol trees).depth + 1 < maxDepth →
      Opens source (outer.under symbol trees) s (.map first.span) ⟨ts, e⟩
  | entry {outer : Spine} {symbol : Symbol} {trees : List Tree} {s : TokenStream} {sign : Token}
      {ts : List Token} {e : Except LexicalError Position} {key : String} {span : Span} :
      symbol.kind = .map → EntryKey source s.skipNewlines key span ⟨sign :: ts, e⟩ →
      sign.kind = .equals ∨ sign.kind = .colon → (outer.under symbol trees).depth + 1 < maxDepth →
      Opens source (outer.under symbol trees) s (.attr key span) ⟨ts, e⟩

/-- What the scope of a symbol of some kind has read between `s` and `rest`, at `d` open symbols and
without a value that is not finished. -/
inductive HasRead (source : List Char) (d : Nat) :
    SymbolKind → TokenStream → List Tree → TokenStream → Prop where
  | block {names : List String} {s rest : TokenStream} {trees : List Tree} :
      ReadsItems source d s trees rest → HasRead source d (.block names) s trees rest
  | attr {s : TokenStream} : HasRead source d .attr s [] s
  | array {s rest : TokenStream} {trees : List Tree} : ReadsElements source d s trees rest →
      HasRead source d .array s trees rest
  | map {s rest : TokenStream} {trees : List Tree} : ReadsEntries source d s trees rest →
      HasRead source d .map s trees rest

/-- Of the tokens `all` the stream `s` is left, and what came before it was read into the scopes of
`sp`. -/
inductive Spine.At (source : List Char) (all : List Token) : Spine → TokenStream → Prop where
  | root {trees : List Tree} {s₀ s : TokenStream} : s₀.tokens = all →
      ReadsItems source 0 s₀ trees s → At source all (.root trees) s
  | under {outer : Spine} {symbol : Symbol} {trees : List Tree} {s₀ s₁ s : TokenStream} :
      At source all outer s₀ → Opens source outer s₀ symbol s₁ →
      HasRead source (outer.depth + 1) symbol.kind s₁ trees s →
      At source all (outer.under symbol trees) s

theorem Spine.suffix_valueStream (kind : SymbolKind) (s : TokenStream) :
    (valueStream kind s).Suffix s := by
  rw [valueStream]
  split
  · exact suffix_skipNewlines s
  · exact .refl s

variable {sp outer : Spine} {symbol : Symbol} {trees : List Tree} {s s₁ rest : TokenStream} {d : Nat}

theorem Opens.suffix (h : Opens source sp s symbol rest) : rest.Suffix s := by
  cases h with
  | attr _ hs => exact (Suffix.cons (.refl _)).trans (suffix_of_skipNewlines hs)
  | block _ hs _ hl => exact (suffix_of_labelsFrom hl).trans (suffix_of_skipNewlines hs)
  | bodyArray _ hs => exact suffix_of_skipNewlines hs
  | array _ hs _ _ _ => exact Spine.suffix_of_valueStream hs
  | map _ hs _ _ _ => exact Spine.suffix_of_valueStream hs
  | entry _ hkey _ _ =>
    exact (Suffix.cons (.refl _)).trans (hkey.suffix.trans (suffix_skipNewlines _))

theorem HasRead.suffix {kind : SymbolKind} (h : HasRead source d kind s trees rest) :
    rest.Suffix s := by
  cases h with
  | block h => exact h.suffix
  | attr => exact .refl s
  | array h => exact h.suffix
  | map h => exact h.suffix

theorem Spine.At.suffix (h : sp.At source all s) : s.tokens <:+ all := by
  induction h with
  | root hall hread => exact hall ▸ hread.suffix.tokens
  | under _ hopens hread ih => exact (hread.suffix.trans hopens.suffix).tokens.trans ih

/-- Where a value may begin, a `-` or `+` is a sign. -/
theorem Spine.At.fresh {first : Token} {ts : List Token}
    (h : (outer.under symbol trees).At source all s)
    (hk : symbol.kind = .attr ∨ symbol.kind = .array)
    (hs : (Spine.valueStream symbol.kind s).tokens = first :: ts)
    (hfirst : first.kind ≠ .rBracket) :
    Fresh all (first :: ts) := by
  rw [← hs]
  cases h with
  | @under _ _ _ s₀ s₁ _ hat hopens hread =>
  rcases hk with hk | hk
  · rw [hk] at hread ⊢
    cases hread
    cases hopens with
    | attr _ hskip _ hsign _ =>
      have hsuffix := (suffix_skipNewlines s₀).tokens.trans hat.suffix
      rw [hskip] at hsuffix
      exact .of_cons ((List.suffix_cons _ _).trans hsuffix) (by rw [hsign]; rfl)
    | entry _ hkey hsign _ =>
      have hsuffix := (hkey.suffix.trans (suffix_skipNewlines s₀)).tokens.trans hat.suffix
      exact .of_cons hsuffix (by rcases hsign with hsign | hsign <;> rw [hsign] <;> rfl)
    | _ => cases hk
  · have hvalue : Spine.valueStream symbol.kind s = s.skipNewlines := if_pos hk
    rw [hk] at hread
    rw [hvalue] at hs ⊢
    cases hread with
    | array helements =>
    have hfresh : Fresh all s₁.tokens := by
      cases hopens with
      | bodyArray _ hskip hbracket _ =>
        have hsuffix := (suffix_skipNewlines s₀).tokens.trans hat.suffix
        rw [hskip] at hsuffix
        exact .of_cons hsuffix (by rw [hbracket]; rfl)
      | @array _ symbol' _ _ _ _ _ _ hfirst' hbracket _ _ =>
        have hsuffix := (Spine.suffix_valueStream symbol'.kind s₀).tokens.trans hat.suffix
        rw [hfirst'] at hsuffix
        exact .of_cons hsuffix (by rw [hbracket]; rfl)
      | _ => cases hk
    rw [hs]
    exact helements.fresh (hopens.suffix.tokens.trans hat.suffix) hfresh hs hfirst

/-! ## Stages -/

/-- Whether the innermost scope takes values. -/
def Spine.TakesValue : Spine → Prop
  | .root _ => False
  | .under _ symbol _ => symbol.kind = .attr ∨ symbol.kind = .array

theorem Spine.InBody.not_takesValue (h : sp.InBody) : ¬sp.TakesValue := by
  cases sp with
  | root trees => exact id
  | under outer symbol trees =>
    obtain ⟨names, hk⟩ := h
    simp [Spine.TakesValue, hk]

theorem Spine.InBody.not_inMap (h : sp.InBody) : ¬sp.InMap := by
  cases sp with
  | root trees => exact id
  | under outer symbol trees =>
    obtain ⟨names, hk⟩ := h
    simp [Spine.InMap, hk]

/-- What a stage has read: all that its scopes hold, and a complete value if there is one. -/
inductive Stage.Built (source : List Char) (all : List Token) : Stage → Prop where
  | scope {sp : Spine} {c : Bool} {s : TokenStream} : sp.At source all s →
      (c = true → ¬sp.TakesValue) → Built source all ⟨sp, c, s⟩
  | value {outer : Spine} {symbol : Symbol} {trees : List Tree} {v : Tree} {s rest : TokenStream} :
      symbol.kind = .attr ∨ symbol.kind = .array → (outer.under symbol trees).At source all s →
      ReadsValue source (outer.depth + 1) (Spine.valueStream symbol.kind s) v rest →
      Built source all ⟨outer.under symbol (trees ++ [v]), true, rest⟩

theorem Stage.Built.at {c : Bool} (h : Stage.Built source all ⟨sp, c, s⟩)
    (hc : c = false ∨ ¬sp.TakesValue) : sp.At source all s := by
  cases h with
  | scope hat _ => exact hat
  | value hk _ _ => exact absurd hk (hc.resolve_left (by simp))

theorem Stage.Built.exists_value {v : Tree}
    (h : Stage.Built source all ⟨outer.under symbol (trees ++ [v]), true, rest⟩)
    (hk : symbol.kind = .attr ∨ symbol.kind = .array) :
    ∃ s, (outer.under symbol trees).At source all s ∧
      ReadsValue source (outer.depth + 1) (Spine.valueStream symbol.kind s) v rest := by
  generalize hst : (⟨outer.under symbol (trees ++ [v]), true, rest⟩ : Stage) = st at h
  cases h with
  | scope _ hnot =>
    cases hst
    exact absurd hk (hnot rfl)
  | @value _ _ trees' v' s _ _ hat hvalue =>
    obtain ⟨hsp, -, rfl⟩ := Stage.mk.inj hst
    obtain ⟨rfl, rfl, htrees⟩ := Spine.under.inj hsp
    obtain ⟨rfl, hv⟩ := List.append_inj' htrees rfl
    obtain rfl := List.singleton_inj.mp hv
    exact ⟨s, hat, hvalue⟩

/-! ## Moves -/

/-- One more finished item in a body. -/
theorem Spine.At.append_body {t : Tree} (h : sp.At source all s) (hb : sp.InBody)
    (hitem : ∀ {s₀ trees}, ReadsItems source sp.depth s₀ trees s →
      ReadsItems source sp.depth s₀ (trees ++ [t]) rest) : (sp.append [t]).At source all rest := by
  cases h with
  | root hall hread => exact .root hall (hitem hread)
  | @under _ symbol _ _ _ _ hat hopens hread =>
    obtain ⟨names, hk⟩ := hb
    refine .under hat hopens ?_
    rw [hk] at hread ⊢
    cases hread with
    | block hread => exact .block (hitem hread)

theorem Stage.Built.append_body {t : Tree} (h : sp.At source all s) (hb : sp.InBody)
    (hitem : ∀ {s₀ trees}, ReadsItems source sp.depth s₀ trees s →
      ReadsItems source sp.depth s₀ (trees ++ [t]) rest) :
    Stage.Built source all ⟨sp.append [t], true, rest⟩ := by
  refine .scope (h.append_body hb hitem) fun _ => ?_
  cases sp with
  | root trees => exact id
  | under outer symbol trees => exact hb.not_takesValue

/-- The scope that is opened holds nothing yet. -/
theorem Stage.Built.opened (h : sp.At source all s) (ho : Opens source sp s symbol rest)
    (hread : HasRead source (sp.depth + 1) symbol.kind rest [] rest) :
    Stage.Built source all ⟨sp.under symbol [], false, rest⟩ :=
  .scope (.under h ho hread) (by simp)

theorem AttrEnd.mono {inMap inMap' : Prop} (h : AttrEnd inMap s rest) (hm : inMap → inMap') :
    AttrEnd inMap' s rest := by
  cases h with
  | newline hk => exact .newline hk
  | comma hk hin => exact .comma hk (hm hin)
  | stop hp hk => exact .stop hp hk

/-- An attribute that ends in a body or in a map. -/
theorem Spine.At.attrEnd {v v' : Tree} {s₂ s₃ : TokenStream}
    (h : (outer.under symbol []).At source all s) (hk : symbol.kind = .attr)
    (hv : ReadsValue source (outer.depth + 1) s v s₂) (hx : Extends source v s₂ v' s₃)
    (hend : AttrEnd outer.InMap s₃ rest) :
    Stage.Built source all
      ⟨outer.append [node (symbol.extendTo v'.symbol.span) [v']], true, rest⟩ := by
  cases h with
  | under hat hopens hread =>
  rw [hk] at hread
  cases hread
  cases hopens with
  | attr hb hskip hident hsign hd =>
    refine .append_body hat hb fun hread => .attr hread hskip hident hsign hd hv hx ?_
    exact hend.mono hb.not_inMap
  | @entry outer map trees s₀ sign ts e key span hmap hkey hsign hd =>
    cases hat with
    | under hat hopens hread =>
    rw [hmap] at hread
    cases hread with
    | map hentries =>
    refine .scope (.under hat hopens ?_) fun _ => by simp [Spine.append, Spine.TakesValue, hmap]
    rw [hmap]
    exact .map (.concat hentries hkey hsign hd hv hx (hend.mono fun _ => trivial))
  | _ => cases hk

theorem Spine.At.element {v v' : Tree} {s₂ s₃ : TokenStream}
    (h : (outer.under symbol trees).At source all s) (hk : symbol.kind = .array)
    (hv : ReadsValue source (outer.depth + 1) s.skipNewlines v s₂) (hx : Extends source v s₂ v' s₃)
    (hsep : Separator s₃ rest) : (outer.under symbol (trees ++ [v'])).At source all rest := by
  cases h with
  | under hat hopens hread =>
  refine .under hat hopens ?_
  rw [hk] at hread ⊢
  cases hread with
  | array helements => exact .array (.concat helements hv hx hsep)

theorem Spine.At.arrayEnd {t : Token} {ts : List Token} {e : Except LexicalError Position}
    (h : (outer.under symbol trees).At source all s) (hk : symbol.kind = .array)
    (hs : s.skipNewlines = ⟨t :: ts, e⟩) (ht : t.kind = .rBracket) :
    Stage.Built source all ⟨outer.append [node (symbol.extendTo t.span) trees], true, ⟨ts, e⟩⟩ := by
  cases h with
  | under hat hopens hread =>
  rw [hk] at hread
  cases hread with
  | array helements =>
  cases hopens with
  | bodyArray hb hskip hbracket hd =>
    exact .append_body hat hb fun hread => .array hread hskip hbracket hd helements hs ht
  | array hk' hvalue hfirst ha hd =>
    refine .value hk' hat ?_
    rw [hvalue]
    exact .array hfirst ha hd helements hs ht
  | _ => cases hk

theorem Spine.At.mapEnd {t : Token} {ts : List Token} {e : Except LexicalError Position}
    (h : (outer.under symbol trees).At source all s) (hk : symbol.kind = .map)
    (hs : s.skipNewlines = ⟨t :: ts, e⟩) (ht : t.kind = .rBrace) :
    Stage.Built source all ⟨outer.append [node (symbol.extendTo t.span) trees], true, ⟨ts, e⟩⟩ := by
  cases h with
  | under hat hopens hread =>
  rw [hk] at hread
  cases hread with
  | map hentries =>
  cases hopens with
  | map hk' hvalue hfirst ha hd =>
    refine .value hk' hat ?_
    rw [hvalue]
    exact .map hfirst ha hd hentries hs ht
  | _ => cases hk

theorem Spine.At.blockEnd {names : List String} {t : Token} {ts : List Token}
    {e : Except LexicalError Position} (h : (outer.under symbol trees).At source all s)
    (hk : symbol.kind = .block names) (hs : s.skipNewlines = ⟨t :: ts, e⟩)
    (ht : t.kind = .rBrace) :
    Stage.Built source all ⟨outer.append [node (symbol.extendTo t.span) trees], true, ⟨ts, e⟩⟩ := by
  cases h with
  | under hat hopens hread =>
  rw [hk] at hread
  cases hread with
  | block hitems =>
  cases hopens with
  | block hb hskip hname hl hd =>
    exact .append_body hat hb fun hread => .block hread hskip hname hl hd hitems hs ht
  | _ => cases hk

theorem Move.built {st st' : Stage} (h : Move source st st') (hb : st.Built source all) :
    st'.Built source all := by
  cases h with
  | attr hbody hs hident hsign hd =>
    exact .opened (hb.at (.inr hbody.not_takesValue)) (.attr hbody hs hident hsign hd) .attr
  | block hbody hs hname hl hd =>
    exact .opened (hb.at (.inr hbody.not_takesValue)) (.block hbody hs hname hl hd) (.block .nil)
  | bodyArray hbody hs ht hd =>
    exact .opened (hb.at (.inr hbody.not_takesValue)) (.bodyArray hbody hs ht hd) (.array .nil)
  | blockEnd hk hs ht =>
    exact (hb.at (.inr (by simp [Spine.TakesValue, hk]))).blockEnd hk hs ht
  | operand hk hs hv =>
    exact .value hk (hb.at (.inl rfl)) (hs ▸ .atom (.operand (readsOperand_of_operand hv)))
  | comprehension hk hs hfirst ha hv =>
    exact .value hk (hb.at (.inl rfl)) (hs ▸ .atom (.comprehension hfirst ha hv))
  | array hk hs hfirst ha hd =>
    exact .opened (hb.at (.inl rfl)) (.array hk hs hfirst ha hd) (.array .nil)
  | map hk hs hfirst ha hd =>
    exact .opened (hb.at (.inl rfl)) (.map hk hs hfirst ha hd) (.map .nil)
  | @attrEnd outer symbol v v' s s' rest hk hx hend =>
    have hb : Stage.Built source all ⟨outer.under symbol ([] ++ [v]), true, s⟩ := hb
    obtain ⟨s₀, hat, hv⟩ := hb.exists_value (.inl hk)
    rw [Spine.valueStream, if_neg (by simp [hk])] at hv
    exact hat.attrEnd hk hv hx hend
  | element hk hx hsep =>
    obtain ⟨s₀, hat, hv⟩ := hb.exists_value (.inr hk)
    rw [Spine.valueStream, if_pos hk] at hv
    exact .scope (hat.element hk hv hx hsep) (by simp)
  | arrayEnd hk hs ht => exact (hb.at (.inl rfl)).arrayEnd hk hs ht
  | entry hk hkey hsign hd =>
    exact .opened (hb.at (.inr (by simp [Spine.TakesValue, hk]))) (.entry hk hkey hsign hd) .attr
  | mapEnd hk hs ht =>
    exact (hb.at (.inr (by simp [Spine.TakesValue, hk]))).mapEnd hk hs ht

theorem Move.built_of_reflTransGen {st st' : Stage} (h : ReflTransGen (Move source) st st')
    (hb : st.Built source all) : st'.Built source all :=
  run_of_step Move.built h hb

/-! ## Documents -/

/-- A source that is read without an error has items, and line breaks behind them. -/
theorem exists_items_parseTree (source : String) (h : (parseTree source).error = none) :
    ∃ trees rest p, ReadsItems source.toList 0 (ofString source) trees rest ∧
      (∀ t ∈ rest.tokens, t.kind = .newline) ∧ (ofString source).ending = .ok p ∧
      parseTree source = ⟨.ofForest trees, none⟩ := by
  obtain ⟨⟨sp, c, s⟩, trees, p, hmoves, hroot, hskip, hending, htree⟩ := exists_finish source h
  obtain rfl : sp = .root trees := hroot
  have hbuilt := Move.built_of_reflTransGen hmoves (.scope (.root rfl .nil) (by simp))
  cases hbuilt.at (.inr id) with
  | @root _ s₀ _ hall hread =>
    have hfirst : s₀ = ofString source := by
      have hsame : s₀.ending = (ofString source).ending :=
        hread.suffix.ending.symm.trans (Move.suffix_of_reflTransGen hmoves).ending
      obtain ⟨tokens, ending⟩ := s₀
      subst hall hsame
      rfl
    refine ⟨trees, s, p, hfirst ▸ hread, ?_, hending, ?_⟩
    · simpa [TokenStream.skipNewlines, List.dropWhile_eq_nil_iff] using
        congrArg TokenStream.tokens hskip
    · rw [Spine.tree, Spine.forest, Spine.forestWith, List.append_nil] at htree
      rw [← htree, ← h]

theorem ReadsItems.eq_of_nil (h : ReadsItems source d s trees rest) (hnil : trees = []) :
    rest = s := by
  cases h with
  | nil => rfl
  | attr | block | array => simp at hnil

end Hcl
