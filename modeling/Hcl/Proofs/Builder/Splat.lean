import Hcl.Proofs.Builder.Concat
import Hcl.Proofs.Builder.Standalone

/-!
# Splats in front of a line break

A `*` behind a dot is the last step of a traversal, and a line break ends the traversal. The reader
of operations knows no splats: to it the `*` is an operator, an operand is missing behind it, and it
goes on in the next line.
-/

namespace Hcl

open Hcl.Tree Hcl.TokenStream
open Relation (ReflTransGen)

/-- The last two tokens of the text are a dot and a `*`. -/
structure EndsInSplat (text : String) : Prop where
  scanned : ∃ p, (ofString text).ending = .ok p
  splat : ∃ front dot star, (ofString text).tokens = front ++ [dot, star] ∧ dot.kind = .dot ∧
    star.view = (.operator, "*")

/-- With the line `b = 1` behind it, a source of one attribute is two of them. -/
def LeavesNextLine (source : String) (attr value : Symbol) : Prop :=
  ∃ attr' value' : Symbol, parseTree (source ++ "b = 1\n") =
      ⟨.ofForest [node attr [leaf value], node attr' [leaf value']], none⟩ ∧
    attr'.kind = .attr ∧ attr'.name = some "b" ∧ value'.kind = .literal .number "1"

/-- With the line `b = 1` behind it, the source is one attribute. Its value is an operation, and the
line is a part of that. -/
def TakesNextLine (source name : String) : Prop :=
  ∃ attr value text,
    parseTree (source ++ "b = 1\n") = ⟨.ofForest [node attr [leaf value]], none⟩ ∧
      attr.kind = .attr ∧ attr.name = some name ∧ value.kind = .eval ⟨.operation, text⟩ ∧
      "b = 1".toList <:+ text.toList

variable {source : List Char} {front ns more ts : List Token} {star nl x sign : Token}
  {s s₂ rest : TokenStream} {value : Symbol} {v : Tree} {d : Nat} {start : Position}
  {ending ending' : Except LexicalError Position} {stop last : Span}

/-! ## Operations that go on -/

/-- A line break behind an operator does not end an operation. If nothing follows, it ends there;
what follows is read on with. -/
theorem expressionEndFrom_of_operator {depth : Nat} {dangling : Bool}
    (hstar : star.kind = .operator) (hnl : nl.kind = .newline)
    (hrest : ∀ t ∈ rest.tokens, t.kind = .newline)
    (h : expressionEndFrom start ending stop depth dangling (front ++ [star, nl]) =
      .ok (last, rest)) (ending' : Except LexicalError Position) (more : List Token) :
    expressionEndFrom start ending' stop depth dangling (front ++ star :: nl :: more) =
      expressionEndFrom start ending' star.span 0 true more := by
  induction front generalizing stop depth dangling with
  | nil =>
    obtain rfl : depth = 0 := Decidable.byContradiction fun hd => by
      cases ending <;> simp [expressionEndFrom, hstar, hnl, hd, TokenKind.closesBracket,
        TokenKind.opensBracket, leavesDangling] at h
    simp [expressionEndFrom, hstar, hnl, TokenKind.closesBracket, TokenKind.opensBracket,
      leavesDangling]
  | cons t front ih =>
    -- an operation that ended here would leave the operator
    have hend : (Except.ok (stop, ⟨t :: (front ++ [star, nl]), ending⟩) : Reading Span) ≠
        .ok (last, rest) := fun h => by
      simp only [Except.ok.injEq, Prod.mk.injEq] at h
      obtain ⟨-, rfl⟩ := h
      have hk := hrest star (by simp)
      simp [hstar] at hk
    simp only [List.cons_append, expressionEndFrom] at h ⊢
    split at h
    · rename_i hk
      rw [if_pos hk]
      split at h
      · exact absurd h hend
      · rename_i hstop
        rw [if_neg hstop]
        exact ih h
    rename_i hk
    rw [if_neg hk]
    split at h
    · rename_i hc
      rw [if_pos hc]
      split at h
      · exact absurd h hend
      · exact ih h
    rename_i hc
    rw [if_neg hc]
    split at h
    · exact absurd h hend
    · rename_i hcomma
      rw [if_neg hcomma]
      exact ih h

/-! ## Values that end with an operator -/

section Last

variable (hs : s.tokens = front ++ star :: ns) (hstar : star.kind = .operator)
  (hns : ∀ n ∈ ns, n.kind = .newline) (hrest : ∀ t ∈ rest.tokens, t.kind = .newline)

include hs hstar hns hrest

/-- A value that ends with an operator is a traversal or call that leaves the line breaks, or an
operation. -/
theorem ReadsAtom.cases_operator (h : ReadsAtom source s value rest) :
    (rest.tokens = ns ∧ ∃ x, value.kind = .eval x ∧ x.kind ≠ .operation) ∨
      ∃ first ts e stop, s = ⟨first :: ts, e⟩ ∧ first.kind = .operator ∧
        (first.text = "-" ∨ first.text = "!") ∧
        expressionEnd first.span ⟨ts, e⟩ = .ok (stop, rest) ∧
        value = .eval source .operation none first.span stop := by
  have hstar' : star.kind ≠ .newline := by simp [hstar]
  have hlast : ∀ before {t}, s.tokens = before ++ t :: rest.tokens → t.kind ≠ .newline →
      t = star ∧ rest.tokens = ns := fun _ _ hts ht =>
    (eq_of_append_newlines (hts.symm.trans hs) ht hstar' hrest hns).2
  -- a bracket is no operator
  have hbracket : ∀ {first : Token} {ts : List Token} {e : Except LexicalError Position},
      s = ⟨first :: ts, e⟩ →
      ¬∃ before t, ts = before ++ t :: rest.tokens ∧ t.kind.closesBracket = true := by
    rintro first ts e rfl ⟨before, t, rfl, hc⟩
    have ht : t.kind ≠ .newline := fun hk => by
      rw [hk] at hc
      cases hc
    obtain ⟨rfl, -⟩ := hlast (first :: before) rfl ht
    rw [hstar] at hc
    cases hc
  cases h with
  | @operand first ts e value rest hv =>
    cases hv with
    | literal hk =>
      obtain ⟨rfl, -⟩ := hlast [] rfl fun hnewline => by
        simp [hnewline, TokenKind.literalType?] at hk
      simp [hstar, TokenKind.literalType?] at hk
    | keyword hk hsteps _ =>
      rcases exists_reaches_of_steps hsteps with ⟨-, rfl⟩ | ⟨last, hnone, -⟩
      · obtain ⟨rfl, -⟩ := hlast [] rfl (by simp [hk])
        simp [hstar] at hk
      · cases hnone
    | @traversal _ kind stop hk hsteps _ =>
      refine .inl ⟨?_, _, rfl, ?_⟩
      · rcases exists_reaches_of_steps hsteps with ⟨-, rfl⟩ | ⟨last, -, -, before, t, hts, -, ht⟩
        · exact (hlast [] rfl (by simp [hk])).2
        · exact (hlast (first :: before) (congrArg (first :: ·) hts) ht).2
      · rcases kind_of_steps hsteps with hkind | hkind
        · simp [show kind = .traversal from hkind]
        · simp [show kind = .call from hkind]
    | group _ hg => exact absurd (exists_closing_of_skipGroupFrom hg) (hbracket rfl)
    | operation hk hsign hx => exact .inr ⟨first, ts, e, _, rfl, hk, hsign, hx, rfl⟩
  | comprehension _ _ hv => exact absurd (exists_closing_of_comprehension hv) (hbracket rfl)

theorem ReadsValue.exists_atom (h : ReadsValue source d s v rest) :
    ∃ value, v = leaf value ∧ ReadsAtom source s value rest := by
  have hstar' : star.kind ≠ .newline := by simp [hstar]
  have hlast : ∀ {t : Token}, t :: rest.tokens <:+ s.tokens → t.kind ≠ .newline →
      t.kind = .operator := fun ⟨before, hts⟩ ht => by
    rw [(eq_of_append_newlines (hts.trans hs) ht hstar' hrest hns).2.1, hstar]
  cases h with
  | atom h => exact ⟨_, rfl, h⟩
  | @array d first t ts us e e' trees s hk _ _ h hskip ht =>
    have hsuffix : t :: us <:+ ts := by
      have hsuffix := (suffix_skipNewlines s).tokens.trans h.suffix.tokens
      rwa [hskip] at hsuffix
    simpa [ht] using hlast (hsuffix.trans (List.suffix_cons first ts)) (by simp [ht])
  | @map d first t ts us e e' trees s hk _ _ h hskip ht =>
    have hsuffix : t :: us <:+ ts := by
      have hsuffix := (suffix_skipNewlines s).tokens.trans h.suffix.tokens
      rwa [hskip] at hsuffix
    simpa [ht] using hlast (hsuffix.trans (List.suffix_cons first ts)) (by simp [ht])

end Last

/-! ## A document of one attribute -/

section Attribute

variable {source : String} {p : Position} (hs : ofString source = ⟨x :: sign :: ts, .ok p⟩)
  (hx : x.kind = .ident) (hsign : sign.kind = .equals)

include hs hx hsign

/-- What is read of a document with one root. -/
theorem exists_value_of_size_roots (h : (parseTree source).error = none)
    (hsize : (parseTree source).tree.roots.size = 1) :
    ∃ v v' s₂ s₃, ReadsValue source.toList 1 ⟨ts, .ok p⟩ v s₂ ∧
      Extends source.toList v s₂ v' s₃ ∧ (∀ t ∈ s₃.tokens, t.kind = .newline) ∧
      parseTree source =
        ⟨.ofForest [node ((Symbol.attr x.text x.span).extendTo v'.symbol.span) [v']], none⟩ := by
  obtain ⟨trees, rest, -, hread, hrest, -, hparse⟩ := exists_items_parseTree source h
  have hlength : trees.length = 1 := by
    rw [hparse] at hsize
    simpa [SymbolTree.ofForest, SymbolTree.length_numbers] using hsize
  have hfirst : ∀ {before s₁ t us e}, ReadsItems source.toList 0 (ofString source) before s₁ →
      before.length + 1 = 1 → s₁.skipNewlines = ⟨t :: us, e⟩ →
      before = [] ∧ t = x ∧ us = sign :: ts ∧ e = .ok p := fun hbefore hnil hskip => by
    obtain rfl := List.length_eq_zero_iff.mp (Nat.succ.inj hnil)
    rw [hbefore.eq_of_nil rfl, hs, skipNewlines_cons_of_ne (by simp [hx])] at hskip
    simp_all
  cases hread with
  | nil => cases hlength
  | @attr _ _ s₁ s₂ s₃ _ before t sign' us e v v' hbefore hskip _ _ _ hv hx' hend =>
    obtain ⟨rfl, rfl, hus, rfl⟩ := hfirst hbefore (by simpa using hlength) hskip
    obtain ⟨rfl, rfl⟩ := List.cons.inj hus
    refine ⟨v, v', s₂, s₃, hv, hx', ?_, hparse⟩
    cases hend with
    | newline hk => simpa [hk] using hrest
    | comma _ hfalse => exact hfalse.elim
    | stop => exact hrest
  | block hbefore hskip _ hl _ _ _ _ =>
    obtain ⟨-, -, rfl, -⟩ := hfirst hbefore (by simpa using hlength) hskip
    exact absurd hsign (Stage.ne_equals_of_labels hl)
  | array hbefore hskip hk _ _ _ _ =>
    obtain ⟨-, rfl, -⟩ := hfirst hbefore (by simpa using hlength) hskip
    simp [hx] at hk

/-- A value in front of a token is read as well when more tokens follow. -/
theorem ReadsValue.moves_extend (h : ReadsValue source.toList 1 ⟨ts, .ok p⟩ v s₂)
    (hne : s₂.tokens ≠ []) (text : List Char) (more : TokenStream) :
    ReflTransGen (Move (source.toList ++ text)) (.ofStream ((ofString source).extend more))
      ⟨(Spine.root []).under (.attr x.text x.span) [v], true, s₂.extend more⟩ := by
  have hopen : Move source.toList (.ofStream (ofString source))
      ⟨(Spine.root []).under (.attr x.text x.span) [], false, ⟨ts, .ok p⟩⟩ := by
    refine .attr trivial ?_ hx hsign (by decide)
    rw [hs, skipNewlines_cons_of_ne (by simp [hx])]
  have hvalue : ReflTransGen (Move source.toList)
      ⟨(Spine.root []).under (.attr x.text x.span) [], false, ⟨ts, .ok p⟩⟩
      ⟨(Spine.root []).under (.attr x.text x.span) [v], true, s₂⟩ :=
    h.moves (.inl rfl) rfl (show (Spine.root []).depth + 1 ≤ 1 from Nat.le_refl 1) []
  have hclosed : ¬((Spine.root []).under (.attr x.text x.span) [v]).Bracketed := by
    simp [Spine.Bracketed, Symbol.attr]
  exact Move.extend_of_reflTransGen (hvalue.head hopen) hclosed
    (Stage.covered_ofStream (congrArg TokenStream.ending hs)) (.inl hne) text more

end Attribute

/-! ## The next line -/

/-- The line `b = 1` behind a source. -/
def nextLine (source : String) : TokenStream :=
  (ofString "b = 1\n").shift (.behind source.toList)

/-- The tokens of the line. -/
structure NextLine (source : String) (name sign one nl : Token) (p : Position) : Prop where
  eq : nextLine source = ⟨[name, sign, one, nl], .ok p⟩
  name : name.view = (.ident, "b")
  sign : sign.kind = .equals
  value : one.view = (.number, "1")
  place : one.span = Span.shift (.behind source.toList) ⟨⟨1, 5, 4⟩, 1⟩
  newline : nl.kind = .newline

theorem exists_nextLine (source : String) :
    ∃ name sign one nl p, NextLine source name sign one nl p := by
  have htokens : (ofString "b = 1\n").tokens =
      [⟨.ident, "b", ⟨⟨1, 1, 0⟩, 1⟩⟩, ⟨.equals, "=", ⟨⟨1, 3, 2⟩, 1⟩⟩,
        ⟨.number, "1", ⟨⟨1, 5, 4⟩, 1⟩⟩, ⟨.newline, "\n", ⟨⟨1, 6, 5⟩, 1⟩⟩] := by decide +kernel
  have hending : (ofString "b = 1\n").ending = .ok ⟨2, 1, 6⟩ := by decide +kernel
  have hshift := congrArg₂ TokenStream.mk
    (congrArg (List.map (Token.shift (.behind source.toList))) htokens)
    (congrArg (shiftEnding (.behind source.toList)) hending)
  exact ⟨_, _, _, _, _, hshift, rfl, rfl, rfl, rfl, rfl⟩

namespace NextLine

variable {source : String} {name one nl' : Token} {q : Position}

/-- The whole line is read as the operand that is missing. -/
theorem expressionEnd_extend {first : Span} (hnext : NextLine source name sign one nl' q)
    (hstar : star.kind = .operator) (hnl : nl.kind = .newline)
    (hrest : ∀ t ∈ rest.tokens, t.kind = .newline) (hs : s.tokens = front ++ [star, nl])
    (h : expressionEnd first s = .ok (stop, rest)) :
    expressionEnd first (s.extend (nextLine source)) = .ok (one.span, ⟨[nl'], .ok q⟩) := by
  have hname : name.kind = .ident := congrArg Prod.fst hnext.name
  have hone : one.kind = .number := congrArg Prod.fst hnext.value
  rw [expressionEnd, hs] at h
  have hextend := expressionEndFrom_of_operator hstar hnl hrest h (.ok q) [name, sign, one, nl']
  rw [expressionEnd, extend, hs, hnext.eq, List.append_assoc]
  refine hextend.trans ?_
  simp [expressionEndFrom, hname, hnext.sign, hone, hnext.newline, TokenKind.closesBracket,
    TokenKind.opensBracket, leavesDangling]

/-- The text up to the end of the line. -/
theorem exists_text {first : Span} (hnext : NextLine source name sign one nl' q)
    (hfirst : Boundary source.toList first.start.offset) :
    ∃ text, (Symbol.eval (source.toList ++ "b = 1\n".toList) .operation none first one.span).kind =
      .eval ⟨.operation, text⟩ ∧ "b = 1".toList <:+ text.toList := by
  obtain ⟨before, behind, hsource, hoffset⟩ := hfirst
  have hlength : (first.upTo one.span).length = byteCount (behind ++ "b = 1".toList) := by
    have hline : byteCount "b = 1".toList = 5 := by decide
    rw [Span.upTo, hnext.place, byteCount_append, hline]
    simp only [Span.stop, Span.shift, Position.shift, Shift.behind, hsource, byteCount_append]
    omega
  have hsplit : source.toList ++ "b = 1\n".toList =
      before ++ (behind ++ "b = 1".toList ++ ['\n']) := by
    rw [hsource]
    simp
  refine ⟨String.ofList (behind ++ "b = 1".toList), ?_, ?_⟩
  · have hstart : (first.upTo one.span).start.offset = byteCount before := hoffset.symm
    rw [Symbol.eval, hsplit, Span.slice?_append hstart hlength]
    rfl
  · simp only [String.toList_ofList]
    exact List.suffix_append _ _

/-- Outside of all symbols the line is an attribute. -/
theorem exists_moves {cs : List Char} (hnext : NextLine source name sign one nl' q)
    (trees : List Tree) (c : Bool) :
    ∃ attr value : Symbol, attr.kind = .attr ∧ attr.name = some "b" ∧
      value.kind = .literal .number "1" ∧
      ReflTransGen (Move cs) ⟨.root trees, c, nextLine source⟩
        ⟨.root (trees ++ [node attr [leaf value]]), true, ⟨[], .ok q⟩⟩ := by
  obtain ⟨heq, hname, hsign, hone, -, hnl'⟩ := hnext
  have hident : name.kind = .ident := congrArg Prod.fst hname
  have hliteral : one.kind.literalType? = some .number := by
    rw [show one.kind = .number from congrArg Prod.fst hone]
    rfl
  have hvalue : ReadsDeferred cs 1 ⟨[one, nl'], .ok q⟩ (.literal .number one.text one.span)
      ⟨[nl'], .ok q⟩ := .atom (.operand (.literal hliteral))
  have hskip : (nextLine source).skipNewlines = ⟨[name, sign, one, nl'], .ok q⟩ := by
    rw [heq, skipNewlines_cons_of_ne (by simp [hident])]
  refine ⟨_, _, rfl, congrArg (some ∘ Prod.snd) hname, ?_, hvalue.moves_attribute (Nat.le_refl 1)
    hskip hident hsign rfl (by simp [hnl']) (by simp [hnl']) (.newline hnl') trees c⟩
  rw [← show one.text = "1" from congrArg Prod.snd hone]
  rfl

end NextLine

/-- Moves through a source and the next line, up to the end. -/
theorem parseTree_of_moves {source : String} {p q : Position} {trees : List Tree}
    (hline : source.toList.getLast? = some '\n') (hending : (ofString source).ending = .ok p)
    (hmoves : ReflTransGen (Move (source.toList ++ "b = 1\n".toList))
      (.ofStream ((ofString source).extend (nextLine source)))
      ⟨.root trees, true, ⟨[], .ok q⟩⟩) :
    parseTree (source ++ "b = 1\n") = ⟨.ofForest trees, none⟩ := by
  have htext : (source ++ "b = 1\n").toList = source.toList ++ "b = 1\n".toList :=
    String.toList_append
  have hstream : ofString (source ++ "b = 1\n") = (ofString source).extend (nextLine source) :=
    (ofString_append hline hending _).2
  rw [← htext, ← hstream] at hmoves
  have hrun := (Move.run_eq hmoves).trans (run_of_skipNewlines_eq rfl)
  rw [Spine.tree, Spine.forest, Spine.forestWith, List.append_nil] at hrun
  exact hrun

section Attribute

variable {source : String} {p : Position} (hline : source.toList.getLast? = some '\n')
  (hs : ofString source = ⟨x :: sign :: ts, .ok p⟩) (hx : x.kind = .ident)
  (hsign : sign.kind = .equals)

include hline hs hx hsign

/-- A value that leaves the line break leaves the next line. -/
theorem ReadsAtom.leavesNextLine (h : ReadsAtom source.toList ⟨ts, .ok p⟩ value rest)
    (hrest : rest.tokens = [nl]) (hnl : nl.kind = .newline) :
    LeavesNextLine source ((Symbol.attr x.text x.span).extendTo value.span) value := by
  obtain ⟨name, sign', one, nl', q, hnext⟩ := exists_nextLine source
  have hvalue := (ReadsValue.atom h).moves_extend hs hx hsign (by simp [hrest])
    "b = 1\n".toList (nextLine source)
  obtain ⟨tokens, ending⟩ := rest
  obtain rfl : tokens = [nl] := hrest
  have hattr := hvalue.tail (.attrEnd rfl (.stay rfl (by simp [hnl]) (by simp [hnl]))
    (.newline hnl))
  obtain ⟨attr', value', hattr', hname', hvalue', hmoves⟩ := hnext.exists_moves _ true
  exact ⟨attr', value', parseTree_of_moves hline (congrArg TokenStream.ending hs)
    (hattr.trans hmoves), hattr', hname', hvalue'⟩

section Operation

variable (hts : ts = front ++ [star, nl]) (hstar : star.view = (.operator, "*"))
  (hnl : nl.kind = .newline) (hrest : ∀ t ∈ rest.tokens, t.kind = .newline)

include hts hstar hnl hrest

/-- An operation that begins with a sign takes the next line. -/
theorem takesNextLine_of_sign {first : Token} {us : List Token}
    {e : Except LexicalError Position} (hs' : (⟨ts, .ok p⟩ : TokenStream) = ⟨first :: us, e⟩)
    (hk : first.kind = .operator) (htext : first.text = "-" ∨ first.text = "!")
    (h : expressionEnd first.span ⟨us, e⟩ = .ok (stop, rest)) : TakesNextLine source x.text := by
  have hending : (ofString source).ending = .ok p := congrArg TokenStream.ending hs
  obtain ⟨name, sign', one, nl', q, hnext⟩ := exists_nextLine source
  obtain ⟨rfl, rfl⟩ := TokenStream.mk.inj hs'
  obtain ⟨before, rfl⟩ : ∃ before, us = before ++ [star, nl] := by
    cases front with
    | nil =>
      obtain ⟨rfl, -⟩ := List.cons.inj hts
      simp [show first.text = "*" from congrArg Prod.snd hstar] at htext
    | cons t front => exact ⟨front, (List.cons.inj hts).2⟩
  have hextend := hnext.expressionEnd_extend (congrArg Prod.fst hstar) hnl hrest rfl h
  have hvalue : ReadsDeferred (source.toList ++ "b = 1\n".toList) 1 _ _ _ :=
    .atom (.operand (.operation hk htext hextend))
  have hskip : ((ofString source).extend (nextLine source)).skipNewlines =
      (⟨x :: sign :: first :: (before ++ [star, nl]), .ok p⟩ : TokenStream).extend
        (nextLine source) := by
    rw [hs, extend_cons]
    exact skipNewlines_cons_of_ne (by simp [hx])
  have hmoves := hvalue.moves_attribute (Nat.le_refl 1) hskip hx hsign rfl
    (by simp [hnext.newline]) (by simp [hnext.newline]) (.newline hnext.newline) [] false
  have hplaced := (located_ofString source hending).placed first (by simp [hs])
  obtain ⟨text, htext⟩ := hnext.exists_text hplaced.start
  exact ⟨_, _, text, parseTree_of_moves hline hending hmoves, rfl, rfl, htext⟩

/-- An operation behind a value takes the next line. -/
theorem ReadsValue.takesNextLine {t : Token} {us : List Token} {e : Except LexicalError Position}
    (hv : ReadsValue source.toList 1 ⟨ts, .ok p⟩ v ⟨t :: us, e⟩)
    (hk : t.kind = .operator ∨ t.kind = .question)
    (h : expressionEnd v.symbol.span ⟨t :: us, e⟩ = .ok (stop, rest)) :
    TakesNextLine source x.text := by
  have hending : (ofString source).ending = .ok p := congrArg TokenStream.ending hs
  obtain ⟨name, sign', one, nl', q, hnext⟩ := exists_nextLine source
  have hoperator : star.kind = .operator := congrArg Prod.fst hstar
  obtain ⟨before, hbefore⟩ : ∃ before, t :: us = before ++ [star, nl] := by
    obtain ⟨ns, hns, before, last, hlast, -, hk'⟩ := exists_reaches_of_operation hk h
    obtain ⟨front', hfront⟩ := hv.suffix.tokens
    have hsplit : front' ++ before ++ last :: (ns ++ rest.tokens) = front ++ star :: [nl] := by
      rw [List.append_assoc, ← hlast]
      exact hfront.trans hts
    obtain ⟨-, rfl, htail⟩ := eq_of_append_newlines hsplit hk' (by simp [hoperator])
      (fun n hn => (List.mem_append.mp hn).elim (hns n) (hrest n)) (by simpa using hnl)
    exact ⟨before, by rw [hlast, htail]⟩
  have hextend := hnext.expressionEnd_extend hoperator hnl hrest hbefore h
  have hvalue := hv.moves_extend hs hx hsign (List.cons_ne_nil t us) "b = 1\n".toList
    (nextLine source)
  have hattr := hvalue.tail (.attrEnd rfl (.operation hk hextend) (.newline hnext.newline))
  obtain ⟨first, more, hfirst, -, hstart⟩ := hv.exists_first
  have hfirst : ts = first :: more := hfirst
  have hplaced := (located_ofString source hending).placed first (by simp [hs, hfirst])
  obtain ⟨text, htext⟩ := hnext.exists_text (hstart ▸ hplaced.start)
  exact ⟨_, _, text, parseTree_of_moves hline hending hattr, rfl, rfl, htext⟩

end Operation

end Attribute

/-! ## Both readers -/

/-- In a line that ends in a splat, a traversal or call ends with the line. An operation takes the
next line. -/
theorem splat_parseTree {text : String} (htext : EndsInSplat text)
    (herror : (parseTree ("a = " ++ text ++ "\n")).error = none)
    (hsize : (parseTree ("a = " ++ text ++ "\n")).tree.roots.size = 1) :
    ∃ attr value x,
      parseTree ("a = " ++ text ++ "\n") = ⟨.ofForest [node attr [leaf value]], none⟩ ∧
        attr.kind = .attr ∧ attr.name = some "a" ∧ value.kind = .eval x ∧
        (x.kind ≠ .operation → LeavesNextLine ("a = " ++ text ++ "\n") attr value) ∧
        (x.kind = .operation → TakesNextLine ("a = " ++ text ++ "\n") "a") := by
  obtain ⟨⟨p, hending⟩, front, dot, star, htokens, -, hstar⟩ := htext
  have hstream : ofString text = ⟨front ++ [dot] ++ [star], .ok p⟩ := by
    rw [List.append_assoc, ← hending]
    exact congrArg (TokenStream.mk · _) htokens
  have hsource : ("a = " ++ text ++ "\n").toList =
      ['a'] ++ ([' ', '='] ++ ' ' :: (text.toList ++ ['\n'])) := by simp
  obtain ⟨name, sign, ts, nl, q, hs, hname, hsign, hnl, hviews⟩ :=
    exists_attribute hstream (by simp) (by decide) rfl hsource
  obtain ⟨front, us, rfl, -, hus⟩ := List.map_eq_append_iff.mp (hviews.trans List.map_append)
  obtain ⟨star', us, rfl, hstar', hus⟩ := List.map_eq_cons_iff.mp hus
  obtain rfl := List.map_eq_nil_iff.mp hus
  have hstar' : star'.view = (.operator, "*") := hstar'.trans hstar
  have hoperator : star'.kind = .operator := congrArg Prod.fst hstar'
  have hline : ("a = " ++ text ++ "\n").toList.getLast? = some '\n' := by
    rw [String.toList_append]
    exact List.getLast?_concat
  have hname' : name.text = "a" := congrArg Prod.snd hname
  have hx : name.kind = .ident := congrArg Prod.fst hname
  rw [List.append_assoc] at hs
  generalize "a = " ++ text ++ "\n" = source at *
  obtain ⟨v, v', s₂, s₃, hv, hextends, hrest, hparse⟩ :=
    exists_value_of_size_roots hs hx hsign herror hsize
  refine ⟨(Symbol.attr name.text name.span).extendTo v'.symbol.span, v'.symbol, ?_⟩
  -- which of the two readers has come to the splat
  cases hextends with
  | stay =>
    have hns : ∀ n ∈ [nl], n.kind = .newline := by simpa using hnl
    obtain ⟨value, rfl, hatom⟩ := hv.exists_atom rfl hoperator hns hrest
    rcases hatom.cases_operator rfl hoperator hns hrest with
      ⟨htokens, x, hvalue, hne⟩ | ⟨first, us, e, stop, hs', hfirst, htext, hx', rfl⟩
    · exact ⟨x, hparse, rfl, congrArg some hname', hvalue,
        fun _ => hatom.leavesNextLine hline hs hx hsign htokens hnl, fun h => absurd h hne⟩
    · exact ⟨_, hparse, rfl, congrArg some hname', rfl, fun h => absurd rfl h, fun _ => hname' ▸
        takesNextLine_of_sign hline hs hx hsign rfl hstar' hnl hrest hs' hfirst htext hx'⟩
  | operation hk hx' =>
    exact ⟨_, hparse, rfl, congrArg some hname', rfl, fun h => absurd rfl h, fun _ => hname' ▸
      hv.takesNextLine hline hs hx hsign rfl hstar' hnl hrest hk hx'⟩

/-- A traversal with an index in front of the splat. -/
theorem splat_parseTree_index :
    EndsInSplat "v[0].*" ∧ (parseTree ("a = " ++ "v[0].*" ++ "\n")).error = none ∧
      (parseTree ("a = " ++ "v[0].*" ++ "\n")).tree.roots.size = 1 ∧ ∃ attr value,
        parseTree ("a = " ++ "v[0].*" ++ "\n") = ⟨.ofForest [node attr [leaf value]], none⟩ ∧
          value.kind = .eval ⟨.traversal, "v[0].*"⟩ ∧
          LeavesNextLine ("a = " ++ "v[0].*" ++ "\n") attr value := by
  have htext : EndsInSplat "v[0].*" :=
    ⟨⟨⟨1, 7, 6⟩, by decide +kernel⟩, [⟨.ident, "v", ⟨⟨1, 1, 0⟩, 1⟩⟩,
      ⟨.lBracket, "[", ⟨⟨1, 2, 1⟩, 1⟩⟩, ⟨.number, "0", ⟨⟨1, 3, 2⟩, 1⟩⟩,
      ⟨.rBracket, "]", ⟨⟨1, 4, 3⟩, 1⟩⟩], ⟨.dot, ".", ⟨⟨1, 5, 4⟩, 1⟩⟩,
      ⟨.operator, "*", ⟨⟨1, 6, 5⟩, 1⟩⟩, by decide +kernel, rfl, rfl⟩
  have herror : (parseTree ("a = " ++ "v[0].*" ++ "\n")).error = none := by decide +kernel
  have hsize : (parseTree ("a = " ++ "v[0].*" ++ "\n")).tree.roots.size = 1 := by decide +kernel
  have hkind : ((parseTree ("a = " ++ "v[0].*" ++ "\n")).tree.get? 1).map (·.symbol.kind) =
      some (.eval ⟨.traversal, "v[0].*"⟩) := by decide +kernel
  obtain ⟨attr, value, x, hparse, -, -, hx, hleaves, -⟩ := splat_parseTree htext herror hsize
  rw [hparse] at hkind
  obtain rfl : x = ⟨.traversal, "v[0].*"⟩ :=
    SymbolKind.eval.inj (hx.symm.trans (Option.some.inj hkind))
  exact ⟨htext, herror, hsize, attr, value, hparse, hx, hleaves (by decide)⟩

/-- In an operation the splat is an operator without an operand. -/
theorem takesNextLine_parseTree :
    EndsInSplat "1 + x.*" ∧ (parseTree ("a = " ++ "1 + x.*" ++ "\n")).error = none ∧
      (parseTree ("a = " ++ "1 + x.*" ++ "\n")).tree.roots.size = 1 ∧
      (parseTree ("a = " ++ "1 + x.*" ++ "\n" ++ "b = 1\n")).tree.roots.size ≠ 2 :=
  ⟨⟨⟨⟨1, 8, 7⟩, by decide +kernel⟩, [⟨.number, "1", ⟨⟨1, 1, 0⟩, 1⟩⟩,
    ⟨.operator, "+", ⟨⟨1, 3, 2⟩, 1⟩⟩, ⟨.ident, "x", ⟨⟨1, 5, 4⟩, 1⟩⟩], ⟨.dot, ".", ⟨⟨1, 6, 5⟩, 1⟩⟩,
    ⟨.operator, "*", ⟨⟨1, 7, 6⟩, 1⟩⟩, by decide +kernel, rfl, rfl⟩, by decide +kernel,
    by decide +kernel, by decide +kernel⟩

end Hcl
