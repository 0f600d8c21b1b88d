import Mathlib.Logic.Relation
import Hcl.Proofs.Builder.Stage

/-!
# Moves

What a step of the builder can do when it goes on: a dozen moves from stage to stage. What holds of
every run is proved from the moves, without the definition of a step.
-/

namespace Hcl

open Hcl.Tree Hcl.TokenStream

/-! ## Parts of moves -/

/-- Whether the innermost scope reads blocks and attributes. -/
def Spine.InBody : Spine → Prop
  | .root _ => True
  | .under _ symbol _ => ∃ names, symbol.kind = .block names

/-- Whether the innermost scope reads entries. -/
def Spine.InMap : Spine → Prop
  | .root _ => False
  | .under _ symbol _ => symbol.kind = .map

/-- Only the scopes of attributes and arrays know whether they hold a complete value. -/
theorem Spine.InBody.scopes_eq {sp : Spine} (h : sp.InBody) (c : Bool) :
    sp.scopes c = sp.scopes false := by
  cases sp with
  | root ts => rfl
  | under outer symbol ts =>
    obtain ⟨names, hk⟩ := h
    simp only [Spine.scopes_under, hk, Scope.ofKind]

theorem Spine.scopes_of_map {outer : Spine} {symbol : Symbol} {trees : List Tree}
    (hk : symbol.kind = .map) (c : Bool) :
    (outer.under symbol trees).scopes c = (outer.under symbol trees).scopes false := by
  simp only [Spine.scopes_under, hk, Scope.ofKind]

/-- The stream at the next value, for a scope that reads one now. -/
def Spine.valueStream (kind : SymbolKind) (s : TokenStream) : TokenStream :=
  if kind = .array then s.skipNewlines else s

/-- What becomes of the value `v` when the next token is looked at: an operation goes on with it. -/
inductive Extends (source : List Char) (v : Tree) : TokenStream → Tree → TokenStream → Prop where
  | stay {s : TokenStream} {t : Token} : s.peek = .ok t → t.kind ≠ .operator → t.kind ≠ .question →
      Extends source v s v s
  | operation {t : Token} {ts : List Token} {e : Except LexicalError Position} {stop : Span}
      {rest : TokenStream} : t.kind = .operator ∨ t.kind = .question →
      expressionEnd v.symbol.span ⟨t :: ts, e⟩ = .ok (stop, rest) →
      Extends source v ⟨t :: ts, e⟩ (leaf (.eval source .operation none v.symbol.span stop)) rest

/-- What separates an attribute from the next one, in a map or elsewhere. -/
inductive AttrEnd (inMap : Prop) : TokenStream → TokenStream → Prop where
  | newline {t : Token} {ts : List Token} {e : Except LexicalError Position} : t.kind = .newline →
      AttrEnd inMap ⟨t :: ts, e⟩ ⟨ts, e⟩
  | comma {t : Token} {ts : List Token} {e : Except LexicalError Position} : t.kind = .comma → inMap →
      AttrEnd inMap ⟨t :: ts, e⟩ ⟨ts, e⟩
  | stop {s : TokenStream} {t : Token} : s.peek = .ok t → t.kind = .rBrace ∨ t.kind = .eof →
      AttrEnd inMap s s

/-- What separates elements. -/
inductive Separator : TokenStream → TokenStream → Prop where
  | comma {s : TokenStream} {t : Token} {ts : List Token} {e : Except LexicalError Position} :
      s.skipNewlines = ⟨t :: ts, e⟩ → t.kind = .comma → Separator s ⟨ts, e⟩
  | stop {s : TokenStream} {first t : Token} : s.peek = .ok first → s.skipNewlines.peek = .ok t →
      t.kind ≠ .comma → t.kind = .rBracket ∨ first.kind = .newline → Separator s s.skipNewlines

/-- A key of a map and its place. -/
inductive EntryKey (source : List Char) : TokenStream → String → Span → TokenStream → Prop where
  | word {t : Token} {ts : List Token} {e : Except LexicalError Position} :
      t.kind = .ident ∨ t.kind = .string ∨ t.kind = .number ∨ t.kind = .bool ∨ t.kind = .null →
      EntryKey source ⟨t :: ts, e⟩ t.text t.span ⟨ts, e⟩
  | group {t : Token} {ts : List Token} {e : Except LexicalError Position} {stop : Span}
      {rest : TokenStream} : t.kind = .lParen →
      skipGroup t.span.start ⟨ts, e⟩ = .ok (stop, rest) →
      EntryKey source ⟨t :: ts, e⟩ (((t.span.upTo stop).slice? source).getD "") (t.span.upTo stop)
        rest

/-! ## Moves -/

inductive Move (source : List Char) : Stage → Stage → Prop where
  /-- an attribute begins -/
  | attr {sp : Spine} {c : Bool} {s : TokenStream} {t sign : Token} {ts : List Token}
      {e : Except LexicalError Position} : sp.InBody → s.skipNewlines = ⟨t :: sign :: ts, e⟩ →
      t.kind = .ident → sign.kind = .equals → sp.depth + 1 < maxDepth →
      Move source ⟨sp, c, s⟩ ⟨sp.under (.attr t.text t.span) [], false, ⟨ts, e⟩⟩
  /-- a block begins -/
  | block {sp : Spine} {c : Bool} {s rest : TokenStream} {t : Token} {ts : List Token}
      {e : Except LexicalError Position} {names : List String} : sp.InBody →
      s.skipNewlines = ⟨t :: ts, e⟩ → t.kind = .ident ∨ t.kind = .string →
      labels t.text ⟨ts, e⟩ = .ok (names, rest) → sp.depth + 1 < maxDepth →
      Move source ⟨sp, c, s⟩ ⟨sp.under (.block names t.span) [], false, rest⟩
  /-- an array begins in a body -/
  | bodyArray {sp : Spine} {c : Bool} {s : TokenStream} {t : Token} {ts : List Token}
      {e : Except LexicalError Position} : sp.InBody → s.skipNewlines = ⟨t :: ts, e⟩ →
      t.kind = .lBracket → sp.depth + 1 < maxDepth →
      Move source ⟨sp, c, s⟩ ⟨sp.under (.array t.span) [], false, ⟨ts, e⟩⟩
  | blockEnd {outer : Spine} {symbol : Symbol} {trees : List Tree} {c : Bool} {s : TokenStream}
      {t : Token} {ts : List Token} {e : Except LexicalError Position} {names : List String} :
      symbol.kind = .block names → s.skipNewlines = ⟨t :: ts, e⟩ → t.kind = .rBrace →
      Move source ⟨outer.under symbol trees, c, s⟩
        ⟨outer.append [node (symbol.extendTo t.span) trees], true, ⟨ts, e⟩⟩
  /-- a value that is read at once -/
  | operand {outer : Spine} {symbol : Symbol} {trees : List Tree} {s rest : TokenStream}
      {first : Token} {ts : List Token} {e : Except LexicalError Position} {value : Symbol} :
      symbol.kind = .attr ∨ symbol.kind = .array →
      Spine.valueStream symbol.kind s = ⟨first :: ts, e⟩ →
      operand source first ⟨ts, e⟩ = .ok (value, rest) →
      Move source ⟨outer.under symbol trees, false, s⟩
        ⟨outer.under symbol (trees ++ [leaf value]), true, rest⟩
  | comprehension {outer : Spine} {symbol : Symbol} {trees : List Tree} {s rest : TokenStream}
      {first : Token} {ts : List Token} {e : Except LexicalError Position} {value : Symbol} :
      symbol.kind = .attr ∨ symbol.kind = .array →
      Spine.valueStream symbol.kind s = ⟨first :: ts, e⟩ →
      first.kind = .lBracket ∨ first.kind = .lBrace → comprehensionAhead ⟨ts, e⟩ = .ok true →
      comprehension source first ⟨ts, e⟩ = .ok (value, rest) →
      Move source ⟨outer.under symbol trees, false, s⟩
        ⟨outer.under symbol (trees ++ [leaf value]), true, rest⟩
  | array {outer : Spine} {symbol : Symbol} {trees : List Tree} {s : TokenStream} {first : Token}
      {ts : List Token} {e : Except LexicalError Position} :
      symbol.kind = .attr ∨ symbol.kind = .array →
      Spine.valueStream symbol.kind s = ⟨first :: ts, e⟩ → first.kind = .lBracket →
      comprehensionAhead ⟨ts, e⟩ = .ok false → (outer.under symbol trees).depth + 1 < maxDepth →
      Move source ⟨outer.under symbol trees, false, s⟩
        ⟨(outer.under symbol trees).under (.array first.span) [], false, ⟨ts, e⟩⟩
  | map {outer : Spine} {symbol : Symbol} {trees : List Tree} {s : TokenStream} {first : Token}
      {ts : List Token} {e : Except LexicalError Position} :
      symbol.kind = .attr ∨ symbol.kind = .array →
      Spine.valueStream symbol.kind s = ⟨first :: ts, e⟩ → first.kind = .lBrace →
      comprehensionAhead ⟨ts, e⟩ = .ok false → (outer.under symbol trees).depth + 1 < maxDepth →
      Move source ⟨outer.under symbol trees, false, s⟩
        ⟨(outer.under symbol trees).under (.map first.span) [], false, ⟨ts, e⟩⟩
  /-- an attribute ends behind its value -/
  | attrEnd {outer : Spine} {symbol : Symbol} {v v' : Tree} {s s' rest : TokenStream} :
      symbol.kind = .attr → Extends source v s v' s' →
      AttrEnd outer.InMap s' rest →
      Move source ⟨outer.under symbol [v], true, s⟩
        ⟨outer.append [node (symbol.extendTo v'.symbol.span) [v']], true, rest⟩
  /-- an element ends -/
  | element {outer : Spine} {symbol : Symbol} {trees : List Tree} {v v' : Tree}
      {s s' rest : TokenStream} : symbol.kind = .array → Extends source v s v' s' →
      Separator s' rest →
      Move source ⟨outer.under symbol (trees ++ [v]), true, s⟩
        ⟨outer.under symbol (trees ++ [v']), false, rest⟩
  | arrayEnd {outer : Spine} {symbol : Symbol} {trees : List Tree} {s : TokenStream} {t : Token}
      {ts : List Token} {e : Except LexicalError Position} : symbol.kind = .array →
      s.skipNewlines = ⟨t :: ts, e⟩ → t.kind = .rBracket →
      Move source ⟨outer.under symbol trees, false, s⟩
        ⟨outer.append [node (symbol.extendTo t.span) trees], true, ⟨ts, e⟩⟩
  /-- an entry of a map begins -/
  | entry {outer : Spine} {symbol : Symbol} {trees : List Tree} {c : Bool} {s : TokenStream}
      {sign : Token} {ts : List Token} {e : Except LexicalError Position} {key : String}
      {span : Span} : symbol.kind = .map →
      EntryKey source s.skipNewlines key span ⟨sign :: ts, e⟩ →
      sign.kind = .equals ∨ sign.kind = .colon → (outer.under symbol trees).depth + 1 < maxDepth →
      Move source ⟨outer.under symbol trees, c, s⟩
        ⟨(outer.under symbol trees).under (.attr key span) [], false, ⟨ts, e⟩⟩
  | mapEnd {outer : Spine} {symbol : Symbol} {trees : List Tree} {c : Bool} {s : TokenStream}
      {t : Token} {ts : List Token} {e : Except LexicalError Position} : symbol.kind = .map →
      s.skipNewlines = ⟨t :: ts, e⟩ → t.kind = .rBrace →
      Move source ⟨outer.under symbol trees, c, s⟩
        ⟨outer.append [node (symbol.extendTo t.span) trees], true, ⟨ts, e⟩⟩

/-- What every move keeps holds behind a run of moves. -/
theorem Move.run_of_step {source : List Char} {P : Stage → Prop} {st st' : Stage}
    (hstep : ∀ {st st' : Stage}, Move source st st' → P st → P st')
    (h : Relation.ReflTransGen (Move source) st st') (hst : P st) : P st' := by
  induction h with
  | refl => exact hst
  | tail _ hmove ih => exact hstep hmove ih

end Hcl
