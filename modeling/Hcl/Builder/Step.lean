import Hcl.Builder.Basic

/-!
# Steps of the builder

Every step looks at the innermost scope, reads what that scope allows, and opens or closes scopes.
A step that fails leaves the tree as it was when the error was met.
-/

namespace Hcl

/-- The bracket `t` closes nothing. -/
def Token.unmatched (t : Token) : Error :=
  .syntactic (.unmatchedClose (t.text.toList.head?.getD '}')) t.span.start

namespace TokenStream

/-- Reads labels up to and including the brace that opens the body of a block. `names` holds in
reverse what was read before. -/
def labelsFrom (ending : Except LexicalError Position) (names : List String) :
    List Token → Reading (List String)
  | [] =>
    match ending with
    | .ok p => .error ((Token.atEnd p).unexpected .label)
    | .error e => .error (.lexical e.fault e.position)
  | t :: ts =>
    if t.kind = .ident ∨ t.kind = .string then labelsFrom ending (t.text :: names) ts
    else if t.kind = .lBrace then .ok (names.reverse, ⟨ts, ending⟩)
    else .error (t.unexpected .label)

/-- Reads the labels of a block that is called `name`, and the opening brace. -/
def labels (name : String) (s : TokenStream) : Reading (List String) :=
  labelsFrom s.ending [name] s.tokens

end TokenStream

namespace Builder

/-! ## Values -/

/-- Reads one value below `parent`. Of an array or map only the bracket is read. -/
def value (parent : Nat) (b : Builder) : Step :=
  b.read b.stream.next fun first b =>
    if first.kind = .lBracket ∨ first.kind = .lBrace then
      b.attempt b.stream.comprehensionAhead fun comprehension =>
        if comprehension then
          b.read (b.stream.comprehension b.source first) fun symbol b =>
            .ok (b.pushValue parent symbol)
        else if first.kind = .lBracket then
          b.pushScope (some parent) (.array first.span) (.array · false)
        else b.pushScope (some parent) (.map first.span) .map
    else
      b.read (b.stream.operand b.source first) fun symbol b => .ok (b.pushValue parent symbol)

/-- Makes the last value below `parent` the first operand of an operation, if an operator or `?`
follows it. -/
def continuation (parent : Nat) (b : Builder) : Step :=
  match b.tree.lastChild? parent with
  | none => .ok b
  | some id =>
    b.attempt b.stream.peek fun t =>
      if t.kind = .operator ∨ t.kind = .question then
        let first := b.tree.span id
        b.read (b.stream.expressionEnd first) fun stop b =>
          let operation := Symbol.eval b.source .operation none first stop
          .ok { b with tree := b.tree.collapse id operation }
      else .ok b

/-! ## Bodies -/

/-- Reads an attribute up to its `=`, or a block up to its `{`. -/
def item (parent : Option Nat) (first : Token) (b : Builder) : Step :=
  let equalsAhead :=
    if first.kind = .ident then b.stream.peek.map (·.kind == .equals) else .ok false
  b.attempt equalsAhead fun equalsAhead =>
    if equalsAhead then
      let b := { b with stream := b.stream.tail }
      b.pushScope parent (.attr first.text first.span) (.attr · false)
    else
      b.read (b.stream.labels first.text) fun names b =>
        b.pushScope parent (.block names first.span) .block

/-- Reads the next item of a body, or its end. -/
def body (parent : Option Nat) (b : Builder) : Step :=
  b.read b.stream.skipNewlines.next fun t b =>
    match t.kind, parent with
    | .eof, none => .ok b.leave
    | .eof, some id => b.fail (Construct.block.unclosed (b.tree.position id))
    | .rBrace, some id => .ok { b with tree := b.tree.close id t.span }.leave
    | .rBrace, none => b.fail t.unmatched
    | .rBracket, _ | .rParen, _ => b.fail t.unmatched
    | .ident, _ | .string, _ => b.item parent t
    | .lBracket, _ => b.pushScope parent (.array t.span) (.array · false)
    | _, _ => b.fail (t.unexpected .bodyItem)

/-! ## Attributes -/

/-- Reads what separates an attribute from the next one. -/
def attrEnd (b : Builder) : Step :=
  b.attempt b.stream.peek fun t =>
    match t.kind with
    | .newline => .ok { b with stream := b.stream.tail }
    | .rBrace | .eof => .ok b
    | .comma =>
      if b.inMap then .ok { b with stream := b.stream.tail }
      else b.fail (t.unexpected .attributeEnd)
    | _ => b.fail (t.unexpected .attributeEnd)

/-- Reads the value of an attribute, then what follows it. -/
def attr (id : Nat) (complete : Bool) (b : Builder) : Step :=
  if complete then
    (b.continuation id).bind fun b =>
      { b with tree := b.tree.closeAround id }.leave.attrEnd
  else b.value id

/-! ## Arrays -/

/-- Reads what separates elements: a comma, line breaks or both. -/
def separator (b : Builder) : Step :=
  b.attempt b.stream.peek fun first =>
    let b := { b with stream := b.stream.skipNewlines }
    b.attempt b.stream.peek fun t =>
      if t.kind = .comma then .ok { b with stream := b.stream.tail }
      else if t.kind = .rBracket ∨ first.kind = .newline then .ok b
      else b.fail (t.unexpected .separator)

/-- Reads the next element or the closing bracket, or what follows an element. -/
def array (id : Nat) (complete : Bool) (b : Builder) : Step :=
  if complete then
    let b := { b with scopes := .array id false :: b.scopes.tail }
    (b.continuation id).bind separator
  else
    let b := { b with stream := b.stream.skipNewlines }
    b.attempt b.stream.peek fun t =>
      match t.kind with
      | .rBracket =>
        .ok { b with stream := b.stream.tail, tree := b.tree.close id t.span }.leave
      | .eof => b.fail (Construct.array.unclosed (b.tree.position id))
      | _ => b.value id

/-! ## Maps -/

/-- Reads the sign behind a key that covers `span`. -/
def entry (map : Nat) (key : String) (span : Span) (b : Builder) : Step :=
  b.read b.stream.next fun t b =>
    if t.kind = .equals ∨ t.kind = .colon then
      b.pushScope (some map) (.attr key span) (.attr · false)
    else b.fail (t.unexpected .entrySign)

/-- Reads the key of the next entry, or the closing brace. A key in parentheses is kept as it is
written. -/
def map (id : Nat) (b : Builder) : Step :=
  b.read b.stream.skipNewlines.next fun t b =>
    match t.kind with
    | .rBrace => .ok { b with tree := b.tree.close id t.span }.leave
    | .eof => b.fail (Construct.map.unclosed (b.tree.position id))
    | .ident | .string | .number | .bool | .null => b.entry id t.text t.span
    | .lParen =>
      b.read (b.stream.skipGroup t.span.start) fun stop b =>
        let span := t.span.upTo stop
        b.entry id ((span.slice? b.source).getD "") span
    | _ => b.fail (t.unexpected .mapKey)

/-! ## One step -/

/-- Reads on in the innermost scope. -/
def step (scope : Scope) (b : Builder) : Step :=
  match scope with
  | .document => b.body none
  | .block id => b.body (some id)
  | .attr id complete => b.attr id complete
  | .array id complete => b.array id complete
  | .map id => b.map id

end Builder

end Hcl
