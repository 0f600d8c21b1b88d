import Hcl.Builder.Run
import Hcl.Proofs.Forest.Map

/-!
# Plain documents

Documents in which nothing is left to be evaluated: attributes and blocks over strings, numerals,
booleans, `null`, arrays and maps. A plain document has a written form and a symbol tree, and needs
a number of scopes.
-/

namespace Hcl.Plain

/-! ## Words -/

def IsIdentifier : List Char → Prop
  | [] => False
  | c :: cs => Text.isIdentStart c = true ∧ ∀ d ∈ cs, Text.isIdentContinue d = true

instance : (cs : List Char) → Decidable (IsIdentifier cs)
  | [] => inferInstanceAs (Decidable False)
  | c :: cs =>
    decidable_of_iff ((Text.isIdentStart c && cs.all Text.isIdentContinue) = true)
      (by simp [IsIdentifier])

namespace IsIdentifier

variable {text : List Char} {c : Char}

theorem head (h : IsIdentifier text) : text.head?.any Text.isIdentStart = true := by
  cases text with
  | nil => exact h.elim
  | cons c cs => exact h.1

theorem forall_isIdentContinue (h : IsIdentifier text) :
    ∀ c ∈ text, Text.isIdentContinue c = true := by
  cases text with
  | nil => exact h.elim
  | cons c cs => exact List.forall_mem_cons.mpr ⟨Text.isIdentContinue_of_isIdentStart h.1, h.2⟩

theorem notMem (h : IsIdentifier text) (hc : Text.isIdentContinue c = false) : c ∉ text := by
  intro hmem
  rw [h.forall_isIdentContinue c hmem] at hc
  cases hc

end IsIdentifier

/-- A name that is not one of the three words with a meaning of their own. -/
structure Identifier where
  text : List Char
  isIdentifier : IsIdentifier text
  ne_true : text ≠ ['t', 'r', 'u', 'e']
  ne_false : text ≠ ['f', 'a', 'l', 's', 'e']
  ne_null : text ≠ ['n', 'u', 'l', 'l']

def IsDigits (cs : List Char) : Prop := cs ≠ [] ∧ ∀ c ∈ cs, c.isDigit = true

def IsSign (cs : List Char) : Prop := cs = [] ∨ cs = ['-'] ∨ cs = ['+']

/-- A sign, digits, a fraction and an exponent, of which only the digits must be there. -/
structure Numeral where
  sign : List Char
  whole : List Char
  fraction : List Char
  exponent : List Char
  isSign : IsSign sign
  isDigits : IsDigits whole
  isFraction : fraction = [] ∨ ∃ digits, fraction = '.' :: digits ∧ IsDigits digits
  isExponent : exponent = [] ∨ ∃ e sign digits, exponent = e :: (sign ++ digits) ∧
    (e = 'e' ∨ e = 'E') ∧ IsSign sign ∧ IsDigits digits

def Numeral.text (n : Numeral) : List Char := n.sign ++ n.whole ++ n.fraction ++ n.exponent

/-! ## Documents -/

inductive Expression where
  | string (text : List Char)
  | number (numeral : Numeral)
  | boolean (b : Bool)
  | null
  | array (elements : List Expression)
  | map (entries : List (List Char × Expression))

inductive Item where
  | attribute (name : Identifier) (value : Expression)
  /-- the first name and the other ones, and what is inside -/
  | block (name : List Char) (labels : List (List Char)) (items : List Item)

/-! ## Writing -/

/-- The inside of a quoted literal: a template marker before a brace is doubled. -/
def escape : List Char → List Char
  | [] => []
  | '$' :: '{' :: cs => '$' :: '$' :: '{' :: escape cs
  | '%' :: '{' :: cs => '%' :: '%' :: '{' :: escape cs
  | '"' :: cs => '\\' :: '"' :: escape cs
  | '\\' :: cs => '\\' :: '\\' :: escape cs
  | '\n' :: cs => '\\' :: 'n' :: escape cs
  | '\r' :: cs => '\\' :: 'r' :: escape cs
  | '\t' :: cs => '\\' :: 't' :: escape cs
  | c :: cs => c :: escape cs

def quote (cs : List Char) : List Char := '"' :: (escape cs ++ ['"'])

def booleanText (b : Bool) : List Char :=
  if b then ['t', 'r', 'u', 'e'] else ['f', 'a', 'l', 's', 'e']

mutual
def Expression.print : Expression → List Char
  | .string text => quote text
  | .number numeral => numeral.text
  | .boolean b => booleanText b
  | .null => ['n', 'u', 'l', 'l']
  | .array [] => ['[', ']']
  | .array (e :: es) => '[' :: (e.print ++ (printElements es ++ [']']))
  | .map [] => ['{', ' ', ' ', '}']
  | .map ((key, e) :: es) =>
    '{' :: ' ' :: (quote key ++ (' ' :: '=' :: ' ' :: (e.print ++ (printEntries es ++ [' ', '}']))))

/-- The elements behind the first one. -/
def printElements : List Expression → List Char
  | [] => []
  | e :: es => ',' :: ' ' :: (e.print ++ printElements es)

/-- The entries behind the first one. -/
def printEntries : List (List Char × Expression) → List Char
  | [] => []
  | (key, e) :: es =>
    ',' :: ' ' :: (quote key ++ (' ' :: '=' :: ' ' :: (e.print ++ printEntries es)))
end

/-- The names behind the first one. -/
def printLabels : List (List Char) → List Char
  | [] => []
  | label :: labels => ' ' :: (quote label ++ printLabels labels)

mutual
def Item.print : Item → List Char
  | .attribute name e => name.text ++ (' ' :: '=' :: ' ' :: (e.print ++ ['\n']))
  | .block name labels items =>
    quote name ++ (printLabels labels ++ (' ' :: '{' :: '\n' :: (printItems items ++ ['}', '\n'])))

def printItems : List Item → List Char
  | [] => []
  | item :: items => item.print ++ printItems items
end

/-! ## Symbols -/

/-- Where a symbol stands is not part of a document. -/
def nowhere : Span := ⟨.start, 0⟩

def withoutSpan (s : Symbol) : Symbol := { s with span := nowhere }

def literal (type : LiteralType) (raw : List Char) : Tree :=
  .leaf (.literal type (String.ofList raw) nowhere)

mutual
def Expression.tree : Expression → Tree
  | .string text => literal .string text
  | .number numeral => literal .number numeral.text
  | .boolean b => literal .boolean (booleanText b)
  | .null => literal .null ['n', 'u', 'l', 'l']
  | .array elements => .node (.array nowhere) (elementTrees elements)
  | .map entries => .node (.map nowhere) (entryTrees entries)

def elementTrees : List Expression → List Tree
  | [] => []
  | e :: es => e.tree :: elementTrees es

def entryTrees : List (List Char × Expression) → List Tree
  | [] => []
  | (key, e) :: es => .node (.attr (String.ofList key) nowhere) [e.tree] :: entryTrees es
end

mutual
def Item.tree : Item → Tree
  | .attribute name e => .node (.attr (String.ofList name.text) nowhere) [e.tree]
  | .block name labels items =>
    .node (.block ((name :: labels).map String.ofList) nowhere) (itemTrees items)

def itemTrees : List Item → List Tree
  | [] => []
  | item :: items => item.tree :: itemTrees items
end

/-! ## Scopes -/

mutual
/-- How many scopes are opened on the way down: one for an array or map and one for an entry. -/
def Expression.depth : Expression → Nat
  | .array elements => elementsDepth elements + 1
  | .map entries => entriesDepth entries + 1
  | _ => 0

def elementsDepth : List Expression → Nat
  | [] => 0
  | e :: es => max e.depth (elementsDepth es)

def entriesDepth : List (List Char × Expression) → Nat
  | [] => 0
  | (_, e) :: es => max (e.depth + 1) (entriesDepth es)
end

mutual
def Item.depth : Item → Nat
  | .attribute _ e => e.depth + 1
  | .block _ _ items => itemsDepth items + 1

def itemsDepth : List Item → Nat
  | [] => 0
  | item :: items => max item.depth (itemsDepth items)
end

/-- A document is its items in order. -/
structure Document where
  items : List Item

namespace Document

def print (d : Document) : String := String.ofList (printItems d.items)

def tree (d : Document) : SymbolTree := .ofForest (itemTrees d.items)

/-- The scopes that are open at once, that of the document included. -/
def depth (d : Document) : Nat := itemsDepth d.items + 1

end Document

end Hcl.Plain
