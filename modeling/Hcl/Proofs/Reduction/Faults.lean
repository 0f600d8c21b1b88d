import Hcl.Document
import Hcl.Proofs.Builder.Faults
import Hcl.Proofs.Builder.Literals
import Hcl.Proofs.Lexer.Numerals
import Hcl.Proofs.Reduction.Compose

/-!
# What can go wrong

Every numeral that a source contains is the text of a number, so the trees that are read of sources
have no bad numbers. All that is left for their reduction to fail on are labels in conflict.
-/

namespace Hcl

open Hcl.Tree

/-! ## Errors of the reduction -/

/-- The labels of a block are in conflict with what is there. -/
def Error.IsConflict : Error → Prop
  | scopeConflict _ _ _ => True
  | _ => False

/-- If the symbol is a number, its text is the text of one. -/
def Symbol.Numeric (s : Symbol) : Prop :=
  ∀ raw, s.kind = .literal .number raw → Binary64.IsText raw

/-- An error that the reduction of the symbol may fail with. -/
inductive Symbol.Causes (s : Symbol) : Error → Prop where
  | conflict {names : List String} {conflict : ScopeConflict} {label : String} :
      s.kind = .block names → s.Causes (.scopeConflict conflict label s.position)
  | number {owner raw : String} {fault : NumeralFault} : s.kind = .literal .number raw →
      Binary64.parse raw = .error fault → s.Causes (.number owner raw fault s.position)

/-- A number with the text of one causes no error. -/
theorem Symbol.Causes.isConflict {s : Symbol} {e : Error} (h : s.Causes e) (hs : s.Numeric) :
    e.IsConflict := by
  cases h with
  | conflict => trivial
  | number hk hparse =>
    obtain ⟨x, hx, -⟩ := hs _ hk
    rw [hparse] at hx
    cases hx

theorem Symbol.Causes.position?_eq {s : Symbol} {e : Error} (h : s.Causes e) :
    e.position? = some s.position := by
  cases h <;> rfl

namespace Object

variable {p : Position} {names : List String} {scope : Object} {e : Error}

theorem eq_of_conflict? (h : conflict? p names scope = some e) :
    ∃ conflict label, e = .scopeConflict conflict label p := by
  induction names generalizing scope with
  | nil => cases h
  | cons name names ih =>
    rw [conflict?] at h
    split at h
    · cases h
    · exact ih h
    · split at h
      · cases h
      · cases h
        exact ⟨_, _, rfl⟩
    · cases h
      exact ⟨_, _, rfl⟩

/-- A block fails with a conflict or as its body does. -/
theorem error_of_within {write : Object → Reduced}
    (h : (within p write names scope).result = .error e) :
    (∃ conflict label, e = .scopeConflict conflict label p) ∨
      ∃ o, (write o).result = .error e := by
  cases names with
  | nil => exact .inr ⟨scope, h⟩
  | cons name names =>
    rw [within_eq p write (List.cons_ne_nil name names)] at h
    split at h
    · rename_i hconflict
      cases h
      exact .inl (eq_of_conflict? hconflict)
    · exact .inr ⟨[], h⟩

end Object

theorem LiteralType.parse_of_value {type : LiteralType} {owner raw : String} {p : Position}
    {e : Error} (h : type.value owner raw p = .error e) :
    type = .number ∧ ∃ fault, Binary64.parse raw = .error fault ∧ e = .number owner raw fault p := by
  cases type with
  | number =>
    rw [value] at h
    split at h
    · cases h
    · rename_i fault hparse
      cases h
      exact ⟨rfl, fault, hparse, rfl⟩
  | _ => cases h

namespace Node

mutual
/-- `P` holds of all symbols of a node. -/
def Each (P : Symbol → Prop) : Node → Prop
  | mk _ symbol children => P symbol ∧ EachOf P children

def EachOf (P : Symbol → Prop) : List Node → Prop
  | [] => True
  | n :: ns => n.Each P ∧ EachOf P ns
end

variable {P : Symbol → Prop}

theorem each_mk {id : Nat} {symbol : Symbol} {children : List Node} :
    (mk id symbol children).Each P ↔ P symbol ∧ EachOf P children := by
  rw [Each]

theorem eachOf_iff {ns : List Node} : EachOf P ns ↔ ∀ n ∈ ns, n.Each P := by
  induction ns with
  | nil => simp [EachOf]
  | cons n ns ih => simp [EachOf, ih]

mutual
/-- If the reduction fails, one of the symbols is the cause. -/
theorem exists_causes_of_reduce {owner : String} {scope : Object} {e : Error} : (n : Node) →
    n.Each P → (n.reduce owner scope).result = .error e → ∃ s, P s ∧ s.Causes e
  | mk id symbol children, hn, h => by
    obtain ⟨hsymbol, hchildren⟩ := each_mk.mp hn
    rw [reduce] at h
    cases hk : symbol.kind with
    | block names =>
      simp only [hk] at h
      rcases Object.error_of_within h with ⟨conflict, label, rfl⟩ | ⟨o, ho⟩
      · exact ⟨symbol, hsymbol, .conflict hk⟩
      · exact exists_causes_of_reduceAll children hchildren ho
    | attr =>
      simp only [hk] at h
      cases children with
      | nil => cases h
      | cons child siblings =>
        simp only at h
        split at h
        · cases h
        · rename_i hchild
          cases h
          exact exists_causes_of_reduce child hchildren.1 hchild
    | map =>
      simp only [hk] at h
      cases hbody : (reduceAll owner children []).result with
      | ok v => simp [hbody, Except.map] at h
      | error e' =>
        rw [hbody] at h
        cases h
        exact exists_causes_of_reduceAll children hchildren hbody
    | array =>
      simp only [hk] at h
      cases helements : elements owner children with
      | ok vs => simp [helements, Except.map] at h
      | error e' =>
        rw [helements] at h
        cases h
        exact exists_causes_of_elements children hchildren helements
    | literal type raw =>
      simp only [hk] at h
      cases hvalue : type.value owner raw symbol.position with
      | ok v => simp [hvalue, Except.map] at h
      | error e' =>
        rw [hvalue] at h
        cases h
        obtain ⟨rfl, fault, hparse, rfl⟩ := LiteralType.parse_of_value hvalue
        exact ⟨symbol, hsymbol, .number hk hparse⟩
    | eval e => simp [hk] at h
    | keyword k => simp [hk] at h

theorem exists_causes_of_reduceAll {owner : String} {scope : Object} {e : Error} :
    (ns : List Node) → EachOf P ns → (reduceAll owner ns scope).result = .error e →
      ∃ s, P s ∧ s.Causes e
  | [], _, h => by
    rw [reduceAll] at h
    cases h
  | n :: ns, hns, h => by
    rw [reduceAll] at h
    cases hfirst : (n.reduce owner scope).result with
    | ok v =>
      simp only [hfirst] at h
      exact exists_causes_of_reduceAll ns hns.2 h
    | error e' =>
      simp only [hfirst] at h
      cases h
      exact exists_causes_of_reduce n hns.1 hfirst

theorem exists_causes_of_elements {owner : String} {e : Error} :
    (ns : List Node) → EachOf P ns → elements owner ns = .error e → ∃ s, P s ∧ s.Causes e
  | [], _, h => by
    rw [elements] at h
    cases h
  | n :: ns, hns, h => by
    rw [elements] at h
    cases hfirst : (n.reduce owner []).result with
    | ok v =>
      simp only [hfirst] at h
      cases hrest : elements owner ns with
      | ok vs => simp [hrest, Except.map] at h
      | error e' =>
        rw [hrest] at h
        cases h
        exact exists_causes_of_elements ns hns.2 hrest
    | error e' =>
      simp only [hfirst] at h
      cases h
      exact exists_causes_of_reduce n hns.1 hfirst
end

end Node

/-! ## Trees -/

namespace SymbolTree

variable {t : SymbolTree} {P : Symbol → Prop}

theorem each_of_node? (ht : ∀ id e, t.get? id = some e → P e.symbol) {id : Nat} {n : Node}
    (h : t.node? id = some n) : n.Each P := by
  cases he : t.get? id with
  | none =>
    rw [node?_of_get?_none he] at h
    cases h
  | some e =>
    have hlt := lt_size_of_get? he
    rw [node?_of_get? he] at h
    cases h
    refine Node.each_mk.mpr ⟨ht id e he, Node.eachOf_iff.mpr fun n hn => ?_⟩
    obtain ⟨child, -, hchild⟩ := List.mem_filterMap.mp hn
    split at hchild
    · exact each_of_node? ht hchild
    · cases hchild
termination_by t.size - id

theorem exists_causes_of_reduce (ht : ∀ id e, t.get? id = some e → P e.symbol) {e : Error}
    (h : t.reduce = .error e) : ∃ s, P s ∧ s.Causes e := by
  have hnodes : Node.EachOf P t.nodes := by
    refine Node.eachOf_iff.mpr fun n hn => ?_
    obtain ⟨id, -, hid⟩ := List.mem_filterMap.mp hn
    exact each_of_node? ht hid
  rw [reduce] at h
  cases hresult : (Node.reduceAll "" t.nodes []).result with
  | ok v => simp [hresult, Except.map] at h
  | error e' =>
    simp only [hresult] at h
    cases h
    exact Node.exists_causes_of_reduceAll _ hnodes hresult

/-- Where numbers have the texts of numbers, the reduction only fails with a conflict. -/
theorem isConflict_of_reduce (ht : ∀ id e, t.get? id = some e → e.symbol.Numeric) {e : Error}
    (h : t.reduce = .error e) : e.IsConflict := by
  obtain ⟨s, hs, hcauses⟩ := exists_causes_of_reduce ht h
  exact hcauses.isConflict hs

end SymbolTree

/-! ## Sources -/

/-- The numbers in the tree of a source have the texts of numbers. -/
theorem numeric_parseTree (source : String) {id : Nat} {e : Entry}
    (h : (parseTree source).tree.get? id = some e) : e.symbol.Numeric := by
  intro raw hk
  obtain ⟨t, ht, htype, rfl⟩ := literal_parseTree h hk
  refine Lexer.numeric_of_mem_stream _ t ht ?_
  cases hkind : t.kind <;> simp [hkind, TokenKind.literalType?] at htype ⊢

theorem Error.IsConflict.exists_eq {e : Error} (h : e.IsConflict) :
    ∃ c label p, e = .scopeConflict c label p := by
  cases e with
  | scopeConflict c label p => exact ⟨c, label, p, rfl⟩
  | _ => exact h.elim

theorem Error.OfText.exists_eq {e : Error} (h : e.OfText) :
    (∃ fault p, e = .lexical fault p) ∨ ∃ fault p, e = .syntactic fault p := by
  cases e with
  | lexical fault p => exact .inl ⟨fault, p, rfl⟩
  | syntactic fault p => exact .inr ⟨fault, p, rfl⟩
  | _ => exact h.elim

theorem parseDocument_bestEffort (source : String) :
    parseDocument .bestEffort source = (parseTree source).tree.reduce := by
  unfold parseDocument parseSymbols Parsed.recover
  cases (parseTree source).error <;> rfl

/-- A source with an error in its text fails with it, any other one as it does with recovery. -/
theorem parseDocument_strict (source : String) :
    parseDocument .strict source =
      match (parseTree source).error with
      | some e => .error e
      | none => parseDocument .bestEffort source := by
  rw [parseDocument_bestEffort]
  unfold parseDocument parseSymbols Parsed.recover
  cases (parseTree source).error <;> rfl

/-- A document is always what the tree of its source reduces to. -/
theorem reduce_of_parseDocument {recovery : Recovery} {source : String} {doc : Object}
    (h : parseDocument recovery source = .ok doc) : (parseTree source).tree.reduce = .ok doc := by
  rw [← parseDocument_bestEffort]
  cases recovery with
  | bestEffort => exact h
  | strict =>
    rw [parseDocument_strict] at h
    split at h
    · cases h
    · exact h

/-- Without recovery a source fails with an error of its text or with a conflict; if it does not, it
means the same with recovery. With recovery only conflicts are left. No number of the tree is badly
written, wherever the reading stopped. -/
theorem parseDocument_faults (source : String) :
    (∀ e, parseDocument .bestEffort source = .error e → ∃ c label p, e = .scopeConflict c label p) ∧
    (∀ e, parseDocument .strict source = .error e → (∃ fault p, e = .lexical fault p) ∨
      (∃ fault p, e = .syntactic fault p) ∨ ∃ c label p, e = .scopeConflict c label p) ∧
    (∀ doc, parseDocument .strict source = .ok doc →
      parseDocument .bestEffort source = .ok doc) ∧
    ∀ id e raw, (parseTree source).tree.get? id = some e → e.symbol.kind = .literal .number raw →
      ∃ x, Binary64.parse raw = .ok x ∧ x.isNaN = false := by
  have hconflict : ∀ e, parseDocument .bestEffort source = .error e → e.IsConflict := by
    intro e he
    rw [parseDocument_bestEffort] at he
    exact SymbolTree.isConflict_of_reduce (fun id e => numeric_parseTree source) he
  refine ⟨fun e he => (hconflict e he).exists_eq, fun e he => ?_, fun doc hdoc => ?_,
    fun id e raw he hk => numeric_parseTree source he raw hk⟩
  · rw [parseDocument_strict] at he
    split at he
    · rename_i hfault
      cases he
      exact (ofText_parseTree hfault).exists_eq.imp_right .inl
    · exact .inr (.inr (hconflict e he).exists_eq)
  · rw [parseDocument_bestEffort]
    exact reduce_of_parseDocument hdoc

/-- What was read up to the bracket is kept, with its numeral, and has labels in conflict. -/
theorem parseDocument_faults_unmatched :
    (∃ c label p, parseDocument .bestEffort "a = -1.5e3\na b {}\n]" =
      .error (.scopeConflict c label p)) ∧
    (∃ fault p, parseDocument .strict "a = -1.5e3\na b {}\n]" = .error (.syntactic fault p)) ∧
    (∃ x, Binary64.parse "-1.5e3" = .ok x ∧ x.isNaN = false) ∧
    ∃ doc, parseDocument .strict "a = -1.5e3\n" = .ok doc ∧
      parseDocument .bestEffort "a = -1.5e3\n" = .ok doc := by
  obtain ⟨hbest, hstrict, -, hnumber⟩ := parseDocument_faults "a = -1.5e3\na b {}\n]"
  refine ⟨?_, ?_, ?_, ?_⟩
  · have hfails : (parseDocument .bestEffort "a = -1.5e3\na b {}\n]").isOk = false := by
      decide +kernel
    cases h : parseDocument .bestEffort "a = -1.5e3\na b {}\n]" with
    | ok doc => simp [h, Except.isOk, Except.toBool] at hfails
    | error e =>
      obtain ⟨c, label, p, rfl⟩ := hbest e h
      exact ⟨c, label, p, rfl⟩
  · have hfault : (parseTree "a = -1.5e3\na b {}\n]").error =
        some (.syntactic (.unmatchedClose ']') ⟨3, 1, 18⟩) := by decide +kernel
    have he : parseDocument .strict "a = -1.5e3\na b {}\n]" =
        .error (.syntactic (.unmatchedClose ']') ⟨3, 1, 18⟩) := by
      rw [parseDocument_strict, hfault]
    rcases hstrict _ he with ⟨fault, p, h⟩ | ⟨fault, p, h⟩ | ⟨c, label, p, h⟩
    · cases h
    · exact ⟨fault, p, h ▸ he⟩
    · cases h
  · have hraw : ((parseTree "a = -1.5e3\na b {}\n]").tree.get? 1).map
        (fun e => e.symbol.kind) = some (.literal .number "-1.5e3") := by decide +kernel
    obtain ⟨e, he, hk⟩ := Option.map_eq_some_iff.mp hraw
    exact hnumber 1 e _ he hk
  · have hok : (parseDocument .strict "a = -1.5e3\n").isOk = true := by decide +kernel
    cases h : parseDocument .strict "a = -1.5e3\n" with
    | ok doc => exact ⟨doc, rfl, (parseDocument_faults "a = -1.5e3\n").2.2.1 doc h⟩
    | error e => simp [h, Except.isOk, Except.toBool] at hok

end Hcl
