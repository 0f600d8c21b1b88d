import Hcl.Proofs.Builder.WellFormed
import Hcl.Proofs.Reduction.Compose
import Hcl.Proofs.Reduction.Leaves
import Mathlib.Data.List.Induction
import Mathlib.Tactic.Abel

/-!
# Nothing is lost or made up

The leaves of a reduced document are among the leaves of its tree. What is lost are the values of
attributes that another attribute or a block of the same body takes the place of, and arrays that
stand in a body without a name.
-/

namespace Hcl

open Hcl.Value Hcl.Tree

/-! ## Leaves of symbols and trees -/

namespace Symbol

/-- The value of a symbol that holds no other symbols. -/
def leaf? (s : Symbol) : Option Value :=
  match s.kind with
  | .literal type raw => (type.value "" raw s.position).toOption
  | .eval e => some (.eval e)
  | .keyword k => some (.keyword k)
  | _ => none

def leaves (s : Symbol) : Multiset Value := (s.leaf?.toList : Multiset Value)

/-- The key that a symbol has in the body around it. -/
def key? (s : Symbol) : Option String :=
  match s.kind with
  | .attr => some (s.name.getD "")
  | .block names => names.head?
  | _ => none

/-- No attribute of a body has the key of another attribute or of a block. -/
def DistinctKeys (body : List Symbol) : Prop :=
  body.Pairwise fun s u => s.isAttribute = true ∨ u.isAttribute = true → s.key? ≠ u.key?

instance (body : List Symbol) : Decidable (DistinctKeys body) :=
  inferInstanceAs (Decidable (body.Pairwise _))

theorem leaves_of_leaf?_none {s : Symbol} (h : s.leaf? = none) : s.leaves = 0 := by
  rw [leaves, h]
  rfl

theorem leaves_of_leaf? {s : Symbol} {v : Value} (h : s.leaf? = some v) : s.leaves = {v} := by
  rw [leaves, h]
  rfl

end Symbol

/-- The value of a literal does not depend on the attribute around it. -/
theorem LiteralType.value_of_ok {type : LiteralType} {owner raw : String} {p : Position}
    {v : Value} (h : type.value owner raw p = .ok v) (other : String) :
    type.value other raw p = .ok v := by
  cases type with
  | number =>
    rw [value] at h ⊢
    cases hparse : Binary64.parse raw with
    | ok x => simpa only [hparse] using h
    | error fault => simp [hparse] at h
  | _ => exact h

theorem LiteralType.value_cases {type : LiteralType} {owner raw : String} {p : Position}
    {v : Value} (h : type.value owner raw p = .ok v) :
    v = .null ∨ (∃ b, v = .boolean b) ∨ (∃ x, v = .number x) ∨ ∃ s, v = .string s := by
  cases type with
  | number =>
    rw [value] at h
    cases hparse : Binary64.parse raw with
    | ok x =>
      simp only [hparse, Except.ok.injEq] at h
      exact .inr (.inr (.inl ⟨x, h.symm⟩))
    | error fault => simp [hparse] at h
  | null =>
    cases h
    exact .inl rfl
  | boolean =>
    cases h
    exact .inr (.inl ⟨_, rfl⟩)
  | string =>
    cases h
    exact .inr (.inr (.inr ⟨_, rfl⟩))

theorem LiteralType.leaves_of_ok {type : LiteralType} {owner raw : String} {p : Position}
    {v : Value} (h : type.value owner raw p = .ok v) : v.leaves = {v} := by
  rcases value_cases h with rfl | ⟨b, rfl⟩ | ⟨x, rfl⟩ | ⟨s, rfl⟩ <;> rfl

theorem LiteralType.eval?_of_ok {type : LiteralType} {owner raw : String} {p : Position}
    {v : Value} (h : type.value owner raw p = .ok v) : v.eval? = none := by
  rcases value_cases h with rfl | ⟨b, rfl⟩ | ⟨x, rfl⟩ | ⟨s, rfl⟩ <;> rfl

namespace Tree

mutual
def leaves : Tree → Multiset Value
  | node symbol children => symbol.leaves + leavesAll children

def leavesAll : List Tree → Multiset Value
  | [] => 0
  | t :: ts => t.leaves + leavesAll ts
end

@[simp] theorem leaves_node (s : Symbol) (ts : List Tree) :
    (node s ts).leaves = s.leaves + leavesAll ts := rfl
@[simp] theorem leavesAll_nil : leavesAll [] = 0 := rfl
@[simp] theorem leavesAll_cons (t : Tree) (ts : List Tree) :
    leavesAll (t :: ts) = t.leaves + leavesAll ts := rfl

mutual
/-- A tree whose bodies lose nothing: their keys are distinct, and blocks have no arrays. -/
def Clean : Tree → Prop
  | node symbol children =>
    (symbol.listsAttributes = true → Symbol.DistinctKeys (children.map Tree.symbol)) ∧
      (∀ names, symbol.kind = .block names → ∀ t ∈ children, t.symbol.kind ≠ .array) ∧
      CleanAll children

def CleanAll : List Tree → Prop
  | [] => True
  | t :: ts => t.Clean ∧ CleanAll ts
end

theorem clean_node {s : Symbol} {ts : List Tree} :
    (node s ts).Clean ↔ (s.listsAttributes = true → Symbol.DistinctKeys (ts.map Tree.symbol)) ∧
      (∀ names, s.kind = .block names → ∀ t ∈ ts, t.symbol.kind ≠ .array) ∧ CleanAll ts := by
  rw [Clean]

end Tree

/-! ## What a single node does -/

namespace Node

variable {owner : String} {n : Node} {scope scope' : Object} {v : Option Value}

/-- Only blocks and attributes write into the scope, at their own key. -/
theorem Composes.mem_keys (h : Composes owner scope n scope' v) {key : String}
    (hkey : key ∈ Object.keys scope') : n.symbol.key? = some key ∨ key ∈ Object.keys scope := by
  cases h with
  | block hk _ _ =>
    simp only [Node.symbol, Symbol.key?, hk]
    exact Object.mem_keys_store hkey
  | empty hk | attr hk _ =>
    simp only [Node.symbol, Symbol.key?, hk, Option.some.injEq]
    exact (Object.mem_keys_put hkey).imp_left Eq.symm
  | map | array | literal | eval | keyword => exact .inr hkey

theorem Composes.eq_none (h : Composes owner scope n scope' v) (hitem : n.symbol.kind.isItem = true)
    (harray : n.symbol.kind ≠ .array) : v = none := by
  cases h with
  | block | empty | attr => rfl
  | array hk => exact absurd hk harray
  | map hk | literal hk | eval hk | keyword hk =>
    simp [Node.symbol, hk, SymbolKind.isItem] at hitem

theorem Composes.exists_some (h : Composes owner scope n scope' v)
    (hvalue : n.symbol.kind.isValue = true) : scope' = scope ∧ ∃ w, v = some w := by
  cases h with
  | block hk | empty hk | attr hk => simp [Node.symbol, hk, SymbolKind.isValue] at hvalue
  | map | array | literal | eval | keyword => exact ⟨rfl, _, rfl⟩

end Node

namespace Value

/-- The leaves of a value, if there is one. -/
def leavesOf (v : Option Value) : Multiset Value := v.elim 0 leaves

@[simp] theorem leavesOf_none : leavesOf none = 0 := rfl
@[simp] theorem leavesOf_some (v : Value) : leavesOf (some v) = v.leaves := rfl

end Value

/-- Putting a value at a key adds its leaves and loses those that were there. -/
theorem Object.exists_lost_put (name : String) (v : Value) (scope : Object) :
    ∃ lost, entryLeaves (put name v scope) + lost = entryLeaves scope + v.leaves ∧
      (name ∉ keys scope → lost = 0) := by
  cases hlookup : scope.lookup name with
  | none => exact ⟨0, by rw [add_zero, entryLeaves_put_new hlookup], fun _ => rfl⟩
  | some old =>
    refine ⟨old.leaves, entryLeaves_put_old hlookup v, fun hname => ?_⟩
    rw [lookup_eq_none hname] at hlookup
    cases hlookup

/-! ## What forests lose -/

namespace Tree

variable {owner : String} {scope scope' : Object} {s : Symbol}

/-- Keys do not clash in an empty scope. -/
theorem key?_ne_of_nil (t : Tree) : t.symbol.isAttribute = true → ∀ key ∈ Object.keys [],
    t.symbol.key? ≠ some key := nofun

/-- A body that is reduced on its own can only lose what is lost inside. -/
theorem Clean.lost_eq_zero {cs : List Tree} {lost : Multiset Value} (h : (node s cs).Clean)
    (hbody : s.listsAttributes = true) (harray : ∀ t ∈ cs, t.symbol.kind ≠ .array)
    (hlost : CleanAll cs → (∀ t ∈ cs, t.symbol.kind ≠ .array) →
      Symbol.DistinctKeys (cs.map Tree.symbol) →
      (∀ t ∈ cs, t.symbol.isAttribute = true → ∀ key ∈ Object.keys [],
        t.symbol.key? ≠ some key) → lost = 0) : lost = 0 :=
  hlost (clean_node.mp h).2.2 harray ((clean_node.mp h).1 hbody) fun t _ => key?_ne_of_nil t

mutual
/-- What is in the scope and in the value of a tree was in the scope before or is in the tree. -/
theorem exists_lost {owner : String} {scope scope' : Object} {v : Option Value} (n : Nat) :
    (t : Tree) → t.Sound → (t.toNode n).compose owner scope = .ok (scope', v) →
    ∃ lost, entryLeaves scope' + leavesOf v + lost = entryLeaves scope + t.leaves ∧
      (t.Clean → (t.symbol.isAttribute = true → ∀ key ∈ Object.keys scope,
        t.symbol.key? ≠ some key) → lost = 0)
  | node s cs, hsound, h => by
    obtain ⟨hnamed, hlength, hcs⟩ := sound_node.mp hsound
    rw [toNode_node] at h
    generalize hns : toNodes (n + 1) cs = ns at h
    cases Node.composes_of_ok h with
    | @block _ _ _ names body hk hconflict hbody =>
      have hitems : SoundAll SymbolKind.isItem cs := by
        rw [hk] at hcs
        exact hcs
      obtain ⟨lost, hsum, hclean⟩ := exists_lost_all (n + 1) cs hitems (hns ▸ hbody)
      refine ⟨lost, ?_, fun h _ => ?_⟩
      · rw [Object.entryLeaves_store body (hnamed names hk).1 hconflict, leaves_node,
          Symbol.leaves_of_leaf?_none (by simp [Symbol.leaf?, hk]), leavesOf_none, add_zero,
          add_assoc, hsum, entryLeaves_nil]
      · exact h.lost_eq_zero (by simp [Symbol.listsAttributes, hk])
          ((clean_node.mp h).2.1 names hk) hclean
    | empty hk =>
      have hlength := hlength hk
      have hcs : cs = [] := by cases cs <;> simp_all
      simp [hcs] at hlength
    | @attr _ _ _ _ left v hk hchild =>
      obtain ⟨c, rfl⟩ : ∃ c, cs = [c] := List.length_eq_one_iff.mp (hlength hk)
      rw [toNodes_cons, toNodes_nil] at hns
      injection hns with hc _
      have hvalue : c.symbol.kind.isValue = true := by
        rw [hk] at hcs
        exact hcs.1
      rw [← hc] at hchild
      obtain ⟨rfl, w, rfl⟩ :=
        (Node.composes_of_ok hchild).exists_some (by rw [symbol_toNode]; exact hvalue)
      obtain ⟨lost, hsum, hclean⟩ := exists_lost (n + 1) c hcs.2.1 hchild
      obtain ⟨old, hput, hnew⟩ := Object.exists_lost_put (s.name.getD "") w scope
      refine ⟨lost + old, ?_, fun h hkey => ?_⟩
      · rw [entryLeaves_nil, zero_add, zero_add, leavesOf_some] at hsum
        rw [leaves_node, Symbol.leaves_of_leaf?_none (by simp [Symbol.leaf?, hk]), zero_add,
          leavesAll_cons, leavesAll_nil, add_zero, ← hsum, leavesOf_none, add_zero,
          Option.getD_some, add_comm lost old, ← add_assoc, hput, add_assoc]
      · have hlost := hclean (clean_node.mp h).2.2.1 (key?_ne_of_nil c)
        have hold := hnew fun hmem =>
          hkey (by simp [Symbol.isAttribute, hk]) _ hmem (by simp [Symbol.key?, hk])
        rw [hlost, hold, add_zero]
    | @map _ _ _ body hk hbody =>
      have hitems : SoundAll SymbolKind.isItem cs := by
        refine hcs.mono fun kind hkind => ?_
        simp [hk, SymbolKind.admits] at hkind
        rw [hkind]
        rfl
      obtain ⟨lost, hsum, hclean⟩ := exists_lost_all (n + 1) cs hitems (hns ▸ hbody)
      refine ⟨lost, ?_, fun h _ => ?_⟩
      · rw [leaves_node, Symbol.leaves_of_leaf?_none (by simp [Symbol.leaf?, hk]), leavesOf_some,
          leaves_object, add_assoc, hsum, entryLeaves_nil]
      · refine h.lost_eq_zero (by simp [Symbol.listsAttributes, hk]) (fun t ht harray => ?_) hclean
        have hkind := (hcs.of_mem ht).1
        simp [hk, SymbolKind.admits, harray] at hkind
    | array hk hvs =>
      have hvalues : SoundAll SymbolKind.isValue cs := by
        rw [hk] at hcs
        exact hcs
      obtain ⟨lost, hsum, hclean⟩ := exists_lost_elements (n + 1) cs hvalues (hns ▸ hvs)
      refine ⟨lost, ?_, fun h _ => hclean (clean_node.mp h).2.2⟩
      rw [leaves_node, Symbol.leaves_of_leaf?_none (by simp [Symbol.leaf?, hk]), leavesOf_some,
        leaves_array, add_assoc, hsum, zero_add]
    | @literal _ _ _ type raw v hk hv =>
      have hcs := hcs.eq_nil (by simp [hk, SymbolKind.admits])
      have hleaf : s.leaf? = some v := by
        simp [Symbol.leaf?, hk, LiteralType.value_of_ok hv "", Except.toOption]
      refine ⟨0, ?_, fun _ _ => rfl⟩
      rw [leaves_node, Symbol.leaves_of_leaf? hleaf, hcs, leavesOf_some,
        LiteralType.leaves_of_ok hv, leavesAll_nil, add_zero, add_zero]
    | eval hk | keyword hk =>
      have hcs := hcs.eq_nil (by simp [hk, SymbolKind.admits])
      refine ⟨0, ?_, fun _ _ => rfl⟩
      rw [leaves_node, Symbol.leaves_of_leaf? (by simp only [Symbol.leaf?, hk]; rfl), hcs,
        leavesAll_nil, add_zero, add_zero]
      rfl
termination_by t => sizeOf t

theorem exists_lost_all {owner : String} {scope scope' : Object} (n : Nat) :
    (ts : List Tree) → SoundAll SymbolKind.isItem ts →
    Node.composeAll owner (toNodes n ts) scope = .ok scope' →
    ∃ lost, entryLeaves scope' + lost = entryLeaves scope + leavesAll ts ∧
      (CleanAll ts → (∀ t ∈ ts, t.symbol.kind ≠ .array) →
        Symbol.DistinctKeys (ts.map Tree.symbol) →
        (∀ t ∈ ts, t.symbol.isAttribute = true → ∀ key ∈ Object.keys scope,
          t.symbol.key? ≠ some key) → lost = 0)
  | [], _, h => by
    cases h
    exact ⟨0, rfl, fun _ _ _ _ => rfl⟩
  | t :: ts, hsound, h => by
    obtain ⟨s, v, hfirst, hrest⟩ := Node.exists_of_composeAll_ok h
    have hc := Node.composes_of_ok hfirst
    obtain ⟨lost, hsum, hclean⟩ := exists_lost n t hsound.2.1 hfirst
    obtain ⟨lostBehind, hbehind, hcleanBehind⟩ :=
      exists_lost_all (n + t.size) ts hsound.2.2 hrest
    refine ⟨leavesOf v + lost + lostBehind, ?_, fun hts harray hkeys hscope => ?_⟩
    · calc entryLeaves scope' + (leavesOf v + lost + lostBehind)
          = entryLeaves scope' + lostBehind + (leavesOf v + lost) := by abel
        _ = entryLeaves s + leavesOf v + lost + leavesAll ts := by rw [hbehind]; abel
        _ = entryLeaves scope + leavesAll (t :: ts) := by rw [hsum, leavesAll_cons, add_assoc]
    · rw [List.map_cons, Symbol.DistinctKeys, List.pairwise_cons] at hkeys
      have hv : v = none := hc.eq_none (by rw [symbol_toNode]; exact hsound.1)
        (by rw [symbol_toNode]; exact harray t List.mem_cons_self)
      have hlost := hclean hts.1 (hscope t List.mem_cons_self)
      have hbehind := hcleanBehind hts.2 (fun u hu => harray u (List.mem_cons_of_mem t hu)) hkeys.2
        fun u hu hattr key hkey => by
          rcases hc.mem_keys hkey with htkey | hold
          · rw [symbol_toNode] at htkey
            have hne := hkeys.1 u.symbol (List.mem_map_of_mem hu) (.inr hattr)
            rw [htkey] at hne
            exact hne.symm
          · exact hscope u (List.mem_cons_of_mem t hu) hattr key hold
      rw [hv, hlost, hbehind, leavesOf_none, add_zero, add_zero]
termination_by ts => sizeOf ts

theorem exists_lost_elements {owner : String} {vs : List Value} (n : Nat) :
    (ts : List Tree) → SoundAll SymbolKind.isValue ts →
    Node.composeElements owner (toNodes n ts) = .ok vs →
    ∃ lost, elementLeaves vs + lost = leavesAll ts ∧ (CleanAll ts → lost = 0)
  | [], _, h => by
    cases h
    exact ⟨0, rfl, fun _ => rfl⟩
  | t :: ts, hsound, h => by
    obtain ⟨s, v, ws, hfirst, hrest, rfl⟩ := Node.exists_of_composeElements_ok h
    obtain ⟨lost, hsum, hclean⟩ := exists_lost n t hsound.2.1 hfirst
    obtain ⟨lostBehind, hbehind, hcleanBehind⟩ :=
      exists_lost_elements (n + t.size) ts hsound.2.2 hrest
    obtain ⟨rfl, w, rfl⟩ :=
      (Node.composes_of_ok hfirst).exists_some (by rw [symbol_toNode]; exact hsound.1)
    rw [entryLeaves_nil, zero_add, zero_add, leavesOf_some] at hsum
    refine ⟨lost + lostBehind, ?_, fun hts => ?_⟩
    · rw [Option.getD_some, elementLeaves_cons, leavesAll_cons, ← hsum, ← hbehind]
      abel
    · rw [hclean hts.1 (key?_ne_of_nil t), hcleanBehind hts.2, add_zero]
termination_by ts => sizeOf ts
end

end Tree

/-! ## Symbol trees -/

namespace SymbolTree

/-- The values of the symbols that hold no other symbols. -/
def leaves (t : SymbolTree) : Multiset Value :=
  (t.entries.toList.filterMap (·.symbol.leaf?) : Multiset Value)

/-- The symbols with these numbers. -/
def symbols (t : SymbolTree) (ids : List Nat) : List Symbol :=
  ids.filterMap fun id => (t.get? id).map Entry.symbol

/-- Attributes share their key with no other attribute and no block of the same body, which is the
document, a block or a map. Arrays are neither roots nor directly in a block. -/
structure Clean (t : SymbolTree) : Prop where
  distinct_roots : Symbol.DistinctKeys (t.symbols t.roots.toList)
  distinct_children : ∀ id e, t.get? id = some e → e.symbol.listsAttributes = true →
    Symbol.DistinctKeys (t.symbols e.children.toList)
  roots_ne_array : ∀ s ∈ t.symbols t.roots.toList, s.kind ≠ .array
  children_ne_array : ∀ id e names, t.get? id = some e → e.symbol.kind = .block names →
    ∀ s ∈ t.symbols e.children.toList, s.kind ≠ .array

mutual
theorem filterMap_leaf?_entries (n : Nat) (parent : Option Nat) : (t : Tree) →
    ((t.entries n parent).filterMap (·.symbol.leaf?) : Multiset Value) = t.leaves
  | node s cs => by
    rw [entries_node, List.filterMap_cons, leaves_node,
      ← filterMap_leaf?_entriesAll (n + 1) (some n) cs, Symbol.leaves]
    simp only [entry]
    cases s.leaf? <;> rfl

theorem filterMap_leaf?_entriesAll (n : Nat) (parent : Option Nat) : (ts : List Tree) →
    ((entriesAll n parent ts).filterMap (·.symbol.leaf?) : Multiset Value) = leavesAll ts
  | [] => rfl
  | t :: ts => by
    rw [entriesAll_cons, List.filterMap_append, ← Multiset.coe_add,
      filterMap_leaf?_entries n parent t, filterMap_leaf?_entriesAll (n + t.size) parent ts,
      leavesAll_cons]
end

theorem leaves_ofForest (ts : List Tree) : (ofForest ts).leaves = leavesAll ts :=
  filterMap_leaf?_entriesAll 0 none ts

theorem symbols_numbers {ts : List Tree} {n : Nat} {parent : Option Nat} {cs : List Tree}
    (h : ∀ i q v, Occurs n parent cs i q v → Occurs 0 none ts i q v) :
    (ofForest ts).symbols (numbers n cs) = cs.map Tree.symbol := by
  induction cs generalizing n with
  | nil => rfl
  | cons c cs ih =>
    have hrest := ih fun i q v hv => h i q v (.tail hv)
    rw [symbols] at hrest
    rw [symbols, numbers_cons, List.filterMap_cons, get?_of_occurs (h n parent c .head), hrest]
    rfl

mutual
theorem Clean.tree {ts : List Tree} (h : (ofForest ts).Clean) {id : Nat} {p : Option Nat} :
    (u : Tree) → Occurs 0 none ts id p u → u.Clean
  | node s cs, hu => by
    have hget := get?_of_occurs hu
    have hin : ∀ i q v, Occurs (id + 1) (some id) cs i q v → Occurs 0 none ts i q v :=
      fun i q v hv => hu.trans hv
    have hsymbols := symbols_numbers hin
    refine clean_node.mpr ⟨fun hlists => ?_, fun names hk t ht => ?_, Clean.trees h cs hin⟩
    · simpa [entry, hsymbols] using h.distinct_children id _ hget hlists
    · refine h.children_ne_array id _ names hget hk t.symbol ?_
      simpa [entry, hsymbols] using ⟨t, ht, rfl⟩

theorem Clean.trees {ts : List Tree} (h : (ofForest ts).Clean) {n : Nat} {parent : Option Nat} :
    (cs : List Tree) → (∀ i q v, Occurs n parent cs i q v → Occurs 0 none ts i q v) → CleanAll cs
  | [], _ => trivial
  | c :: cs, hin =>
    ⟨Clean.tree h c (hin n parent c .head), Clean.trees h cs fun i q v hv => hin i q v (.tail hv)⟩
end

/-! ## Expressions -/

theorem filterMap_range {α β : Type} (f : α → Option β) (l : List α) :
    (List.range l.length).filterMap (fun i => l[i]?.bind f) = l.filterMap f := by
  induction l using List.reverseRecOn with
  | nil => rfl
  | append_singleton l a ih =>
    have hinit : (List.range l.length).filterMap (fun i => (l ++ [a])[i]?.bind f) =
        (List.range l.length).filterMap fun i => l[i]?.bind f := by
      refine List.filterMap_congr fun i hi => ?_
      rw [List.getElem?_append_left (List.mem_range.mp hi)]
    rw [List.length_append, List.length_singleton, List.range_succ, List.filterMap_append, hinit,
      ih, List.filterMap_append]
    simp [List.filterMap_cons]

theorem leaf?_bind_eval? (s : Symbol) : s.leaf?.bind Value.eval? = s.eval? := by
  rw [Symbol.leaf?, Symbol.eval?]
  cases hk : s.kind with
  | literal type raw =>
    cases hv : type.value "" raw s.position with
    | error e => simp [hv, Except.toOption]
    | ok v => simp [hv, Except.toOption, LiteralType.eval?_of_ok hv]
  | _ => rfl

theorem evals_ofForest (ts : List Tree) :
    ((ofForest ts).evals : Multiset Eval) = (ofForest ts).leaves.filterMap Value.eval? := by
  have hlength : (ofForest ts).entries.toList.length = sizeAll ts := by simp [ofForest]
  have hrange := filterMap_range (fun e : Entry => e.symbol.eval?) (ofForest ts).entries.toList
  rw [hlength] at hrange
  rw [evals, walk_ofForest, leaves, Multiset.filterMap_coe, List.filterMap_filterMap]
  simp only [leaf?_bind_eval?, ← hrange, get?, Array.getElem?_toList]

theorem composeAll_of_reduce {ts : List Tree} {doc : Object}
    (hnamed : ∀ id e, (ofForest ts).get? id = some e → e.symbol.Named)
    (h : (ofForest ts).reduce = .ok doc) :
    Node.composeAll "" (toNodes 0 ts) [] = .ok doc := by
  have hblocks : Node.AllBlocksNamed (ofForest ts).nodes := by
    refine Node.allBlocksNamed_iff.mpr fun n hn => ?_
    obtain ⟨id, -, hid⟩ := List.mem_filterMap.mp hn
    exact blocksNamed_of_node? (fun i e he hk => (hnamed i e he [] hk).1 rfl) hid
  have hwhole := Node.whole_reduceAll "" _ hblocks []
  rw [nodes_ofForest] at hwhole
  rw [reduce, nodes_ofForest] at h
  obtain ⟨v, hv, heq⟩ := TokenStream.exists_of_map_ok h
  rw [Reduced.whole, hv] at hwhole
  obtain ⟨body, hbody, hpair⟩ := TokenStream.exists_of_map_ok hwhole.symm
  rw [hbody, (Prod.mk.inj hpair).1, heq]

/-- The leaves of a reduced document are among those of its tree, and so are its expressions. If no
attribute gives way to another symbol of its body and all arrays have names, they are the same. -/
theorem leaves_reduce (source : String) (herror : (parseTree source).error = none) {doc : Object}
    (hdoc : (parseTree source).tree.reduce = .ok doc) :
    (Value.object doc).leaves ≤ (parseTree source).tree.leaves ∧
      ((Value.object doc).evals : Multiset Eval) ≤ (parseTree source).tree.evals ∧
      ((parseTree source).tree.Clean →
        (Value.object doc).leaves = (parseTree source).tree.leaves ∧
          ((Value.object doc).evals : Multiset Eval) = (parseTree source).tree.evals) := by
  obtain ⟨st, -, hsound, hends⟩ := exists_ends_parseTree source
  obtain ⟨ts, htree, -, hwhole⟩ := hends.exists_forest hsound
  have hts := hwhole herror
  have hnamed := (wellFormed_ofForest hts.toPartial).named
  rw [htree] at hdoc ⊢
  obtain ⟨lost, hsum, hclean⟩ := exists_lost_all 0 ts hts (composeAll_of_reduce hnamed hdoc)
  rw [entryLeaves_nil, zero_add, ← leaves_ofForest] at hsum
  have hleaves : (Value.object doc).leaves ≤ (ofForest ts).leaves := by
    rw [leaves_object, ← hsum]
    exact Multiset.le_add_right _ _
  rw [← Value.filterMap_eval?_leaves, evals_ofForest]
  refine ⟨hleaves, Multiset.filterMap_le_filterMap _ hleaves, fun h => ?_⟩
  have hlost : lost = 0 := by
    have hroots : (ofForest ts).symbols (ofForest ts).roots.toList = ts.map Tree.symbol := by
      simpa [ofForest] using symbols_numbers fun i q v (hv : Occurs 0 none ts i q v) => hv
    refine hclean (h.trees ts fun i q v hv => hv) (fun t ht => ?_) ?_ fun t _ => key?_ne_of_nil t
    · exact h.roots_ne_array t.symbol (hroots ▸ List.mem_map_of_mem ht)
    · rw [← hroots]
      exact h.distinct_roots
  rw [hlost, add_zero] at hsum
  rw [leaves_object, hsum]
  exact ⟨rfl, rfl⟩

theorem leaves_reduce_nested :
    ∃ doc, (parseTree "a = [b, 1]\nc { a = true }\n").tree.reduce = .ok doc ∧
      (Value.object doc).leaves =
        (parseTree "a = [b, 1]\nc { a = true }\n").tree.leaves ∧
      ((Value.object doc).evals : Multiset Eval) =
        (parseTree "a = [b, 1]\nc { a = true }\n").tree.evals := by
  generalize hsource : "a = [b, 1]\nc { a = true }\n" = source
  have herror : (parseTree source).error = none := by
    rw [← hsource]
    decide +kernel
  have hreduces : (parseTree source).tree.reduce.isOk = true := by
    rw [← hsource]
    decide +kernel
  have hdistinct : Symbol.DistinctKeys
      ((parseTree source).tree.symbols (parseTree source).tree.roots.toList) := by
    rw [← hsource]
    decide +kernel
  have hroots : ∀ s ∈ (parseTree source).tree.symbols (parseTree source).tree.roots.toList,
      s.kind ≠ .array := by
    rw [← hsource]
    decide +kernel
  have hbodies : ∀ e ∈ (parseTree source).tree.entries.toList, e.symbol.listsAttributes = true →
      Symbol.DistinctKeys ((parseTree source).tree.symbols e.children.toList) ∧
        ∀ s ∈ (parseTree source).tree.symbols e.children.toList, s.kind ≠ .array := by
    rw [← hsource]
    decide +kernel
  have hclean : (parseTree source).tree.Clean := by
    refine ⟨hdistinct, fun id e he hlists => ?_, hroots, fun id e names he hk => ?_⟩
    · exact (hbodies e (by simpa using Array.mem_of_getElem? he) hlists).1
    · exact (hbodies e (by simpa using Array.mem_of_getElem? he)
        (by simp [Symbol.listsAttributes, hk])).2
  cases hdoc : (parseTree source).tree.reduce with
  | error e => simp [hdoc, Except.isOk, Except.toBool] at hreduces
  | ok doc => exact ⟨doc, rfl, (leaves_reduce source herror hdoc).2.2 hclean⟩

end SymbolTree

end Hcl
