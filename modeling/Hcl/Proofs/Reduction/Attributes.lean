import Hcl.Proofs.Builder.Scopes
import Hcl.Proofs.Reduction.Keys
import Hcl.Proofs.Reduction.Places

/-!
# Root attributes

The value of a root attribute can be looked up in the list of the root attributes or in the reduced
document. An attribute is reduced in the same way whatever else is in the scope, and takes the place
of what is there. So of the roots with the key of attributes only the last one counts.
-/

namespace Hcl

open Hcl.Tree

/-! ## What roots are called -/

/-- The key of an attribute or block is what it is called. -/
theorem ReadsItems.key?_eq {source : List Char} {d : Nat} {s rest : TokenStream} {trees : List Tree}
    (h : ReadsItems source d s trees rest) :
    ∀ u ∈ trees, u.symbol.kind = .array ∨
      ∃ key, u.symbol.name = some key ∧ u.symbol.key? = some key := by
  induction h with
  | nil => simp
  | attr _ _ _ _ _ _ _ _ ih =>
    rw [List.forall_mem_append, List.forall_mem_singleton]
    exact ⟨ih, .inr ⟨_, rfl, rfl⟩⟩
  | block _ _ _ hlabels _ _ _ _ ih =>
    rw [List.forall_mem_append, List.forall_mem_singleton]
    have hhead := TokenStream.head?_of_labels hlabels
    exact ⟨ih, .inr ⟨_, hhead, hhead⟩⟩
  | array _ _ _ _ _ _ _ ih =>
    rw [List.forall_mem_append, List.forall_mem_singleton]
    exact ⟨ih, .inl rfl⟩

namespace SymbolTree

/-- What stands on the first level, in order. -/
def rootSymbols (t : SymbolTree) : List Symbol :=
  t.roots.toList.filterMap fun id => (t.get? id).map (·.symbol)

/-- Every root is an attribute or a block, and is called by its key. -/
def RootsNamed (t : SymbolTree) : Prop :=
  ∀ id ∈ t.roots.toList, ∃ e key, t.get? id = some e ∧ e.parent = none ∧
    e.symbol.name = some key ∧ e.symbol.key? = some key

/-- No block on the first level has `name` as its identifier. -/
def NoBlock (t : SymbolTree) (name : String) : Prop :=
  ∀ s ∈ t.rootSymbols, ∀ names, s.kind = .block names → names.head? ≠ some name

variable {t : SymbolTree} {ids : List Nat} {id : Nat} {name : String} {alone : Object}

theorem mem_rootSymbols {s : Symbol} :
    s ∈ t.rootSymbols ↔ ∃ id ∈ t.roots.toList, ∃ e, t.get? id = some e ∧ e.symbol = s := by
  simp [rootSymbols]

theorem rootsNamed_parseTree {source : String} (h : (parseTree source).error = none)
    (hroots : ∀ s ∈ (parseTree source).tree.rootSymbols,
      s.kind = .attr ∨ ∃ names, s.kind = .block names) : (parseTree source).tree.RootsNamed := by
  obtain ⟨trees, rest, -, hread, -, -, hparse⟩ := exists_items_parseTree source h
  rw [hparse] at hroots ⊢
  intro id hid
  obtain ⟨e, he, hparent⟩ := mem_roots_ofForest.mp (Array.mem_toList_iff.mp hid)
  have hroot := hroots e.symbol (mem_rootSymbols.mpr ⟨id, hid, e, he, rfl⟩)
  obtain ⟨p, u, hocc, rfl⟩ := exists_occurs_of_get? he
  rcases hocc.cases_parent with ⟨-, -, hu⟩ | ⟨q, r, v, rfl, -, -, -⟩
  · obtain ⟨key, hname, hkey⟩ := (hread.key?_eq u hu).resolve_left fun hk => by
      rcases hroot with hattr | ⟨names, hblock⟩
      · cases hk.symm.trans hattr
      · cases hk.symm.trans hblock
    exact ⟨_, key, he, hparent, hname, hkey⟩
  · cases hparent

theorem RootsNamed.keyed (h : t.RootsNamed) : t.Keyed t.roots.toList := by
  intro id hid
  obtain ⟨e, key, he, hparent, -, hkey⟩ := h id hid
  exact ⟨e, key, he, hparent, hkey⟩

/-- If no block is called `name`, the roots with this key are the attributes that are. -/
theorem RootsNamed.key?_iff (h : t.RootsNamed) (hblocks : t.NoBlock name)
    (hid : id ∈ t.roots.toList) :
    t.key? id = some name ↔
      ∃ e, t.get? id = some e ∧ e.symbol.kind = .attr ∧ e.symbol.name = some name := by
  obtain ⟨e, key, he, -, hname, hkey⟩ := h id hid
  rw [key?, he, Option.bind_some, hkey]
  constructor
  · intro hsome
    refine ⟨e, rfl, ?_, hname.trans hsome⟩
    cases hk : e.symbol.kind with
    | attr => rfl
    | block names =>
      rw [Symbol.key?, hk] at hkey
      exact absurd (hkey.trans hsome) (hblocks _ (mem_rootSymbols.mpr ⟨id, hid, e, he, rfl⟩) names hk)
    | _ => simp [Symbol.key?, hk] at hkey
  · rintro ⟨e', ⟨⟩, -, hsome⟩
    exact hname.symm.trans hsome

theorem RootsNamed.attr_of_mem_rootsAt (h : t.RootsNamed) (hblocks : t.NoBlock name) :
    ∀ id ∈ t.rootsAt name,
      ∃ e, t.get? id = some e ∧ e.symbol.kind = .attr ∧ e.symbol.name = some name := by
  intro id hid
  obtain ⟨hroot, hkey⟩ := List.mem_filter.mp hid
  exact (h.key?_iff hblocks hroot).mp (of_decide_eq_true hkey)

theorem RootsNamed.rootsAt_eq_nil_iff (h : t.RootsNamed) (hblocks : t.NoBlock name) :
    t.rootsAt name = [] ↔ ∀ s ∈ t.rootSymbols, s.kind = .attr → s.name ≠ some name := by
  constructor
  · intro hnil s hs hk hname
    obtain ⟨id, hid, e, he, rfl⟩ := mem_rootSymbols.mp hs
    have hkey := (h.key?_iff hblocks hid).mpr ⟨e, he, hk, hname⟩
    have hmem : id ∈ t.rootsAt name := List.mem_filter.mpr ⟨hid, decide_eq_true hkey⟩
    rw [hnil] at hmem
    cases hmem
  · refine fun hall => List.eq_nil_iff_forall_not_mem.mpr fun id hid => ?_
    obtain ⟨e, he, hk, hname⟩ := h.attr_of_mem_rootsAt hblocks id hid
    have hroot := (List.mem_filter.mp hid).1
    exact hall _ (mem_rootSymbols.mpr ⟨id, hroot, e, he, rfl⟩) hk hname

/-! ## Attributes one after the other -/

/-- An attribute has the same value in every scope. -/
theorem reduceInto_attr {e : Entry} (he : t.get? id = some e) (hk : e.symbol.kind = .attr)
    (hname : e.symbol.name = some name) :
    ∃ value : Except Error Value, ∀ o, t.reduceInto o id = value.map fun v => o.put name v := by
  have hinto (o : Object) := reduceInto_of_node? (node?_of_get? he) o
  generalize (e.children.toList.filterMap _ : List Node) = children at hinto
  cases children with
  | nil => exact ⟨.ok .null, fun o => by simp [hinto, Node.reduce, hk, hname, Except.map]⟩
  | cons child siblings =>
    refine ⟨(child.reduce name []).result.map (·.getD .null), fun o => ?_⟩
    cases hchild : (child.reduce name []).result with
    | ok v => simp [hinto, Node.reduce, hk, hname, hchild, Except.map]
    | error fault => simp [hinto, Node.reduce, hk, hname, hchild, Except.map]

/-- Of attributes that are called the same only the last one counts. -/
theorem lookup_of_attrs
    (hids : ∀ id ∈ ids, ∃ e, t.get? id = some e ∧ e.symbol.kind = .attr ∧ e.symbol.name = some name)
    (h : t.reduceSymbols ids [] = .ok alone) :
    (ids = [] ∧ alone.lookup name = none) ∨
      ∃ before id v, ids = before ++ [id] ∧ alone.lookup name = some v ∧
        ∀ o, t.reduceInto o id = .ok (o.put name v) := by
  rcases ids.eq_nil_or_concat with rfl | ⟨before, id, rfl⟩
  · cases h
    exact .inl ⟨rfl, rfl⟩
  · rw [List.concat_eq_append] at *
    obtain ⟨e, he, hk, hname⟩ := hids id (by simp)
    obtain ⟨value, hvalue⟩ := reduceInto_attr he hk hname
    rw [reduceSymbols_append] at h
    cases hbefore : t.reduceSymbols before [] with
    | error fault =>
      rw [hbefore] at h
      cases h
    | ok middle =>
      have hlast : t.reduceInto middle id = .ok alone := by
        rw [← reduceSymbols_append_singleton hbefore, reduceSymbols_append, h]
      rw [hvalue] at hlast
      cases value with
      | error fault => cases hlast
      | ok v =>
        cases hlast
        exact .inr ⟨before, id, v, rfl, Object.lookup_put_self .., hvalue⟩

theorem exists_lookup_of_reduce {doc : Object} (hroots : t.Keyed t.roots.toList)
    (h : t.reduce = .ok doc) (key : String) :
    ∃ alone, t.reduceSymbols (t.rootsAt key) [] = .ok alone ∧
      doc.lookup key = alone.lookup key := by
  rw [reduce_eq_reduceSymbols hroots] at h
  rcases KeyedBy.nil.run hroots with
    ⟨scope, hscope, hkeyed⟩ | ⟨-, -, -, -, -, fault, -, -, -, -, hfault, -⟩
  · rw [h] at hscope
    cases hscope
    exact hkeyed.exists_lookup key
  · rw [h] at hfault
    cases hfault

end SymbolTree

/-! ## Lists of roots -/

namespace Configuration

variable {t : SymbolTree} {ids : List Nat} {name : String}

theorem sortRoots_eq
    (h : ∀ id ∈ ids, ∃ e key, t.get? id = some e ∧ e.symbol.key? = some key) :
    sortRoots t ids = .ok (ids.filter (! t.isAttribute ·), ids.filter t.isAttribute) := by
  induction ids with
  | nil => rfl
  | cons id ids ih =>
    obtain ⟨e, key, he, hkey⟩ := h id List.mem_cons_self
    have ih := ih fun i hi => h i (List.mem_cons_of_mem id hi)
    cases hk : e.symbol.kind with
    | block | attr =>
      simp [sortRoots, he, hk, ih, SymbolTree.isAttribute, Symbol.isAttribute, Except.map]
    | _ => simp [Symbol.key?, hk] at hkey

theorem ofTree_eq (h : t.RootsNamed) :
    ofTree t = .ok ⟨t, t.roots.toList.filter (! t.isAttribute ·),
      t.roots.toList.filter t.isAttribute⟩ := by
  rw [ofTree, sortRoots_eq]
  · rfl
  · intro id hid
    obtain ⟨e, key, he, -, -, hkey⟩ := h id hid
    exact ⟨e, key, he, hkey⟩

theorem attributeValue_eq (c : Configuration) (name : String) :
    c.attributeValue name = match (c.attributes.filter (c.isNamed name)).getLast? with
      | none => .ok none
      | some id => (c.tree.reduceInto [] id).map (·.lookup name) := by
  rw [attributeValue, ← List.head?_filter, List.filter_reverse, List.head?_reverse]
  cases (c.attributes.filter (c.isNamed name)).getLast? with
  | none => rfl
  | some id =>
    dsimp only [Option.bind_some]
    rw [SymbolTree.reduceInto]
    cases c.tree.reduceSymbol? id [] with
    | none => rfl
    | some r => cases hr : r.result <;> simp [hr, Except.map]

/-- The root attributes that are called `name` are the roots with this key. -/
theorem filter_isNamed (h : t.RootsNamed) (blocks : List Nat) (hblocks : t.NoBlock name) :
    (t.roots.toList.filter t.isAttribute).filter (isNamed ⟨t, blocks, ids⟩ name) =
      t.rootsAt name := by
  rw [List.filter_filter, SymbolTree.rootsAt]
  refine List.filter_congr fun id hid => ?_
  rw [Bool.eq_iff_iff, decide_eq_true_iff, h.key?_iff hblocks hid, isNamed,
    SymbolTree.isAttribute]
  cases t.get? id <;> simp [Symbol.isAttribute, and_comm]

/-- In a document without a block that is called `name` this is the name of attributes only, and the
last of them has the value that the document has there. -/
theorem attributeValue_of_reduce {doc : Object} (h : t.RootsNamed) (hdoc : t.reduce = .ok doc)
    (hblocks : t.NoBlock name) :
    ∃ c, ofTree t = .ok c ∧ c.attributeValue name = .ok (doc.lookup name) ∧
      (doc.lookup name = none ↔ ∀ s ∈ t.rootSymbols, s.kind = .attr → s.name ≠ some name) := by
  obtain ⟨alone, halone, hlookup⟩ := SymbolTree.exists_lookup_of_reduce h.keyed hdoc name
  refine ⟨_, ofTree_eq h, ?_⟩
  rw [attributeValue_eq, filter_isNamed h _ hblocks, hlookup, ← h.rootsAt_eq_nil_iff hblocks]
  rcases SymbolTree.lookup_of_attrs (h.attr_of_mem_rootsAt hblocks) halone with
    ⟨hnil, hnone⟩ | ⟨before, id, v, hlast, hsome, hinto⟩
  · simp [hnil, hnone]
  · simp [hlast, hsome, hinto, Except.map, Object.lookup_put_self]

end Configuration

/-- What the list of the root attributes holds under a name is what the document holds there, if no
block on the first level has it as its identifier. -/
theorem attributeValue_eq_lookup (recovery : Recovery) {source : String} {doc : Object}
    {name : String} (hread : (parseTree source).error = none)
    (hroots : ∀ s ∈ (parseTree source).tree.rootSymbols,
      s.kind = .attr ∨ ∃ names, s.kind = .block names)
    (hdoc : parseDocument recovery source = .ok doc)
    (hblocks : (parseTree source).tree.NoBlock name) :
    ∃ c, parseConfiguration recovery source = .ok c ∧
      c.attributeValue name = .ok (doc.lookup name) ∧
      (doc.lookup name = none ↔ ∀ s ∈ (parseTree source).tree.rootSymbols, s.kind = .attr →
        s.name ≠ some name) := by
  have hparse : parseSymbols recovery source = .ok (parseTree source).tree := by
    rcases parseSymbols_cases recovery source with hok | ⟨fault, hfault, -⟩
    · exact hok
    · rw [hread] at hfault
      cases hfault
  rw [parseDocument, hparse] at hdoc
  rw [parseConfiguration, hparse]
  exact Configuration.attributeValue_of_reduce (SymbolTree.rootsNamed_parseTree hread hroots) hdoc
    hblocks

/-- An attribute that comes twice, with a block between that has one of the same name. -/
theorem attributeValue_eq_lookup_repeated :
    let source := "a = 1\nb { a = 2 }\na = null\nb {}\n"
    ∃ doc c, parseDocument .strict source = .ok doc ∧ parseConfiguration .strict source = .ok c ∧
      c.attributeValue "a" = .ok (doc.lookup "a") ∧ doc.lookup "a" ≠ none := by
  intro source
  have hread : (parseTree source).error = none := by decide +kernel
  have hsymbols : ∀ s ∈ (parseTree source).tree.rootSymbols,
      s.kind = .attr ∨ s.kind = .block ["b"] := by decide +kernel
  have hattr : ∃ s ∈ (parseTree source).tree.rootSymbols, s.kind = .attr ∧ s.name = some "a" := by
    decide +kernel
  have hreduces : (parseDocument .strict source).isOk = true := by decide +kernel
  cases hdoc : parseDocument .strict source with
  | error fault => simp [hdoc, Except.isOk, Except.toBool] at hreduces
  | ok doc =>
    have hroots : ∀ s ∈ (parseTree source).tree.rootSymbols,
        s.kind = .attr ∨ ∃ names, s.kind = .block names :=
      fun s hs => (hsymbols s hs).imp_right fun hk => ⟨_, hk⟩
    have hblocks : (parseTree source).tree.NoBlock "a" := by
      intro s hs names hk
      rcases hsymbols s hs with h | h
      · cases h.symm.trans hk
      · cases h.symm.trans hk
        decide
    obtain ⟨c, hc, hvalue, hnone⟩ := attributeValue_eq_lookup .strict hread hroots hdoc hblocks
    refine ⟨doc, c, rfl, hc, hvalue, fun h => ?_⟩
    obtain ⟨s, hs, hk, hname⟩ := hattr
    exact hnone.mp h s hs hk hname

end Hcl
