import Hcl.Proofs.Builder.WellFormed
import Hcl.Proofs.Reduction.Compose
import Hcl.Proofs.Reduction.Pointer
import Mathlib.Data.List.Basic
import Mathlib.Data.List.Induction

/-!
# Merged blocks

A document of blocks, none of which stands on the way to another: each path of labels leads to the
bodies that were declared with it, and nothing else is in the document. What holds of the scope
after some declarations is carried through the next one.
-/

namespace Hcl

/-- A path of labels with the body declared there. -/
abbrev Declaration := List String × Object

namespace Declaration

/-- The bodies declared with `path`, in order. -/
def bodies (path : List String) (ds : List Declaration) : List Object :=
  (ds.filter (·.1 = path)).map Prod.snd

/-- A single body stands alone, several stand in a list. -/
def listed : List Object → Value
  | [body] => .object body
  | bodies => .array (bodies.map .object)

variable {path q : List String} {ds : List Declaration} {body : Object}

theorem bodies_append_self :
    bodies path (ds ++ [(path, body)]) = bodies path ds ++ [body] := by
  simp [bodies, List.filter_append]

theorem bodies_append_of_ne (h : q ≠ path) : bodies path (ds ++ [(q, body)]) = bodies path ds := by
  simp [bodies, List.filter_append, h]

theorem bodies_ne_nil {d : Declaration} (h : d ∈ ds) : bodies d.1 ds ≠ [] := by
  have hmem : d.2 ∈ bodies d.1 ds :=
    List.mem_map_of_mem (List.mem_filter.mpr ⟨h, by simp⟩)
  exact List.ne_nil_of_mem hmem

theorem bodies_eq_nil (h : ∀ d ∈ ds, d.1 ≠ path) : bodies path ds = [] := by
  have hfilter : ds.filter (·.1 = path) = [] :=
    List.filter_eq_nil_iff.mpr fun d hd => by simpa using h d hd
  rw [bodies, hfilter, List.map_nil]

theorem listed_cases {bs : List Object} (h : bs ≠ []) :
    (∃ o, listed bs = .object o) ∨ ∃ elements, listed bs = .array elements := by
  cases bs with
  | nil => exact absurd rfl h
  | cons b bs =>
    cases bs with
    | nil => exact .inl ⟨b, rfl⟩
    | cons c bs => exact .inr ⟨_, rfl⟩

/-- One more body joins what is listed. -/
theorem joined_listed {bs : List Object} (h : bs ≠ []) (body : Object) :
    Object.joined body (some (listed bs)) = listed (bs ++ [body]) := by
  cases bs with
  | nil => exact absurd rfl h
  | cons b bs =>
    cases bs with
    | nil => rfl
    | cons c bs => simp [listed, Object.joined]

end Declaration

open Declaration

/-! ## The scope after some declarations -/

/-- The bodies of the declarations are at their paths, and what leads there has no other keys. -/
structure Merged (ds : List Declaration) (scope : Object) : Prop where
  declared : ∀ d ∈ ds, (Value.object scope).pointer? d.1 = some (listed (bodies d.1 ds))
  onTheWay : ∀ q, (q = [] ∨ ∃ d ∈ ds, q <+: d.1 ∧ q ≠ d.1) →
    ∃ o, (Value.object scope).pointer? q = some (.object o) ∧
      ∀ k ∈ Object.keys o, ∃ d ∈ ds, q ++ [k] <+: d.1

namespace Merged

variable {ds : List Declaration} {scope : Object} {path : List String}

theorem nil : Merged [] [] where
  declared d hd := nomatch hd
  onTheWay q hq := by
    rcases hq with rfl | ⟨d, hd, -⟩
    · exact ⟨[], rfl, fun k hk => nomatch hk⟩
    · cases hd

/-- A part of a new path that leads towards an earlier one stops short of it. -/
theorem way_of_part (hbelow : ∀ d ∈ ds, d.1 <+: path → d.1 = path) {q : List String}
    (hq : q <+: path) (hne : q ≠ path) (hd : q ≠ [] → ∃ d ∈ ds, q <+: d.1) :
    q = [] ∨ ∃ d ∈ ds, q <+: d.1 ∧ q ≠ d.1 := by
  by_cases hnil : q = []
  · exact .inl hnil
  · obtain ⟨d, hd, hqd⟩ := hd hnil
    refine .inr ⟨d, hd, hqd, fun heq => hne ?_⟩
    exact heq.trans (hbelow d hd (heq ▸ hq))

/-- What is found on the way to a new path is on the way of an earlier one. -/
theorem exists_declared (h : Merged ds scope) (hbelow : ∀ d ∈ ds, d.1 <+: path → d.1 = path)
    {q : List String} (hne : q ≠ []) (hq : q <+: path) {v : Value}
    (hv : (Value.object scope).pointer? q = some v) : ∃ d ∈ ds, q <+: d.1 := by
  induction q using List.reverseRecOn generalizing v with
  | nil => exact absurd rfl hne
  | append_singleton q k ih =>
    rw [Value.pointer?_append] at hv
    obtain ⟨w, hw, hk⟩ := Option.bind_eq_some_iff.mp hv
    have hqpath : q <+: path := (List.prefix_append q [k]).trans hq
    have hshort : q ≠ path := by
      rintro rfl
      exact absurd hq.length_le (by simp)
    obtain ⟨o, ho, hkeys⟩ :=
      h.onTheWay q (way_of_part hbelow hqpath hshort fun hnil => ih hnil hqpath hw)
    rw [hw] at ho
    cases ho
    rw [Value.pointer?_cons, Value.get?_object] at hk
    obtain ⟨u, hu, -⟩ := Option.bind_eq_some_iff.mp hk
    exact hkeys k (Object.mem_keys_of_lookup hu)

/-- A path that is no part of another one and that no other one is part of has no conflict. -/
theorem conflict?_eq_none (h : Merged ds scope) (p : Position)
    (hbelow : ∀ d ∈ ds, d.1 <+: path → d.1 = path) :
    Object.conflict? p path scope = none := by
  refine Object.conflict?_eq_none fun q v hne hq hv => ?_
  obtain ⟨d, hd, hqd⟩ := h.exists_declared hbelow hne hq hv
  by_cases heq : q = d.1
  · have hend : q = path := heq.trans (hbelow d hd (heq ▸ hq))
    rw [heq, h.declared d hd, Option.some.injEq] at hv
    subst hv
    exact (listed_cases (bodies_ne_nil hd)).imp_right fun harray => ⟨hend, harray⟩
  · obtain ⟨o, ho, -⟩ := h.onTheWay q (.inr ⟨d, hd, hqd, heq⟩)
    rw [hv, Option.some.injEq] at ho
    exact .inl ⟨o, ho⟩

/-- The bodies at a new path and at the paths before. -/
theorem pointer?_store (h : Merged ds scope) (body : Object) (hpath : path ≠ [])
    (hbelow : ∀ d ∈ ds, d.1 <+: path → d.1 = path) (habove : ∀ d ∈ ds, path <+: d.1 → d.1 = path)
    {d : Declaration} (hd : d ∈ ds ++ [(path, body)]) :
    (Value.object (Object.store body path scope)).pointer? d.1 =
      some (listed (bodies d.1 (ds ++ [(path, body)]))) := by
  have hfree := h.conflict?_eq_none .start hbelow
  by_cases hd1 : d.1 = path
  · rw [hd1, Object.pointer?_store body hpath hfree, bodies_append_self]
    by_cases hmem : ∃ d' ∈ ds, d'.1 = path
    · obtain ⟨d', hd', rfl⟩ := hmem
      rw [h.declared d' hd', joined_listed (bodies_ne_nil hd')]
    · have hnew : ∀ d' ∈ ds, d'.1 ≠ path := fun d' hd' heq => hmem ⟨d', hd', heq⟩
      have hnone : (Value.object scope).pointer? path = none := by
        refine Option.eq_none_iff_forall_ne_some.mpr fun v hv => ?_
        obtain ⟨d', hd', hprefix⟩ := h.exists_declared hbelow hpath List.prefix_rfl hv
        exact hnew d' hd' (habove d' hd' hprefix)
      rw [hnone, bodies_eq_nil hnew]
      rfl
  · have hmem : d ∈ ds := by
      rcases List.mem_append.mp hd with hd | hd
      · exact hd
      · rw [List.mem_singleton.mp hd] at hd1
        exact absurd rfl hd1
    rw [Object.pointer?_store_of_not_prefix body hfree (fun hp => hd1 (habove d hmem hp))
      (fun hp => hd1 (hbelow d hmem hp)), bodies_append_of_ne (Ne.symm hd1)]
    exact h.declared d hmem

/-- What one more declaration leaves. -/
theorem store (h : Merged ds scope) (body : Object) (hpath : path ≠ [])
    (hbelow : ∀ d ∈ ds, d.1 <+: path → d.1 = path)
    (habove : ∀ d ∈ ds, path <+: d.1 → d.1 = path) :
    Merged (ds ++ [(path, body)]) (Object.store body path scope) where
  declared d hd := h.pointer?_store body hpath hbelow habove hd
  onTheWay q hq := by
    have hfree := h.conflict?_eq_none .start hbelow
    by_cases hqpath : q <+: path
    · have hshort : q ≠ path := by
        rintro rfl
        rcases hq with rfl | ⟨d, hd, hqd, hne⟩
        · exact hpath rfl
        · rcases List.mem_append.mp hd with hd | hd
          · exact hne (habove d hd hqd).symm
          · exact hne (by rw [List.mem_singleton.mp hd])
      obtain ⟨rest, rfl⟩ := hqpath
      cases rest with
      | nil => exact absurd (List.append_nil q).symm hshort
      | cons key rest =>
        obtain ⟨o, ho, hkeys⟩ := Object.pointer?_store_prefix body key rest hfree
        refine ⟨o, ho, fun k hk => ?_⟩
        rcases hkeys k hk with rfl | ⟨before, hbefore, hmem⟩
        · exact ⟨_, List.mem_append_right ds List.mem_cons_self, by simp⟩
        · have hway := way_of_part hbelow (List.prefix_append q _) hshort fun hnil =>
            h.exists_declared hbelow hnil (List.prefix_append q _) hbefore
          obtain ⟨o', ho', hkeys'⟩ := h.onTheWay q hway
          rw [hbefore] at ho'
          cases ho'
          obtain ⟨d, hd, hprefix⟩ := hkeys' k hmem
          exact ⟨d, List.mem_append_left _ hd, hprefix⟩
    · obtain ⟨d, hd, hqd, hne⟩ : ∃ d ∈ ds, q <+: d.1 ∧ q ≠ d.1 := by
        rcases hq with rfl | ⟨d, hd, hqd, hne⟩
        · exact absurd List.nil_prefix hqpath
        · rcases List.mem_append.mp hd with hd | hd
          · exact ⟨d, hd, hqd, hne⟩
          · rw [List.mem_singleton.mp hd] at hqd
            exact absurd hqd hqpath
      have hpathq : ¬path <+: q := by
        intro hp
        have heq := habove d hd (hp.trans hqd)
        rw [heq] at hqd
        exact hqpath hqd
      obtain ⟨o, ho, hkeys⟩ := h.onTheWay q (.inr ⟨d, hd, hqd, hne⟩)
      rw [Object.pointer?_store_of_not_prefix body hfree hpathq hqpath]
      refine ⟨o, ho, fun k hk => ?_⟩
      obtain ⟨d', hd', hprefix⟩ := hkeys k hk
      exact ⟨d', List.mem_append_left _ hd', hprefix⟩

end Merged

/-! ## Documents of blocks -/

namespace Node

/-- The path of labels of a block. -/
def labels (n : Node) : List String :=
  match n.symbol.kind with
  | .block names => names
  | _ => []

/-- A block with its body, reduced on its own. -/
def declaration (n : Node) : Declaration := (n.labels, (reduceAll "" n.children []).scope)

theorem whole_reduce_of_labels {n : Node} {scope : Object} {v : Option Value}
    (hlabels : n.labels ≠ []) (hbody : (reduceAll "" n.children []).result = .ok v)
    (hfree : Object.conflict? n.symbol.position n.labels scope = none) :
    (n.reduce "" scope).whole = .ok (Object.store n.declaration.2 n.labels scope, none) := by
  obtain ⟨id, symbol, children⟩ := n
  cases hk : symbol.kind with
  | block names =>
    have hnames : (mk id symbol children).labels = names := by
      simp only [labels, Node.symbol, hk]
    rw [hnames] at hlabels hfree ⊢
    rw [whole_reduce_block "" children hk hlabels]
    simp only [Node.symbol, Node.children] at hfree hbody
    simp only [hfree, Reduced.whole, hbody, Except.map, declaration, Node.children]
  | _ => simp [labels, Node.symbol, hk] at hlabels

theorem reduceAll_of_whole {owner : String} {n : Node} {ns : List Node} {scope scope' : Object}
    {v : Option Value} (h : (n.reduce owner scope).whole = .ok (scope', v)) :
    reduceAll owner (n :: ns) scope = reduceAll owner ns scope' := by
  rw [Reduced.whole] at h
  rw [reduceAll]
  cases hresult : (n.reduce owner scope).result with
  | error e =>
    rw [hresult] at h
    cases h
  | ok w =>
    rw [hresult] at h
    injection h with h
    injection h with h
    simp only [h]

/-- Blocks are merged one after the other. -/
theorem merged_reduceAll {ns : List Node} {ds : List Declaration} {scope : Object}
    (h : Merged ds scope) (hlabels : ∀ n ∈ ns, n.labels ≠ [])
    (hbodies : ∀ n ∈ ns, ∃ v, (reduceAll "" n.children []).result = .ok v)
    (hpaths : ∀ d ∈ ds ++ ns.map declaration, ∀ d' ∈ ds ++ ns.map declaration,
      d.1 <+: d'.1 → d.1 = d'.1) :
    ∃ scope', (reduceAll "" ns scope).whole = .ok (scope', none) ∧
      Merged (ds ++ ns.map declaration) scope' := by
  induction ns generalizing ds scope with
  | nil => exact ⟨scope, by rw [reduceAll]; rfl, by simpa using h⟩
  | cons n ns ih =>
    have happend : ds ++ (n :: ns).map declaration =
        (ds ++ [n.declaration]) ++ ns.map declaration := by simp
    rw [happend] at hpaths ⊢
    have hself : n.declaration ∈ (ds ++ [n.declaration]) ++ ns.map declaration := by simp
    have hbelow : ∀ d ∈ ds, d.1 <+: n.labels → d.1 = n.labels := fun d hd hp =>
      hpaths d (by simp [hd]) n.declaration hself hp
    have habove : ∀ d ∈ ds, n.labels <+: d.1 → d.1 = n.labels := fun d hd hp =>
      (hpaths n.declaration hself d (by simp [hd]) hp).symm
    have hne := hlabels n List.mem_cons_self
    obtain ⟨v, hv⟩ := hbodies n List.mem_cons_self
    have hfirst := whole_reduce_of_labels hne hv (h.conflict?_eq_none _ hbelow)
    rw [reduceAll_of_whole hfirst]
    exact ih (h.store n.declaration.2 hne hbelow habove)
      (fun m hm => hlabels m (List.mem_cons_of_mem n hm))
      (fun m hm => hbodies m (List.mem_cons_of_mem n hm)) hpaths

end Node

open Hcl.Tree

namespace SymbolTree

/-- The blocks of the document with their bodies, in order. -/
def declarations (t : SymbolTree) : List Declaration := t.nodes.map Node.declaration

theorem reduce_of_whole {t : SymbolTree} {doc : Object} {v : Option Value}
    (h : (Node.reduceAll "" t.nodes []).whole = .ok (doc, v)) : t.reduce = .ok doc := by
  rw [Reduced.whole] at h
  rw [reduce]
  cases hresult : (Node.reduceAll "" t.nodes []).result with
  | error e =>
    rw [hresult] at h
    cases h
  | ok w =>
    rw [hresult] at h
    injection h with h
    injection h with h
    simp only [Except.map, h]

/-- Blocks that stand on the first level of a source have labels. -/
theorem labels_ne_nil {source : String} {n : Node} {names : List String}
    (herror : (parseTree source).error = none) (hn : n ∈ (parseTree source).tree.nodes)
    (hk : n.symbol.kind = .block names) : n.labels ≠ [] := by
  obtain ⟨st, -, hsound, hends⟩ := exists_ends_parseTree source
  obtain ⟨ts, htree, -, hwhole⟩ := hends.exists_forest hsound
  have hts := hwhole herror
  rw [htree, nodes_ofForest] at hn
  obtain ⟨u, hu, hsymbol⟩ : ∃ u ∈ ts, u.symbol = n.symbol := by
    have hmem := List.mem_map_of_mem (f := Node.symbol) hn
    rw [map_symbol_toNodes] at hmem
    exact List.mem_map.mp hmem
  have hnamed := (hts.of_mem hu).2.named
  rw [hsymbol] at hnamed
  rw [Node.labels, hk]
  exact (hnamed names hk).1

/-- In a document of blocks none of which stands on the way to another, the path of a block leads to
its body, or to a list of bodies if it is declared more than once. -/
theorem reduce_blocks (source : String) (herror : (parseTree source).error = none)
    (hblocks : ∀ n ∈ (parseTree source).tree.nodes, ∃ names, n.symbol.kind = .block names)
    (hpaths : ∀ m ∈ (parseTree source).tree.nodes, ∀ n ∈ (parseTree source).tree.nodes,
      m.labels <+: n.labels → m.labels = n.labels)
    (hbodies : ∀ n ∈ (parseTree source).tree.nodes, ∃ v,
      (Node.reduceAll "" n.children []).result = .ok v) :
    ∃ doc, (parseTree source).tree.reduce = .ok doc ∧
      (∀ n ∈ (parseTree source).tree.nodes, (Value.object doc).pointer? n.labels =
        some (listed (bodies n.labels (parseTree source).tree.declarations))) ∧
      ∀ q, (q = [] ∨ ∃ n ∈ (parseTree source).tree.nodes, q <+: n.labels ∧ q ≠ n.labels) →
        ∃ o, (Value.object doc).pointer? q = some (.object o) ∧
          ∀ k ∈ Object.keys o, ∃ n ∈ (parseTree source).tree.nodes, q ++ [k] <+: n.labels := by
  generalize htree : (parseTree source).tree = t at *
  have hlabels : ∀ n ∈ t.nodes, n.labels ≠ [] := by
    intro n hn
    obtain ⟨names, hk⟩ := hblocks n hn
    exact labels_ne_nil herror (htree ▸ hn) hk
  obtain ⟨doc, hdoc, hmerged⟩ := Node.merged_reduceAll .nil hlabels hbodies
    (by simpa [Node.declaration] using hpaths)
  refine ⟨doc, ?_, fun n hn => ?_, fun q hq => ?_⟩
  · exact reduce_of_whole hdoc
  · exact hmerged.declared n.declaration (List.mem_map_of_mem hn)
  · obtain ⟨o, ho, hkeys⟩ := hmerged.onTheWay q (by simpa [Node.declaration] using hq)
    exact ⟨o, ho, by simpa [Node.declaration] using hkeys⟩

theorem reduce_blocks_repeated :
    ∃ doc first second,
      (parseTree "a x { v = 1 }\na y {}\na x {}\n").tree.reduce = .ok doc ∧
      (Value.object doc).pointer? ["a", "x"] = some (.array [.object first, .object second]) := by
  generalize hsource : "a x { v = 1 }\na y {}\na x {}\n" = source
  have herror : (parseTree source).error = none := by
    rw [← hsource]
    decide +kernel
  have hkinds : (parseTree source).tree.nodes.map (·.symbol.kind) =
      [.block ["a", "x"], .block ["a", "y"], .block ["a", "x"]] := by
    rw [← hsource]
    decide +kernel
  have hlabels : (parseTree source).tree.nodes.map Node.labels =
      [["a", "x"], ["a", "y"], ["a", "x"]] := by
    rw [← hsource]
    decide +kernel
  have hresults : ((parseTree source).tree.nodes.map fun n =>
      (Node.reduceAll "" n.children []).result.isOk) = [true, true, true] := by
    rw [← hsource]
    decide +kernel
  have hlength : (bodies ["a", "x"] (parseTree source).tree.declarations).length = 2 := by
    rw [← hsource]
    decide +kernel
  have hblocks : ∀ n ∈ (parseTree source).tree.nodes,
      ∃ names, n.symbol.kind = .block names := by
    intro n hn
    have hkind := List.mem_map_of_mem (f := fun n : Node => n.symbol.kind) hn
    rw [hkinds] at hkind
    simp only [List.mem_cons, List.not_mem_nil, or_false] at hkind
    rcases hkind with hkind | hkind | hkind <;> exact ⟨_, hkind⟩
  have hpaths : ∀ m ∈ (parseTree source).tree.nodes, ∀ n ∈ (parseTree source).tree.nodes,
      m.labels <+: n.labels → m.labels = n.labels := by
    intro m hm n hn
    have hml := hlabels ▸ List.mem_map_of_mem (f := Node.labels) hm
    have hnl := hlabels ▸ List.mem_map_of_mem (f := Node.labels) hn
    have hall : ∀ p ∈ [["a", "x"], ["a", "y"], ["a", "x"]],
        ∀ q ∈ [["a", "x"], ["a", "y"], ["a", "x"]], p <+: q → p = q := by decide
    exact hall _ hml _ hnl
  have hbodies : ∀ n ∈ (parseTree source).tree.nodes, ∃ v,
      (Node.reduceAll "" n.children []).result = .ok v := by
    intro n hn
    have hok := List.mem_map_of_mem
      (f := fun n : Node => (Node.reduceAll "" n.children []).result.isOk) hn
    rw [hresults] at hok
    cases hresult : (Node.reduceAll "" n.children []).result with
    | ok v => exact ⟨v, rfl⟩
    | error e => simp [hresult, Except.isOk, Except.toBool] at hok
  obtain ⟨doc, hdoc, hdeclared, -⟩ := reduce_blocks source herror hblocks hpaths hbodies
  obtain ⟨first, second, hbodies⟩ := List.length_eq_two.mp hlength
  have hmem : ["a", "x"] ∈ (parseTree source).tree.nodes.map Node.labels := by simp [hlabels]
  obtain ⟨n, hn, hlabel⟩ := List.mem_map.mp hmem
  refine ⟨doc, first, second, hdoc, ?_⟩
  rw [← hlabel, hdeclared n hn, hlabel, hbodies]
  rfl

end SymbolTree

end Hcl
