import Hcl.Proofs.Forest.Entries
import Hcl.Proofs.Forest.Sound

/-!
# Well-formed symbol trees

What holds of the entries of a symbol tree whatever source it was built from, also when the
building stopped on the way: the trees of such a forest are sound but for the last one, and the
same is true below the last one.
-/

namespace Hcl

open Hcl.Tree

/-! ## Partial trees -/

namespace Tree

mutual
/-- A tree whose last branch may still be without what belongs below it. -/
def Partial : Tree → Prop
  | node symbol children =>
    symbol.Named ∧ (symbol.kind = .attr → children.length ≤ 1) ∧
      PartialAll symbol.kind.admits children

def PartialAll (admitted : SymbolKind → Bool) : List Tree → Prop
  | [] => True
  | [t] => admitted t.symbol.kind = true ∧ t.Partial
  | t :: u :: ts => admitted t.symbol.kind = true ∧ t.Sound ∧ PartialAll admitted (u :: ts)
end

theorem partial_node {s : Symbol} {ts : List Tree} :
    (node s ts).Partial ↔
      s.Named ∧ (s.kind = .attr → ts.length ≤ 1) ∧ PartialAll s.kind.admits ts := by
  rw [Partial]

variable {admitted : SymbolKind → Bool}

mutual
theorem Sound.toPartial : {t : Tree} → t.Sound → t.Partial
  | node _ _, h => by
    obtain ⟨hn, hlength, hts⟩ := sound_node.mp h
    exact partial_node.mpr ⟨hn, fun hk => Nat.le_of_eq (hlength hk), SoundAll.toPartial hts⟩

theorem SoundAll.toPartial {admitted : SymbolKind → Bool} :
    {ts : List Tree} → SoundAll admitted ts → PartialAll admitted ts
  | [], _ => by
    rw [PartialAll]
    trivial
  | [_], h => by
    rw [PartialAll]
    exact ⟨h.1, h.2.1.toPartial⟩
  | t :: u :: ts, h => by
    rw [PartialAll]
    exact ⟨h.1, h.2.1, SoundAll.toPartial h.2.2⟩
end

theorem partialAll_append_singleton {ts : List Tree} {t : Tree} (hts : SoundAll admitted ts)
    (ha : admitted t.symbol.kind = true) (ht : t.Partial) : PartialAll admitted (ts ++ [t]) := by
  induction ts with
  | nil =>
    rw [List.nil_append, PartialAll]
    exact ⟨ha, ht⟩
  | cons u us ih =>
    obtain ⟨hk, hu, hus⟩ := hts
    cases us with
    | nil =>
      rw [List.singleton_append, PartialAll]
      exact ⟨hk, hu, ih trivial⟩
    | cons v vs =>
      rw [List.cons_append, List.cons_append, PartialAll]
      exact ⟨hk, hu, ih hus⟩

theorem PartialAll.cons {t : Tree} {ts : List Tree} (h : PartialAll admitted (t :: ts)) :
    admitted t.symbol.kind = true ∧ t.Partial ∧ PartialAll admitted ts ∧ (ts ≠ [] → t.Sound) := by
  cases ts with
  | nil =>
    rw [PartialAll] at h
    refine ⟨h.1, h.2, ?_, fun hne => absurd rfl hne⟩
    rw [PartialAll]
    trivial
  | cons u us =>
    rw [PartialAll] at h
    exact ⟨h.1, h.2.1.toPartial, h.2.2, fun _ => h.2.1⟩

theorem PartialAll.of_mem {ts : List Tree} (h : PartialAll admitted ts) {t : Tree} (ht : t ∈ ts) :
    admitted t.symbol.kind = true := by
  induction ts with
  | nil => cases ht
  | cons u us ih =>
    obtain ⟨hk, -, hus, -⟩ := h.cons
    rcases List.mem_cons.mp ht with rfl | hmem
    · exact hk
    · exact ih hus hmem

/-! ## Trees that occur in a forest -/

variable {n id : Nat} {parent p : Option Nat} {ts : List Tree} {u : Tree}

theorem Occurs.sound (h : Occurs n parent ts id p u) (hts : SoundAll admitted ts) : u.Sound := by
  induction h generalizing admitted with
  | head => exact hts.2.1
  | tail _ ih => exact ih hts.2.2
  | inside _ ih => exact ih (sound_node.mp hts.2.1).2.2

/-- Of a partial forest, a tree that is not sound stands at the end. -/
theorem Occurs.toPartial (h : Occurs n parent ts id p u) (hts : PartialAll admitted ts) :
    u.Partial ∧ (u.Sound ∨ id + u.size = n + sizeAll ts) := by
  induction h generalizing admitted with
  | @head n parent t ts =>
    obtain ⟨-, ht, -, hsound⟩ := hts.cons
    refine ⟨ht, ?_⟩
    cases ts with
    | nil => exact .inr rfl
    | cons v vs => exact .inl (hsound (List.cons_ne_nil v vs))
  | tail h ih =>
    obtain ⟨hu, hsize⟩ := ih hts.cons.2.2.1
    refine ⟨hu, hsize.imp_right fun hsize => ?_⟩
    rw [hsize, sizeAll_cons, Nat.add_assoc]
  | @inside n id parent p s u cs ts h ih =>
    obtain ⟨-, ht, -, hsound⟩ := hts.cons
    obtain ⟨hu, hsize⟩ := ih (partial_node.mp ht).2.2
    refine ⟨hu, ?_⟩
    cases ts with
    | nil =>
      refine hsize.imp_right fun hsize => ?_
      rw [hsize, sizeAll_cons, size_node, sizeAll_nil]
      omega
    | cons v vs =>
      have hs := hsound (List.cons_ne_nil v vs)
      exact .inl (h.sound (sound_node.mp hs).2.2)

/-- Which of the numbers on a level are those of attributes. -/
theorem attrNumbers_eq_filter (parent : Option Nat) {f : Nat → Bool}
    (hf : ∀ id p u, Occurs n parent ts id p u → f id = u.symbol.isAttribute) :
    attrNumbers n ts = (numbers n ts).filter f := by
  induction ts generalizing n with
  | nil => rfl
  | cons t ts ih =>
    have hrest := ih fun id p u hocc => hf id p u (.tail hocc)
    rw [attrNumbers, numbers_cons, List.filter_cons, hf n parent t .head, hrest]

end Tree

/-! ## Well-formed trees -/

namespace SymbolTree

def isAttribute (t : SymbolTree) (id : Nat) : Bool := (t.get? id).any (·.symbol.isAttribute)

structure WellFormed (t : SymbolTree) : Prop where
  /-- the numbers are those of a walk -/
  walk_eq : t.walk = List.range t.size
  /-- a walk is not ended by its bound -/
  ended : ∀ fuel, t.size ≤ fuel → t.visit fuel t.roots.toList = t.walk
  sorted_roots : t.roots.toList.Pairwise (· < ·)
  sorted_children : ∀ id, (t.children id).Pairwise (· < ·)
  parent_lt : ∀ id e p, t.get? id = some e → e.parent = some p → p < id
  mem_children_iff : ∀ id p, id ∈ t.children p ↔ ∃ e, t.get? id = some e ∧ e.parent = some p
  mem_roots_iff : ∀ id, id ∈ t.roots ↔ ∃ e, t.get? id = some e ∧ e.parent = none
  isItem_of_root : ∀ id e, t.get? id = some e → e.parent = none → e.symbol.kind.isItem = true
  admits_of_parent : ∀ id e p above, t.get? id = some e → e.parent = some p →
    t.get? p = some above → above.symbol.kind.admits e.symbol.kind = true
  /-- nothing is below a symbol that admits nothing -/
  children_of_leaf : ∀ id e, t.get? id = some e →
    (∀ kind, e.symbol.kind.admits kind = false) → e.children = #[]
  attributes_eq : ∀ id e, t.get? id = some e →
    e.attributes.toList =
      if e.symbol.listsAttributes then e.children.toList.filter t.isAttribute else []
  named : ∀ id e, t.get? id = some e → e.symbol.Named
  size_children_attr_le : ∀ id e, t.get? id = some e → e.symbol.kind = .attr → e.children.size ≤ 1

variable {ts : List Tree} {id : Nat} {p : Option Nat} {u : Tree}

theorem mem_children_ofForest {q : Nat} :
    id ∈ (ofForest ts).children q ↔ ∃ e, (ofForest ts).get? id = some e ∧ e.parent = some q := by
  constructor
  · intro h
    cases hq : (ofForest ts).get? q with
    | none => simp [children, hq] at h
    | some e =>
      obtain ⟨r, v, hv, -⟩ := exists_occurs_of_get? hq
      rw [children_of_occurs hv] at h
      obtain ⟨u, -, hu⟩ := Occurs.of_mem_numbers (some q) h
      exact ⟨_, get?_of_occurs (hv.trans hu), rfl⟩
  · rintro ⟨e, he, hp⟩
    obtain ⟨p, u, hu, rfl⟩ := exists_occurs_of_get? he
    rcases hu.cases_parent with ⟨rfl, -, -⟩ | ⟨q', r, v, rfl, hv, hid, -⟩
    · cases hp
    · cases hp
      rw [children_of_occurs hv]
      exact hid

theorem mem_roots_ofForest :
    id ∈ (ofForest ts).roots ↔ ∃ e, (ofForest ts).get? id = some e ∧ e.parent = none := by
  have hroots : id ∈ (ofForest ts).roots ↔ id ∈ numbers 0 ts := by simp [ofForest]
  rw [hroots]
  constructor
  · intro h
    obtain ⟨u, -, hu⟩ := Occurs.of_mem_numbers none h
    exact ⟨_, get?_of_occurs hu, rfl⟩
  · rintro ⟨e, he, hp⟩
    obtain ⟨p, u, hu, rfl⟩ := exists_occurs_of_get? he
    rcases hu.cases_parent with ⟨-, hid, -⟩ | ⟨q, r, v, rfl, -, -, -⟩
    · exact hid
    · cases hp

theorem isAttribute_of_occurs (h : Occurs 0 none ts id p u) :
    (ofForest ts).isAttribute id = u.symbol.isAttribute := by
  rw [isAttribute, get?_of_occurs h]
  rfl

theorem length_numbers (n : Nat) (ts : List Tree) : (numbers n ts).length = ts.length := by
  induction ts generalizing n with
  | nil => rfl
  | cons t ts ih => rw [numbers_cons, List.length_cons, List.length_cons, ih]

theorem wellFormed_ofForest (h : PartialAll SymbolKind.isItem ts) : (ofForest ts).WellFormed where
  walk_eq := by rw [walk_ofForest, size_ofForest]
  ended fuel hfuel := by
    rw [size_ofForest] at hfuel
    rw [walk_ofForest, visit_ofForest ts hfuel]
  sorted_roots := pairwise_numbers 0 ts
  sorted_children id := by
    cases he : (ofForest ts).get? id with
    | none => simp [children, he]
    | some e =>
      obtain ⟨p, u, hu, -⟩ := exists_occurs_of_get? he
      rw [children_of_occurs hu]
      exact pairwise_numbers (id + 1) u.children
  parent_lt id e q he hp := by
    obtain ⟨p, u, hu, rfl⟩ := exists_occurs_of_get? he
    obtain rfl : p = some q := hp
    exact lt_of_occurs hu
  mem_children_iff _ _ := mem_children_ofForest
  mem_roots_iff _ := mem_roots_ofForest
  isItem_of_root id e he hp := by
    obtain ⟨p, u, hu, rfl⟩ := exists_occurs_of_get? he
    rcases hu.cases_parent with ⟨-, -, hmem⟩ | ⟨q, r, v, rfl, -, -, -⟩
    · exact h.of_mem hmem
    · cases hp
  admits_of_parent id e q above he hp habove := by
    obtain ⟨r, ⟨s, cs⟩, u, hv, hmem, habove, hu⟩ := exists_occurs_of_parent he hp habove
    rw [habove, hu]
    exact (partial_node.mp (hv.toPartial h).1).2.2.of_mem hmem
  children_of_leaf id e he hleaf := by
    obtain ⟨p, ⟨s, cs⟩, hu, rfl⟩ := exists_occurs_of_get? he
    cases cs with
    | nil => rfl
    | cons c cs =>
      have hc := (partial_node.mp (hu.toPartial h).1).2.2.of_mem List.mem_cons_self
      exact absurd hc (by simpa [entry] using hleaf c.symbol.kind)
  attributes_eq id e he := by
    obtain ⟨p, u, hu, rfl⟩ := exists_occurs_of_get? he
    have hnumbers := attrNumbers_eq_filter (some id) fun i q v hv =>
      isAttribute_of_occurs (hu.trans hv)
    simp only [entry, hnumbers]
  named id e he := by
    obtain ⟨p, ⟨s, cs⟩, hu, rfl⟩ := exists_occurs_of_get? he
    exact (partial_node.mp (hu.toPartial h).1).1
  size_children_attr_le id e he hk := by
    obtain ⟨p, ⟨s, cs⟩, hu, rfl⟩ := exists_occurs_of_get? he
    have hlength := (partial_node.mp (hu.toPartial h).1).2.1 hk
    simpa [entry, length_numbers] using hlength

/-- In a sound forest every attribute has its value. -/
theorem size_children_attr_of_soundAll (h : SoundAll SymbolKind.isItem ts) {e : Entry}
    (he : (ofForest ts).get? id = some e) (hk : e.symbol.kind = .attr) : e.children.size = 1 := by
  obtain ⟨p, ⟨s, cs⟩, hu, rfl⟩ := exists_occurs_of_get? he
  have hlength := (sound_node.mp (hu.sound h)).2.1 hk
  simpa [entry, length_numbers] using hlength

/-- In a partial forest an attribute without a value is the last symbol. -/
theorem last_of_attr_without_child (h : PartialAll SymbolKind.isItem ts) {e : Entry}
    (he : (ofForest ts).get? id = some e) (hk : e.symbol.kind = .attr) (hc : e.children = #[]) :
    id + 1 = (ofForest ts).size := by
  obtain ⟨p, ⟨s, cs⟩, hu, rfl⟩ := exists_occurs_of_get? he
  have hcs : cs = [] := by
    have hlength := congrArg Array.size hc
    simpa [entry, length_numbers] using hlength
  rcases (hu.toPartial h).2 with hsound | hsize
  · have hlength := (sound_node.mp hsound).2.1 hk
    simp [hcs] at hlength
  · simpa [hcs] using hsize

end SymbolTree

/-! ## Spines -/

namespace Spine

theorem Sound.partialAll_forestWith {sp : Spine} (h : sp.Sound false) {t : Tree}
    (ha : sp.admits t.symbol.kind = true) (ht : t.Partial) :
    PartialAll SymbolKind.isItem (sp.forestWith [t]) := by
  induction sp generalizing t with
  | root ts => exact partialAll_append_singleton h ha ht
  | under outer s ts ih =>
    obtain ⟨ho, hs, hn, hts, hh⟩ := h
    refine ih ho hs (partial_node.mpr ⟨hn, fun hk => ?_, partialAll_append_singleton hts ha ht⟩)
    have hlength : ts.length = 0 := by simpa [hk, Holds] using hh
    simp [hlength]

/-- A sound spine is a partial forest. -/
theorem Sound.partialAll_forest {sp : Spine} {c : Bool} (h : sp.Sound c) :
    PartialAll SymbolKind.isItem sp.forest := by
  cases sp with
  | root ts => simpa [forest, forestWith] using SoundAll.toPartial h
  | under outer s ts =>
    obtain ⟨ho, hs, hn, hts, hh⟩ := h
    rw [forest_under, forest_append]
    refine ho.partialAll_forestWith hs (partial_node.mpr ⟨hn, fun hk => ?_, hts.toPartial⟩)
    have hlength : ts.length = c.toNat := by simpa [hk, Holds] using hh
    exact hlength ▸ Bool.toNat_le c

end Spine

end Hcl
