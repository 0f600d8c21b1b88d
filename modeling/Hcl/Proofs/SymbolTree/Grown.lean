import Mathlib.Data.List.Perm.Basic
import Hcl.Proofs.Forest.Each
import Hcl.Proofs.Forest.Nodes
import Hcl.Proofs.Forest.WellFormed

/-!
# Trees that grow in any order

A tree grows by symbols that become roots or the last child of a symbol that is there, whichever it
is. So numbers need not follow the source, but a symbol still has a greater number than the one above
it, and what is below the roots is all there is, each symbol once.
-/

namespace Hcl.SymbolTree

/-- Trees to which symbols were added one by one. -/
inductive Grown : SymbolTree → Prop where
  | empty : Grown empty
  | push {t : SymbolTree} {parent : Option Nat} (symbol : Symbol) : Grown t →
      (∀ p ∈ parent, p < t.size) → Grown (t.push parent symbol)

/-- What numbers say of each other: roots and children know what is above them, and symbols stand
behind what is above them and among its children. -/
structure Linked (t : SymbolTree) : Prop where
  of_root : ∀ id ∈ t.roots, ∃ e, t.get? id = some e ∧ e.parent = none
  of_child : ∀ p, ∀ id ∈ t.children p, ∃ e, t.get? id = some e ∧ e.parent = some p
  of_parent : ∀ id e p, t.get? id = some e → e.parent = some p → p < id ∧ id ∈ t.children p
  attributes_eq : ∀ id e, t.get? id = some e →
    e.attributes.toList =
      if e.symbol.listsAttributes then e.children.toList.filter t.isAttribute else []

/-- The symbol `id` and all below it, by recursion over the children. -/
def below (t : SymbolTree) (id : Nat) : List Nat := ((t.node? id).map Node.preorder).getD [id]

variable {t : SymbolTree} {parent : Option Nat} {symbol : Symbol} {id p : Nat} {e : Entry}

/-! ## Adding a symbol -/

theorem get?_size (t : SymbolTree) : t.get? t.size = none := by
  simp [get?, size]

theorem children_push (h : ∀ p ∈ parent, p < t.size) (symbol : Symbol) (id : Nat) :
    (t.push parent symbol).children id =
      t.children id ++ if parent = some id then [t.size] else [] := by
  rw [children, get?_push, children]
  by_cases hid : id = t.size
  · have hne : parent ≠ some id := fun hp => Nat.ne_of_lt (h id hp) hid
    rw [if_pos hid, if_neg hne, hid, get?_size]
    rfl
  · rw [if_neg hid]
    cases he : t.get? id with
    | none =>
      have hne : parent ≠ some id := by
        intro hp
        have hlt : id < t.entries.size := h id hp
        simp [get?, hlt] at he
      simp [hne]
    | some e =>
      by_cases hp : parent = some id
      · simp [hp, Entry.addChild]
      · simp [hp]

theorem isAttribute_push (parent : Option Nat) (symbol : Symbol) (hid : id ≠ t.size) :
    (t.push parent symbol).isAttribute id = t.isAttribute id := by
  rw [isAttribute, isAttribute, get?_push, if_neg hid]
  cases t.get? id with
  | none => rfl
  | some e =>
    simp only [Option.map_some, Option.any_some]
    split <;> rfl

theorem roots_push (parent : Option Nat) (symbol : Symbol) (t : SymbolTree) :
    (t.push parent symbol).roots.toList =
      t.roots.toList ++ if parent = none then [t.size] else [] := by
  cases parent <;> simp [push]

/-- A symbol that is there keeps its parent and gets at most one more child. -/
theorem exists_of_get?_push (he : (t.push parent symbol).get? id = some e) (hid : id ≠ t.size) :
    ∃ old, t.get? id = some old ∧
      e = if parent = some id then old.addChild t.size symbol else old := by
  rw [get?_push, if_neg hid] at he
  obtain ⟨old, hold, rfl⟩ := Option.map_eq_some_iff.mp he
  exact ⟨old, hold, rfl⟩

theorem exists_get?_push_of_parent {q : Option Nat} (h : ∃ e, t.get? id = some e ∧ e.parent = q) :
    ∃ e, (t.push parent symbol).get? id = some e ∧ e.parent = q := by
  obtain ⟨e, he, rfl⟩ := h
  have hid : id ≠ t.size := Nat.ne_of_lt (lt_size_of_get? he)
  rw [get?_push, if_neg hid, he]
  refine ⟨_, rfl, ?_⟩
  dsimp only
  split <;> rfl

theorem exists_get?_push_size :
    ∃ e, (t.push parent symbol).get? t.size = some e ∧ e.parent = parent := by
  rw [get?_push, if_pos rfl]
  exact ⟨_, rfl, rfl⟩

namespace Linked

theorem empty : Linked empty where
  of_root _ hid := by simp [SymbolTree.empty] at hid
  of_child _ _ hid := by simp [children, get?, SymbolTree.empty] at hid
  of_parent _ _ _ he := by simp [get?, SymbolTree.empty] at he
  attributes_eq _ _ he := by simp [get?, SymbolTree.empty] at he

theorem lt_size (h : t.Linked) {child : Nat} (hchild : child ∈ t.children id) : child < t.size := by
  obtain ⟨e, he, -⟩ := h.of_child id child hchild
  exact lt_size_of_get? he

/-- Numbers grow from parent to child. -/
theorem lt (h : t.Linked) {child : Nat} (hchild : child ∈ t.children id) : id < child := by
  obtain ⟨e, he, hp⟩ := h.of_child id child hchild
  exact (h.of_parent child e id he hp).1

theorem push (h : t.Linked) (hp : ∀ p ∈ parent, p < t.size) (symbol : Symbol) :
    (t.push parent symbol).Linked where
  of_root id hid := by
    rw [← Array.mem_toList_iff, roots_push, List.mem_append] at hid
    rcases hid with hid | hid
    · exact exists_get?_push_of_parent (h.of_root id (Array.mem_toList_iff.mp hid))
    · split at hid
      · rename_i hnone
        obtain rfl := List.mem_singleton.mp hid
        exact hnone ▸ exists_get?_push_size
      · cases hid
  of_child q id hid := by
    rw [children_push hp, List.mem_append] at hid
    rcases hid with hid | hid
    · exact exists_get?_push_of_parent (h.of_child q id hid)
    · split at hid
      · rename_i hsome
        obtain rfl := List.mem_singleton.mp hid
        exact hsome ▸ exists_get?_push_size
      · cases hid
  of_parent id e q he hq := by
    rw [children_push hp]
    by_cases hid : id = t.size
    · rw [get?_push, if_pos hid] at he
      cases he
      obtain rfl : parent = some q := hq
      exact ⟨hid ▸ hp q rfl, by simp [hid]⟩
    · obtain ⟨old, hold, rfl⟩ := exists_of_get?_push he hid
      have hparent : old.parent = some q := by
        rw [← hq]
        split <;> rfl
      obtain ⟨hlt, hmem⟩ := h.of_parent id old q hold hparent
      exact ⟨hlt, List.mem_append_left _ hmem⟩
  attributes_eq id e he := by
    have hisAttribute : (t.push parent symbol).isAttribute t.size = symbol.isAttribute := by
      rw [isAttribute, get?_push, if_pos rfl]
      rfl
    by_cases hid : id = t.size
    · rw [get?_push, if_pos hid] at he
      cases he
      exact (ite_self _).symm
    · obtain ⟨old, hold, rfl⟩ := exists_of_get?_push he hid
      have hsame : old.children.toList.filter (t.push parent symbol).isAttribute =
          old.children.toList.filter t.isAttribute := by
        refine List.filter_congr fun child hchild => isAttribute_push _ _ (Nat.ne_of_lt ?_)
        have hmem : child ∈ t.children id := by simpa [children, hold] using hchild
        exact h.lt_size hmem
      have hattributes := h.attributes_eq id old hold
      split
      · simp only [Entry.addChild, Array.toList_push, List.filter_append, hsame]
        cases hlists : old.symbol.listsAttributes <;> cases hnew : symbol.isAttribute <;>
          simp [hattributes, hlists, hisAttribute, hnew]
      · rw [hsame, hattributes]

end Linked

theorem Grown.linked (h : t.Grown) : t.Linked := by
  induction h with
  | empty => exact .empty
  | push symbol _ hp ih => exact ih.push hp symbol

/-! ## The recursion -/

namespace Linked

theorem preorderAll_filterMap (f : Nat → Option Node) (ids : List Nat)
    (h : ∀ id ∈ ids, ∃ n, f id = some n ∧ t.node? id = some n) :
    Node.preorderAll (ids.filterMap f) = ids.flatMap t.below := by
  induction ids with
  | nil => rfl
  | cons id ids ih =>
    obtain ⟨n, hf, hn⟩ := h id List.mem_cons_self
    rw [List.filterMap_cons_some hf, Node.preorderAll,
      ih fun i hi => h i (List.mem_cons_of_mem id hi), List.flatMap_cons, below, hn]
    rfl

theorem below_eq (h : t.Linked) (id : Nat) : t.below id = id :: (t.children id).flatMap t.below := by
  cases he : t.get? id with
  | none => simp [below, node?_of_get?_none he, children, he]
  | some e =>
    have hchildren : t.children id = e.children.toList := by rw [children, he]
    rw [below, node?_of_get? he, Option.map_some, Option.getD_some, Node.preorder, hchildren,
      preorderAll_filterMap]
    intro child hchild
    rw [← hchildren] at hchild
    obtain ⟨e', he', -⟩ := h.of_child id child hchild
    rw [if_pos (h.lt hchild)]
    exact ⟨_, node?_of_get? he', node?_of_get? he'⟩

/-- What holds of a symbol if it holds of its children holds of all. -/
theorem induction (h : t.Linked) {P : Nat → Prop}
    (hP : ∀ id, (∀ child ∈ t.children id, P child) → P id) (id : Nat) : P id := by
  refine hP id fun child hchild => ?_
  have hlt := h.lt hchild
  have hsize := h.lt_size hchild
  exact h.induction hP child
termination_by t.size - id

end Linked

/-! ## Every symbol once -/

/-- A new symbol is once more behind each occurrence of its parent. -/
def follow (parent : Option Nat) (id new : Nat) : List Nat :=
  id :: if parent = some id then [new] else []

theorem flatMap_follow (new : Nat) {ids : List Nat} (h : ∀ id ∈ ids, parent ≠ some id) :
    ids.flatMap (follow parent · new) = ids := by
  induction ids with
  | nil => rfl
  | cons id ids ih =>
    rw [List.flatMap_cons, ih fun i hi => h i (List.mem_cons_of_mem id hi), follow,
      if_neg (h id List.mem_cons_self), List.singleton_append]

theorem perm_follow (new : Nat) {ids : List Nat} (hids : ids.Nodup) (hp : p ∈ ids) :
    (ids.flatMap (follow (some p) · new)).Perm (new :: ids) := by
  induction ids with
  | nil => cases hp
  | cons id ids ih =>
    obtain ⟨hid, hids⟩ := List.nodup_cons.mp hids
    rw [List.flatMap_cons, follow]
    by_cases heq : id = p
    · subst heq
      have hnot : ∀ i ∈ ids, some id ≠ some i := fun i hi hs => hid (Option.some.inj hs ▸ hi)
      rw [if_pos rfl, flatMap_follow new hnot]
      exact .swap new id ids
    · have hmem : p ∈ ids := (List.mem_cons.mp hp).resolve_left (Ne.symm heq)
      rw [if_neg fun hs => heq (Option.some.inj hs).symm]
      exact ((ih hids hmem).cons id).trans (.swap new id ids)

/-- Nothing is below a new symbol. -/
theorem below_push_size (h : t.Linked) (hp : ∀ p ∈ parent, p < t.size) (symbol : Symbol) :
    (t.push parent symbol).below t.size = [t.size] := by
  have hsize : t.children t.size = [] := by rw [children, get?_size]
  have hne : parent ≠ some t.size := fun hs => Nat.lt_irrefl _ (hp t.size hs)
  rw [(h.push hp symbol).below_eq, children_push hp, hsize, if_neg hne]
  rfl

theorem below_push (h : t.Linked) (hp : ∀ p ∈ parent, p < t.size) (symbol : Symbol) (id : Nat)
    (hid : id < t.size) :
    ((t.push parent symbol).below id).Perm
      ((t.below id).flatMap (follow parent · t.size)) := by
  induction id using h.induction with
  | hP id ih =>
    have hbelow : ((t.children id).flatMap (t.push parent symbol).below).Perm
        (((t.children id).flatMap t.below).flatMap (follow parent · t.size)) := by
      rw [List.flatMap_assoc]
      exact List.Perm.flatMap_left _ fun child hchild => ih child hchild (h.lt_size hchild)
    rw [(h.push hp symbol).below_eq, h.below_eq, children_push hp, List.flatMap_append,
      List.flatMap_cons, follow, List.cons_append]
    refine .cons id ((List.perm_append_comm).trans (.append ?_ hbelow))
    split
    · rw [List.flatMap_singleton, below_push_size h hp]
    · rfl

/-- Below the roots every symbol stands once. -/
theorem Grown.perm_below (h : t.Grown) :
    (t.roots.toList.flatMap t.below).Perm (List.range t.size) := by
  induction h with
  | empty => rfl
  | @push t parent symbol h hp ih =>
    have hl := h.linked
    have hold : (t.roots.toList.flatMap (t.push parent symbol).below).Perm
        ((List.range t.size).flatMap (follow parent · t.size)) := by
      refine (List.Perm.flatMap_left _ fun id hid => ?_).trans
        (List.flatMap_assoc ▸ ih.flatMap_right _)
      obtain ⟨e, he, -⟩ := hl.of_root id (Array.mem_toList_iff.mp hid)
      exact below_push hl hp symbol id (lt_size_of_get? he)
    rw [roots_push, List.flatMap_append, size_push, List.range_succ]
    cases parent with
    | none =>
      rw [flatMap_follow _ (by simp)] at hold
      rw [if_pos rfl, List.flatMap_singleton, below_push_size hl hp]
      exact hold.append_right _
    | some p =>
      have hmem : p ∈ List.range t.size := List.mem_range.mpr (hp p rfl)
      rw [if_neg (by simp), List.flatMap_nil, List.append_nil]
      exact (hold.trans (perm_follow _ List.nodup_range hmem)).trans
        (List.perm_append_singleton _ _).symm

end Hcl.SymbolTree
