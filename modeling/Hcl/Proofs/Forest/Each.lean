import Hcl.Proofs.Forest.Entries
import Hcl.Proofs.Forest.Kinds

/-!
# Symbols and what is above them

The symbols above an entry are its ancestors. In a tree that grows at the end of its last branch,
those of the symbol that is added next are the open symbols. What holds of every symbol at its depth
is said of trees and spines here, and holds of the entries then.
-/

namespace Hcl

namespace Tree

variable {P : Nat → Symbol → Prop} {d : Nat} {s : Symbol} {t : Tree} {ts as bs : List Tree}

mutual
/-- `P` holds of every symbol of the tree with the number of symbols above it; `d` of them are above
the tree. -/
def Each (P : Nat → Symbol → Prop) (d : Nat) : Tree → Prop
  | node symbol children => P d symbol ∧ EachOf P (d + 1) children

def EachOf (P : Nat → Symbol → Prop) (d : Nat) : List Tree → Prop
  | [] => True
  | t :: ts => t.Each P d ∧ EachOf P d ts
end

theorem each_node : (node s ts).Each P d ↔ P d s ∧ EachOf P (d + 1) ts := by
  rw [Each]

@[simp] theorem eachOf_nil : EachOf P d [] := trivial

theorem eachOf_append : EachOf P d (as ++ bs) ↔ EachOf P d as ∧ EachOf P d bs := by
  induction as with
  | nil => simp
  | cons t ts ih => simp only [List.cons_append, EachOf, ih, and_assoc]

theorem eachOf_singleton : EachOf P d [t] ↔ t.Each P d := by
  simp [EachOf]

theorem eachOf_leaf : EachOf P d [leaf s] ↔ P d s := by
  rw [eachOf_singleton, leaf, each_node, and_iff_left eachOf_nil]

theorem Each.symbol (h : t.Each P d) : P d t.symbol := by
  obtain ⟨s, ts⟩ := t
  exact (each_node.mp h).1

theorem Each.children (h : t.Each P d) : EachOf P (d + 1) t.children := by
  obtain ⟨s, ts⟩ := t
  exact (each_node.mp h).2

theorem EachOf.of_mem (h : EachOf P d ts) (ht : t ∈ ts) : t.Each P d := by
  induction ts with
  | nil => cases ht
  | cons u us ih =>
    rcases List.mem_cons.mp ht with rfl | hmem
    · exact h.1
    · exact ih h.2 hmem

end Tree

open Hcl.Tree

/-! ## Ancestors of entries -/

namespace SymbolTree

variable {t : SymbolTree} {id q : Nat} {e : Entry}

theorem ancestors_of_root (he : t.get? id = some e) (hp : e.parent = none) :
    t.ancestors id = [] := by
  rw [ancestors, he, Option.bind_some, hp]

theorem ancestors_of_parent (he : t.get? id = some e) (hp : e.parent = some q) (hlt : q < id) :
    t.ancestors id = q :: t.ancestors q := by
  rw [ancestors, he, Option.bind_some, hp]
  exact if_pos hlt

theorem ancestors_of_get?_none (h : t.get? id = none) : t.ancestors id = [] := by
  rw [ancestors, h]
  rfl

theorem attributeAbove_of_root (he : t.get? id = some e) (hroot : e.parent = none) :
    t.attributeAbove id = "" := by
  rw [attributeAbove, ancestors_of_root he hroot]
  rfl

theorem attributeAbove_of_parent {above : Entry} (he : t.get? id = some e)
    (hp : e.parent = some q) (hlt : q < id) (habove : t.get? q = some above) :
    t.attributeAbove id =
      if above.symbol.isAttribute then above.symbol.name.getD "" else t.attributeAbove q := by
  rw [attributeAbove, ancestors_of_parent he hp hlt, List.filterMap_cons, habove, attributeAbove]
  dsimp only
  rw [List.find?_cons]
  cases above.symbol.isAttribute <;> rfl

variable {P : Nat → Symbol → Prop} {ts : List Tree} {p : Option Nat} {u : Tree}

/-- What holds of every symbol of a forest at its depth holds of every tree in it. -/
theorem each_of_occurs (h : EachOf P 0 ts) (hu : Occurs 0 none ts id p u) :
    u.Each P ((ofForest ts).ancestors id).length := by
  induction id using Nat.strongRecOn generalizing p u with
  | ind id ih =>
    have he := get?_of_occurs hu
    rcases hu.cases_parent with ⟨rfl, -, hmem⟩ | ⟨q, r, v, rfl, hv, -, hmem⟩
    · rw [ancestors_of_root he rfl]
      exact h.of_mem hmem
    · have hlt := lt_of_occurs hu
      rw [ancestors_of_parent he rfl hlt, List.length_cons]
      exact (ih q hlt hv).children.of_mem hmem

theorem each_of_get? (h : EachOf P 0 ts) (he : (ofForest ts).get? id = some e) :
    P ((ofForest ts).ancestors id).length e.symbol := by
  obtain ⟨p, u, hu, rfl⟩ := exists_occurs_of_get? he
  exact (each_of_occurs h hu).symbol

end SymbolTree

/-! ## Open symbols -/

namespace Spine

variable {P : Nat → Symbol → Prop} {sp outer : Spine} {s : Symbol} {ts more : List Tree}

/-- The numbers of the open symbols, innermost first. -/
def openIds : Spine → List Nat
  | root _ => []
  | under outer _ _ => outer.size :: outer.openIds

@[simp] theorem length_openIds (sp : Spine) : sp.openIds.length = sp.depth := by
  induction sp with
  | root ts => rfl
  | under outer s ts ih => rw [openIds, List.length_cons, ih, depth]

/-- A tree that is added on the innermost level has the open symbols above it. -/
theorem ancestors_last (sp : Spine) (t : Tree) :
    (sp.append [t]).tree.ancestors sp.size = sp.openIds := by
  have he := getElem?_last sp t
  induction sp generalizing t with
  | root ts => exact SymbolTree.ancestors_of_root he rfl
  | under outer s ts ih =>
    have hlt : outer.size < (under outer s ts).size := by
      rw [size]
      omega
    have houter : ((under outer s ts).append [t]).tree = (outer.append [node s (ts ++ [t])]).tree :=
      tree_under outer s (ts ++ [t])
    have hih := ih (node s (ts ++ [t])) (getElem?_last outer _)
    rw [SymbolTree.ancestors_of_parent he rfl hlt, houter, hih, openIds]

theorem ancestors_innermost (outer : Spine) (s : Symbol) (ts : List Tree) :
    (under outer s ts).tree.ancestors outer.size = outer.openIds := by
  rw [tree_under]
  exact ancestors_last outer _

/-! ## Symbols of spines -/

/-- `P` holds of every symbol at its depth. -/
def Each (P : Nat → Symbol → Prop) : Spine → Prop
  | root trees => EachOf P 0 trees
  | under outer symbol trees =>
    outer.Each P ∧ P outer.depth symbol ∧ EachOf P (outer.depth + 1) trees

theorem Each.append (h : sp.Each P) (hmore : EachOf P sp.depth more) : (sp.append more).Each P := by
  cases sp with
  | root ts => exact eachOf_append.mpr ⟨h, hmore⟩
  | under outer s ts => exact ⟨h.1, h.2.1, eachOf_append.mpr ⟨h.2.2, hmore⟩⟩

theorem Each.opened (h : sp.Each P) (hs : P sp.depth s) : (sp.under s []).Each P :=
  ⟨h, hs, eachOf_nil⟩

theorem Each.closed (h : (outer.under s ts).Each P) {s' : Symbol} (hs : P outer.depth s') :
    (outer.append [node s' ts]).Each P :=
  h.1.append (eachOf_singleton.mpr (each_node.mpr ⟨hs, h.2.2⟩))

theorem Each.last {t : Tree} (h : (outer.under s (ts ++ [t])).Each P) :
    P (outer.depth + 1) t.symbol :=
  (eachOf_singleton.mp (eachOf_append.mp h.2.2).2).symbol

theorem Each.replaceLast {t : Tree} {symbol : Symbol} (h : (outer.under s (ts ++ [t])).Each P)
    (hs : P (outer.depth + 1) symbol) : (outer.under s (ts ++ [leaf symbol])).Each P :=
  ⟨h.1, h.2.1, eachOf_append.mpr ⟨(eachOf_append.mp h.2.2).1, eachOf_leaf.mpr hs⟩⟩

theorem Each.forestWith (h : sp.Each P) (hmore : EachOf P sp.depth more) :
    EachOf P 0 (sp.forestWith more) := by
  induction sp generalizing more with
  | root ts => exact eachOf_append.mpr ⟨h, hmore⟩
  | under outer s ts ih =>
    exact ih h.1 (eachOf_singleton.mpr (each_node.mpr ⟨h.2.1, eachOf_append.mpr ⟨h.2.2, hmore⟩⟩))

theorem Each.of_get? (h : sp.Each P) {id : Nat} {e : Entry} (he : sp.tree.get? id = some e) :
    P (sp.tree.ancestors id).length e.symbol :=
  SymbolTree.each_of_get? (h.forestWith eachOf_nil) he

end Spine

end Hcl
