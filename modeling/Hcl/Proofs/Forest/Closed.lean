import Hcl.Proofs.Forest.Each
import Hcl.Proofs.Forest.WellFormed

/-!
# Numbers and their symbols

Symbols refer to each other by number. In the tree of a forest there is a symbol for every number
that it holds, and the open symbols of a spine are among them.
-/

namespace Hcl

open Hcl.Tree

namespace SymbolTree

/-- There is a symbol for every number that the tree holds. -/
structure Closed (t : SymbolTree) : Prop where
  roots : ∀ id ∈ t.roots, id < t.size
  children : ∀ id e, t.get? id = some e → ∀ child ∈ e.children, child < t.size
  attributes : ∀ id e, t.get? id = some e → ∀ child ∈ e.attributes, child < t.size
  parent : ∀ id e p, t.get? id = some e → e.parent = some p → p < t.size

variable {ts : List Tree} {id : Nat} {p : Option Nat} {u : Tree}

theorem lt_size_of_occurs (h : Occurs 0 none ts id p u) : id < (ofForest ts).size :=
  lt_size_of_get? (get?_of_occurs h)

theorem lt_size_of_mem_numbers (h : Occurs 0 none ts id p u) {child : Nat}
    (hchild : child ∈ numbers (id + 1) u.children) : child < (ofForest ts).size := by
  obtain ⟨v, -, hv⟩ := Occurs.of_mem_numbers (some id) hchild
  exact lt_size_of_occurs (h.trans hv)

theorem attrNumbers_subset (n : Nat) (ts : List Tree) : attrNumbers n ts ⊆ numbers n ts := by
  induction ts generalizing n with
  | nil => exact List.Subset.refl _
  | cons t ts ih =>
    rw [attrNumbers, numbers_cons]
    split
    · exact List.cons_subset_cons _ (ih _)
    · exact List.subset_cons_of_subset _ (ih _)

theorem closed_ofForest (ts : List Tree) : (ofForest ts).Closed where
  roots id hid := by
    obtain ⟨e, he, -⟩ := mem_roots_ofForest.mp hid
    exact lt_size_of_get? he
  children id e he child hchild := by
    obtain ⟨p, u, hu, rfl⟩ := exists_occurs_of_get? he
    exact lt_size_of_mem_numbers hu (by simpa [entry] using hchild)
  attributes id e he child hchild := by
    obtain ⟨p, u, hu, rfl⟩ := exists_occurs_of_get? he
    have hmem : child ∈ if u.symbol.listsAttributes then attrNumbers (id + 1) u.children else [] := by
      simpa [entry] using hchild
    split at hmem
    · exact lt_size_of_mem_numbers hu (attrNumbers_subset _ _ hmem)
    · cases hmem
  parent id e q he hq := by
    obtain ⟨p, u, hu, rfl⟩ := exists_occurs_of_get? he
    cases hq
    exact Nat.lt_trans (lt_of_occurs hu) (lt_size_of_occurs hu)

end SymbolTree

/-! ## Open symbols -/

namespace Spine

/-- The open symbols were added before whatever is read below them. -/
theorem lt_of_mem_openIds {sp : Spine} {id : Nat} (h : id ∈ sp.openIds) : id < sp.size := by
  induction sp with
  | root ts => cases h
  | under outer s ts ih =>
    rw [size]
    rcases List.mem_cons.mp h with rfl | h
    · omega
    · have := ih h
      omega

end Spine

end Hcl
