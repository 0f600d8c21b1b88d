import Hcl.Proofs.Forest.Basic

/-!
# The entries of a forest

Which tree an entry of a symbol tree stands for, where its parent and its children are, and that a
walk visits the entries in the order of their numbers.
-/

namespace Hcl

namespace Tree

/-- In a forest whose first tree has the number `n` and whose trees stand below `parent`, the tree
`u` has the number `id` and stands below `p`. -/
inductive Occurs : Nat → Option Nat → List Tree → Nat → Option Nat → Tree → Prop where
  | head {n : Nat} {parent : Option Nat} {t : Tree} {ts : List Tree} :
      Occurs n parent (t :: ts) n parent t
  | tail {n id : Nat} {parent p : Option Nat} {t u : Tree} {ts : List Tree} :
      Occurs (n + t.size) parent ts id p u → Occurs n parent (t :: ts) id p u
  | inside {n id : Nat} {parent p : Option Nat} {s : Symbol} {u : Tree} {cs ts : List Tree} :
      Occurs (n + 1) (some n) cs id p u → Occurs n parent (node s cs :: ts) id p u

variable {n id : Nat} {parent p : Option Nat} {ts : List Tree} {u : Tree}

theorem Occurs.le (h : Occurs n parent ts id p u) : n ≤ id := by
  induction h with
  | head => exact Nat.le_refl _
  | tail _ ih => omega
  | inside _ ih => omega

theorem Occurs.trans {q : Option Nat} {v : Tree} {i : Nat} (h : Occurs n parent ts id p u)
    (hv : Occurs (id + 1) (some id) u.children i q v) : Occurs n parent ts i q v := by
  induction h with
  | @head n parent t ts =>
    obtain ⟨s, cs⟩ := t
    exact .inside hv
  | tail _ ih => exact .tail (ih hv)
  | inside _ ih => exact .inside (ih hv)

theorem Occurs.cons {t : Tree} (ts : List Tree) (h : Occurs n parent [t] id p u) :
    Occurs n parent (t :: ts) id p u := by
  cases h with
  | head => exact .head
  | tail h => cases h
  | inside h => exact .inside h

theorem Occurs.of_mem_numbers (parent : Option Nat) (h : id ∈ numbers n ts) :
    ∃ u ∈ ts, Occurs n parent ts id parent u := by
  induction ts generalizing n with
  | nil => cases h
  | cons t ts ih =>
    rcases List.mem_cons.mp h with rfl | h
    · exact ⟨t, List.mem_cons_self, .head⟩
    · obtain ⟨u, hu, hocc⟩ := ih h
      exact ⟨u, List.mem_cons_of_mem t hu, .tail hocc⟩

/-- The numbers on a level are in order. -/
theorem pairwise_numbers (n : Nat) (ts : List Tree) : (numbers n ts).Pairwise (· < ·) := by
  induction ts generalizing n with
  | nil => exact .nil
  | cons t ts ih =>
    rw [numbers_cons, List.pairwise_cons]
    refine ⟨fun id hid => ?_, ih (n + t.size)⟩
    obtain ⟨u, -, hu⟩ := Occurs.of_mem_numbers none hid
    exact Nat.lt_of_lt_of_le (Nat.lt_add_of_pos_right t.size_pos) hu.le

/-- A tree stands on the first level of the forest, or below a tree that occurs in it. -/
theorem Occurs.cases_parent (h : Occurs n parent ts id p u) :
    (p = parent ∧ id ∈ numbers n ts ∧ u ∈ ts) ∨
      ∃ q r v, p = some q ∧ Occurs n parent ts q r v ∧ id ∈ numbers (q + 1) v.children ∧
        u ∈ v.children := by
  induction h with
  | head => exact .inl ⟨rfl, by simp, List.mem_cons_self⟩
  | @tail n id parent p t u ts _ ih =>
    rcases ih with ⟨hp, hid, hu⟩ | ⟨q, r, v, hp, hv, hid, hu⟩
    · exact .inl ⟨hp, by simp [hid], List.mem_cons_of_mem t hu⟩
    · exact .inr ⟨q, r, v, hp, .tail hv, hid, hu⟩
  | @inside n id parent p s u cs ts _ ih =>
    rcases ih with ⟨hp, hid, hu⟩ | ⟨q, r, v, hp, hv, hid, hu⟩
    · exact .inr ⟨n, parent, node s cs, hp, .head, hid, hu⟩
    · exact .inr ⟨q, r, v, hp, .inside hv, hid, hu⟩

/-! ## Entries and trees -/

theorem Occurs.getElem? (h : Occurs n parent ts id p u) :
    (entriesAll n parent ts)[id - n]? = some (entry u.symbol p (id + 1) u.children) := by
  induction h with
  | @head n parent t ts =>
    obtain ⟨s, cs⟩ := t
    simp
  | @tail n id parent p t u ts h ih =>
    have hle := h.le
    rw [entriesAll_cons, List.getElem?_append_right (by simp; omega), length_entries,
      Nat.sub_sub, ih]
  | @inside n id parent p s u cs ts h ih =>
    have hle := h.le
    have hid : id - n = id - (n + 1) + 1 := by omega
    have hlt := (List.getElem?_eq_some_iff.mp ih).1
    rw [entriesAll_cons, entries_node, hid, List.cons_append, List.getElem?_cons_succ,
      List.getElem?_append_left hlt, ih]

mutual
theorem exists_occurs_entries (n : Nat) (parent : Option Nat) {i : Nat} {e : Entry} :
    (t : Tree) → (t.entries n parent)[i]? = some e →
      ∃ p u, Occurs n parent [t] (n + i) p u ∧ e = entry u.symbol p (n + i + 1) u.children
  | node s cs, h => by
    cases i with
    | zero =>
      simp only [entries_node, List.getElem?_cons_zero, Option.some.injEq] at h
      exact ⟨parent, node s cs, .head, h.symm⟩
    | succ i =>
      simp only [entries_node, List.getElem?_cons_succ] at h
      obtain ⟨p, u, hocc, he⟩ := exists_occurs_entriesAll (n + 1) (some n) cs h
      rw [Nat.add_assoc n 1 i, Nat.add_comm 1 i] at hocc he
      exact ⟨p, u, .inside hocc, he⟩

/-- Every entry stands for a tree of the forest. -/
theorem exists_occurs_entriesAll (n : Nat) (parent : Option Nat) {i : Nat} {e : Entry} :
    (ts : List Tree) → (entriesAll n parent ts)[i]? = some e →
      ∃ p u, Occurs n parent ts (n + i) p u ∧ e = entry u.symbol p (n + i + 1) u.children
  | [], h => by simp at h
  | t :: ts, h => by
    rw [entriesAll_cons] at h
    by_cases hi : i < t.size
    · rw [List.getElem?_append_left (by simpa using hi)] at h
      obtain ⟨p, u, hocc, he⟩ := exists_occurs_entries n parent t h
      exact ⟨p, u, hocc.cons ts, he⟩
    · rw [List.getElem?_append_right (by simpa using hi), length_entries] at h
      obtain ⟨p, u, hocc, he⟩ := exists_occurs_entriesAll (n + t.size) parent ts h
      have hi' : n + t.size + (i - t.size) = n + i := by omega
      rw [hi'] at hocc he
      exact ⟨p, u, .tail hocc, he⟩
end

end Tree

open Hcl.Tree

namespace SymbolTree

variable {ts : List Tree} {id : Nat} {p : Option Nat} {u : Tree} {e : Entry}

theorem lt_size_of_get? {t : SymbolTree} (h : t.get? id = some e) : id < t.size :=
  (Array.getElem?_eq_some_iff.mp h).1

theorem get?_of_occurs (h : Occurs 0 none ts id p u) :
    (ofForest ts).get? id = some (entry u.symbol p (id + 1) u.children) := by
  simpa [get?, ofForest] using h.getElem?

theorem exists_occurs_of_get? (h : (ofForest ts).get? id = some e) :
    ∃ p u, Occurs 0 none ts id p u ∧ e = entry u.symbol p (id + 1) u.children := by
  have h' : (entriesAll 0 none ts)[id]? = some e := by simpa [get?, ofForest] using h
  simpa using exists_occurs_entriesAll 0 none ts h'

/-- An entry and the one above it belong to a tree and one of its children. -/
theorem exists_occurs_of_parent {above : Entry} {q : Nat} (he : (ofForest ts).get? id = some e)
    (hp : e.parent = some q) (habove : (ofForest ts).get? q = some above) :
    ∃ r v u, Occurs 0 none ts q r v ∧ u ∈ v.children ∧ above.symbol = v.symbol ∧
      e.symbol = u.symbol := by
  obtain ⟨p, u, hu, rfl⟩ := exists_occurs_of_get? he
  rcases hu.cases_parent with ⟨rfl, -, -⟩ | ⟨q', r, v, rfl, hv, -, hmem⟩
  · cases hp
  · cases hp
    rw [get?_of_occurs hv] at habove
    cases habove
    exact ⟨r, v, u, hv, hmem, rfl, rfl⟩

theorem children_of_occurs (h : Occurs 0 none ts id p u) :
    (ofForest ts).children id = numbers (id + 1) u.children := by
  simp [children, get?_of_occurs h, entry]

/-- The parent of a symbol comes before it. -/
theorem lt_of_occurs {q : Nat} (h : Occurs 0 none ts id (some q) u) : q < id := by
  rcases h.cases_parent with ⟨hp, -, -⟩ | ⟨q', r, v, hp, hv, hid, -⟩
  · cases hp
  · cases hp
    obtain ⟨w, -, hw⟩ := Occurs.of_mem_numbers (some q) hid
    exact hw.le

/-! ## Walks -/

/-- A walk over the trees of a forest visits their numbers in order and goes on with what is left. -/
theorem visit_numbers (t : SymbolTree) (n : Nat) (parent : Option Nat) (fuel : Nat)
    (pending : List Nat) : (ts : List Tree) →
    (∀ id p u, Occurs n parent ts id p u → t.children id = numbers (id + 1) u.children) →
    t.visit (sizeAll ts + fuel) (numbers n ts ++ pending) =
      List.range' n (sizeAll ts) ++ t.visit fuel pending
  | [], _ => by simp
  | node s cs :: ts, h => by
    have hcs := h n parent (node s cs) .head
    have hfuel : sizeAll (node s cs :: ts) + fuel = sizeAll cs + (sizeAll ts + fuel) + 1 := by
      simp only [sizeAll_cons, size_node]
      omega
    have hbelow := visit_numbers t (n + 1) (some n) (sizeAll ts + fuel)
      (numbers (n + (sizeAll cs + 1)) ts ++ pending) cs fun id p u hocc => h id p u (.inside hocc)
    have hrest := visit_numbers t (n + (sizeAll cs + 1)) parent fuel pending ts
      fun id p u hocc => h id p u (.tail hocc)
    have hrange : List.range' n (sizeAll (node s cs :: ts)) =
        n :: (List.range' (n + 1) (sizeAll cs) ++
          List.range' (n + (sizeAll cs + 1)) (sizeAll ts)) := by
      have hn : n + (sizeAll cs + 1) = n + 1 + sizeAll cs := by omega
      rw [hn, List.range'_append_1, sizeAll_cons, size_node, Nat.add_right_comm, List.range'_succ]
    rw [hfuel, numbers_cons, List.cons_append, visit, hcs, children_node, size_node, hbelow, hrest,
      hrange, List.cons_append, List.append_assoc]
termination_by ts => sizeAll ts

/-- With fuel for all symbols, nothing is left on the stack. -/
theorem visit_ofForest (ts : List Tree) {fuel : Nat} (hfuel : sizeAll ts ≤ fuel) :
    (ofForest ts).visit fuel (ofForest ts).roots.toList = List.range (sizeAll ts) := by
  obtain ⟨rest, rfl⟩ := Nat.exists_eq_add_of_le hfuel
  have h := visit_numbers (ofForest ts) 0 none rest [] ts fun _ _ _ hocc => children_of_occurs hocc
  simpa [ofForest, visit, List.range_eq_range'] using h

theorem walk_ofForest (ts : List Tree) : (ofForest ts).walk = List.range (sizeAll ts) := by
  rw [walk, size_ofForest]
  exact visit_ofForest ts (Nat.le_refl _)

end SymbolTree

end Hcl
