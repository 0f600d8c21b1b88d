import Mathlib.Data.List.Flatten
import Hcl.Cli.Report
import Hcl.Proofs.SymbolTree.Grown

/-!
# Walks over any tree

A walk with a stack of symbols to be visited is the recursion over the roots and their children, in
whichever order the symbols of the tree were added. An outline is the same walk, and its depths are
the numbers of symbols above.
-/

namespace Hcl

namespace Cli

/-- How many spaces a line begins with. -/
def indentation (line : String) : Nat := (line.toList.takeWhile (· = ' ')).length

theorem takeWhile_describe (kind : SymbolKind) (rest : List Char) :
    (kind.describe.toList ++ rest).takeWhile (· = ' ') = [] := by
  cases kind <;> simp [SymbolKind.describe]

theorem indentation_outlineLine (depth : Nat) (s : Symbol) :
    indentation (outlineLine depth s) = 2 * depth := by
  have hspaces : ∀ c ∈ List.replicate (2 * depth) ' ', decide (c = ' ') = true := by simp
  simp only [indentation, outlineLine, String.toList_append, String.toList_ofList,
    List.append_assoc]
  rw [List.takeWhile_append_of_pos hspaces, takeWhile_describe, List.append_nil,
    List.length_replicate]

end Cli

namespace SymbolTree

variable {t : SymbolTree} {id p : Nat}

/-! ## The loops -/

/-- With fuel for all that is below the stack, a walk is the recursion. -/
theorem visit_eq (h : t.Linked) {fuel : Nat} {pending : List Nat}
    (hfuel : (pending.flatMap t.below).length ≤ fuel) :
    t.visit fuel pending = pending.flatMap t.below := by
  induction fuel generalizing pending with
  | zero =>
    cases pending with
    | nil => rfl
    | cons id pending =>
      rw [List.flatMap_cons, h.below_eq, List.cons_append, List.length_cons] at hfuel
      cases hfuel
  | succ fuel ih =>
    cases pending with
    | nil => rfl
    | cons id pending =>
      rw [List.flatMap_cons, h.below_eq, List.cons_append, ← List.flatMap_append] at hfuel ⊢
      rw [visit, ih (Nat.le_of_succ_le_succ hfuel)]

/-- If the stack holds the right depths, so does the outline. -/
theorem visitWithDepth_eq (h : t.Linked) (fuel : Nat) {pending : List (Nat × Nat)}
    (hdepth : ∀ entry ∈ pending, entry.2 = (t.ancestors entry.1).length) :
    t.visitWithDepth fuel pending =
      (t.visit fuel (pending.map Prod.fst)).map fun id => (id, (t.ancestors id).length) := by
  induction fuel generalizing pending with
  | zero => cases pending <;> rfl
  | succ fuel ih =>
    cases pending with
    | nil => rfl
    | cons entry pending =>
      obtain ⟨id, depth⟩ := entry
      obtain ⟨hid, hpending⟩ := List.forall_mem_cons.mp hdepth
      obtain rfl : depth = (t.ancestors id).length := hid
      have hchildren : ∀ child ∈ t.children id,
          (t.ancestors child).length = (t.ancestors id).length + 1 := by
        intro child hchild
        obtain ⟨e, he, hp⟩ := h.of_child id child hchild
        rw [ancestors_of_parent he hp (h.lt hchild), List.length_cons]
      rw [visitWithDepth, List.map_cons, visit, List.map_cons, ih]
      · simp [Function.comp_def]
      · intro entry hentry
        rcases List.mem_append.mp hentry with hmem | hmem
        · obtain ⟨child, hchild, rfl⟩ := List.mem_map.mp hmem
          exact (hchildren child hchild).symm
        · exact hpending entry hmem

/-! ## Order -/

/-- What is below a symbol that is below another is part of what is below that. -/
theorem sublist_below (h : t.Linked) (id : Nat) (hp : p ∈ t.below id) :
    (t.below p).Sublist (t.below id) := by
  induction id using h.induction with
  | hP id ih =>
    rw [h.below_eq id] at hp ⊢
    rcases List.mem_cons.mp hp with rfl | hmem
    · rw [h.below_eq]
    · obtain ⟨child, hchild, hbelow⟩ := List.mem_flatMap.mp hmem
      have hall := (List.singleton_sublist.mpr hchild).flatMap t.below
      rw [List.flatMap_singleton] at hall
      exact ((ih child hchild hbelow).trans hall).cons id

/-! ## Walks -/

theorem length_flatMap_below (h : t.Grown) :
    (t.roots.toList.flatMap t.below).length = t.size := by
  rw [h.perm_below.length_eq, List.length_range]

theorem visit_roots (h : t.Grown) {fuel : Nat} (hfuel : t.size ≤ fuel) :
    t.visit fuel t.roots.toList = t.roots.toList.flatMap t.below :=
  visit_eq h.linked (Nat.le_trans (Nat.le_of_eq (length_flatMap_below h)) hfuel)

theorem walk_eq (h : t.Grown) : t.walk = t.roots.toList.flatMap t.below :=
  visit_roots h (Nat.le_refl _)

theorem visitWithDepth_roots (h : t.Grown) {fuel : Nat} (hfuel : t.size ≤ fuel) :
    t.visitWithDepth fuel (t.roots.toList.map (·, 0)) =
      t.walk.map fun id => (id, (t.ancestors id).length) := by
  have hl := h.linked
  have hroots : ∀ entry ∈ t.roots.toList.map (·, 0), entry.2 = (t.ancestors entry.1).length := by
    intro entry hentry
    obtain ⟨id, hid, rfl⟩ := List.mem_map.mp hentry
    obtain ⟨e, he, hp⟩ := hl.of_root id (Array.mem_toList_iff.mp hid)
    rw [ancestors_of_root he hp, List.length_nil]
  rw [visitWithDepth_eq hl fuel hroots, List.map_map, Function.comp_def, List.map_id',
    visit_roots h hfuel, walk_eq h]

theorem outline_eq (h : t.Grown) :
    t.outline = t.walk.map fun id => (id, (t.ancestors id).length) :=
  visitWithDepth_roots h (Nat.le_refl _)

theorem sublist_walk (h : t.Grown) {e : Entry} (he : t.get? id = some e)
    (hp : e.parent = some p) : [p, id].Sublist t.walk := by
  have hl := h.linked
  obtain ⟨hlt, hchild⟩ := hl.of_parent id e p he hp
  have hid : id ∈ t.below id := by
    rw [hl.below_eq]
    exact List.mem_cons_self
  have hbelow : [p, id].Sublist (t.below p) := by
    rw [hl.below_eq p]
    exact (List.singleton_sublist.mpr (List.mem_flatMap.mpr ⟨id, hchild, hid⟩)).cons_cons p
  have hmem : p ∈ t.roots.toList.flatMap t.below :=
    h.perm_below.mem_iff.mpr (List.mem_range.mpr (Nat.lt_trans hlt (lt_size_of_get? he)))
  obtain ⟨root, hroot, hp⟩ := List.mem_flatMap.mp hmem
  have hall := (List.singleton_sublist.mpr hroot).flatMap t.below
  rw [List.flatMap_singleton] at hall
  rw [walk_eq h]
  exact hbelow.trans ((sublist_below hl root hp).trans hall)

/-- The symbols of the tree are linked, and walks show them in the order of the recursion. -/
structure Walked (t : SymbolTree) : Prop extends t.Linked where
  ancestors_eq : ∀ id e, t.get? id = some e →
    t.ancestors id = match e.parent with
      | none => []
      | some p => p :: t.ancestors p
  below_eq : ∀ id, t.below id = id :: (t.children id).flatMap t.below
  walk_eq : t.walk = t.roots.toList.flatMap t.below
  perm_walk : t.walk.Perm (List.range t.size)
  /-- a symbol comes behind its parent -/
  sublist_walk : ∀ id e p, t.get? id = some e → e.parent = some p → [p, id].Sublist t.walk
  outline_eq : t.outline = t.walk.map fun id => (id, (t.ancestors id).length)
  /-- neither loop is ended by its bound -/
  ended : ∀ fuel, t.size ≤ fuel → t.visit fuel t.roots.toList = t.walk ∧
    t.visitWithDepth fuel (t.roots.toList.map (·, 0)) = t.outline
  report_eq : Cli.symbolsReport t = .ofLines (t.walk.filterMap fun id =>
    (t.get? id).map fun e => Cli.outlineLine (t.ancestors id).length e.symbol)
  indentation_eq : (Cli.symbolsReport t).lines.map Cli.indentation =
    t.walk.map fun id => 2 * (t.ancestors id).length
  evals_eq : t.evals = (t.roots.toList.flatMap t.below).filterMap fun id =>
    (t.get? id).bind (·.symbol.eval?)

/-- However a tree has grown, walks and outlines visit it as the recursion does. -/
theorem walked_of_grown (h : t.Grown) : t.Walked where
  toLinked := h.linked
  ancestors_eq id e he := by
    cases hp : e.parent with
    | none => exact ancestors_of_root he hp
    | some p => exact ancestors_of_parent he hp (h.linked.of_parent id e p he hp).1
  below_eq := h.linked.below_eq
  walk_eq := walk_eq h
  perm_walk := walk_eq h ▸ h.perm_below
  sublist_walk _ _ _ he hp := sublist_walk h he hp
  outline_eq := outline_eq h
  ended _ hfuel :=
    ⟨(visit_roots h hfuel).trans (walk_eq h).symm,
      (visitWithDepth_roots h hfuel).trans (outline_eq h).symm⟩
  report_eq := by
    rw [Cli.symbolsReport, outline_eq h, List.filterMap_map]
    rfl
  indentation_eq := by
    have hmem : ∀ id ∈ t.walk, ∃ e, t.get? id = some e := by
      intro id hid
      rw [walk_eq h, h.perm_below.mem_iff, List.mem_range] at hid
      exact ⟨_, Array.getElem?_eq_getElem hid⟩
    rw [Cli.symbolsReport, outline_eq h, List.filterMap_map, Cli.Report.ofLines, List.map_filterMap,
      ← List.filterMap_eq_map]
    refine List.filterMap_congr fun id hid => ?_
    obtain ⟨e, he⟩ := hmem id hid
    simp [he, Cli.indentation_outlineLine]
  evals_eq := by rw [evals, walk_eq h]

/-- Two blocks, each with an attribute; the attributes came in the other order, and the value of the
second one last. -/
theorem walked_of_grown_interleaved :
    let t := (((((empty.push none (.block ["a"] ⟨.start, 1⟩)).push none (.block ["b"] ⟨.start, 1⟩)).push
      (some 1) (.attr "y" ⟨.start, 1⟩)).push (some 0) (.attr "x" ⟨.start, 1⟩)).push (some 3)
        (.literal .null "null" ⟨.start, 4⟩))
    t.Grown ∧ t.walk = [0, 3, 4, 1, 2] ∧
      (Cli.symbolsReport t).lines.map Cli.indentation = [0, 2, 4, 0, 2] := by
  intro t
  have hgrown : t.Grown :=
    .push _ (.push _ (.push _ (.push _ (.push _ .empty nofun) nofun) (by decide)) (by decide))
      (by decide)
  have hwalk : t.walk = [0, 3, 4, 1, 2] := by decide
  have hancestors :
      [0, 3, 4, 1, 2].map (fun id => 2 * (t.ancestors id).length) = [0, 2, 4, 0, 2] := by
    decide +kernel
  exact ⟨hgrown, hwalk, by rw [(walked_of_grown hgrown).indentation_eq, hwalk, hancestors]⟩

end SymbolTree

end Hcl
