import Hcl.Proofs.Builder.WellFormed
import Hcl.Proofs.Forest.Nodes

/-!
# Nesting

No more than `maxDepth` scopes are open at once, so what is read at some depth needs no more scopes
than are left there. Only where the reading stopped for want of a scope there is a symbol beyond the
limit: it is the last one, and nothing is below it.
-/

namespace Hcl

open Hcl.Tree Hcl.TokenStream
open Relation (ReflTransGen)

/-- Whether a scope is opened for symbols of this kind. -/
def SymbolKind.hasScope : SymbolKind → Bool
  | block _ | attr | array | map => true
  | _ => false

/-! ## Nodes -/

namespace Node

mutual
/-- How many scopes are opened on the longest way down from a node, its own included. -/
def scopeDepth : Node → Nat
  | mk _ symbol children => if symbol.kind.hasScope then scopeDepthAll children + 1 else 0

def scopeDepthAll : List Node → Nat
  | [] => 0
  | n :: ns => max n.scopeDepth (scopeDepthAll ns)
end

theorem scopeDepth_le {id : Nat} {symbol : Symbol} {children : List Node} :
    (mk id symbol children).scopeDepth ≤ scopeDepthAll children + 1 := by
  rw [scopeDepth]
  split <;> omega

theorem scopeDepth_of_hasScope {id : Nat} {symbol : Symbol} {children : List Node}
    (h : symbol.kind.hasScope = true) :
    (mk id symbol children).scopeDepth = scopeDepthAll children + 1 := by
  rw [scopeDepth, if_pos h]

theorem scopeDepthAll_append (ms ns : List Node) :
    scopeDepthAll (ms ++ ns) = max (scopeDepthAll ms) (scopeDepthAll ns) := by
  induction ms with
  | nil => simp [scopeDepthAll]
  | cons m ms ih => rw [List.cons_append, scopeDepthAll, scopeDepthAll, ih, Nat.max_assoc]

/-- Nodes that are read side by side while `k` more scopes can be opened. -/
inductive Fits : Nat → List Node → Prop where
  | within {k : Nat} {ns : List Node} : scopeDepthAll ns ≤ k → Fits k ns
  /-- the reading stopped at a symbol for which no scope was left -/
  | refused {before : List Node} {id : Nat} {symbol : Symbol} : scopeDepthAll before = 0 →
      Fits 0 (before ++ [mk id symbol []])
  /-- the reading stopped below the last node -/
  | last {k : Nat} {before : List Node} {id : Nat} {symbol : Symbol} {children : List Node} :
      scopeDepthAll before ≤ k + 1 → Fits k children →
      Fits (k + 1) (before ++ [mk id symbol children])

theorem Fits.append {k : Nat} {before ns : List Node} (hbefore : scopeDepthAll before ≤ k)
    (h : Fits k ns) : Fits k (before ++ ns) := by
  cases h with
  | within hns => exact .within (by rw [scopeDepthAll_append]; omega)
  | refused hns =>
    rw [← List.append_assoc]
    exact .refused (by rw [scopeDepthAll_append]; omega)
  | last hns hchildren =>
    rw [← List.append_assoc]
    exact .last (by rw [scopeDepthAll_append]; omega) hchildren

end Node

/-! ## Trees -/

namespace Tree

/-- The trees need at most `k` scopes. Where they stand does not matter. -/
def FitIn (k : Nat) (ts : List Tree) : Prop := ∀ n, Node.scopeDepthAll (toNodes n ts) ≤ k

variable {k : Nat} {as bs ts : List Tree} {s : Symbol}

theorem fitIn_nil : FitIn k [] := fun _ => Nat.zero_le k

theorem FitIn.append (has : FitIn k as) (hbs : FitIn k bs) : FitIn k (as ++ bs) := by
  intro n
  rw [toNodes_append, Node.scopeDepthAll_append]
  exact Nat.max_le.mpr ⟨has n, hbs _⟩

theorem FitIn.of_append (h : FitIn k (as ++ bs)) : FitIn k as := by
  intro n
  have h := h n
  rw [toNodes_append, Node.scopeDepthAll_append] at h
  exact (Nat.max_le.mp h).1

theorem FitIn.node (h : FitIn k ts) (s : Symbol) : FitIn (k + 1) [node s ts] := by
  intro n
  have hts := h (n + 1)
  have hle : (Node.mk n s (toNodes (n + 1) ts)).scopeDepth ≤
      Node.scopeDepthAll (toNodes (n + 1) ts) + 1 := Node.scopeDepth_le
  rw [toNodes_cons, toNode_node, toNodes_nil, Node.scopeDepthAll, Node.scopeDepthAll]
  omega

/-- A value that is read at once needs no scope. -/
theorem fitIn_leaf (h : s.kind.hasScope = false) : FitIn k [leaf s] := by
  intro n
  simp [leaf, Node.scopeDepthAll, Node.scopeDepth, h]

end Tree

/-! ## Spines -/

namespace Spine

variable {sp outer : Spine} {symbol : Symbol} {trees : List Tree}

/-- How many scopes can be opened on the innermost level. -/
def room (sp : Spine) : Nat := maxDepth - (sp.depth + 1)

/-- There was a scope for every open symbol, and the finished trees on each level need no more scopes
than can be opened there. -/
def Nested : Spine → Prop
  | root trees => FitIn (root trees).room trees
  | under outer symbol trees =>
    outer.Nested ∧ outer.depth + 1 < maxDepth ∧ FitIn (under outer symbol trees).room trees

theorem room_under (outer : Spine) (symbol : Symbol) (trees : List Tree) :
    (under outer symbol trees).room = outer.room - 1 := by
  rw [room, room, depth]
  omega

theorem room_pos (h : sp.depth + 1 < maxDepth) : 0 < sp.room := by
  rw [room]
  omega

theorem Nested.append (h : sp.Nested) {ts : List Tree} (hts : FitIn sp.room ts) :
    (sp.append ts).Nested := by
  cases sp with
  | root trees => exact FitIn.append h hts
  | under outer symbol trees => exact ⟨h.1, h.2.1, h.2.2.append hts⟩

theorem Nested.opened (h : sp.Nested) (hd : sp.depth + 1 < maxDepth) (symbol : Symbol) :
    (sp.under symbol []).Nested :=
  ⟨h, hd, fitIn_nil⟩

/-- A scope that ends gives back what it took. -/
theorem Nested.closed (h : (outer.under symbol trees).Nested) (s : Symbol) :
    (outer.append [node s trees]).Nested := by
  obtain ⟨houter, hd, htrees⟩ := h
  have hroom := room_pos hd
  rw [room_under] at htrees
  have hnode := htrees.node s
  rw [Nat.sub_add_cancel hroom] at hnode
  exact houter.append hnode

theorem Nested.extend {source : List Char} (trees : List Tree) {v v' : Tree} {s s' : TokenStream}
    (h : (outer.under symbol (trees ++ [v])).Nested) (hx : Extends source v s v' s') :
    (outer.under symbol (trees ++ [v'])).Nested := by
  cases hx with
  | stay => exact h
  | operation =>
    obtain ⟨houter, hd, htrees⟩ := h
    exact ⟨houter, hd, htrees.of_append.append (fitIn_leaf rfl)⟩

/-- More trees on the innermost level that fit there, the last of them perhaps beyond the limit. -/
theorem Nested.fits_forestWith {more : List Tree} (h : sp.Nested)
    (hmore : ∀ n, Node.Fits sp.room (toNodes n more)) :
    Node.Fits (maxDepth - 1) (toNodes 0 (sp.forestWith more)) := by
  induction sp generalizing more with
  | root trees =>
    rw [forestWith, toNodes_append]
    exact .append (h 0) (hmore _)
  | under outer symbol trees ih =>
    obtain ⟨houter, hd, htrees⟩ := h
    apply ih houter
    intro n
    have hroom := room_pos hd
    obtain ⟨k, hk⟩ : ∃ k, outer.room = k + 1 := ⟨outer.room - 1, by omega⟩
    have hunder : (outer.under symbol trees).room = k := by rw [room_under, hk]; rfl
    rw [hunder] at htrees hmore
    have hchildren : Node.Fits k (toNodes (n + 1) (trees ++ more)) := by
      rw [toNodes_append]
      exact .append (htrees _) (hmore _)
    rw [hk]
    exact @Node.Fits.last k [] n symbol _ (Nat.zero_le _) hchildren

theorem Nested.fits (h : sp.Nested) : Node.Fits (maxDepth - 1) (toNodes 0 sp.forest) :=
  h.fits_forestWith fun _ => .within (Nat.zero_le _)

/-- A symbol for which no scope is left comes last. -/
theorem Nested.fits_refused (h : sp.Nested) (hd : ¬sp.depth + 1 < maxDepth) (symbol : Symbol) :
    Node.Fits (maxDepth - 1) (toNodes 0 (sp.under symbol []).forest) := by
  have hroom : sp.room = 0 := by
    rw [room]
    omega
  rw [forest_under, forest_append]
  apply h.fits_forestWith
  intro n
  rw [hroom]
  exact @Node.Fits.refused [] n symbol rfl

end Spine

/-! ## Moves -/

namespace TokenStream

variable {source : List Char} {first : Token} {s rest : TokenStream} {value : Symbol}

theorem hasScope_of_operand (h : s.operand source first = .ok (value, rest)) :
    value.kind.hasScope = false := by
  cases readsOperand_of_operand h <;> rfl

theorem hasScope_of_comprehension (h : s.comprehension source first = .ok (value, rest)) :
    value.kind.hasScope = false := by
  obtain ⟨⟨stop, rest'⟩, -, hr⟩ := exists_of_map_ok h
  rw [← (Prod.mk.inj hr).1]
  rfl

end TokenStream

variable {source : List Char}

theorem Move.nested {st st' : Stage} (h : Move source st st') (hst : st.spine.Nested) :
    st'.spine.Nested := by
  cases h with
  | attr _ _ _ _ hd => exact hst.opened hd _
  | block _ _ _ _ hd => exact hst.opened hd _
  | bodyArray _ _ _ hd => exact hst.opened hd _
  | array _ _ _ _ hd => exact hst.opened hd _
  | map _ _ _ _ hd => exact hst.opened hd _
  | entry _ _ _ hd => exact hst.opened hd _
  | blockEnd _ _ _ => exact hst.closed _
  | arrayEnd _ _ _ => exact hst.closed _
  | mapEnd _ _ _ => exact hst.closed _
  | operand _ _ hr => exact hst.append (fitIn_leaf (hasScope_of_operand hr))
  | comprehension _ _ _ _ hr => exact hst.append (fitIn_leaf (hasScope_of_comprehension hr))
  | attrEnd _ hx _ => exact (hst.extend [] hx).closed _
  | element _ hx _ => exact hst.extend _ hx

theorem Move.nested_of_reflTransGen {st st' : Stage} (h : ReflTransGen (Move source) st st')
    (hst : st.spine.Nested) : st'.spine.Nested :=
  run_of_step (P := fun st => st.spine.Nested) Move.nested h hst

/-- What a step leaves when it fails fits, with the symbol that was opened too deep. -/
theorem Leaves.fits {st : Stage} {sp : Spine} (h : Leaves source st sp) (hst : st.spine.Nested) :
    Node.Fits (maxDepth - 1) (toNodes 0 sp.forest) := by
  cases h with
  | same => exact hst.fits
  | @opened sp c s symbol _ =>
    by_cases hd : sp.depth + 1 < maxDepth
    · exact (hst.opened hd symbol).fits
    · exact hst.fits_refused hd symbol
  | attr _ hx => exact ((hst.extend [] hx).closed _).fits
  | element _ hx => exact (hst.extend _ hx).fits

/-- The tree of a source fits into the scopes that can be opened besides that of the document. -/
theorem fits_parseTree (source : String) :
    Node.Fits (maxDepth - 1) (parseTree source).tree.nodes := by
  obtain ⟨st, hmoves, -, hends⟩ := exists_ends_parseTree source
  have hnested : st.spine.Nested := Move.nested_of_reflTransGen hmoves fun _ => Nat.zero_le _
  generalize parseTree source = parsed at hends
  cases hends with
  | finish =>
    rw [Spine.tree, SymbolTree.nodes_ofForest]
    exact hnested.fits
  | stop _ htree _ hleaves =>
    rw [htree, Spine.tree, SymbolTree.nodes_ofForest]
    exact hleaves.fits hnested

end Hcl
