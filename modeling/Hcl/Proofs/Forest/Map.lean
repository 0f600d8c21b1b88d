import Hcl.Proofs.Forest.Basic

/-!
# Changed symbols

What is done to every symbol of a tree and leaves its kind alone does not touch the shape of the
tree.
-/

namespace Hcl

namespace Tree

mutual
/-- Changes every symbol. -/
def map (f : Symbol → Symbol) : Tree → Tree
  | node symbol children => node (f symbol) (mapAll f children)

def mapAll (f : Symbol → Symbol) : List Tree → List Tree
  | [] => []
  | t :: ts => t.map f :: mapAll f ts
end

variable {f : Symbol → Symbol}

@[simp] theorem map_node (s : Symbol) (ts : List Tree) :
    (node s ts).map f = node (f s) (mapAll f ts) := by
  rw [map]

@[simp] theorem mapAll_nil : mapAll f [] = [] := by
  rw [mapAll]

@[simp] theorem mapAll_cons (t : Tree) (ts : List Tree) :
    mapAll f (t :: ts) = t.map f :: mapAll f ts := by
  rw [mapAll]

theorem symbol_map (t : Tree) : (t.map f).symbol = f t.symbol := by
  cases t
  simp

mutual
theorem size_map : (t : Tree) → (t.map f).size = t.size
  | node s ts => by rw [map_node, size_node, size_node, sizeAll_mapAll ts]

theorem sizeAll_mapAll : (ts : List Tree) → sizeAll (mapAll f ts) = sizeAll ts
  | [] => by rw [mapAll_nil]
  | t :: ts => by rw [mapAll_cons, sizeAll_cons, sizeAll_cons, size_map t, sizeAll_mapAll ts]
end

theorem numbers_mapAll (n : Nat) (ts : List Tree) : numbers n (mapAll f ts) = numbers n ts := by
  induction ts generalizing n with
  | nil => rw [mapAll_nil]
  | cons t ts ih => rw [mapAll_cons, numbers_cons, numbers_cons, size_map, ih]

theorem attrNumbers_mapAll (hf : ∀ s, (f s).kind = s.kind) (n : Nat) (ts : List Tree) :
    attrNumbers n (mapAll f ts) = attrNumbers n ts := by
  induction ts generalizing n with
  | nil => rw [mapAll_nil]
  | cons t ts ih =>
    rw [mapAll_cons, attrNumbers, attrNumbers, size_map, ih, symbol_map, Symbol.isAttribute, hf]
    rfl

end Tree

open Hcl.Tree

/-- Changes the symbol of an entry. -/
def Entry.mapSymbol (f : Symbol → Symbol) (e : Entry) : Entry := { e with symbol := f e.symbol }

/-- Changes every symbol. -/
def SymbolTree.mapSymbols (f : Symbol → Symbol) (t : SymbolTree) : SymbolTree :=
  { t with entries := t.entries.map (Entry.mapSymbol f) }

variable {f : Symbol → Symbol}

theorem Tree.entry_mapAll (hf : ∀ s, (f s).kind = s.kind) (s : Symbol) (parent : Option Nat) (n : Nat)
    (ts : List Tree) :
    entry (f s) parent n (mapAll f ts) = (entry s parent n ts).mapSymbol f := by
  have hlists : (f s).listsAttributes = s.listsAttributes := by
    rw [Symbol.listsAttributes, hf, Symbol.listsAttributes]
  simp only [entry, Entry.mapSymbol, numbers_mapAll, attrNumbers_mapAll hf, hlists]

mutual
theorem Tree.entries_map (hf : ∀ s, (f s).kind = s.kind) (n : Nat) (parent : Option Nat) :
    (t : Tree) → (t.map f).entries n parent = (t.entries n parent).map (Entry.mapSymbol f)
  | node s ts => by
    rw [map_node, entries_node, entries_node, List.map_cons, entry_mapAll hf,
      Tree.entriesAll_mapAll hf (n + 1) (some n) ts]

theorem Tree.entriesAll_mapAll (hf : ∀ s, (f s).kind = s.kind) (n : Nat) (parent : Option Nat) :
    (ts : List Tree) →
    entriesAll n parent (mapAll f ts) = (entriesAll n parent ts).map (Entry.mapSymbol f)
  | [] => by simp
  | t :: ts => by
    rw [mapAll_cons, entriesAll_cons, entriesAll_cons, List.map_append, size_map,
      Tree.entries_map hf n parent t, Tree.entriesAll_mapAll hf (n + t.size) parent ts]
end

theorem SymbolTree.mapSymbols_ofForest (hf : ∀ s, (f s).kind = s.kind) (ts : List Tree) :
    (ofForest ts).mapSymbols f = ofForest (mapAll f ts) := by
  simp [ofForest, mapSymbols, entriesAll_mapAll hf, numbers_mapAll]

end Hcl
