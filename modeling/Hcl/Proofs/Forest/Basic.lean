import Hcl.SymbolTree.Walk

/-!
# Forests

A symbol tree is the preorder listing of a forest. `SymbolTree.ofForest` numbers a forest; what is
said here of numbers, parents and children of its entries is said of every tree that is built in
that order.
-/

namespace Hcl

/-- A symbol with what is below it, without numbers. -/
inductive Tree where
  | node (symbol : Symbol) (children : List Tree)

namespace Tree

def symbol : Tree → Symbol
  | node symbol _ => symbol

def children : Tree → List Tree
  | node _ children => children

/-- A symbol with nothing below it. -/
def leaf (symbol : Symbol) : Tree := node symbol []

mutual
def size : Tree → Nat
  | node _ children => sizeAll children + 1

def sizeAll : List Tree → Nat
  | [] => 0
  | t :: ts => t.size + sizeAll ts
end

/-! ## Numbers -/

/-- The numbers of the trees of a forest whose first symbol has the number `n`. -/
def numbers (n : Nat) : List Tree → List Nat
  | [] => []
  | t :: ts => n :: numbers (n + t.size) ts

/-- The numbers of those trees that are attributes. -/
def attrNumbers (n : Nat) : List Tree → List Nat
  | [] => []
  | t :: ts =>
    if t.symbol.isAttribute then n :: attrNumbers (n + t.size) ts else attrNumbers (n + t.size) ts

/-- The entry of a symbol whose first child has the number `n`. -/
def entry (symbol : Symbol) (parent : Option Nat) (n : Nat) (children : List Tree) : Entry :=
  ⟨symbol, parent, (numbers n children).toArray,
    (if symbol.listsAttributes then attrNumbers n children else []).toArray⟩

mutual
/-- The entries of a tree, a symbol before what is below it. -/
def entries (n : Nat) (parent : Option Nat) : Tree → List Entry
  | node symbol children =>
    entry symbol parent (n + 1) children :: entriesAll (n + 1) (some n) children

def entriesAll (n : Nat) (parent : Option Nat) : List Tree → List Entry
  | [] => []
  | t :: ts => t.entries n parent ++ entriesAll (n + t.size) parent ts
end

@[simp] theorem symbol_node (s : Symbol) (ts : List Tree) : (node s ts).symbol = s := rfl
@[simp] theorem children_node (s : Symbol) (ts : List Tree) : (node s ts).children = ts := rfl
@[simp] theorem size_node (s : Symbol) (ts : List Tree) : (node s ts).size = sizeAll ts + 1 := rfl
@[simp] theorem sizeAll_nil : sizeAll [] = 0 := rfl
@[simp] theorem sizeAll_cons (t : Tree) (ts : List Tree) :
    sizeAll (t :: ts) = t.size + sizeAll ts := rfl
@[simp] theorem numbers_nil (n : Nat) : numbers n [] = [] := rfl
@[simp] theorem numbers_cons (n : Nat) (t : Tree) (ts : List Tree) :
    numbers n (t :: ts) = n :: numbers (n + t.size) ts := rfl
@[simp] theorem attrNumbers_nil (n : Nat) : attrNumbers n [] = [] := rfl
@[simp] theorem entriesAll_nil (n : Nat) (parent : Option Nat) : entriesAll n parent [] = [] := rfl
@[simp] theorem entriesAll_cons (n : Nat) (parent : Option Nat) (t : Tree) (ts : List Tree) :
    entriesAll n parent (t :: ts) = t.entries n parent ++ entriesAll (n + t.size) parent ts := rfl
@[simp] theorem entries_node (n : Nat) (parent : Option Nat) (s : Symbol) (ts : List Tree) :
    (node s ts).entries n parent = entry s parent (n + 1) ts :: entriesAll (n + 1) (some n) ts :=
  rfl

theorem attrNumbers_singleton (n : Nat) {t u : Tree}
    (h : t.symbol.isAttribute = u.symbol.isAttribute) : attrNumbers n [t] = attrNumbers n [u] := by
  simp only [attrNumbers, h]

theorem size_pos (t : Tree) : 0 < t.size := by
  cases t
  exact Nat.succ_pos _

@[simp] theorem sizeAll_append (as bs : List Tree) :
    sizeAll (as ++ bs) = sizeAll as + sizeAll bs := by
  induction as with
  | nil => simp
  | cons t ts ih => simp only [List.cons_append, sizeAll_cons, ih, Nat.add_assoc]

@[simp] theorem numbers_append (n : Nat) (as bs : List Tree) :
    numbers n (as ++ bs) = numbers n as ++ numbers (n + sizeAll as) bs := by
  induction as generalizing n with
  | nil => simp
  | cons t ts ih => simp only [List.cons_append, numbers_cons, ih, sizeAll_cons, Nat.add_assoc]

theorem lt_of_mem_numbers {id n : Nat} {ts : List Tree} (h : id ∈ numbers n ts) :
    id < n + sizeAll ts := by
  induction ts generalizing n with
  | nil => cases h
  | cons t ts ih =>
    have hpos := t.size_pos
    rw [sizeAll_cons]
    rcases List.mem_cons.mp h with rfl | hmem
    · omega
    · have := ih hmem
      omega

@[simp] theorem attrNumbers_append (n : Nat) (as bs : List Tree) :
    attrNumbers n (as ++ bs) = attrNumbers n as ++ attrNumbers (n + sizeAll as) bs := by
  induction as generalizing n with
  | nil => simp
  | cons t ts ih =>
    simp only [List.cons_append, attrNumbers, ih, sizeAll_cons, Nat.add_assoc]
    split <;> rfl

@[simp] theorem entriesAll_append (n : Nat) (parent : Option Nat) (as bs : List Tree) :
    entriesAll n parent (as ++ bs) =
      entriesAll n parent as ++ entriesAll (n + sizeAll as) parent bs := by
  induction as generalizing n with
  | nil => simp
  | cons t ts ih =>
    simp only [List.cons_append, entriesAll_cons, ih, sizeAll_cons, Nat.add_assoc, List.append_assoc]

mutual
theorem length_entries (n : Nat) (parent : Option Nat) :
    (t : Tree) → (t.entries n parent).length = t.size
  | node s ts => by
    rw [entries_node, List.length_cons, length_entriesAll (n + 1) (some n) ts, size_node]

theorem length_entriesAll (n : Nat) (parent : Option Nat) :
    (ts : List Tree) → (entriesAll n parent ts).length = sizeAll ts
  | [] => rfl
  | t :: ts => by
    rw [entriesAll_cons, List.length_append, length_entries n parent t,
      length_entriesAll (n + t.size) parent ts, sizeAll_cons]
end

attribute [simp] length_entries length_entriesAll

end Tree

open Hcl.Tree

/-- The symbol tree of a forest. -/
def SymbolTree.ofForest (ts : List Tree) : SymbolTree :=
  ⟨(entriesAll 0 none ts).toArray, (numbers 0 ts).toArray⟩

@[simp] theorem SymbolTree.size_ofForest (ts : List Tree) : (ofForest ts).size = sizeAll ts := by
  simp [ofForest, size]

end Hcl
