import Hcl.Proofs.Forest.Spine

/-!
# Sound forests

Which kinds of symbols may stand below which, how many values an attribute has, and what a block is
called. A finished tree is sound when this holds of all its symbols; a spine is sound when it holds
of its finished trees and of the open symbols, where an attribute may still lack its value.
-/

namespace Hcl

namespace SymbolKind

/-- Blocks, attributes and arrays stand in bodies. -/
def isItem : SymbolKind → Bool
  | block _ | attr | array => true
  | _ => false

/-- What an attribute or an element may be. -/
def isValue : SymbolKind → Bool
  | literal _ _ | array | map | eval _ | keyword _ => true
  | _ => false

/-- Whether a symbol of the kind `child` may stand below one of the kind `parent`. -/
def admits (parent child : SymbolKind) : Bool :=
  match parent with
  | block _ => child.isItem
  | map => child == attr
  | attr | array => child.isValue
  | _ => false

end SymbolKind

/-- A block has names and is called by the first. -/
def Symbol.Named (s : Symbol) : Prop :=
  ∀ names, s.kind = .block names → names ≠ [] ∧ s.name = names.head?

theorem Symbol.named_of_kind {s : Symbol} (h : ∀ names, s.kind ≠ .block names) : s.Named :=
  fun names hk => absurd hk (h names)

theorem Symbol.named_attr (name : String) (span : Span) : (attr name span).Named :=
  named_of_kind fun _ h => nomatch h

theorem Symbol.named_array (span : Span) : (array span).Named := named_of_kind fun _ h => nomatch h

theorem Symbol.named_map (span : Span) : (map span).Named := named_of_kind fun _ h => nomatch h

/-! ## Trees -/

namespace Tree

mutual
def Sound : Tree → Prop
  | node symbol children =>
    symbol.Named ∧ (symbol.kind = .attr → children.length = 1) ∧ SoundAll symbol.kind.admits children

/-- Sound trees whose kinds are let in by `admitted`. -/
def SoundAll (admitted : SymbolKind → Bool) : List Tree → Prop
  | [] => True
  | t :: ts => admitted t.symbol.kind = true ∧ t.Sound ∧ SoundAll admitted ts
end

theorem sound_node {s : Symbol} {ts : List Tree} :
    (node s ts).Sound ↔
      s.Named ∧ (s.kind = .attr → ts.length = 1) ∧ SoundAll s.kind.admits ts := by
  rw [Sound]

variable {admitted : SymbolKind → Bool}

@[simp] theorem soundAll_nil : SoundAll admitted [] := trivial

theorem soundAll_append {as bs : List Tree} :
    SoundAll admitted (as ++ bs) ↔ SoundAll admitted as ∧ SoundAll admitted bs := by
  induction as with
  | nil => simp
  | cons t ts ih => simp only [List.cons_append, SoundAll, ih, and_assoc]

theorem soundAll_singleton {t : Tree} :
    SoundAll admitted [t] ↔ admitted t.symbol.kind = true ∧ t.Sound := by
  simp [SoundAll]

theorem SoundAll.of_mem {ts : List Tree} (h : SoundAll admitted ts) {t : Tree} (ht : t ∈ ts) :
    admitted t.symbol.kind = true ∧ t.Sound := by
  induction ts with
  | nil => cases ht
  | cons u us ih =>
    rcases List.mem_cons.mp ht with rfl | hmem
    · exact ⟨h.1, h.2.1⟩
    · exact ih h.2.2 hmem

theorem SoundAll.mono {other : SymbolKind → Bool} {ts : List Tree} (h : SoundAll admitted ts)
    (ha : ∀ kind, admitted kind = true → other kind = true) : SoundAll other ts := by
  induction ts with
  | nil => trivial
  | cons u us ih => exact ⟨ha _ h.1, h.2.1, ih h.2.2⟩

/-- Nothing stands where nothing is admitted. -/
theorem SoundAll.eq_nil {ts : List Tree} (h : SoundAll admitted ts)
    (ha : ∀ kind, admitted kind = false) : ts = [] := by
  cases ts with
  | nil => rfl
  | cons t ts =>
    have hk := h.1
    rw [ha] at hk
    cases hk

theorem Sound.named {t : Tree} (h : t.Sound) : t.symbol.Named := by
  obtain ⟨s, ts⟩ := t
  exact (sound_node.mp h).1

theorem sound_leaf {s : Symbol} (h : s.kind.isValue = true) : (leaf s).Sound := by
  rw [leaf, sound_node]
  refine ⟨Symbol.named_of_kind ?_, ?_, trivial⟩
  · intro names hk
    rw [hk] at h
    cases h
  · intro hk
    rw [hk] at h
    cases h

end Tree

open Hcl.Tree

/-! ## Spines -/

namespace Spine

/-- Whether a symbol of the kind `child` may be added on the innermost level. -/
def admits : Spine → SymbolKind → Bool
  | root _, child => child.isItem
  | under _ symbol _, child => symbol.kind.admits child

/-- What is finished below an open symbol: an attribute has its value when it is complete, an array
has an element, and other kinds are not open at all. -/
def Holds : SymbolKind → Bool → List Tree → Prop
  | .block _, _, _ | .map, _, _ => True
  | .attr, complete, trees => trees.length = complete.toNat
  | .array, complete, trees => complete = true → trees ≠ []
  | _, _, _ => False

def Sound : Spine → Bool → Prop
  | root trees, _ => SoundAll SymbolKind.isItem trees
  | under outer symbol trees, complete =>
    outer.Sound false ∧ outer.admits symbol.kind = true ∧ symbol.Named ∧
      SoundAll symbol.kind.admits trees ∧ Holds symbol.kind complete trees

theorem Sound.under {outer : Spine} {s : Symbol} (h : outer.Sound false)
    (ha : outer.admits s.kind = true) (hn : s.Named) (hk : Holds s.kind false []) :
    (under outer s []).Sound false :=
  ⟨h, ha, hn, trivial, hk⟩

/-- A level that is open may be complete; one that has just got a value is. -/
theorem Holds.append {kind : SymbolKind} {ts : List Tree} (h : Holds kind false ts) (t : Tree) :
    Holds kind true (ts ++ [t]) := by
  cases kind <;> simp_all [Holds]

theorem Sound.append {sp : Spine} (h : sp.Sound false) {t : Tree}
    (ha : sp.admits t.symbol.kind = true) (ht : t.Sound) : (sp.append [t]).Sound true := by
  cases sp with
  | root ts => exact soundAll_append.mpr ⟨h, soundAll_singleton.mpr ⟨ha, ht⟩⟩
  | under outer s ts =>
    obtain ⟨ho, hs, hn, hts, hh⟩ := h
    exact ⟨ho, hs, hn, soundAll_append.mpr ⟨hts, soundAll_singleton.mpr ⟨ha, ht⟩⟩, hh.append t⟩

theorem Sound.of_complete {sp : Spine} {c : Bool} (h : sp.Sound c)
    (hk : ∀ outer s ts, sp = Spine.under outer s ts → s.kind ≠ .attr) : sp.Sound false := by
  cases sp with
  | root ts => exact h
  | under outer s ts =>
    obtain ⟨ho, hs, hn, hts, hh⟩ := h
    refine ⟨ho, hs, hn, hts, ?_⟩
    have := hk outer s ts rfl
    cases hkind : s.kind <;> simp_all [Holds]

end Spine

end Hcl
