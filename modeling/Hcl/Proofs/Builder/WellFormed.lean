import Hcl.Proofs.Builder.Run
import Hcl.Proofs.Forest.WellFormed

/-!
# What is built is well-formed

The tree of a source is well-formed whether or not the reading of the source came to its end. Only
the attribute whose value was being read when it stopped may be without one.
-/

namespace Hcl

/-- A run that ends without an error has left no symbol open. -/
theorem Stage.Ends.exists_forest {source : List Char} {st : Stage} {parsed : Parsed}
    (h : st.Ends source parsed) (hs : st.spine.Sound st.complete) :
    ∃ ts, parsed.tree = .ofForest ts ∧ Tree.PartialAll SymbolKind.isItem ts ∧
      (parsed.error = none → Tree.SoundAll SymbolKind.isItem ts) := by
  cases h with
  | @finish trees t hroot hpeek heof =>
    refine ⟨st.spine.forest, rfl, hs.partialAll_forest, fun _ => ?_⟩
    rw [hroot] at hs ⊢
    simpa [Spine.forest, Spine.forestWith, Spine.Sound] using hs
  | @stop stopped sp c hstep htree hsound _ =>
    exact ⟨sp.forest, htree, hsound.partialAll_forest, by simp⟩

/-- The tree that is read of any source is well-formed. Without an error every attribute has a
value; with one, an attribute that has none is the last symbol. -/
theorem wellFormed_parseTree (source : String) :
    (parseTree source).tree.WellFormed ∧
      ((parseTree source).error = none → ∀ id e, (parseTree source).tree.get? id = some e →
        e.symbol.kind = .attr → e.children.size = 1) ∧
      (∀ id e, (parseTree source).tree.get? id = some e → e.symbol.kind = .attr →
        e.children = #[] → id + 1 = (parseTree source).tree.size) := by
  obtain ⟨st, -, hsound, hends⟩ := exists_ends_parseTree source
  obtain ⟨ts, htree, hpartial, hwhole⟩ := hends.exists_forest hsound
  rw [htree]
  refine ⟨SymbolTree.wellFormed_ofForest hpartial, fun herror id e he hk => ?_,
    fun id e he hk hc => ?_⟩
  · exact SymbolTree.size_children_attr_of_soundAll (hwhole herror) he hk
  · exact SymbolTree.last_of_attr_without_child hpartial he hk hc

end Hcl
