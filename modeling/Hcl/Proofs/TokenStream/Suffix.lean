import Mathlib.Logic.Relation
import Hcl.Proofs.Builder.Move
import Hcl.Proofs.TokenStream.Operand

/-!
# What a reader leaves

Readers take tokens from the front of a stream and leave the rest as it was, with the end it had.
-/

namespace Hcl.TokenStream

/-- What is left of the stream `s` at some point. -/
structure Suffix (rest s : TokenStream) : Prop where
  ending : rest.ending = s.ending
  tokens : rest.tokens <:+ s.tokens

variable {s mid rest : TokenStream} {t : Token} {ts : List Token}
  {ending : Except LexicalError Position}

theorem Suffix.refl (s : TokenStream) : s.Suffix s := ⟨rfl, List.suffix_refl _⟩

theorem Suffix.trans (h : rest.Suffix mid) (h' : mid.Suffix s) : rest.Suffix s :=
  ⟨h.ending.trans h'.ending, h.tokens.trans h'.tokens⟩

theorem Suffix.cons (h : rest.Suffix ⟨ts, ending⟩) : rest.Suffix ⟨t :: ts, ending⟩ :=
  ⟨h.ending, h.tokens.trans (List.suffix_cons t ts)⟩

theorem suffix_skipNewlines (s : TokenStream) : s.skipNewlines.Suffix s :=
  ⟨rfl, List.dropWhile_suffix _⟩

theorem suffix_tail (s : TokenStream) : s.tail.Suffix s := ⟨rfl, List.tail_suffix _⟩

theorem suffix_of_skipNewlines (h : s.skipNewlines = ⟨t :: ts, ending⟩) :
    Suffix ⟨ts, ending⟩ s :=
  (Suffix.cons (.refl _)).trans (h ▸ suffix_skipNewlines s)

/-- A group ends with its closing bracket. -/
theorem exists_last_of_skipGroupFrom {start : Position} {depth : Nat} {stop : Span}
    (h : skipGroupFrom start ending depth ts = .ok (stop, rest)) :
    ∃ front t, ts = front ++ t :: rest.tokens ∧ t.span = stop ∧ t.kind.closesBracket = true := by
  induction ts generalizing depth with
  | nil =>
    simp only [skipGroupFrom] at h
    split at h <;> cases h
  | cons t ts ih =>
    have hmore : ∀ {depth}, skipGroupFrom start ending depth ts = .ok (stop, rest) →
        ∃ front u, t :: ts = front ++ u :: rest.tokens ∧ u.span = stop ∧
          u.kind.closesBracket = true := fun h => by
      obtain ⟨front, u, hts, hu⟩ := ih h
      exact ⟨t :: front, u, by rw [hts, List.cons_append], hu⟩
    simp only [skipGroupFrom] at h
    split at h
    · exact hmore h
    split at h
    · rename_i hc
      split at h
      · simp only [Except.ok.injEq, Prod.mk.injEq] at h
        obtain ⟨rfl, rfl⟩ := h
        exact ⟨[], t, rfl, rfl, hc⟩
      · exact hmore h
    · exact hmore h

theorem suffix_of_skipGroupFrom {start : Position} {depth : Nat} {stop : Span}
    (h : skipGroupFrom start ending depth ts = .ok (stop, rest)) : rest.Suffix ⟨ts, ending⟩ := by
  induction ts generalizing depth with
  | nil =>
    simp only [skipGroupFrom] at h
    split at h <;> cases h
  | cons t ts ih =>
    simp only [skipGroupFrom] at h
    split at h
    · exact (ih h).cons
    split at h
    · split at h
      · simp only [Except.ok.injEq, Prod.mk.injEq] at h
        obtain ⟨-, rfl⟩ := h
        exact .cons (.refl _)
      · exact (ih h).cons
    · exact (ih h).cons

theorem suffix_of_skipGroup {start : Position} {stop : Span}
    (h : s.skipGroup start = .ok (stop, rest)) : rest.Suffix s :=
  suffix_of_skipGroupFrom h

theorem suffix_of_expressionEndFrom {start : Position} {stop last : Span} {depth : Nat}
    {dangling : Bool} (h : expressionEndFrom start ending stop depth dangling ts = .ok (last, rest)) :
    rest.Suffix ⟨ts, ending⟩ := by
  induction ts generalizing stop depth dangling with
  | nil =>
    simp only [expressionEndFrom] at h
    split at h
    · cases h
    split at h
    · simp only [Except.ok.injEq, Prod.mk.injEq] at h
      obtain ⟨-, rfl⟩ := h
      exact .refl _
    · cases h
  | cons t ts ih =>
    have hend : Except.ok (stop, ⟨t :: ts, ending⟩) = (Except.ok (last, rest) : Reading Span) →
        rest.Suffix ⟨t :: ts, ending⟩ := fun h => by
      simp only [Except.ok.injEq, Prod.mk.injEq] at h
      obtain ⟨-, rfl⟩ := h
      exact .refl _
    simp only [expressionEndFrom] at h
    split at h
    · split at h
      · exact hend h
      · exact (ih h).cons
    split at h
    · split at h
      · exact hend h
      · exact (ih h).cons
    split at h
    · exact hend h
    · exact (ih h).cons

theorem suffix_of_expressionEnd {first last : Span} (h : s.expressionEnd first = .ok (last, rest)) :
    rest.Suffix s :=
  suffix_of_expressionEndFrom h

theorem suffix_of_steps {kind : EvalKind} {stop : Option Span} {r : EvalKind × Option Span}
    (h : steps kind stop s = .ok (r, rest)) : rest.Suffix s := by
  fun_induction steps kind stop s with
  | case4 kind stop t ending hd step ts hs ih => exact (ih h).cons.cons
  | case7 kind stop t ts ending hd hb stop' rest' hg ih =>
    exact ((ih h).trans (suffix_of_skipGroup hg)).cons
  | case9 kind stop t ts ending hd hb hp stop' rest' hg ih =>
    exact ((ih h).trans (suffix_of_skipGroup hg)).cons
  | case2 | case10 =>
    simp only [Except.ok.injEq, Prod.mk.injEq] at h
    obtain ⟨-, rfl⟩ := h
    exact .refl _
  | _ => simp at h

theorem suffix_of_operand {source : List Char} {first : Token} {value : Symbol}
    (h : s.operand source first = .ok (value, rest)) : rest.Suffix s := by
  cases readsOperand_of_operand h with
  | literal _ => exact .refl s
  | keyword _ hs _ => exact suffix_of_steps hs
  | traversal _ hs _ => exact suffix_of_steps hs
  | group _ hg => exact suffix_of_skipGroup hg
  | operation _ _ hx => exact suffix_of_expressionEnd hx

theorem suffix_of_comprehension {source : List Char} {first : Token} {value : Symbol}
    (h : s.comprehension source first = .ok (value, rest)) : rest.Suffix s := by
  obtain ⟨⟨stop, rest'⟩, hs, hr⟩ := exists_of_map_ok h
  simp only [Prod.mk.injEq] at hr
  exact hr.2 ▸ suffix_of_skipGroup hs

theorem suffix_of_labelsFrom {read names : List String}
    (h : labelsFrom ending read ts = .ok (names, rest)) : rest.Suffix ⟨ts, ending⟩ := by
  induction ts generalizing read with
  | nil =>
    simp only [labelsFrom] at h
    split at h <;> cases h
  | cons t ts ih =>
    simp only [labelsFrom] at h
    split at h
    · exact (ih h).cons
    split at h
    · simp only [Except.ok.injEq, Prod.mk.injEq] at h
      obtain ⟨-, rfl⟩ := h
      exact .cons (.refl _)
    · cases h

end TokenStream

/-! ## Moves -/

open TokenStream

variable {source : List Char} {s s' rest : TokenStream} {t : Token}

theorem Spine.suffix_of_valueStream {kind : SymbolKind} {ts : List Token}
    {e : Except LexicalError Position} (h : valueStream kind s = ⟨t :: ts, e⟩) :
    Suffix ⟨ts, e⟩ s := by
  rw [valueStream] at h
  split at h
  · exact suffix_of_skipNewlines h
  · exact h ▸ .cons (.refl _)

theorem Extends.suffix {v v' : Tree} (h : Extends source v s v' s') : s'.Suffix s := by
  cases h with
  | stay => exact .refl s
  | operation _ he => exact suffix_of_expressionEnd he

theorem AttrEnd.suffix {inMap : Prop} (h : AttrEnd inMap s rest) : rest.Suffix s := by
  cases h with
  | newline => exact .cons (.refl _)
  | comma => exact .cons (.refl _)
  | stop => exact .refl s

theorem Separator.suffix (h : Separator s rest) : rest.Suffix s := by
  cases h with
  | comma hs => exact suffix_of_skipNewlines hs
  | stop => exact suffix_skipNewlines s

theorem EntryKey.suffix {key : String} {span : Span} (h : EntryKey source s key span rest) :
    rest.Suffix s := by
  cases h with
  | word => exact .cons (.refl _)
  | group _ hg => exact (suffix_of_skipGroup hg).cons

theorem Move.suffix {st st' : Stage} (h : Move source st st') : st'.stream.Suffix st.stream := by
  cases h with
  | attr _ hs => exact (Suffix.cons (.refl _)).trans (suffix_of_skipNewlines hs)
  | block _ hs _ hl => exact (suffix_of_labelsFrom hl).trans (suffix_of_skipNewlines hs)
  | bodyArray _ hs => exact suffix_of_skipNewlines hs
  | blockEnd _ hs => exact suffix_of_skipNewlines hs
  | operand _ hs hv => exact (suffix_of_operand hv).trans (Spine.suffix_of_valueStream hs)
  | comprehension _ hs _ _ hv =>
    exact (suffix_of_comprehension hv).trans (Spine.suffix_of_valueStream hs)
  | array _ hs => exact Spine.suffix_of_valueStream hs
  | map _ hs => exact Spine.suffix_of_valueStream hs
  | attrEnd _ hx hend => exact hend.suffix.trans hx.suffix
  | element _ hx hsep => exact hsep.suffix.trans hx.suffix
  | arrayEnd _ hs => exact suffix_of_skipNewlines hs
  | entry _ hkey => exact (Suffix.cons (.refl _)).trans (hkey.suffix.trans (suffix_skipNewlines _))
  | mapEnd _ hs => exact suffix_of_skipNewlines hs

theorem Move.suffix_of_reflTransGen {st st' : Stage}
    (h : Relation.ReflTransGen (Move source) st st') : st'.stream.Suffix st.stream :=
  run_of_step (P := fun last => last.stream.Suffix st.stream)
    (fun hmove ih => hmove.suffix.trans ih) h (.refl _)

end Hcl
