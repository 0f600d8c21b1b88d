import Hcl.Proofs.Builder.Cover
import Hcl.Proofs.TokenStream.Extend

/-!
# Moves that do not see the end

A run that closes every bracket and leaves a token makes the same moves when more tokens follow. So
does one up to the end of a source that has its last operand: behind the value of an attribute it
finds at least the line break.
-/

namespace Hcl

open Hcl.Tree Hcl.TokenStream
open Relation (ReflTransGen)

variable {source : List Char} {s s' rest more : TokenStream} {t : Token} {outer sp : Spine}
  {symbol : Symbol} {trees : List Tree}

/-! ## Open brackets -/

/-- Whether a block, array or map is open. -/
def Spine.Bracketed : Spine → Prop
  | .root _ => False
  | .under outer symbol _ => symbol.kind ≠ .attr ∨ outer.Bracketed

theorem Spine.bracketed_append {more : List Tree} :
    (sp.append more).Bracketed ↔ sp.Bracketed := by
  cases sp <;> rfl

theorem TokenStream.mem_of_skipNewlines {ts : List Token} {e : Except LexicalError Position}
    (h : s.skipNewlines = ⟨t :: ts, e⟩) : t ∈ s.tokens :=
  (suffix_skipNewlines s).tokens.subset (by rw [h]; exact List.mem_cons_self)

/-- What is open stays open, unless a bracket closes it. -/
theorem Move.bracketed {st st' : Stage} (hmove : Move source st st') (h : st.spine.Bracketed) :
    st'.spine.Bracketed ∨ ∃ t ∈ st.stream.tokens, t.kind.closesBracket = true := by
  cases hmove with
  | attr | block | bodyArray | array | map | entry => exact .inl (.inr h)
  | operand | comprehension | element => exact .inl h
  | attrEnd hk => exact .inl (Spine.bracketed_append.mpr (h.resolve_left fun hne => hne hk))
  | @blockEnd _ _ _ _ _ t _ _ _ _ hs ht | @arrayEnd _ _ _ _ t _ _ _ hs ht
  | @mapEnd _ _ _ _ _ t _ _ _ hs ht =>
    exact .inr ⟨t, mem_of_skipNewlines hs, by rw [ht]; rfl⟩

/-- If no bracket is open at the end, those that are open are closed. -/
theorem Move.exists_closing {st last : Stage} (hmoves : ReflTransGen (Move source) st last)
    (hlast : ¬last.spine.Bracketed) (h : st.spine.Bracketed) :
    ∃ t ∈ st.stream.tokens, t.kind.closesBracket = true := by
  induction hmoves using ReflTransGen.head_induction_on with
  | refl => exact absurd h hlast
  | head hmove hmoves ih =>
    rcases hmove.bracketed h with h' | hclosing
    · obtain ⟨t, ht, hc⟩ := ih h'
      exact ⟨t, hmove.suffix.tokens.subset ht, hc⟩
    · exact hclosing

/-! ## Parts of moves -/

theorem Stage.Covered.of_under {c : Bool} {v : Tree}
    (h : Covered source ⟨outer.under symbol (trees ++ [v]), c, s⟩) : v.Spanned source := by
  obtain ⟨a, ⟨-, b, -, hts⟩, -⟩ := h
  exact (hts.of_mem (List.mem_append_right _ List.mem_cons_self)).1

theorem Stage.Covered.of_append {c : Bool} {v : Tree}
    (h : Covered source ⟨sp.append [v], c, s⟩) : v.Spanned source := by
  cases sp with
  | root trees =>
    obtain ⟨a, hfollow, -⟩ := h
    exact (Follow.of_mem hfollow (List.mem_append_right _ List.mem_cons_self)).1
  | under outer symbol trees => exact h.of_under

theorem Extends.ne_nil {v v' : Tree} (hx : Extends source v s v' s') (hs : Settled s.tokens)
    (hne : s.tokens ≠ []) : s'.tokens ≠ [] := by
  cases hx with
  | stay => exact hne
  | operation _ he => exact hs.ne_nil_of_expressionEnd hne he

theorem Extends.extend {v v' : Tree} (hx : Extends source v s v' s') (hrest : s'.tokens ≠ [])
    (hv : v'.Spanned source) (text : List Char) (more : TokenStream) :
    Extends (source ++ text) v (s.extend more) v' (s'.extend more) := by
  cases hx with
  | stay hp hoperator hquestion =>
    exact .stay ((peek_extend more hrest).trans hp) hoperator hquestion
  | operation hop he =>
    rw [← Symbol.eval_append (spanned_node.mp hv).1 text]
    exact .operation hop (expressionEnd_extend hrest he more)

theorem AttrEnd.extend {inMap : Prop} (hend : AttrEnd inMap s rest) (hne : s.tokens ≠ [])
    (more : TokenStream) : AttrEnd inMap (s.extend more) (rest.extend more) := by
  cases hend with
  | newline hk => exact .newline hk
  | comma hk hmap => exact .comma hk hmap
  | stop hp hk => exact .stop ((peek_extend more hne).trans hp) hk

theorem Separator.extend (hsep : Separator s rest) (hne : rest.tokens ≠ []) (more : TokenStream) :
    Separator (s.extend more) (rest.extend more) := by
  cases hsep with
  | comma hs hk =>
    refine .comma ?_ hk
    rw [skipNewlines_extend more (by rw [hs]; exact List.cons_ne_nil _ _), hs]
    rfl
  | stop hfirst hp hk hstop =>
    have hs : s.tokens ≠ [] := fun hnil => hne (by simp [skipNewlines, hnil])
    rw [← skipNewlines_extend more hne]
    refine .stop ((peek_extend more hs).trans hfirst) ?_ hk hstop
    rw [skipNewlines_extend more hne]
    exact (peek_extend more hne).trans hp

theorem EntryKey.extend {key : String} {span : Span} {a : Nat}
    (hkey : EntryKey source s key span rest) (h : Located source a s.tokens) (text : List Char)
    (more : TokenStream) :
    EntryKey (source ++ text) (s.extend more) key span (rest.extend more) := by
  cases hkey with
  | word hk => exact .word hk
  | @group t ts e stop rest hk hg =>
    cases h with
    | cons hgap ht hts =>
      obtain ⟨hle, hrest⟩ := located_of_skipGroup hts hg
      have hstop : (t.span.upTo stop).stop = stop.stop := Span.stop_upTo (Nat.le_trans ht.le hle)
      obtain ⟨w, hw⟩ := Span.exists_slice? (s := t.span.upTo stop) ht.start
        (by rw [hstop]; exact hrest.boundary)
      have hw' := Span.slice?_append_right hw text
      have hg' := skipGroup_extend hg more
      rw [hw, ← hw']
      exact .group hk hg'

/-! ## What is left behind a value -/

/-- Something stands behind the value of an attribute. -/
def Stage.Followed (st : Stage) : Prop :=
  ∀ {outer symbol trees}, st.spine = .under outer symbol trees → symbol.kind = .attr →
    st.complete = true → st.stream.tokens ≠ []

theorem Stage.followed_of_ne_nil {st : Stage} (h : st.stream.tokens ≠ []) : st.Followed :=
  fun _ _ _ => h

theorem Stage.followed_of_not_complete {st : Stage} (h : st.complete = false) : st.Followed :=
  fun _ _ hc => absurd (h.symm.trans hc) Bool.false_ne_true

/-- A sound stage with a line break in front of the end, and behind the value of an attribute. -/
structure Stage.Settled (st : Stage) : Prop where
  sound : st.spine.Sound st.complete
  tokens : TokenStream.Settled st.stream.tokens
  followed : st.Followed

/-- What is left behind a value that is read at once. -/
theorem TokenStream.Settled.of_valueStream {kind : SymbolKind} {ts : List Token}
    {e : Except LexicalError Position} (hs : Settled s.tokens)
    (h : Spine.valueStream kind s = ⟨t :: ts, e⟩) (hk : t.kind ≠ .newline) :
    Settled ts ∧ ts ≠ [] := by
  have hs' : Settled (t :: ts) := by
    rw [Spine.valueStream] at h
    split at h
    · exact hs.of_suffix (by have := (suffix_skipNewlines s).tokens; rwa [h] at this)
    · rwa [h] at hs
  exact ⟨hs'.tail, hs'.ne_nil hk⟩

theorem TokenStream.Settled.ne_nil_of_value {kind : SymbolKind} {ts : List Token} {value : Symbol}
    {e : Except LexicalError Position} (hs : Settled s.tokens)
    (h : Spine.valueStream kind s = ⟨t :: ts, e⟩)
    (hv : TokenStream.operand source t ⟨ts, e⟩ = .ok (value, rest)) : rest.tokens ≠ [] := by
  have hfirst : t.kind ≠ .newline := fun hnewline => by
    simp [TokenStream.operand, hnewline] at hv
  obtain ⟨hts, hne⟩ := hs.of_valueStream h hfirst
  exact hts.ne_nil_of_operand hne (readsOperand_of_operand hv)

theorem TokenStream.Settled.of_skipNewlines {ts : List Token} {e : Except LexicalError Position}
    (hs : Settled s.tokens) (h : s.skipNewlines = ⟨t :: ts, e⟩) : ts ≠ [] := by
  have hs' : Settled (t :: ts) :=
    hs.of_suffix (by have := (suffix_skipNewlines s).tokens; rwa [h] at this)
  exact hs'.ne_nil (head_skipNewlines h)

theorem Move.followed {st st' : Stage} (hmove : Move source st st') (h : st.Settled) :
    st'.Followed := by
  obtain ⟨hsound, hs, -⟩ := h
  cases hmove with
  | attr | block | bodyArray | array | map | element | entry =>
    exact Stage.followed_of_not_complete rfl
  | blockEnd _ hskip _ | arrayEnd _ hskip _ | mapEnd _ hskip _ =>
    exact Stage.followed_of_ne_nil (hs.of_skipNewlines hskip)
  | operand _ hvs hv => exact Stage.followed_of_ne_nil (hs.ne_nil_of_value hvs hv)
  | comprehension _ hvs hbracket _ hv =>
    obtain ⟨hts, -⟩ := hs.of_valueStream hvs fun hnewline => by simp [hnewline] at hbracket
    exact Stage.followed_of_ne_nil (hts.ne_nil_of_comprehension hv)
  | @attrEnd outer symbol v v' s s' rest hk hx hend =>
    -- an attribute is no value, so the scope around it is none of an attribute
    obtain ⟨-, hadmits, -⟩ := hsound
    intro outer' symbol' trees' hsp hattr
    cases outer with
    | root => cases hsp
    | under outer symbol' trees =>
      cases hsp
      simp [Spine.admits, hattr, hk, SymbolKind.admits, SymbolKind.isValue] at hadmits

theorem Move.settled {st st' : Stage} (hmove : Move source st st') (h : st.Settled) :
    st'.Settled :=
  ⟨hmove.sound h.sound, h.tokens.of_suffix hmove.suffix.tokens, hmove.followed h⟩

/-! ## Moves -/

def Stage.extend (st : Stage) (more : TokenStream) : Stage :=
  { st with stream := st.stream.extend more }

theorem TokenStream.skipNewlines_extend_cons {ts : List Token} {e : Except LexicalError Position}
    (h : s.skipNewlines = ⟨t :: ts, e⟩) (more : TokenStream) :
    (s.extend more).skipNewlines = ⟨t :: (ts ++ more.tokens), more.ending⟩ := by
  rw [skipNewlines_extend more (by rw [h]; exact List.cons_ne_nil _ _), h]
  rfl

theorem Spine.valueStream_extend {kind : SymbolKind} {ts : List Token}
    {e : Except LexicalError Position} (h : valueStream kind s = ⟨t :: ts, e⟩)
    (more : TokenStream) :
    valueStream kind (s.extend more) = ⟨t :: (ts ++ more.tokens), more.ending⟩ := by
  rw [valueStream] at h ⊢
  split at h
  · rename_i hk
    rw [if_pos hk]
    exact skipNewlines_extend_cons h more
  · rename_i hk
    rw [if_neg hk, h]
    rfl

theorem Move.extend {st st' : Stage} (hmove : Move source st st') (hcovered : st.Covered source)
    (hfollow : st'.stream.tokens ≠ [] ∨ st.Settled)
    (hclosing : st'.spine.Bracketed → ∃ t ∈ st'.stream.tokens, t.kind.closesBracket = true)
    (text : List Char) (more : TokenStream) :
    Move (source ++ text) (st.extend more) (st'.extend more) := by
  have hcovered' := hmove.covered hcovered
  cases hmove with
  | attr hb hskip hk hsign hd => exact .attr hb (skipNewlines_extend_cons hskip more) hk hsign hd
  | block hb hskip hk hl hd =>
    exact .block hb (skipNewlines_extend_cons hskip more) hk (labels_extend hl more) hd
  | bodyArray hb hskip hk hd => exact .bodyArray hb (skipNewlines_extend_cons hskip more) hk hd
  | blockEnd hk hskip ht => exact .blockEnd hk (skipNewlines_extend_cons hskip more) ht
  | @operand outer symbol trees s rest first ts e value hk hvs hv =>
    have hq : value.Quotes source := (spanned_node.mp hcovered'.of_under).1
    have hrest : rest.tokens ≠ [] := hfollow.elim id fun h => h.tokens.ne_nil_of_value hvs hv
    obtain ⟨value', hv', -, hsame⟩ := (readsOperand_of_operand hv).extend hrest text more
    obtain rfl := hsame hq
    exact .operand hk (Spine.valueStream_extend hvs more) hv'.operand_eq
  | @comprehension outer symbol trees s rest first ts e value hk hvs hbracket ha hv =>
    have hq : value.Quotes source := (spanned_node.mp hcovered'.of_under).1
    obtain ⟨value', hv', -, hsame⟩ := comprehension_extend hv text more
    obtain rfl := hsame hq
    have ha' := (comprehensionAhead_extend (closes_of_comprehension hv) more).trans ha
    exact .comprehension hk (Spine.valueStream_extend hvs more) hbracket ha' hv'
  | @array _ _ _ _ _ ts e hk hvs ht ha hd =>
    have hclosed := hclosing (.inl (by simp [Symbol.array]))
    have ha' := (comprehensionAhead_extend (s := ⟨ts, e⟩) hclosed more).trans ha
    exact .array hk (Spine.valueStream_extend hvs more) ht ha' hd
  | @map _ _ _ _ _ ts e hk hvs ht ha hd =>
    have hclosed := hclosing (.inl (by simp [Symbol.map]))
    have ha' := (comprehensionAhead_extend (s := ⟨ts, e⟩) hclosed more).trans ha
    exact .map hk (Spine.valueStream_extend hvs more) ht ha' hd
  | @attrEnd outer symbol v v' s s' rest hk hx hend =>
    have hv : v'.Spanned source := by
      obtain ⟨-, b, c, -, hvs, -⟩ := spanned_node.mp hcovered'.of_append
      exact (hvs.of_mem List.mem_cons_self).1
    have hrest : s'.tokens ≠ [] := hfollow.elim
      (fun h => List.ne_nil_of_mem (hend.suffix.tokens.subset (List.head_mem h)))
      fun h => hx.ne_nil h.tokens (h.followed rfl hk rfl)
    exact .attrEnd hk (hx.extend hrest hv text more) (hend.extend hrest more)
  | @element outer symbol trees v v' s s' rest hk hx hsep =>
    have hv : v'.Spanned source := hcovered'.of_under
    obtain ⟨u, hu, -⟩ := hclosing (.inl (by simp [hk]))
    have hrest : s'.tokens ≠ [] := List.ne_nil_of_mem (hsep.suffix.tokens.subset hu)
    exact .element hk (hx.extend hrest hv text more) (hsep.extend (List.ne_nil_of_mem hu) more)
  | arrayEnd hk hskip ht => exact .arrayEnd hk (skipNewlines_extend_cons hskip more) ht
  | @entry outer symbol trees c s sign ts e key span hk hkey hsign hd =>
    obtain ⟨a, -, hlocated⟩ := hcovered
    obtain ⟨b, -, hlocated⟩ := exists_located_skipNewlines hlocated
    have hne : s.skipNewlines.tokens ≠ [] :=
      List.ne_nil_of_mem (hkey.suffix.tokens.subset List.mem_cons_self)
    have hkey' := hkey.extend hlocated text more
    rw [← skipNewlines_extend more hne] at hkey'
    exact .entry hk hkey' hsign hd
  | mapEnd hk hskip ht => exact .mapEnd hk (skipNewlines_extend_cons hskip more) ht

/-- A run that comes out of all brackets makes the same moves when more tokens follow, if it leaves
a token or none of its parts waits for one. -/
theorem Move.extend_of_reflTransGen {st last : Stage}
    (hmoves : ReflTransGen (Move source) st last) (hlast : ¬last.spine.Bracketed)
    (hcovered : st.Covered source) (hfollow : last.stream.tokens ≠ [] ∨ st.Settled)
    (text : List Char) (more : TokenStream) :
    ReflTransGen (Move (source ++ text)) (st.extend more) (last.extend more) := by
  induction hmoves using ReflTransGen.head_induction_on with
  | refl => exact .refl
  | head hmove hmoves ih =>
    have hsuffix := (Move.suffix_of_reflTransGen hmoves).tokens
    have hmove' := hmove.extend hcovered
      (hfollow.imp_left fun h => List.ne_nil_of_mem (hsuffix.subset (List.head_mem h)))
      (Move.exists_closing hmoves hlast) text more
    exact .head hmove' (ih (hmove.covered hcovered) (hfollow.imp_right hmove.settled))

end Hcl
