import Mathlib.Data.List.Chain
import Hcl.Proofs.Forest.Entries
import Hcl.Proofs.Forest.Spine
import Hcl.Proofs.TokenStream.Located

/-!
# Forests that cover their source

The span of a symbol contains the spans of what is below it, one behind the other and with nothing
but separators in between. The same is said of the levels of a spine up to the place to which the
source has been read.
-/

namespace Hcl

/-- What may stand between two children of a symbol, besides blanks and comments. -/
def SymbolKind.separators : SymbolKind → List Char
  | array | map => ['\n', ',']
  | _ => ['\n']

theorem SymbolKind.newline_mem_separators (kind : SymbolKind) : '\n' ∈ kind.separators := by
  cases kind <;> exact List.mem_cons_self

namespace Tree

variable {source seps : List Char} {a b c : Nat}

mutual
def Spanned (source : List Char) : Tree → Prop
  | node symbol children =>
    symbol.Quotes source ∧ ∃ a b, symbol.span.start.offset ≤ a ∧
      Follow source symbol.kind.separators a children b ∧ b ≤ symbol.span.stop

/-- From one place to another there are the trees and separators around them. -/
def Follow (source seps : List Char) : Nat → List Tree → Nat → Prop
  | a, [], b => Gap source seps a b
  | a, t :: ts, b =>
    Gap source seps a t.symbol.span.start.offset ∧ t.Spanned source ∧
      Follow source seps t.symbol.span.stop ts b
end

theorem spanned_node {s : Symbol} {ts : List Tree} :
    (node s ts).Spanned source ↔ s.Quotes source ∧ ∃ a b, s.span.start.offset ≤ a ∧
      Follow source s.kind.separators a ts b ∧ b ≤ s.span.stop := by
  rw [Spanned]

@[simp] theorem follow_nil : Follow source seps a [] b ↔ Gap source seps a b := by rw [Follow]

@[simp] theorem follow_cons {t : Tree} {ts : List Tree} :
    Follow source seps a (t :: ts) b ↔ Gap source seps a t.symbol.span.start.offset ∧
      t.Spanned source ∧ Follow source seps t.symbol.span.stop ts b := by
  rw [Follow]

theorem spanned_leaf {s : Symbol} (hq : s.Quotes source)
    (hb : Boundary source s.span.start.offset) : (leaf s).Spanned source :=
  spanned_node.mpr ⟨hq, _, _, Nat.le_refl _, follow_nil.mpr (.refl hb), Nat.le_add_right _ _⟩

theorem follow_append {as bs : List Tree} :
    Follow source seps a (as ++ bs) c ↔
      ∃ b, Follow source seps a as b ∧ Follow source seps b bs c := by
  induction as generalizing a with
  | nil =>
    simp only [List.nil_append, follow_nil]
    constructor
    · intro h
      cases bs with
      | nil => exact ⟨c, follow_nil.mp h, .refl (follow_nil.mp h).boundary_right⟩
      | cons t ts =>
        obtain ⟨hgap, ht, hts⟩ := follow_cons.mp h
        exact ⟨_, hgap, follow_cons.mpr ⟨.refl hgap.boundary_right, ht, hts⟩⟩
    · rintro ⟨b, hab, h⟩
      cases bs with
      | nil => exact follow_nil.mpr (hab.trans (follow_nil.mp h))
      | cons t ts =>
        obtain ⟨hgap, ht, hts⟩ := follow_cons.mp h
        exact follow_cons.mpr ⟨hab.trans hgap, ht, hts⟩
  | cons t ts ih =>
    simp only [List.cons_append, follow_cons, ih]
    constructor
    · rintro ⟨hgap, ht, b, hts, hbs⟩
      exact ⟨b, ⟨hgap, ht, hts⟩, hbs⟩
    · rintro ⟨b, ⟨hgap, ht, hts⟩, hbs⟩
      exact ⟨hgap, ht, b, hts, hbs⟩

theorem follow_singleton {t : Tree} :
    Follow source seps a [t] b ↔ Gap source seps a t.symbol.span.start.offset ∧
      t.Spanned source ∧ Gap source seps t.symbol.span.stop b := by
  rw [follow_cons, follow_nil]

theorem Follow.le {ts : List Tree} (h : Follow source seps a ts b) : a ≤ b := by
  induction ts generalizing a with
  | nil => exact (follow_nil.mp h).le
  | cons t ts ih =>
    obtain ⟨hgap, -, hts⟩ := follow_cons.mp h
    have := hgap.le
    have := ih hts
    simp only [Span.stop] at this
    omega

theorem Follow.gap {ts : List Tree} (h : Follow source seps a ts b) (hg : Gap source seps b c) :
    Follow source seps a ts c := by
  have h' := follow_append.mpr ⟨b, h, follow_nil.mpr hg⟩
  rwa [List.append_nil] at h'

theorem Follow.boundary_right {ts : List Tree} (h : Follow source seps a ts b) :
    Boundary source b := by
  induction ts generalizing a with
  | nil => exact (follow_nil.mp h).boundary_right
  | cons t ts ih => exact ih (follow_cons.mp h).2.2

theorem Follow.of_mem {ts : List Tree} (h : Follow source seps a ts b) {t : Tree} (ht : t ∈ ts) :
    t.Spanned source ∧ a ≤ t.symbol.span.start.offset ∧ t.symbol.span.stop ≤ b := by
  obtain ⟨before, behind, rfl⟩ := List.append_of_mem ht
  obtain ⟨d, hbefore, hrest⟩ := follow_append.mp h
  obtain ⟨hgap, hs, hbehind⟩ := follow_cons.mp hrest
  exact ⟨hs, Nat.le_trans hbefore.le hgap.le, hbehind.le⟩

theorem Occurs.spanned {n id : Nat} {parent p : Option Nat} {ts : List Tree} {u : Tree}
    (h : Occurs n parent ts id p u) (hts : ∀ t ∈ ts, t.Spanned source) : u.Spanned source := by
  induction h with
  | head => exact hts _ List.mem_cons_self
  | tail _ ih => exact ih fun t ht => hts t (List.mem_cons_of_mem _ ht)
  | inside _ ih =>
    obtain ⟨-, a, b, -, hcs, -⟩ := spanned_node.mp (hts _ List.mem_cons_self)
    exact ih fun t ht => (hcs.of_mem ht).1

end Tree

/-! ## Spans one behind the other -/

/-- From the place `a` to the place `b` there are the spans and separators around them. -/
def Between (source seps : List Char) : Nat → List Span → Nat → Prop
  | a, [], b => Gap source seps a b
  | a, s :: spans, b => Gap source seps a s.start.offset ∧ Between source seps s.stop spans b

namespace Between

variable {source seps : List Char} {a b : Nat} {spans : List Span}

theorem le_of_mem (h : Between source seps a spans b) {s : Span} (hs : s ∈ spans) :
    a ≤ s.start.offset := by
  induction spans generalizing a with
  | nil => cases hs
  | cons t ts ih =>
    obtain ⟨hgap, hts⟩ := h
    have hle := hgap.le
    rcases List.mem_cons.mp hs with rfl | hmem
    · exact hle
    · have := ih hts hmem
      simp only [Span.stop] at this
      omega

theorem pairwise (h : Between source seps a spans b) :
    spans.Pairwise fun s t => s.stop ≤ t.start.offset := by
  induction spans generalizing a with
  | nil => exact .nil
  | cons t ts ih => exact .cons (fun s hs => h.2.le_of_mem hs) (ih h.2)

theorem isChain (h : Between source seps a spans b) :
    spans.IsChain fun s t => Gap source seps s.stop t.start.offset := by
  induction spans generalizing a with
  | nil => exact .nil
  | cons t ts ih =>
    cases ts with
    | nil => exact .singleton t
    | cons u us => exact .cons_cons h.2.1 (ih h.2)

end Between

namespace Tree

theorem Follow.between {source seps : List Char} {a b : Nat} {ts : List Tree}
    (h : Follow source seps a ts b) : Between source seps a (ts.map (·.symbol.span)) b := by
  induction ts generalizing a with
  | nil => exact follow_nil.mp h
  | cons t ts ih =>
    obtain ⟨hgap, -, hts⟩ := follow_cons.mp h
    exact ⟨hgap, ih hts⟩

/-- What is known of the trees on a level by their numbers. -/
theorem map_numbers {α : Type} {n : Nat} (parent : Option Nat) {ts : List Tree} {f : Nat → α}
    {g : Tree → α} (hf : ∀ id p u, Occurs n parent ts id p u → f id = g u) :
    (numbers n ts).map f = ts.map g := by
  induction ts generalizing n with
  | nil => rfl
  | cons t ts ih =>
    rw [numbers_cons, List.map_cons, List.map_cons, hf n parent t .head,
      ih fun id p u hocc => hf id p u (.tail hocc)]

end Tree

open Hcl.Tree

/-! ## Symbol trees -/

namespace SymbolTree

/-- The spans of the symbols cover the source as the symbols say. -/
structure Covers (source : List Char) (t : SymbolTree) : Prop where
  inside : ∀ id e p above, t.get? id = some e → e.parent = some p → t.get? p = some above →
    above.symbol.span.start.offset ≤ e.symbol.span.start.offset ∧
      e.symbol.span.stop ≤ above.symbol.span.stop
  children_ordered : ∀ id,
    (t.children id).Pairwise fun c d => (t.span c).stop ≤ (t.span d).start.offset
  roots_ordered : t.roots.toList.Pairwise fun c d => (t.span c).stop ≤ (t.span d).start.offset
  /-- an expression has the text of its span -/
  text_of_eval : ∀ id e x, t.get? id = some e → e.symbol.kind = .eval x →
    e.symbol.span.slice? source = some x.text
  /-- a number, a boolean and `null` have the text of their span -/
  raw_of_literal : ∀ id e type raw, t.get? id = some e → e.symbol.kind = .literal type raw →
    type ≠ .string → e.symbol.span.slice? source = some raw
  /-- two children have only separators between them -/
  between_children : ∀ id e, t.get? id = some e → (t.children id).IsChain fun c d =>
    Gap source e.symbol.kind.separators (t.span c).stop (t.span d).start.offset
  /-- around the roots there are only line breaks -/
  outside_roots : Between source ['\n'] 0 (t.roots.toList.map t.span) (byteCount source)

variable {source : List Char} {ts : List Tree} {id : Nat} {p : Option Nat} {u : Tree}

theorem span_of_occurs (h : Occurs 0 none ts id p u) : (ofForest ts).span id = u.symbol.span := by
  rw [span, get?_of_occurs h]
  rfl

theorem map_span_children (h : Occurs 0 none ts id p u) :
    ((ofForest ts).children id).map (ofForest ts).span = u.children.map (·.symbol.span) := by
  rw [children_of_occurs h]
  exact map_numbers (some id) fun i q v hv => span_of_occurs (h.trans hv)

/-- The children of a symbol stand between two places inside of its span. -/
theorem exists_between_children (hts : ∀ t ∈ ts, t.Spanned source) (h : Occurs 0 none ts id p u) :
    ∃ a b, Between source u.symbol.kind.separators a
      (((ofForest ts).children id).map (ofForest ts).span) b := by
  have hu := h.spanned hts
  rw [map_span_children h]
  obtain ⟨s, cs⟩ := u
  obtain ⟨-, a, b, -, hcs, -⟩ := spanned_node.mp hu
  exact ⟨a, b, hcs.between⟩

theorem covers_ofForest (h : Follow source ['\n'] 0 ts (byteCount source)) :
    (ofForest ts).Covers source := by
  have hts : ∀ t ∈ ts, t.Spanned source := fun t ht => (h.of_mem ht).1
  have hroots : Between source ['\n'] 0 ((ofForest ts).roots.toList.map (ofForest ts).span)
      (byteCount source) := by
    have hmap : (numbers 0 ts).map (ofForest ts).span = ts.map (·.symbol.span) :=
      map_numbers none fun i q v hv => span_of_occurs hv
    have hb := h.between
    rw [← hmap] at hb
    simpa [ofForest] using hb
  have hquotes : ∀ {id e}, (ofForest ts).get? id = some e → e.symbol.Quotes source := by
    intro id e he
    obtain ⟨p, ⟨s, cs⟩, hu, rfl⟩ := exists_occurs_of_get? he
    exact (spanned_node.mp (hu.spanned hts)).1
  exact {
    inside := fun id e q above he hp habove => by
      obtain ⟨r, ⟨s, cs⟩, u, hv, hmem, habove, hu⟩ := exists_occurs_of_parent he hp habove
      obtain ⟨-, a, b, ha, hcs, hb⟩ := spanned_node.mp (hv.spanned hts)
      obtain ⟨-, hstart, hstop⟩ := hcs.of_mem hmem
      rw [habove, hu]
      exact ⟨Nat.le_trans ha hstart, Nat.le_trans hstop hb⟩
    children_ordered := fun id => by
      cases he : (ofForest ts).get? id with
      | none => simp [children, he]
      | some e =>
        obtain ⟨p, u, hu, -⟩ := exists_occurs_of_get? he
        obtain ⟨a, b, hb⟩ := exists_between_children hts hu
        exact List.pairwise_map.mp hb.pairwise
    roots_ordered := List.pairwise_map.mp hroots.pairwise
    text_of_eval := fun id e x he hk => (hquotes he).1 x hk
    raw_of_literal := fun id e type raw he hk htype => (hquotes he).2 type raw hk htype
    between_children := fun id e he => by
      obtain ⟨p, u, hu, rfl⟩ := exists_occurs_of_get? he
      obtain ⟨a, b, hb⟩ := exists_between_children hts hu
      exact (List.isChain_map _).mp hb.isChain
    outside_roots := hroots }

end SymbolTree

/-! ## Spines -/

namespace Spine

variable {source : List Char} {sp outer : Spine} {symbol : Symbol} {trees : List Tree} {a b : Nat}

/-- What may stand between two symbols of the innermost level. -/
def separators : Spine → List Char
  | root _ => ['\n']
  | under _ symbol _ => symbol.kind.separators

/-- The levels cover the source up to the place `a`. The innermost open symbol begins behind its
outer level, and what is below it somewhere behind its beginning. -/
def Spanned (source : List Char) : Spine → Nat → Prop
  | root trees, a => Follow source ['\n'] 0 trees a
  | under outer symbol trees, a =>
    outer.Spanned source symbol.span.start.offset ∧
      ∃ b, symbol.span.start.offset ≤ b ∧ Follow source symbol.kind.separators b trees a

theorem newline_mem_separators (sp : Spine) : '\n' ∈ sp.separators := by
  cases sp with
  | root => exact List.mem_cons_self
  | under outer symbol trees => exact symbol.kind.newline_mem_separators

theorem Spanned.gap (h : sp.Spanned source a) (hg : Gap source sp.separators a b) :
    sp.Spanned source b := by
  cases sp with
  | root ts => exact Follow.gap h hg
  | under outer symbol ts =>
    obtain ⟨ho, c, hc, hts⟩ := h
    exact ⟨ho, c, hc, hts.gap hg⟩

theorem Spanned.newline (h : sp.Spanned source a) (hg : Gap source ['\n'] a b) :
    sp.Spanned source b :=
  h.gap (hg.mono (by simpa using sp.newline_mem_separators))

theorem Spanned.append (h : sp.Spanned source a) {t : Tree}
    (hstart : Gap source sp.separators a t.symbol.span.start.offset) (ht : t.Spanned source)
    (hstop : Gap source sp.separators t.symbol.span.stop b) : (sp.append [t]).Spanned source b := by
  cases sp with
  | root ts => exact follow_append.mpr ⟨a, h, follow_singleton.mpr ⟨hstart, ht, hstop⟩⟩
  | under outer symbol ts =>
    obtain ⟨ho, c, hc, hts⟩ := h
    exact ⟨ho, c, hc, follow_append.mpr ⟨a, hts, follow_singleton.mpr ⟨hstart, ht, hstop⟩⟩⟩

theorem Spanned.under (h : sp.Spanned source symbol.span.start.offset)
    (hle : symbol.span.start.offset ≤ a) (hb : Boundary source a) :
    (Spine.under sp symbol []).Spanned source a :=
  ⟨h, a, hle, follow_nil.mpr (.refl hb)⟩

/-- The innermost symbol is closed by what ends at `stop`. -/
theorem Spanned.close (stop : Span) (h : (Spine.under outer symbol trees).Spanned source a)
    (hq : (symbol.extendTo stop).Quotes source) (hle : a ≤ stop.stop)
    (hstop : Gap source outer.separators stop.stop b) :
    (outer.append [node (symbol.extendTo stop) trees]).Spanned source b := by
  obtain ⟨ho, c, hc, hts⟩ := h
  have hca := hts.le
  have hend : (symbol.extendTo stop).span.stop = stop.stop := Span.stop_upTo (by omega)
  have hstart : Boundary source symbol.span.start.offset := by
    cases outer with
    | root ts => exact Follow.boundary_right ho
    | under outer' symbol' ts =>
      obtain ⟨-, d, -, hts'⟩ := ho
      exact hts'.boundary_right
  refine ho.append (.refl hstart) (spanned_node.mpr ⟨hq, c, a, hc, hts, ?_⟩) ?_
  · rw [hend]
    exact hle
  · rw [symbol_node, hend]
    exact hstop

end Spine

end Hcl
