import Hcl.Proofs.Builder.Deferred
import Hcl.Proofs.TokenStream.Brackets

/-!
# Brackets of a source

Bodies, arrays and maps end with a bracket of their own kind. An expression that is left for later,
and a key in parentheses, end where as many brackets are closed as were opened; their brackets are
balanced, but need not be matched. So the brackets of a source are matched if they are in each of
these.
-/

namespace Hcl

open Hcl.Tree Hcl.TokenStream

/-! ## Tokens of a symbol -/

/-- The tokens that begin inside of the span. -/
def Span.tokens (span : Span) (ts : List Token) : List Token :=
  ts.filter fun t =>
    span.start.offset ≤ t.span.start.offset ∧ t.span.start.offset < span.stop

/-- The place of the name, if it is kept as it is written. -/
def Symbol.nameSpan (s : Symbol) : Span := ⟨s.span.start, byteCount (s.name.getD "").toList⟩

/-- Of the tokens of a source those that the symbol keeps as they are written: an expression, or the
key of an attribute if it is in parentheses. -/
def Symbol.kept (all : List Token) (s : Symbol) : List Token :=
  match s.kind with
  | .eval _ => s.span.tokens all
  | .attr =>
    let key := s.nameSpan.tokens all
    if key.head?.any (·.kind == .lParen) then key else []
  | _ => []

mutual
/-- A symbol before those below it. -/
def Tree.symbols : Tree → List Symbol
  | node symbol children => symbol :: symbolsAll children

def Tree.symbolsAll : List Tree → List Symbol
  | [] => []
  | t :: ts => t.symbols ++ symbolsAll ts
end

@[simp] theorem Tree.symbols_node (s : Symbol) (ts : List Tree) :
    (node s ts).symbols = s :: symbolsAll ts := rfl

@[simp] theorem Tree.symbolsAll_nil : symbolsAll [] = [] := rfl

@[simp] theorem Tree.symbolsAll_cons (t : Tree) (ts : List Tree) :
    symbolsAll (t :: ts) = t.symbols ++ symbolsAll ts := rfl

@[simp] theorem Tree.symbolsAll_append (as bs : List Tree) :
    symbolsAll (as ++ bs) = symbolsAll as ++ symbolsAll bs := by
  induction as with
  | nil => rfl
  | cons t ts ih => rw [List.cons_append, symbolsAll_cons, symbolsAll_cons, ih, List.append_assoc]

variable {source : List Char} {all before behind front ts us : List Token} {first last t : Token}
  {stop : Span} {symbol value : Symbol} {symbols more : List Symbol} {s mid rest : TokenStream}
  {e e' : Except LexicalError Position} {d : Nat}

theorem Tiles.lt (h : Tiles source all) (ht : t ∈ all) : t.span.start.offset < t.span.stop :=
  Nat.lt_add_of_pos_right (h.length_pos t ht)

theorem Tiles.le (h : Tiles source (ts ++ us)) {t u : Token} (ht : t ∈ ts) (hu : u ∈ us) :
    t.span.stop ≤ u.span.start.offset :=
  (List.pairwise_append.mp h.located.pairwise).2.2 t ht u hu

theorem Tiles.start_le (h : Tiles source (before ++ t :: ts)) {u : Token} (hu : u ∈ t :: ts) :
    t.span.start.offset ≤ u.span.start.offset := by
  rcases List.mem_cons.mp hu with rfl | hu
  · exact Nat.le_refl _
  · rw [← List.singleton_append, ← List.append_assoc] at h
    exact Nat.le_trans (Nat.le_add_right _ _) (h.le (by simp) hu)

theorem Tiles.start_lt (h : Tiles source (ts ++ last :: behind)) {u : Token}
    (hu : u ∈ ts ++ [last]) : u.span.start.offset < last.span.stop := by
  have hlast := h.lt (t := last) (by simp)
  rcases List.mem_append.mp hu with hu | hu
  · have hle := h.le hu List.mem_cons_self
    have hlt := h.lt (List.mem_append_left _ hu)
    omega
  · exact List.mem_singleton.mp hu ▸ hlast

/-- No token in front of the first one begins inside of the span. -/
theorem Tiles.tokens_append (h : Tiles source (before ++ t :: ts)) {span : Span}
    (hstart : span.start = t.span.start) :
    span.tokens (before ++ t :: ts) = span.tokens (t :: ts) := by
  have hnone : span.tokens before = [] := by
    refine List.filter_eq_nil_iff.mpr fun u hu => ?_
    have hlt := h.lt (List.mem_append_left _ hu)
    have hle := h.le hu List.mem_cons_self
    rw [hstart]
    simp only [decide_eq_true_eq, not_and, Nat.not_lt]
    omega
  rw [Span.tokens, List.filter_append]
  exact congrArg (· ++ span.tokens (t :: ts)) hnone

/-- The tokens `front ++ [last]` begin inside of the span of their text, and no more. -/
theorem Tiles.tokens_upTo {first : Span} (h : Tiles source (before ++ (front ++ last :: behind)))
    (hstart : ∀ t ∈ (front ++ [last]).head?, first.start = t.span.start) :
    (first.upTo last.span).tokens (before ++ (front ++ last :: behind)) = front ++ [last] := by
  obtain ⟨t, ts, hts⟩ : ∃ t ts, front ++ [last] = t :: ts := List.exists_cons_of_ne_nil (by simp)
  have hspan : (first.upTo last.span).start = t.span.start := hstart t (by rw [hts]; rfl)
  have hall : before ++ (front ++ last :: behind) = before ++ t :: (ts ++ behind) := by
    rw [← List.cons_append, ← hts]
    simp
  have h' : Tiles source (before ++ t :: (ts ++ behind)) := hall ▸ h
  have hle : ∀ u ∈ front ++ [last], t.span.start.offset ≤ u.span.start.offset := fun u hu =>
    h'.start_le (List.mem_append_left behind (hts ▸ hu))
  have hlt : ∀ u ∈ front ++ [last], u.span.start.offset < last.span.stop := fun u hu => by
    rw [← List.append_assoc] at h
    exact h.start_lt (by simpa using List.mem_append_right before hu)
  have hstop : (first.upTo last.span).stop = last.span.stop := by
    refine Span.stop_upTo ((congrArg Position.offset hspan).trans_le ?_)
    exact Nat.le_trans (hle last (by simp)) (Nat.le_of_lt (hlt last (by simp)))
  have hin : (first.upTo last.span).tokens (front ++ [last]) = front ++ [last] := by
    refine List.filter_eq_self.mpr fun u hu => ?_
    rw [hstop, decide_eq_true_eq]
    exact ⟨(congrArg Position.offset hspan).trans_le (hle u hu), hlt u hu⟩
  have hout : (first.upTo last.span).tokens behind = [] := by
    refine List.filter_eq_nil_iff.mpr fun u hu => ?_
    rw [hstop, decide_eq_true_eq, not_and, Nat.not_lt]
    intro _
    rw [← List.cons_append, ← hts, ← List.append_assoc] at h'
    exact h'.le (by simp) hu
  rw [hall, h'.tokens_append hspan, ← List.cons_append, ← hts, Span.tokens,
    List.filter_append]
  exact (congrArg₂ (· ++ ·) hin hout).trans (List.append_nil _)

/-- The first token that begins inside of a span is the one the span begins with. -/
theorem Span.eq_of_head?_tokens {span : Span} {u : Token} (hstart : span.start = t.span.start)
    (h : (span.tokens (t :: ts)).head? = some u) : u = t := by
  by_cases hlength : span.length = 0
  · have hnone : span.tokens (t :: ts) = [] := by
      refine List.filter_eq_nil_iff.mpr fun v _ => ?_
      simp only [Span.stop, hlength, decide_eq_true_eq]
      omega
    rw [hnone] at h
    cases h
  · have hin : t.span.start.offset < span.stop := by
      rw [Span.stop, hstart]
      omega
    rw [Span.tokens, List.filter_cons_of_pos (by simp [hstart, hin])] at h
    exact (Option.some.inj h).symm

/-- A key that is not in parentheses is kept as a name. -/
theorem Tiles.kept_of_word (h : Tiles source (before ++ t :: ts)) (hk : symbol.kind = .attr)
    (hstart : symbol.span.start = t.span.start) (ht : t.kind ≠ .lParen) :
    symbol.kept (before ++ t :: ts) = [] := by
  have hname : symbol.nameSpan.start = t.span.start := hstart
  simp only [Symbol.kept, hk, h.tokens_append hname]
  refine if_neg ?_
  cases hu : (symbol.nameSpan.tokens (t :: ts)).head? with
  | none => exact Bool.false_ne_true
  | some u =>
    rw [Span.eq_of_head?_tokens hname hu]
    simpa using ht

/-- A key in parentheses is kept with all of its tokens. -/
theorem Tiles.kept_of_group (h : Tiles source (before ++ (front ++ last :: behind)))
    (hk : symbol.kind = .attr) (hfirst : (front ++ [last]).head? = some first)
    (hopen : first.kind = .lParen) (hstart : symbol.span.start = first.span.start)
    (hname : symbol.name = some (((first.span.upTo last.span).slice? source).getD "")) :
    symbol.kept (before ++ (front ++ last :: behind)) = front ++ [last] := by
  have hmem : first ∈ front ∨ first = last := by simpa using List.mem_of_head? hfirst
  have hplaced := h.located.placed
  have hle : first.span.start.offset ≤ last.span.stop := by
    rw [← List.append_assoc] at h
    exact Nat.le_of_lt (h.start_lt (by simpa using .inr hmem))
  obtain ⟨text, htext⟩ := Span.exists_slice? (s := first.span.upTo last.span)
    (hplaced first (by rcases hmem with hmem | hmem <;> simp [hmem])).start
    ((Span.stop_upTo hle).symm ▸ (hplaced last (by simp)).stop)
  have hspan : symbol.nameSpan = first.span.upTo last.span := by
    rw [Symbol.nameSpan, hname, htext, Option.getD_some, Option.getD_some,
      Span.byteCount_of_slice? htext, hstart]
    rfl
  have htokens := h.tokens_upTo fun t ht => by
    rw [hfirst] at ht
    exact congrArg (·.span.start) (Option.some.inj ht)
  simp only [Symbol.kept, hk, hspan, htokens, hfirst]
  simp [hopen]

/-! ## What is known of the tokens that were read -/

/-- The symbols are read from the tokens `ts`, which are among the tokens `all` of a source. -/
structure Accounts (all ts : List Token) (symbols : List Symbol) : Prop where
  balanced : Balanced ts
  kept : ∀ s ∈ symbols, Balanced (s.kept all)
  matched : Matched ts ↔ ∀ s ∈ symbols, Matched (s.kept all)

namespace Accounts

theorem others (h : ∀ t ∈ ts, t.kind.isBracket = false) : Accounts all ts [] :=
  ⟨balanced_of_others h, by simp, by simp [matched_of_others h]⟩

theorem nil : Accounts all [] [] := others (by simp)

theorem append (h : Accounts all ts symbols) (h' : Accounts all us more) :
    Accounts all (ts ++ us) (symbols ++ more) where
  balanced := h.balanced.append h'.balanced
  kept s hs := (List.mem_append.mp hs).elim (h.kept s) (h'.kept s)
  matched := by simp [matched_append_iff h.balanced, h.matched, h'.matched, or_imp, forall_and]

theorem group (hp : first.kind.closedBy last.kind = true) (h : Accounts all ts symbols) :
    Accounts all (first :: (ts ++ [last])) symbols where
  balanced := h.balanced.group (TokenKind.opens_of_closedBy hp) (TokenKind.closes_of_closedBy hp)
  kept := h.kept
  matched := (matched_group_iff (TokenKind.opens_of_closedBy hp)
    (TokenKind.closes_of_closedBy hp) hp h.balanced).trans h.matched

/-- A symbol of which no token is kept. -/
theorem cons (hs : symbol.kept all = []) (h : Accounts all ts symbols) :
    Accounts all ts (symbol :: symbols) where
  balanced := h.balanced
  kept := by simpa [hs, Closes.nil.balanced] using h.kept
  matched := by
    have hnil : Matched [] := rfl
    simpa [hs, hnil] using h.matched

/-- A symbol of which all tokens are kept. -/
theorem of_kept (hb : Balanced ts) (hs : symbol.kept all = ts) : Accounts all ts [symbol] :=
  ⟨hb, by simpa [hs] using hb, by simp [hs]⟩

end Accounts

/-- The symbols are read between `s` and `rest`. -/
def Takes (all : List Token) (s : TokenStream) (symbols : List Symbol) (rest : TokenStream) :
    Prop :=
  ∃ ts, s.tokens = ts ++ rest.tokens ∧ Accounts all ts symbols

namespace Takes

theorem refl (s : TokenStream) : Takes all s [] s := ⟨[], rfl, .nil⟩

theorem trans (h : Takes all s symbols mid) (h' : Takes all mid more rest) :
    Takes all s (symbols ++ more) rest := by
  obtain ⟨ts, hs, hts⟩ := h
  obtain ⟨us, hmid, hus⟩ := h'
  exact ⟨ts ++ us, by rw [hs, hmid, List.append_assoc], hts.append hus⟩

theorem others (hs : s.tokens = ts ++ rest.tokens) (hts : ∀ t ∈ ts, t.kind.isBracket = false) :
    Takes all s [] rest := ⟨ts, hs, .others hts⟩

theorem other (hk : t.kind.isBracket = false) : Takes all ⟨t :: ts, e⟩ [] ⟨ts, e'⟩ :=
  others List.singleton_append.symm (by simpa using hk)

theorem sign (hk : t.kind = .equals ∨ t.kind = .colon) : Takes all ⟨t :: ts, e⟩ [] ⟨ts, e⟩ :=
  other (by rcases hk with hk | hk <;> rw [hk] <;> rfl)

theorem skipNewlines (s : TokenStream) : Takes all s [] s.skipNewlines := by
  refine others List.takeWhile_append_dropWhile.symm fun t ht => ?_
  have hk : t.kind = .newline := by simpa using List.mem_takeWhile_imp ht
  rw [hk]
  rfl

theorem skip (h : Takes all s symbols mid) (hs : mid.skipNewlines = rest) :
    Takes all s symbols rest := by
  subst hs
  simpa using h.trans (skipNewlines mid)

theorem group (hp : first.kind.closedBy last.kind = true) (h : Takes all ⟨ts, e⟩ symbols s)
    (hs : s.skipNewlines = ⟨last :: us, e'⟩) : Takes all ⟨first :: ts, e⟩ symbols ⟨us, e'⟩ := by
  obtain ⟨inner, hinner, haccounts⟩ := h.skip hs
  exact ⟨first :: (inner ++ [last]), by simpa using hinner, haccounts.group hp⟩

theorem cons (hs : symbol.kept all = []) (h : Takes all s symbols rest) :
    Takes all s (symbol :: symbols) rest := by
  obtain ⟨ts, hts, haccounts⟩ := h
  exact ⟨ts, hts, haccounts.cons hs⟩

end Takes

/-! ## Values -/

theorem Tiles.of_suffix {u : Token} (h : Tiles source all) (hs : u :: us <:+ all) :
    ∃ before, all = before ++ u :: us ∧ Tiles source (before ++ u :: us) := by
  obtain ⟨before, rfl⟩ := hs
  exact ⟨before, rfl, h⟩

/-- What follows a value takes no bracket that the value opened. -/
theorem ReadsAtom.balanced (h : ReadsAtom source s value rest) :
    ∃ ts, s.tokens = ts ++ rest.tokens ∧ Balanced ts := by
  cases h with
  | @operand first ts e value rest hv =>
    obtain ⟨us, hts, hus⟩ := hv.balanced
    exact ⟨first :: us, congrArg (first :: ·) hts, hus⟩
  | @comprehension first ts e value rest hk _ hv =>
    obtain ⟨⟨stop, rest'⟩, hg, hr⟩ := exists_of_map_ok hv
    obtain rfl : rest' = rest := (Prod.mk.inj hr).2
    have hopens : first.kind.opensBracket = true := by rcases hk with hk | hk <;> rw [hk] <;> rfl
    obtain ⟨us, hts, hus⟩ := balanced_of_skipGroup hopens hg
    exact ⟨first :: us, congrArg (first :: ·) hts, hus⟩

/-- An expression keeps all of its tokens. -/
theorem ReadsDeferred.takes {x : Eval} (h : ReadsDeferred source d s value rest)
    (hx : value.kind = .eval x) (ht : Tiles source all) (hall : s.tokens <:+ all)
    (hb : ∃ ts, s.tokens = ts ++ rest.tokens ∧ Balanced ts) : Takes all s [value] rest := by
  obtain ⟨stop, ns, ⟨kind, name, first, rfl, hfirst⟩, ⟨hns, front, last, hs, rfl, -⟩, -⟩ :=
    h.exists_reaches hx
  obtain ⟨before, rfl⟩ := hall
  obtain ⟨ts, hts, hbalanced⟩ := hb
  have hsplit : s.tokens = front ++ [last] ++ ns ++ rest.tokens := by simp [hs]
  obtain rfl := List.append_cancel_right (hts.symm.trans hsplit)
  have hothers : ∀ n ∈ ns, n.kind.isBracket = false := fun n hn => by
    rw [hns n hn]
    rfl
  refine ⟨_, hsplit, .append (.of_kept (hbalanced.of_append hothers) ?_) (.others hothers)⟩
  rw [hs] at ht hfirst ⊢
  exact ht.tokens_upTo fun t ht => hfirst t (by simpa using ht)

theorem ReadsAtom.takes (h : ReadsAtom source s value rest) (ht : Tiles source all)
    (hall : s.tokens <:+ all) : Takes all s [value] rest := by
  by_cases hx : ∃ x, value.kind = .eval x
  · obtain ⟨x, hx⟩ := hx
    exact (ReadsDeferred.atom (d := 0) h).takes hx ht hall h.balanced
  cases h with
  | comprehension _ _ hv =>
    obtain ⟨⟨stop, rest'⟩, -, hr⟩ := exists_of_map_ok hv
    obtain rfl := (Prod.mk.inj hr).1
    exact absurd ⟨_, rfl⟩ hx
  | operand hv =>
    cases hv with
    | literal hk => exact .cons rfl (.other (TokenKind.isBracket_of_literalType? hk))
    | keyword hk hs _ =>
      rcases exists_reaches_of_steps hs with ⟨-, rfl⟩ | ⟨last, hlast, -⟩
      · exact .cons rfl (.other (by rw [hk]; rfl))
      · cases hlast
    | traversal | group | operation => exact absurd ⟨_, rfl⟩ hx

/-- The value of an attribute or element, whether or not an operation goes on with it. -/
theorem ReadsValue.takes_extends {v v' : Tree} (h : ReadsValue source d s v mid)
    (hv : Takes all s v.symbols mid) (hx : Extends source v mid v' rest) (ht : Tiles source all)
    (hall : s.tokens <:+ all) : Takes all s v'.symbols rest := by
  cases hx with
  | stay => exact hv
  | operation hk hx =>
    obtain ⟨ts, hs, hts⟩ := hv
    obtain ⟨us, hmid, hus⟩ := balanced_of_expressionEnd hx
    have hread : ∃ ws, s.tokens = ws ++ rest.tokens ∧ Balanced ws :=
      ⟨ts ++ us, by rw [hs, hmid, List.append_assoc], hts.balanced.append hus⟩
    exact (ReadsDeferred.operation h hk hx).takes rfl ht hall hread

theorem AttrEnd.takes {inMap : Prop} (h : AttrEnd inMap s rest) : Takes all s [] rest := by
  cases h with
  | newline hk | comma hk _ => exact .other (by rw [hk]; rfl)
  | stop => exact .refl _

theorem Separator.takes (h : Separator s rest) : Takes all s [] rest := by
  cases h with
  | comma hs hk => exact ((Takes.refl s).skip hs).trans (.other (by rw [hk]; rfl))
  | stop => exact .skipNewlines s

/-- A key in parentheses keeps all of its tokens, and no other key keeps any. -/
theorem EntryKey.takes {key : String} {span : Span} (h : EntryKey source s key span rest)
    (ht : Tiles source all) (hall : s.tokens <:+ all) (stop : Span) :
    Takes all s [(Symbol.attr key span).extendTo stop] rest := by
  cases h with
  | @word t ts e hword =>
    obtain ⟨before, rfl, ht⟩ := ht.of_suffix hall
    have hother : t.kind.isBracket = false := by
      rcases hword with hk | hk | hk | hk | hk <;> rw [hk] <;> rfl
    refine .cons (ht.kept_of_word rfl rfl fun hparen => ?_) (.other hother)
    rw [hparen] at hother
    cases hother
  | @group t ts e stop rest hparen hg =>
    obtain ⟨-, front, last, hs, rfl, -⟩ := (reaches_of_skipGroupFrom hg).cons t
    have hopens : t.kind.opensBracket = true := by
      rw [hparen]
      rfl
    obtain ⟨us, rfl, hus⟩ : ∃ us, ts = us ++ rest.tokens ∧ Balanced (t :: us) :=
      balanced_of_skipGroup hopens hg
    obtain ⟨before, rfl⟩ := hall
    have hs' : t :: us ++ rest.tokens = front ++ [last] ++ rest.tokens := by simpa using hs
    have hfront : t :: us = front ++ [last] := List.append_cancel_right hs'
    have hfirst : (front ++ [last]).head? = some t := by rw [← hfront]; rfl
    refine ⟨t :: us, rfl, .of_kept hus ?_⟩
    dsimp only at hs ht ⊢
    rw [hfront]
    rw [hs] at ht ⊢
    exact ht.kept_of_group rfl hfirst hparen rfl rfl

mutual
/-- The brackets of a value are matched if those of the expressions and keys in it are. -/
theorem ReadsValue.takes {s rest : TokenStream} {d : Nat} {v : Tree} (ht : Tiles source all) :
    ReadsValue source d s v rest → s.tokens <:+ all → Takes all s v.symbols rest
  | .atom h, hall => h.takes ht hall
  | .array hk _ _ h hs hclose, hall =>
    have helements := h.takes ht ((List.suffix_cons _ _).trans hall)
    .cons rfl (helements.group (by rw [hk, hclose]; rfl) hs)
  | .map hk _ _ h hs hclose, hall =>
    have hentries := h.takes ht ((List.suffix_cons _ _).trans hall)
    .cons rfl (hentries.group (by rw [hk, hclose]; rfl) hs)

theorem ReadsElements.takes {s rest : TokenStream} {d : Nat} {trees : List Tree}
    (ht : Tiles source all) : ReadsElements source d s trees rest → s.tokens <:+ all →
    Takes all s (symbolsAll trees) rest
  | .nil, _ => .refl _
  | .concat h hv hx hsep, hall => by
    have hskip := (suffix_skipNewlines _).trans h.suffix
    have hvalue := hv.takes ht (hskip.tokens.trans hall)
    have hvalue' := hv.takes_extends hvalue hx ht (hskip.tokens.trans hall)
    have hbefore := (h.takes ht hall).skip rfl
    simpa using (hbefore.trans hvalue').trans hsep.takes

theorem ReadsEntries.takes {s rest : TokenStream} {d : Nat} {trees : List Tree}
    (ht : Tiles source all) : ReadsEntries source d s trees rest → s.tokens <:+ all →
    Takes all s (symbolsAll trees) rest
  | .nil, _ => .refl _
  | .concat h hkey hsign _ hv hx hend, hall => by
    have hskip := (suffix_skipNewlines _).trans h.suffix
    have hsuffix := (Suffix.cons (.refl _)).trans (hkey.suffix.trans hskip)
    have hvalue := hv.takes ht (hsuffix.tokens.trans hall)
    have hvalue' := hv.takes_extends hvalue hx ht (hsuffix.tokens.trans hall)
    have hname := hkey.takes ht (hskip.tokens.trans hall)
    have hbefore := (h.takes ht hall).skip rfl
    simpa using (((hbefore.trans (hname _)).trans (.sign hsign)).trans hvalue').trans hend.takes
end

/-! ## Bodies -/

/-- A name in a body is not a key in parentheses. -/
theorem Tiles.kept_of_item (ht : Tiles source all) (hs : s.skipNewlines = ⟨t :: ts, e⟩)
    (hall : s.tokens <:+ all) (hk : t.kind = .ident) (stop : Span) :
    ((Symbol.attr t.text t.span).extendTo stop).kept all = [] := by
  have hskip := (suffix_skipNewlines s).tokens.trans hall
  rw [hs] at hskip
  obtain ⟨before, rfl, ht⟩ := ht.of_suffix hskip
  exact ht.kept_of_word rfl rfl (by simp [hk])

/-- The brackets of a body are matched if those of the expressions and keys in it are. -/
theorem ReadsItems.takes {trees : List Tree} (ht : Tiles source all)
    (h : ReadsItems source d s trees rest) (hall : s.tokens <:+ all) :
    Takes all s (symbolsAll trees) rest := by
  induction h with
  | nil => exact .refl _
  | @attr d s s₁ s₂ s₃ rest trees t sign ts e v v' h hs hk hsign _ hv hx hend ih =>
    have hsuffix := (Suffix.cons (.refl _)).trans ((suffix_of_skipNewlines hs).trans h.suffix)
    have hvalue := hv.takes ht (hsuffix.tokens.trans hall)
    have hvalue' := hv.takes_extends hvalue hx ht (hsuffix.tokens.trans hall)
    have hbefore := (ih hall).skip hs
    have hname : Takes all ⟨t :: sign :: ts, e⟩
        [(Symbol.attr t.text t.span).extendTo v'.symbol.span] ⟨sign :: ts, e⟩ :=
      .cons (ht.kept_of_item hs (h.suffix.tokens.trans hall) hk _) (.other (by rw [hk]; rfl))
    simpa using (((hbefore.trans hname).trans (.sign (.inl hsign))).trans hvalue').trans hend.takes
  | @block d s s₁ s₂ s₃ trees children t stop ts us e e' names h hs hk hl _ _ hs' hstop ih ih' =>
    have hbefore := (ih hall).skip hs
    have hnext := suffix_of_skipNewlines hs
    have hsuffix := (suffix_of_labelsFrom hl).trans (hnext.trans h.suffix)
    obtain ⟨front, brace, hts, hbrace, hfront⟩ := exists_of_labelsFrom hl
    have hname : t.kind.isBracket = false := by rcases hk with hk | hk <;> rw [hk] <;> rfl
    have hlabels : Takes all ⟨ts, e⟩ [] ⟨brace :: s₂.tokens, s₂.ending⟩ := .others hts hfront
    have hbody := (ih' (hsuffix.tokens.trans hall)).group (by rw [hbrace, hstop]; rfl) hs'
    simpa using hbefore.trans (.cons rfl ((Takes.other hname).trans (hlabels.trans hbody)))
  | @array d s s₁ s₂ trees elements t stop ts us e e' h hs hk _ helements hs' hstop ih =>
    have hbefore := (ih hall).skip hs
    have hsuffix := (suffix_of_skipNewlines hs).trans h.suffix
    have hinner := helements.takes ht (hsuffix.tokens.trans hall)
    have harray : Takes all ⟨t :: ts, e⟩ _ ⟨us, e'⟩ := hinner.group (by rw [hk, hstop]; rfl) hs'
    simpa using hbefore.trans (.cons rfl harray)

/-! ## The whole source -/

namespace Tree

mutual
theorem map_symbol_entries (n : Nat) (parent : Option Nat) :
    (t : Tree) → (t.entries n parent).map (·.symbol) = t.symbols
  | node _ children => congrArg (_ :: ·) (map_symbol_entriesAll (n + 1) (some n) children)

theorem map_symbol_entriesAll (n : Nat) (parent : Option Nat) :
    (ts : List Tree) → (entriesAll n parent ts).map (·.symbol) = symbolsAll ts
  | [] => rfl
  | t :: ts => by
    rw [entriesAll, List.map_append, map_symbol_entries n parent t,
      map_symbol_entriesAll (n + t.size) parent ts, symbolsAll_cons]
end

theorem forall_entries_iff {trees : List Tree} {p : Symbol → Prop} :
    (∀ entry ∈ (SymbolTree.ofForest trees).entries, p entry.symbol) ↔
      ∀ s ∈ symbolsAll trees, p s := by
  rw [← map_symbol_entriesAll 0 none trees]
  simp [SymbolTree.ofForest]

end Tree

/-- In a source that is read without an error every closing bracket closes an open one, and none
stays open. They are matched if and only if those of each expression and key in parentheses are. -/
theorem brackets_parseTree (source : String) (h : (parseTree source).error = none) :
    Balanced (ofString source).tokens ∧
      (∀ entry ∈ (parseTree source).tree.entries,
        Balanced (entry.symbol.kept (ofString source).tokens)) ∧
      (Matched (ofString source).tokens ↔ ∀ entry ∈ (parseTree source).tree.entries,
        Matched (entry.symbol.kept (ofString source).tokens)) := by
  obtain ⟨trees, rest, p, hread, hrest, hending, hparse⟩ := exists_items_parseTree source h
  obtain ⟨ts, hts, haccounts⟩ :=
    hread.takes (tiles_ofString source hending) (List.suffix_refl _)
  have hothers : ∀ t ∈ rest.tokens, t.kind.isBracket = false := fun t ht => by
    rw [hrest t ht]
    rfl
  have haccounts := haccounts.append (.others hothers)
  rw [← hts, List.append_nil] at haccounts
  have hentries : ∀ p : Symbol → Prop,
      (∀ entry ∈ (parseTree source).tree.entries, p entry.symbol) ↔
        ∀ s ∈ symbolsAll trees, p s := by
    rw [hparse]
    exact fun p => Tree.forall_entries_iff
  rw [hentries fun s => Balanced (s.kept (ofString source).tokens),
    hentries fun s => Matched (s.kept (ofString source).tokens)]
  exact ⟨haccounts.balanced, haccounts.kept, haccounts.matched⟩

/-- An array with a call and with a map that has a key in parentheses. -/
theorem brackets_parseTree_nested :
    (parseTree "a = [f(b[0], {}), {(c) = -(d)}]\n").error = none ∧
      Matched (ofString "a = [f(b[0], {}), {(c) = -(d)}]\n").tokens := by
  have h : (parseTree "a = [f(b[0], {}), {(c) = -(d)}]\n").error = none := by
    decide +kernel
  exact ⟨h, (brackets_parseTree _ h).2.2.mpr (by decide +kernel)⟩

/-- In parentheses brackets are only counted. -/
theorem not_matched_parseTree :
    (parseTree "x = (]\n").error = none ∧ ¬Matched (ofString "x = (]\n").tokens := by
  decide +kernel

end Hcl
