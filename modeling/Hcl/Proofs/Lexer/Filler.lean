import Hcl.Lexer.Trivia
import Hcl.Proofs.Text.Bytes

/-!
# Filler

Text between tokens, and what the skipping of trivia skips. The same text with separators in it is
what stands between the symbols of a source.
-/

namespace Hcl

/-- In front of `rest`, the text consists of blanks, comments and the separators `seps`. A line
comment goes on to the end of its line. -/
inductive Filler (seps : List Char) : (text rest : List Char) → Prop where
  | nil {rest : List Char} : Filler seps [] rest
  | char {c : Char} {cs rest : List Char} : isGapChar c = true ∨ c ∈ seps →
      Filler seps cs rest → Filler seps (c :: cs) rest
  | lineComment {opening body cs rest : List Char} : opening = ['#'] ∨ opening = ['/', '/'] →
      '\n' ∉ body → (∀ c ∈ (cs ++ rest).head?, c = '\n') → Filler seps cs rest →
      Filler seps (opening ++ (body ++ cs)) rest
  | blockComment {body cs rest : List Char} : ¬['*', '/'] <:+: body → Filler seps cs rest →
      Filler seps ('/' :: '*' :: (body ++ '*' :: '/' :: cs)) rest

namespace Filler

variable {seps more as bs cs rest : List Char}

theorem mono (h : Filler seps cs rest) (hm : ∀ c ∈ seps, c ∈ more) : Filler more cs rest := by
  induction h with
  | nil => exact .nil
  | char hc _ ih => exact .char (hc.imp_right (hm _)) ih
  | lineComment ho hb hn _ ih => exact .lineComment ho hb hn ih
  | blockComment hb _ ih => exact .blockComment hb ih

theorem append (h : Filler seps as (bs ++ rest)) (hbs : Filler seps bs rest) :
    Filler seps (as ++ bs) rest := by
  generalize hr : bs ++ rest = r at h
  induction h with
  | nil => exact hbs
  | char hc _ ih => exact .char hc (ih hr)
  | @lineComment opening body cs r' ho hb hn _ ih =>
    subst hr
    rw [List.append_assoc, List.append_assoc]
    exact .lineComment ho hb (by rwa [List.append_assoc]) (ih rfl)
  | @blockComment body cs r' hb _ ih =>
    have h := Filler.blockComment hb (ih hr)
    simpa using h

theorem singleton {c : Char} (h : c ∈ seps) : Filler seps [c] rest := .char (.inr h) .nil

end Filler

/-! ## Skipped text -/

namespace Trivia

/-- What is skipped from inside of something. -/
def Inside.Skips : Inside → (text rest : List Char) → Prop
  | nothing, text, rest => Filler [] text rest
  | lineComment, text, rest => '\n' ∉ text ∧ ∀ c ∈ rest.head?, c = '\n'
  | blockComment _, text, rest =>
    ∃ body cs, text = body ++ '*' :: '/' :: cs ∧ ¬['*', '/'] <:+: body ∧ Filler [] cs rest

theorem Inside.Skips.filler {opening text rest : List Char}
    (ho : opening = ['#'] ∨ opening = ['/', '/']) (h : Inside.lineComment.Skips text rest) :
    Filler [] (opening ++ text) rest := by
  have hf : Filler [] (opening ++ (text ++ [])) rest := .lineComment ho h.1 h.2 .nil
  rwa [List.append_nil] at hf

theorem exists_skips (i : Inside) (p : Position) (cs : List Char)
    (h : (skip i p cs).unclosed = none) :
    ∃ text, cs = text ++ (skip i p cs).rest ∧ (skip i p cs).position = p.after text ∧
      i.Skips text (skip i p cs).rest := by
  fun_induction skip i p cs with
  | case1 p cs ih =>
    obtain ⟨text, hcs, hp, hs⟩ := ih h
    exact ⟨'/' :: '/' :: text, by rw [List.cons_append, List.cons_append, ← hcs], hp,
      Inside.Skips.filler (.inr rfl) hs⟩
  | case2 p cs ih =>
    obtain ⟨text, hcs, hp, body, more, htext, hb, hs⟩ := ih h
    refine ⟨'/' :: '*' :: text, by rw [List.cons_append, List.cons_append, ← hcs], hp, ?_⟩
    exact htext ▸ .blockComment hb hs
  | case3 p c cs _ _ hg ih =>
    obtain ⟨text, hcs, hp, hs⟩ := ih h
    exact ⟨c :: text, by rw [List.cons_append, ← hcs], hp, .char (.inl hg) hs⟩
  | case4 p c cs _ _ _ hc ih =>
    obtain ⟨text, hcs, hp, hs⟩ := ih h
    obtain rfl : c = '#' := by simpa using hc
    exact ⟨'#' :: text, by rw [List.cons_append, ← hcs], hp, Inside.Skips.filler (.inl rfl) hs⟩
  | case5 p c cs => exact ⟨[], rfl, rfl, .nil⟩
  | case6 p c cs hc =>
    have hc : c = '\n' := by simpa using hc
    exact ⟨[], rfl, rfl, List.not_mem_nil, by simp [hc]⟩
  | case7 p c cs hc ih =>
    obtain ⟨text, hcs, hp, hn, hs⟩ := ih h
    have hc : '\n' ≠ c := by
      rintro rfl
      exact hc rfl
    exact ⟨c :: text, by rw [List.cons_append, ← hcs], hp, by simp [hc, hn], hs⟩
  | case8 start p cs ih =>
    obtain ⟨text, hcs, hp, hs⟩ := ih h
    exact ⟨'*' :: '/' :: text, by rw [List.cons_append, List.cons_append, ← hcs], hp,
      [], text, rfl, by simp, hs⟩
  | case9 start p c cs hne ih =>
    obtain ⟨text, hcs, hp, body, more, htext, hb, hs⟩ := ih h
    refine ⟨c :: text, by rw [List.cons_append, ← hcs], hp, c :: body, more, by simp [htext], ?_, hs⟩
    intro hinfix
    rcases List.infix_cons_iff.mp hinfix with hprefix | hinfix
    · -- a `*/` that begins with this star would have closed the comment here
      obtain ⟨tail, htail⟩ := hprefix
      simp only [List.cons_append, List.nil_append, List.cons.injEq] at htail
      obtain ⟨rfl, rfl⟩ := htail
      refine hne
        (tail ++ '*' :: '/' :: more ++ (skip (.blockComment start) (p.next '*') cs).rest) rfl ?_
      rw [htext] at hcs
      simpa using hcs
    · exact hb hinfix
  | case10 start p => cases h
  | case11 p => exact ⟨[], rfl, rfl, .nil⟩
  | case12 p => exact ⟨[], rfl, rfl, List.not_mem_nil, by simp⟩

end Trivia

end Hcl
