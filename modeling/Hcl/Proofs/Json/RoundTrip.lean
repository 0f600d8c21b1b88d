import Hcl.Proofs.Json.Assumptions

/-!
# What is written is read back

Whatever a writer puts between the parts of a text, the text is split into these parts, and a value
is read from them that says what was written.
-/

namespace Hcl.Json

open Lexeme (IsDigits IsSign IsFraction IsExponent IsNumeral)

variable {cs word text escaped : List Char} {ps : List Part} {c : Char}

/-! ## Strings -/

theorem codeUnits?_control (h : c.toNat < 0x20) (cs : List Char) :
    codeUnits? ('0' :: '0' :: Nat.digitChar (c.toNat / 16) :: Nat.digitChar (c.toNat % 16) :: cs) =
      some (c, cs) := by
  have hunit : ∀ n < 0x20,
      Piece.hexValue? ['0', '0', Nat.digitChar (n / 16), Nat.digitChar (n % 16)] = some n ∧
        ¬IsHigh n ∧ ¬IsLow n := by decide
  obtain ⟨hvalue, hhigh, hlow⟩ := hunit c.toNat h
  rw [codeUnits?, codeUnit?, if_pos (by simp)]
  simp only [List.take_succ_cons, List.take_zero, hvalue, Option.map_some, hhigh, hlow, if_false,
    List.drop_succ_cons, List.drop_zero, Char.ofNat_toNat]

/-- A character is written as it is, or with an escape that stands for it. -/
theorem IsEscaped.cases_escape (h : IsEscaped c text) :
    (text = [c] ∧ c ≠ '"' ∧ c ≠ '\\' ∧ ¬c.toNat < 0x20) ∨
      ∃ sequence, text = '\\' :: sequence ∧ ∀ cs, escape? (sequence ++ cs) = some (c, cs) := by
  cases h with
  | self hquote hbackslash hcontrol => exact .inl ⟨rfl, hquote, hbackslash, hcontrol⟩
  | @letter d hd =>
    have hletters : ∀ p ∈ letters, p.2 ≠ 'u' ∧ simpleEscape? p.2 = some p.1 := by decide
    obtain ⟨hu, hsimple⟩ := hletters (c, d) hd
    refine .inr ⟨_, rfl, fun cs => ?_⟩
    rw [List.singleton_append, escape?, if_neg hu, hsimple, Option.map_some]
  | control hcontrol => exact .inr ⟨_, rfl, fun cs => codeUnits?_control hcontrol cs⟩

theorem IsEscaped.string? (h : IsEscaped c text) (decoded cs : List Char) :
    string? decoded (text ++ cs) = string? (c :: decoded) cs := by
  rcases h.cases_escape with ⟨rfl, hquote, hbackslash, hcontrol⟩ | ⟨sequence, rfl, hsequence⟩
  · rw [List.singleton_append, Json.string?, if_neg hquote, if_neg hbackslash, if_neg hcontrol]
  · rw [List.cons_append, Json.string?, if_neg (by decide), if_pos rfl]
    split
    · rename_i hescape
      obtain ⟨rfl, rfl⟩ := Prod.mk.inj (Option.some.inj ((hsequence cs).symm.trans hescape))
      rfl
    · rename_i hnone
      cases (hsequence cs).symm.trans hnone

theorem AreEscaped.string? (h : AreEscaped text escaped) (decoded cs : List Char) :
    string? decoded (escaped ++ '"' :: cs) = some (decoded.reverse ++ text, cs) := by
  induction h generalizing decoded with
  | nil => simp [Json.string?]
  | cons hc _ ih =>
    rw [List.append_assoc, hc.string?, ih, List.reverse_cons, List.append_assoc,
      List.singleton_append]

/-! ## Numbers -/

theorem isNumber_of_isMagnitude {s : List Char} (hs : s = [] ∨ s = ['-']) (h : IsMagnitude cs) :
    isNumber (s ++ cs) = true := by
  obtain @⟨ds, f, e, hds, hzero, hf, he⟩ := h
  have hsign : IsSign s := by
    rcases hs with rfl | rfl
    · exact .none
    · exact .minus
  have hread : s = Lexeme.sign (s ++ (ds ++ (f ++ e))) := hsign.eq_sign hds List.prefix_rfl
  have hdigits : Lexeme.digits (ds ++ (f ++ e)) = ds :=
    (Lexeme.takeWhile_append hds.isDigit (hf.head?_append he)).1
  have hahead : Lexeme.numeralAhead true (s ++ (ds ++ (f ++ e))) = true := by
    obtain ⟨d, more, rfl, hd⟩ := hds.exists_cons
    rcases hs with rfl | rfl <;> simp [Lexeme.numeralAhead, hd]
  have hlongest := Lexeme.isLongest_numeral hahead
  have hnumeral : Lexeme.numeral (s ++ (ds ++ (f ++ e))) = s ++ (ds ++ (f ++ e)) :=
    hlongest.front.eq_of_length_le (hlongest.longest (.mk hsign hds hf he) List.prefix_rfl)
  rw [isNumber, ← hread, hnumeral, List.drop_left, hdigits]
  have hplus : s ≠ ['+'] := by rcases hs with rfl | rfl <;> simp
  have hfront : ds.head? ≠ some '0' ∨ ds = ['0'] := by
    by_cases h0 : ds.head? = some '0'
    · exact .inr (hzero h0)
    · exact .inl h0
  simpa [hplus, hds.ne_nil] using hfront

theorem isNumber_of_isNumber (h : IsNumber cs) : isNumber cs = true := by
  cases h with
  | positive h => exact isNumber_of_isMagnitude (.inl rfl) h
  | negative h => exact isNumber_of_isMagnitude (.inr rfl) h

theorem isScalarChar_of_isDigit (h : c.isDigit = true) : isScalarChar c = true := by
  simp [isScalarChar, Char.isAlphanum, h]

theorem isScalarChar_of_isNumber (h : IsNumber cs) : ∀ c ∈ cs, isScalarChar c = true := by
  have hdigits : ∀ {ds}, IsDigits ds → ∀ c ∈ ds, isScalarChar c = true :=
    fun hds c hc => isScalarChar_of_isDigit (hds.isDigit c hc)
  have hmagnitude : ∀ {cs}, IsMagnitude cs → ∀ c ∈ cs, isScalarChar c = true := by
    rintro _ ⟨hds, -, hf, he⟩ c hc
    rcases List.mem_append.mp hc with hc | hc
    · exact hdigits hds c hc
    rcases List.mem_append.mp hc with hc | hc
    · cases hf with
      | none => cases hc
      | some hds =>
        rcases List.mem_cons.mp hc with rfl | hc
        · rfl
        · exact hdigits hds c hc
    · cases he with
      | none => cases hc
      | some he hs hds =>
        rcases List.mem_cons.mp hc with rfl | hc
        · rcases he with rfl | rfl <;> rfl
        rcases List.mem_append.mp hc with hc | hc
        · cases hs <;> simp at hc <;> exact hc ▸ rfl
        · exact hdigits hds c hc
  cases h with
  | positive h => exact hmagnitude h
  | negative h =>
    intro c hc
    rcases List.mem_cons.mp hc with rfl | hc
    · rfl
    · exact hmagnitude h c hc

/-! ## The parts of a text -/

/-- No scalar goes on here. -/
def Breaks (cs : List Char) : Prop := ∀ c ∈ cs.head?, isScalarChar c = false

theorem of_isScalarChar (h : isScalarChar c = true) :
    isBlank c = false ∧ c ≠ '"' ∧ mark? c = none := by
  refine ⟨?_, ?_, ?_⟩
  · refine Bool.eq_false_iff.mpr fun hblank => ?_
    simp only [isBlank, Bool.or_eq_true, beq_iff_eq] at hblank
    rcases hblank with ((rfl | rfl) | rfl) | rfl <;> revert h <;> decide
  · rintro rfl
    revert h
    decide
  · unfold mark?
    split <;> first | rfl | (revert h; decide)

/-- The text `cs` is made of the parts `ps`. -/
def Lexes (cs : List Char) (ps : List Part) : Prop := parts? cs = some ps

namespace Lexes

theorem nil : Lexes [] [] := by rw [Lexes, parts?]

theorem blank (hc : isBlank c = true) (h : Lexes cs ps) : Lexes (c :: cs) ps := by
  rw [Lexes, parts?, if_pos hc]
  exact h

theorem mark {part : Part} (hc : mark? c = some part) (h : Lexes cs ps) :
    Lexes (c :: cs) (part :: ps) := by
  have hplain : isBlank c = false ∧ c ≠ '"' := by
    unfold mark? at hc
    split at hc <;> first | decide | cases hc
  rw [Lexes, parts?, if_neg (by simp [hplain.1]), if_neg hplain.2, hc]
  simp only [show parts? cs = some ps from h, Option.map_some]

theorem string {s : String} (hs : AreEscaped s.toList escaped) (h : Lexes cs ps) :
    Lexes ('"' :: escaped ++ ['"'] ++ cs) (.string s :: ps) := by
  have hstring := hs.string? [] cs
  rw [Lexes, List.append_assoc, List.cons_append, List.singleton_append, parts?,
    if_neg (by decide), if_pos rfl]
  split
  · rename_i hread
    obtain ⟨rfl, rfl⟩ := Prod.mk.inj (Option.some.inj (hstring.symm.trans hread))
    rw [show parts? cs = some ps from h]
    simp
  · rename_i hnone
    cases hstring.symm.trans hnone

theorem scalar {j : Json} (hword : ∀ c ∈ word, isScalarChar c = true) (hj : scalar? word = some j)
    (hcs : Breaks cs) (h : Lexes cs ps) : Lexes (word ++ cs) (.scalar j :: ps) := by
  cases word with
  | nil => cases hj
  | cons c word =>
    obtain ⟨hblank, hquote, hmark⟩ := of_isScalarChar (hword c List.mem_cons_self)
    obtain ⟨htake, hdrop⟩ :=
      Lexeme.takeWhile_append (fun d hd => hword d (List.mem_cons_of_mem c hd)) hcs
    rw [Lexes, List.cons_append, parts?, if_neg (by simp [hblank]), if_neg hquote, hmark, htake, hj,
      hdrop]
    simp only [show parts? cs = some ps from h, Option.map_some]

end Lexes

/-! ## The parts of a value -/

/-- There is no comma in front of the first part. -/
def commaParts (first : Bool) : List Part := if first then [] else [.comma]

@[simp] theorem commaParts_true : commaParts true = [] := rfl
@[simp] theorem commaParts_false : commaParts false = [.comma] := rfl

mutual
/-- What the texts of a value are made of. -/
def parts : Json → List Part
  | null => [.scalar .null]
  | bool b => [.scalar (.bool b)]
  | number numeral => [.scalar (.number numeral)]
  | string s => [.string s]
  | array es => .openArray :: (elementParts true es ++ [.closeArray])
  | object es => .openObject :: (entryParts true es ++ [.closeObject])

def elementParts (first : Bool) : List Json → List Part
  | [] => []
  | e :: es => commaParts first ++ (e.parts ++ elementParts false es)

def entryParts (first : Bool) : List (String × Json) → List Part
  | [] => []
  | (key, v) :: es =>
    commaParts first ++ .string key :: .colon :: (v.parts ++ entryParts false es)
end

/-- No value begins with the end of an array. -/
theorem exists_parts_cons (j : Json) : ∃ p ps, j.parts = p :: ps ∧ p ≠ .closeArray := by
  unfold parts
  split <;> exact ⟨_, _, rfl, nofun⟩

theorem value?_openArray {stack : List Frame} {p : Part} (hp : p ≠ .closeArray) :
    value? stack (.openArray :: p :: ps) = value? (.array [] :: stack) (p :: ps) := by
  rw [value?]
  rintro ps' ⟨rfl, -⟩
  exact hp rfl

mutual
/-- A value is read from its parts, whatever it stands in and whatever is behind it. -/
theorem value?_parts (j : Json) (stack : List Frame) (ps : List Part) :
    value? stack (j.parts ++ ps) = after? j stack ps := by
  match j with
  | null | bool b | number numeral | string s | array [] | object [] => rfl
  | array (e :: es) =>
    obtain ⟨p, qs, hparts, hp⟩ := exists_parts_cons e
    have helements :=
      value?_parts e (.array [] :: stack) (elementParts false es ++ .closeArray :: ps)
    rw [hparts, List.cons_append] at helements
    simp only [parts, elementParts, commaParts_true, hparts, List.cons_append, List.append_assoc,
      List.nil_append]
    rw [value?_openArray hp, helements, after?_elementParts]
    rfl
  | object ((key, v) :: es) =>
    simp only [parts, entryParts, commaParts_true, List.cons_append, List.append_assoc,
      List.nil_append]
    rw [value?, value?_parts v, after?_entryParts]
    rfl

theorem after?_elementParts (e : Json) (es before : List Json) (stack : List Frame)
    (ps : List Part) :
    after? e (.array before :: stack) (elementParts false es ++ .closeArray :: ps) =
      after? (.array (before.reverse ++ e :: es)) stack ps := by
  match es with
  | [] => rw [elementParts, List.nil_append, after?, List.reverse_cons]
  | e' :: es =>
    simp only [elementParts, commaParts_false, List.cons_append, List.append_assoc, List.nil_append]
    rw [after?, value?_parts e', after?_elementParts e' es]
    simp

theorem after?_entryParts (j : Json) (key : String) (es before : List (String × Json))
    (stack : List Frame) (ps : List Part) :
    after? j (.object before key :: stack) (entryParts false es ++ .closeObject :: ps) =
      after? (.object (before.reverse ++ (key, j) :: es)) stack ps := by
  match es with
  | [] => rw [entryParts, List.nil_append, after?, List.reverse_cons]
  | (key', v) :: es =>
    simp only [entryParts, commaParts_false, List.cons_append, List.append_assoc, List.nil_append]
    rw [after?, value?_parts v, after?_entryParts v key' es]
    simp
end

theorem read?_of_lexes {j : Json} (h : Lexes (text ++ []) (j.parts ++ [])) :
    read? (String.ofList text) = some j := by
  rw [List.append_nil, Lexes] at h
  rw [read?, String.toList_ofList, h, Option.bind_some, value?_parts]
  rfl

/-! ## The texts of scalars -/

theorem breaks_cons (h : isScalarChar c = false) (cs : List Char) : Breaks (c :: cs) := by
  rintro d ⟨rfl⟩
  exact h

theorem scalar?_of_isNumber (h : IsNumber cs) :
    scalar? cs = some (.number (String.ofList cs)) := by
  have hnumber := isNumber_of_isNumber h
  have hne : ∀ word : String, isNumber word.toList = false → cs ≠ word.toList :=
    fun word hword heq => Bool.noConfusion ((heq ▸ hnumber).symm.trans hword)
  rw [scalar?, if_neg (hne "null" (by decide)), if_neg (hne "true" (by decide)),
    if_neg (hne "false" (by decide)), if_pos hnumber]

namespace Lexes

theorem null (hcs : Breaks cs) (h : Lexes cs ps) :
    Lexes ("null".toList ++ cs) (.scalar .null :: ps) :=
  .scalar (List.all_eq_true.mp rfl) rfl hcs h

theorem bool (b : Bool) (hcs : Breaks cs) (h : Lexes cs ps) :
    Lexes ((if b then "true" else "false").toList ++ cs) (.scalar (.bool b) :: ps) := by
  cases b
  · exact .scalar (List.all_eq_true.mp rfl) rfl hcs h
  · exact .scalar (List.all_eq_true.mp rfl) rfl hcs h

theorem number (hn : IsNumber word) (hcs : Breaks cs) (h : Lexes cs ps) :
    Lexes (word ++ cs) (.scalar (.number (String.ofList word)) :: ps) :=
  .scalar (isScalarChar_of_isNumber hn) (scalar?_of_isNumber hn) hcs h

end Lexes

/-! ## Brackets, commas and colons -/

theorem isScalarChar_of_isBlank (h : isBlank c = true) : isScalarChar c = false := by
  refine Bool.eq_false_iff.mpr fun hc => ?_
  rw [(of_isScalarChar hc).1] at h
  cases h

theorem isScalarChar_of_mark? {part : Part} (h : mark? c = some part) : isScalarChar c = false := by
  refine Bool.eq_false_iff.mpr fun hc => ?_
  rw [(of_isScalarChar hc).2.2] at h
  cases h

namespace IsBlanks

variable {blanks : List Char}

theorem breaks (hb : IsBlanks blanks) (hcs : Breaks cs) : Breaks (blanks ++ cs) := by
  cases blanks with
  | nil => exact hcs
  | cons b blanks => exact breaks_cons (isScalarChar_of_isBlank (hb b List.mem_cons_self)) _

theorem lexes (hb : IsBlanks blanks) (h : Lexes cs ps) : Lexes (blanks ++ cs) ps := by
  induction blanks with
  | nil => exact h
  | cons b blanks ih =>
    exact .blank (hb b List.mem_cons_self) (ih fun c hc => hb c (List.mem_cons_of_mem b hc))

end IsBlanks

namespace IsSpaced

variable {part : Part}

theorem breaks (hs : IsSpaced c text) (hc : mark? c = some part) (cs : List Char) :
    Breaks (text ++ cs) := by
  obtain ⟨before, behind, hbefore, -, rfl⟩ := hs
  rw [List.append_assoc]
  exact hbefore.breaks (breaks_cons (isScalarChar_of_mark? hc) _)

theorem lexes (hs : IsSpaced c text) (hc : mark? c = some part) (h : Lexes cs ps) :
    Lexes (text ++ cs) (part :: ps) := by
  obtain ⟨before, behind, hbefore, hbehind, rfl⟩ := hs
  rw [List.append_assoc, List.cons_append]
  exact hbefore.lexes (.mark hc (hbehind.lexes h))

end IsSpaced

namespace Enclosure.Separates

variable {e : Enclosure} {opening closing : Char}

/-- In front of a part there is a comma, if it is not the first one. -/
theorem lexes_before (he : e.Separates opening closing) (depth : Nat) (first : Bool)
    (h : Lexes cs ps) : Lexes (e.before depth first ++ cs) (commaParts first ++ ps) := by
  cases first with
  | true => exact (he.first depth).lexes h
  | false => exact (he.comma depth).lexes rfl h

/-- A container is lexed if its parts are, with whatever is behind them. -/
theorem lexes_around (he : e.Separates opening closing) {inner : List Char} {ps' : List Part}
    {first last : Part} (hopening : mark? opening = some first)
    (hclosing : mark? closing = some last)
    (hinner : ∀ {cs ps}, Breaks cs → Lexes cs ps → Lexes (inner ++ cs) (ps' ++ ps)) (depth : Nat)
    (isEmpty : Bool) (h : Lexes cs ps) :
    Lexes (e.opening depth ++ inner ++ e.closing depth isEmpty ++ cs)
      (first :: (ps' ++ [last]) ++ ps) := by
  have hend := (he.closing depth isEmpty).lexes hclosing h
  have hbreaks := (he.closing depth isEmpty).breaks hclosing cs
  simp only [List.append_assoc, List.cons_append, List.nil_append]
  exact (he.opening depth).lexes hopening (hinner hbreaks hend)

end Enclosure.Separates

theorem Writer.Assumptions.lexes {w : Writer} (hw : w.Assumptions) (s : String) (h : Lexes cs ps) :
    Lexes (w.string s ++ cs) (.string s :: ps) := by
  obtain ⟨escaped, hs, htext⟩ := hw.string s
  rw [htext]
  exact .string hs h

end Hcl.Json
