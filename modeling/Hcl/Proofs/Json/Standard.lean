import Hcl.Json.Printer
import Hcl.Proofs.Binary64.Shortest
import Hcl.Proofs.Json.Assumptions

/-!
# The writer of the program

What is assumed of a writer is so of the one that the program has. Every finite number is written as
a number of JSON, whatever the layout; and each character of a string has one of its escapes.
-/

namespace Hcl

/-! ## Digits of natural numbers -/

theorem isDigits_toString (n : Nat) : Lexeme.IsDigits (toString n).toList := by
  rw [Nat.toString_eq_repr, Nat.toList_repr]
  exact ⟨Nat.toDigits_ne_nil, fun _ hd => Nat.isDigit_of_mem_toDigits (by decide) (by decide) hd⟩

theorem head?_toDigits {n : Nat} (h : n ≠ 0) : (Nat.toDigits 10 n).head? ≠ some '0' := by
  induction n using Nat.strongRecOn with
  | ind n ih =>
    rcases Nat.lt_or_ge n 10 with hlt | hge
    · rw [Nat.toDigits_of_lt_base hlt]
      simpa using h
    · rw [Nat.toDigits_of_base_le (by decide) hge]
      have hne : Nat.toDigits 10 (n / 10) ≠ [] := Nat.toDigits_ne_nil
      obtain ⟨d, ds, hds⟩ := List.exists_cons_of_ne_nil hne
      have hhead := ih (n / 10) (by omega) (by omega)
      rw [hds] at hhead ⊢
      exact hhead

namespace Binary64

open Lexeme (IsDigits IsSign IsFraction IsExponent)
open Json (IsMagnitude IsNumber)

variable {d : Digits}

theorem isDigits_of_subset {ds cs : List Char} (h : IsDigits ds) (hne : cs ≠ []) (hcs : cs ⊆ ds) :
    IsDigits cs := ⟨hne, fun _ hc => h.isDigit _ (hcs hc)⟩

theorem isMagnitude_of_fraction {ds fs : List Char} (hds : IsDigits ds)
    (hzero : ds.head? = some '0' → ds = ['0']) (hfs : IsDigits fs) :
    IsMagnitude (ds ++ '.' :: fs) := by
  simpa using IsMagnitude.mk hds hzero (.some hfs) .none

theorem isDigits_zero : IsDigits ['0'] := ⟨List.cons_ne_nil _ _, by simp⟩

theorem isDigit_of_mem_zeros {n : Nat} : ∀ c ∈ List.replicate n '0', c.isDigit = true :=
  fun _ hc => List.eq_of_mem_replicate hc ▸ rfl

theorem isMagnitude_plainText (h : d.digits ≠ 0) : IsMagnitude (plainText d).toList := by
  have hdigits := isDigits_toString d.digits
  have hhead : (toString d.digits).toList.head? ≠ some '0' := by
    rw [Nat.toString_eq_repr, Nat.toList_repr]
    exact head?_toDigits h
  simp only [plainText, zeros, ← String.length_toList]
  split
  · -- the digits, and zeros behind them
    rw [String.toList_append, String.toList_append, String.toList_ofList]
    generalize (toString d.digits).toList = ds at *
    obtain ⟨_, ds, rfl, -⟩ := hdigits.exists_cons
    refine isMagnitude_of_fraction ⟨List.cons_ne_nil _ _, fun c hc => ?_⟩
      (fun hzero => absurd hzero hhead) isDigits_zero
    exact (List.mem_append.mp hc).elim (hdigits.isDigit c) (isDigit_of_mem_zeros c)
  split
  · -- the point between the digits
    rw [List.splitAt_eq, String.toList_ofList]
    generalize (toString d.digits).toList = ds at *
    have htake : (ds.take (ds.length + d.exponent).toNat).head? = ds.head? := by
      rw [List.head?_take, if_neg (by omega)]
    refine isMagnitude_of_fraction (isDigits_of_subset hdigits ?_ (List.take_subset _ _))
      (fun hzero => absurd (htake.symm.trans hzero) hhead)
      (isDigits_of_subset hdigits ?_ (List.drop_subset _ _))
    · simp only [ne_eq, List.take_eq_nil_iff, hdigits.ne_nil, or_false]
      omega
    · simp only [ne_eq, List.drop_eq_nil_iff]
      omega
  · -- zeros behind the point
    rw [String.toList_append, String.toList_append, String.toList_ofList, String.toList_ofList]
    generalize (toString d.digits).toList = ds at *
    refine isMagnitude_of_fraction isDigits_zero (fun _ => rfl)
      ⟨List.append_ne_nil_of_right_ne_nil _ hdigits.ne_nil, fun c hc => ?_⟩
    exact (List.mem_append.mp hc).elim (isDigit_of_mem_zeros c) (hdigits.isDigit c)

theorem isMagnitude_scientificText (plusSign : Bool) (d : Digits) :
    IsMagnitude (scientificText plusSign d).toList := by
  have hdigits := isDigits_toString d.digits
  simp only [scientificText, String.toList_append, String.toList_ofList]
  generalize (toString d.digits).toList = ds at *
  obtain ⟨c, ds, rfl, hc⟩ := hdigits.exists_cons
  have hpower := isDigits_toString (((c :: ds).length : Int) - 1 + d.exponent).natAbs
  generalize hx : (((c :: ds).length : Int) - 1 + d.exponent) = x at *
  have hfraction : IsFraction (if (c :: ds).length ≤ 1 then [] else '.' :: (c :: ds).drop 1) := by
    split
    · exact .none
    · rename_i hlength
      refine .some (isDigits_of_subset hdigits ?_ (List.drop_subset _ _))
      simpa using hlength
  have hsign : IsSign (if x < 0 then ['-'] else if plusSign = true then ['+'] else []) := by
    split
    · exact .minus
    split
    · exact .plus
    · exact .none
  have hfirst : IsDigits [c] := ⟨List.cons_ne_nil _ _, by simpa using hc⟩
  simpa using IsMagnitude.mk hfirst (by simp) hfraction (.some (.inl rfl) hsign hpower)

theorem isMagnitude_text (layout : Layout) {magnitude : Nat} (h : magnitude < infinity) :
    IsMagnitude (layout.text magnitude).toList := by
  rw [Layout.text]
  split
  · exact isMagnitude_of_fraction isDigits_zero (fun _ => rfl) isDigits_zero
  · rename_i hzero
    dsimp only
    split
    · exact isMagnitude_plainText (digits_shortest_ne_zero hzero h)
    · exact isMagnitude_scientificText _ _

/-- The finite numbers have a text. -/
theorem isSome_text? (layout : Layout) (x : Binary64) :
    (x.text? layout).isSome = true ↔ x.isFinite = true := by
  rw [text?]
  split <;> simp [*]

/-- The text of a finite number is a number of JSON. -/
theorem isNumber_of_text? {layout : Layout} {x : Binary64} {numeral : String}
    (h : x.text? layout = some numeral) : IsNumber numeral.toList := by
  rw [text?] at h
  split at h
  · rename_i hfinite
    have htext := isMagnitude_text layout (of_decide_eq_true hfinite)
    obtain rfl := Option.some.inj h
    split
    · rw [String.toList_append]
      exact .negative htext
    · exact .positive htext
  · cases h

end Binary64

namespace Json

/-! ## Strings -/

theorem isEscaped_escapeChar (c : Char) : IsEscaped c (escapeChar c) := by
  unfold escapeChar
  split
  case h_8 hquote hbackslash _ _ _ _ _ =>
    split
    · exact .control ‹_›
    · exact .self hquote hbackslash ‹_›
  all_goals exact .letter (by decide)

theorem areEscaped_flatMap (cs : List Char) : AreEscaped cs (cs.flatMap escapeChar) := by
  induction cs with
  | nil => exact .nil
  | cons c cs ih => exact .cons (isEscaped_escapeChar c) ih

/-! ## Containers -/

theorem isBlanks_nil : IsBlanks [] := nofun

theorem isBlanks_newLine (depth : Nat) : IsBlanks (newLine depth) := by
  intro c hc
  rcases List.mem_cons.mp hc with rfl | hc
  · rfl
  · exact List.eq_of_mem_replicate hc ▸ rfl

theorem isSpaced_singleton (mark : Char) : IsSpaced mark [mark] :=
  ⟨[], [], isBlanks_nil, isBlanks_nil, rfl⟩

theorem separates_compactEnclosure (opening closing : Char) :
    (compactEnclosure opening closing).Separates opening closing where
  opening _ := isSpaced_singleton opening
  first _ := isBlanks_nil
  comma _ := isSpaced_singleton ','
  behind _ := isBlanks_nil
  closing _ _ := isSpaced_singleton closing

theorem separates_prettyEnclosure (opening closing : Char) :
    (prettyEnclosure opening closing).Separates opening closing where
  opening _ := isSpaced_singleton opening
  first depth := isBlanks_newLine (depth + 1)
  comma depth := ⟨[], newLine (depth + 1), isBlanks_nil, isBlanks_newLine _, rfl⟩
  behind _ := isBlanks_nil
  closing depth isEmpty := by
    cases isEmpty with
    | true => exact isSpaced_singleton closing
    | false => exact ⟨newLine depth, [], isBlanks_newLine depth, isBlanks_nil, rfl⟩

/-! ## The writer -/

theorem isNumber_numberChars {x : Binary64} (hx : x.isFinite = true) :
    IsNumber (numberChars x) := by
  obtain ⟨numeral, htext⟩ := Option.isSome_iff_exists.mp ((Binary64.isSome_text? layout x).mpr hx)
  rw [numberChars, htext]
  exact Binary64.isNumber_of_text? htext

theorem numberChars_of_not_isFinite {x : Binary64} (hx : x.isFinite = false) :
    numberChars x = "null".toList := by
  have hnone : x.text? layout = none := by
    simpa [hx] using Binary64.isSome_text? layout x
  rw [numberChars, hnone]

theorem assumptions_standard : standard.Assumptions where
  null := rfl
  bool _ := rfl
  finite _ := isNumber_numberChars
  notFinite _ := numberChars_of_not_isFinite
  string s := ⟨_, areEscaped_flatMap s.toList, rfl⟩
  compact :=
    ⟨separates_compactEnclosure '[' ']', separates_compactEnclosure '{' '}',
      fun _ => isSpaced_singleton ':'⟩
  pretty :=
    ⟨separates_prettyEnclosure '[' ']', separates_prettyEnclosure '{' '}',
      fun _ => ⟨[], [' '], isBlanks_nil, List.forall_mem_singleton.mpr rfl, rfl⟩⟩

end Json

end Hcl
