import Hcl.Proofs.Json.RoundTrip
import Hcl.Proofs.Json.Standard

/-!
# JSON says what the value says

Both texts of a value are read as the same data: keys and elements in their order, strings character
by character, finite numbers as their numerals. Expressions and keywords become strings, and numbers
that are not finite null. This is so for every library that does what is assumed of it.
-/

namespace Hcl

open Json (Writer Formatter Part Breaks Lexes elementParts entryParts)

variable {w : Writer} {f : Formatter} {cs : List Char} {ps : List Part}

namespace Value

mutual
/-- What JSON says of a value. Numbers that are not finite are null, an expression is the string of
its interpolation and a keyword the string of its text. -/
inductive Says (w : Writer) : Value → Json → Prop where
  | null : Says w .null .null
  | boolean (b : Bool) : Says w (.boolean b) (.bool b)
  | number {x : Binary64} : x.isFinite = true →
      Says w (.number x) (.number (String.ofList (w.number x)))
  | notFinite {x : Binary64} : x.isFinite = false → Says w (.number x) .null
  | string (s : String) : Says w (.string s) (.string s)
  | array {vs : List Value} {js : List Json} : SayElements w vs js → Says w (.array vs) (.array js)
  | object {vs : List (String × Value)} {js : List (String × Json)} : SayEntries w vs js →
      Says w (.object vs) (.object js)
  | eval (e : Eval) :
      Says w (.eval e) (.string (String.ofList ('$' :: '{' :: e.text.toList ++ ['}'])))
  | keyword (k : TypeKeyword) : Says w (.keyword k) (.string k.text)

/-- Element by element. -/
inductive SayElements (w : Writer) : List Value → List Json → Prop where
  | nil : SayElements w [] []
  | cons {v : Value} {vs : List Value} {j : Json} {js : List Json} : Says w v j →
      SayElements w vs js → SayElements w (v :: vs) (j :: js)

/-- Entry by entry, with the same keys. -/
inductive SayEntries (w : Writer) : List (String × Value) → List (String × Json) → Prop where
  | nil : SayEntries w [] []
  | cons {key : String} {v : Value} {vs : List (String × Value)} {j : Json}
      {js : List (String × Json)} : Says w v j → SayEntries w vs js →
      SayEntries w ((key, v) :: vs) ((key, j) :: js)
end

/-! ## There is such data -/

mutual
theorem exists_says (w : Writer) (v : Value) : ∃ j, v.Says w j := by
  match v with
  | .null => exact ⟨_, .null⟩
  | .boolean b => exact ⟨_, .boolean b⟩
  | .number x =>
    cases hx : x.isFinite with
    | true => exact ⟨_, .number hx⟩
    | false => exact ⟨_, .notFinite hx⟩
  | .string s => exact ⟨_, .string s⟩
  | .array vs =>
    obtain ⟨js, hjs⟩ := exists_sayElements w vs
    exact ⟨_, .array hjs⟩
  | .object vs =>
    obtain ⟨js, hjs⟩ := exists_sayEntries w vs
    exact ⟨_, .object hjs⟩
  | .eval e => exact ⟨_, .eval e⟩
  | .keyword k => exact ⟨_, .keyword k⟩

theorem exists_sayElements (w : Writer) (vs : List Value) : ∃ js, SayElements w vs js := by
  match vs with
  | [] => exact ⟨_, .nil⟩
  | v :: vs =>
    obtain ⟨j, hj⟩ := exists_says w v
    obtain ⟨js, hjs⟩ := exists_sayElements w vs
    exact ⟨_, .cons hj hjs⟩

theorem exists_sayEntries (w : Writer) (vs : List (String × Value)) : ∃ js, SayEntries w vs js := by
  match vs with
  | [] => exact ⟨_, .nil⟩
  | (key, v) :: vs =>
    obtain ⟨j, hj⟩ := exists_says w v
    obtain ⟨js, hjs⟩ := exists_sayEntries w vs
    exact ⟨_, .cons hj hjs⟩
end

/-! ## It is read back -/

/-- No scalar goes on in front of the elements behind the first one. -/
theorem breaks_jsonElements (hf : f.Separates) (depth : Nat) (vs : List Value) (hcs : Breaks cs) :
    Breaks (jsonElements w f depth false vs ++ cs) := by
  cases vs with
  | nil => exact hcs
  | cons v vs =>
    simp only [jsonElements, List.append_assoc]
    exact (hf.array.comma depth).breaks rfl _

theorem breaks_jsonEntries (hf : f.Separates) (depth : Nat) (vs : List (String × Value))
    (hcs : Breaks cs) : Breaks (jsonEntries w f depth false vs ++ cs) := by
  cases vs with
  | nil => exact hcs
  | cons v vs =>
    simp only [jsonEntries, List.append_assoc]
    exact (hf.object.comma depth).breaks rfl _

mutual
theorem Says.lexes (hw : w.Assumptions) (hf : f.Separates) (depth : Nat) {v : Value} {j : Json}
    (h : v.Says w j) {cs : List Char} {ps : List Part} (hcs : Breaks cs) (hps : Lexes cs ps) :
    Lexes (v.jsonChars w f depth ++ cs) (j.parts ++ ps) := by
  match h with
  | .null =>
    rw [jsonChars, hw.null]
    exact .null hcs hps
  | .boolean b =>
    rw [jsonChars, hw.bool]
    exact .bool b hcs hps
  | .number hx => exact .number (hw.finite _ hx) hcs hps
  | .notFinite hx =>
    rw [jsonChars, hw.notFinite _ hx]
    exact .null hcs hps
  | .string s => exact hw.lexes s hps
  | .eval e => exact hw.lexes e.interpolation hps
  | .keyword k => exact hw.lexes k.text hps
  | .array hvs => exact hf.array.lexes_around rfl rfl (hvs.lexes hw hf depth true) depth _ hps
  | .object hvs => exact hf.object.lexes_around rfl rfl (hvs.lexes hw hf depth true) depth _ hps

theorem SayElements.lexes (hw : w.Assumptions) (hf : f.Separates) (depth : Nat) (first : Bool)
    {vs : List Value} {js : List Json} (h : SayElements w vs js) {cs : List Char} {ps : List Part}
    (hcs : Breaks cs) (hps : Lexes cs ps) :
    Lexes (jsonElements w f depth first vs ++ cs) (elementParts first js ++ ps) := by
  match h with
  | .nil => exact hps
  | .cons hv hvs =>
    have hbehind := hf.array.behind depth
    simp only [jsonElements, elementParts, List.append_assoc]
    exact hf.array.lexes_before depth first
      (hv.lexes hw hf (depth + 1) (hbehind.breaks (breaks_jsonElements hf depth _ hcs))
        (hbehind.lexes (hvs.lexes hw hf depth false hcs hps)))

theorem SayEntries.lexes (hw : w.Assumptions) (hf : f.Separates) (depth : Nat) (first : Bool)
    {vs : List (String × Value)} {js : List (String × Json)} (h : SayEntries w vs js)
    {cs : List Char} {ps : List Part} (hcs : Breaks cs) (hps : Lexes cs ps) :
    Lexes (jsonEntries w f depth first vs ++ cs) (entryParts first js ++ ps) := by
  match h with
  | .nil => exact hps
  | .cons hv hvs =>
    have hbehind := hf.object.behind depth
    simp only [jsonEntries, entryParts, List.append_assoc, List.cons_append]
    exact hf.object.lexes_before depth first (hw.lexes _ ((hf.colon depth).lexes rfl
      (hv.lexes hw hf (depth + 1) (hbehind.breaks (breaks_jsonEntries hf depth _ hcs))
        (hbehind.lexes (hvs.lexes hw hf depth false hcs hps)))))
end

/-- Both texts of a value are read as the same data, and it says what the value says. -/
theorem exists_says_jsonTexts (hw : w.Assumptions) (v : Value) :
    ∃ j, Json.read? (v.jsonTexts w).compact = some j ∧ Json.read? (v.jsonTexts w).pretty = some j ∧
      v.Says w j := by
  obtain ⟨j, hj⟩ := exists_says w v
  exact ⟨j, Json.read?_of_lexes (hj.lexes hw hw.compact 0 nofun .nil),
    Json.read?_of_lexes (hj.lexes hw hw.pretty 0 nofun .nil), hj⟩

/-- With the writer of the program: containers in each other and an empty one, a key and a string
with escapes, a number and one that is not finite. -/
theorem exists_says_jsonTexts_standard :
    let v : Value := .object [("a\"\n", .array [.number ⟨0x4054000000000000⟩, .array [], .null]),
      ("é", .object [("\\\x01", .string "\t$"), ("b", .number .notANumber)]),
      ("c", .eval ⟨.traversal, "var.c"⟩), ("d", .keyword .string)]
    Json.standard.Assumptions ∧
      ∃ j, Json.read? (v.jsonTexts Json.standard).compact = some j ∧
        Json.read? (v.jsonTexts Json.standard).pretty = some j ∧ v.Says Json.standard j :=
  ⟨Json.assumptions_standard, exists_says_jsonTexts Json.assumptions_standard _⟩

end Value

end Hcl
