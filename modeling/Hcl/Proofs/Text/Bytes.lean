import Hcl.Span

/-!
# Bytes of a text

Offsets and lengths of spans count bytes, texts are lists of characters. A place between two
characters is the number of bytes in front of it, and cutting a text at such places gives back what
it was put together from.
-/

namespace Hcl

def byteCount : List Char → Nat
  | [] => 0
  | c :: cs => c.utf8Size + byteCount cs

@[simp] theorem byteCount_nil : byteCount [] = 0 := rfl
@[simp] theorem byteCount_cons (c : Char) (cs : List Char) :
    byteCount (c :: cs) = c.utf8Size + byteCount cs := rfl

@[simp] theorem byteCount_append (as bs : List Char) :
    byteCount (as ++ bs) = byteCount as + byteCount bs := by
  induction as with
  | nil => simp
  | cons c cs ih => simp only [List.cons_append, byteCount_cons, ih, Nat.add_assoc]

theorem byteCount_pos {cs : List Char} (h : cs ≠ []) : 0 < byteCount cs := by
  cases cs with
  | nil => exact absurd rfl h
  | cons c cs =>
    have := c.utf8Size_pos
    simp only [byteCount_cons]
    omega

theorem byteCount_eq_zero {cs : List Char} : byteCount cs = 0 ↔ cs = [] := by
  constructor
  · intro h
    cases cs with
    | nil => rfl
    | cons c cs => exact absurd h (Nat.pos_iff_ne_zero.mp (byteCount_pos (List.cons_ne_nil c cs)))
  · rintro rfl
    rfl

/-- The beginning of a text is known by its bytes. -/
theorem eq_of_byteCount_eq {as bs cs ds : List Char} (h : as ++ bs = cs ++ ds)
    (hn : byteCount as = byteCount cs) : as = cs ∧ bs = ds := by
  induction as generalizing cs with
  | nil =>
    have hcs : cs = [] := byteCount_eq_zero.mp hn.symm
    subst hcs
    exact ⟨rfl, h⟩
  | cons a as ih =>
    cases cs with
    | nil => exact absurd (byteCount_eq_zero.mp hn) (List.cons_ne_nil a as)
    | cons c cs =>
      simp only [List.cons_append, List.cons.injEq] at h
      obtain ⟨rfl, h⟩ := h
      obtain ⟨rfl, rfl⟩ := ih h (by simpa using hn)
      exact ⟨rfl, rfl⟩

/-- Of two beginnings of a text, the one with fewer bytes is the beginning of the other. -/
theorem exists_append_of_byteCount_le {as bs cs ds : List Char} (h : as ++ bs = cs ++ ds)
    (hn : byteCount as ≤ byteCount cs) : ∃ ms, cs = as ++ ms ∧ bs = ms ++ ds := by
  rcases List.append_eq_append_iff.mp h with ⟨ms, rfl, rfl⟩ | ⟨ms, rfl, rfl⟩
  · exact ⟨ms, rfl, rfl⟩
  · have hms : ms = [] := byteCount_eq_zero.mp (by simp only [byteCount_append] at hn; omega)
    subst hms
    exact ⟨[], by simp, by simp⟩

/-! ## Positions -/

@[simp] theorem Position.offset_after (p : Position) (cs : List Char) :
    (p.after cs).offset = p.offset + byteCount cs := by
  induction cs generalizing p with
  | nil => rfl
  | cons c cs ih =>
    have hnext : (p.next c).offset = p.offset + c.utf8Size := by
      simp only [next]
      split <;> rfl
    rw [after_cons, ih, hnext, byteCount_cons, Nat.add_assoc]

/-! ## Cutting -/

theorem dropBytes?_append (n : Nat) (as bs : List Char) :
    dropBytes? (byteCount as + n) (as ++ bs) = dropBytes? n bs := by
  induction as with
  | nil => simp
  | cons c cs ih =>
    have hpos := c.utf8Size_pos
    obtain ⟨m, hm⟩ : ∃ m, byteCount (c :: cs) + n = m + 1 :=
      ⟨c.utf8Size + byteCount cs + n - 1, by simp only [byteCount_cons]; omega⟩
    have hle : c.utf8Size ≤ m + 1 := by simp only [byteCount_cons] at hm; omega
    have hsub : m + 1 - c.utf8Size = byteCount cs + n := by simp only [byteCount_cons] at hm; omega
    rw [hm, List.cons_append, dropBytes?, if_pos hle, hsub, ih]

theorem dropBytes?_byteCount (as bs : List Char) :
    dropBytes? (byteCount as) (as ++ bs) = some bs := by
  have h := dropBytes?_append 0 as bs
  simpa [dropBytes?] using h

theorem takeBytes?_byteCount (as bs : List Char) :
    takeBytes? (byteCount as) (as ++ bs) = some as := by
  induction as with
  | nil =>
    rw [byteCount_nil]
    cases bs <;> rfl
  | cons c cs ih =>
    have hpos := c.utf8Size_pos
    obtain ⟨m, hm⟩ : ∃ m, byteCount (c :: cs) = m + 1 :=
      ⟨c.utf8Size + byteCount cs - 1, by simp only [byteCount_cons]; omega⟩
    have hle : c.utf8Size ≤ m + 1 := by simp only [byteCount_cons] at hm; omega
    have hsub : m + 1 - c.utf8Size = byteCount cs := by simp only [byteCount_cons] at hm; omega
    rw [hm, List.cons_append, takeBytes?, if_pos hle, hsub, ih]
    rfl

theorem Span.slice?_append {s : Span} {pre w post : List Char}
    (hstart : s.start.offset = byteCount pre)
    (hlength : s.length = byteCount w) :
    s.slice? (pre ++ (w ++ post)) = some (String.ofList w) := by
  rw [slice?, hstart, hlength, dropBytes?_byteCount, Option.bind_some, takeBytes?_byteCount]
  rfl

theorem byteCount_of_takeBytes? {n : Nat} {cs w : List Char} (h : takeBytes? n cs = some w) :
    byteCount w = n := by
  induction cs generalizing n w with
  | nil =>
    cases n with
    | zero =>
      cases h
      rfl
    | succ n => cases h
  | cons c cs ih =>
    cases n with
    | zero =>
      cases h
      rfl
    | succ n =>
      rw [takeBytes?] at h
      split at h
      · obtain ⟨v, hv, rfl⟩ := Option.map_eq_some_iff.mp h
        rw [byteCount_cons, ih hv]
        omega
      · cases h

theorem Span.byteCount_of_slice? {s : Span} {source : List Char} {text : String}
    (h : s.slice? source = some text) : byteCount text.toList = s.length := by
  obtain ⟨rest, -, hrest⟩ := Option.bind_eq_some_iff.mp h
  obtain ⟨w, hw, rfl⟩ := Option.map_eq_some_iff.mp hrest
  rw [String.toList_ofList]
  exact byteCount_of_takeBytes? hw

end Hcl
