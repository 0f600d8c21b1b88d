import Hcl.Proofs.Builder.Nesting
import Hcl.Proofs.Plain.Building
import Hcl.Proofs.Reduction.Conservation
import Hcl.Proofs.Reduction.Faults
import Hcl.Proofs.Reduction.Merge

/-!
# Depth

How deeply arrays and objects are nested in a document. Each open scope adds at most two levels: an
object for the first name of a block or for a map, and a list around it if the block is repeated. A
block opens one scope however many labels it has, so its other names add two levels each that no
scope accounts for.
-/

namespace Hcl

open Hcl.Tree

/-! ## Values -/

namespace Value

mutual
/-- How many arrays and objects are nested in each other, the value itself included. -/
def depth : Value → Nat
  | array elements => elementsDepth elements + 1
  | object entries => entriesDepth entries + 1
  | _ => 0

def elementsDepth : List Value → Nat
  | [] => 0
  | v :: vs => max v.depth (elementsDepth vs)

def entriesDepth : List (String × Value) → Nat
  | [] => 0
  | (_, v) :: entries => max v.depth (entriesDepth entries)
end

mutual
/-- The depth that a value in a scope has once it and all objects below it are put into lists. No
path leads into a list, so what is in one stays as it is. -/
def reach : Value → Nat
  | array elements => elementsDepth elements + 1
  | object entries => entriesReach entries + 2
  | _ => 0

def entriesReach : List (String × Value) → Nat
  | [] => 0
  | (_, v) :: entries => max v.reach (entriesReach entries)
end

variable {d : Nat}

theorem elementsDepth_le_iff {vs : List Value} : elementsDepth vs ≤ d ↔ ∀ v ∈ vs, v.depth ≤ d := by
  induction vs with
  | nil => simp [elementsDepth]
  | cons v vs ih => simp [elementsDepth, ih]

theorem entriesDepth_le_iff {o : Object} : entriesDepth o ≤ d ↔ ∀ e ∈ o, e.2.depth ≤ d := by
  induction o with
  | nil => simp [entriesDepth]
  | cons e o ih => simp [entriesDepth, ih]

theorem entriesReach_le_iff {o : Object} : entriesReach o ≤ d ↔ ∀ e ∈ o, e.2.reach ≤ d := by
  induction o with
  | nil => simp [entriesReach]
  | cons e o ih => simp [entriesReach, ih]

mutual
theorem depth_le_reach : (v : Value) → v.depth ≤ v.reach
  | array _ => Nat.le_refl _
  | object entries => by
    have h := entriesDepth_le_entriesReach entries
    rw [depth, reach]
    omega
  | null | boolean _ | number _ | string _ | eval _ | keyword _ => Nat.le_refl _

theorem entriesDepth_le_entriesReach : (o : Object) → entriesDepth o ≤ entriesReach o
  | [] => Nat.le_refl _
  | (_, v) :: entries => by
    have hv := depth_le_reach v
    have hentries := entriesDepth_le_entriesReach entries
    rw [entriesDepth, entriesReach]
    omega
end

/-- A measure of values between their depth and their reach, to which an object adds two at most. -/
structure DepthMeasure (f : Value → Nat) : Prop where
  depth_le : ∀ v : Value, v.depth ≤ f v
  le_reach : ∀ v : Value, f v ≤ v.reach
  object_le : ∀ {o : Object} {b : Nat}, (∀ e ∈ o, f e.2 ≤ b) → f (object o) ≤ b + 2

theorem depthMeasure_depth : DepthMeasure depth where
  depth_le _ := Nat.le_refl _
  le_reach := depth_le_reach
  object_le h := by
    have h := entriesDepth_le_iff.mpr h
    rw [depth]
    omega

theorem depthMeasure_reach : DepthMeasure reach where
  depth_le := depth_le_reach
  le_reach _ := Nat.le_refl _
  object_le h := by
    have h := entriesReach_le_iff.mpr h
    rw [reach]
    omega

theorem DepthMeasure.of_reach {f : Value → Nat} (hf : DepthMeasure f) {o : Object}
    (h : ∀ e ∈ o, e.2.reach ≤ d) : ∀ e ∈ o, f e.2 ≤ d :=
  fun e he => (hf.le_reach e.2).trans (h e he)

end Value

open Value

/-! ## Scopes -/

namespace Object

variable {key name : String} {names : List String} {v : Value} {o scope body : Object}
  {f : Value → Nat} {b d : Nat}

/-- What is put into a scope is bounded if the value and the scope are. -/
theorem put_le (hv : f v ≤ d) (ho : ∀ e ∈ o, f e.2 ≤ d) : ∀ e ∈ put key v o, f e.2 ≤ d := by
  intro e he
  rcases mem_put he with rfl | hmem
  · exact hv
  · exact ho e hmem

theorem reach_child_le (hscope : ∀ e ∈ scope, e.2.reach ≤ d + 2) :
    ∀ e ∈ scope.child name, e.2.reach ≤ d := by
  rw [← entriesReach_le_iff]
  cases hlookup : scope.lookup name with
  | none =>
    rw [child_of_lookup_none hlookup]
    exact Nat.zero_le d
  | some v =>
    have hv : v.reach ≤ d + 2 := hscope _ (mem_of_lookup hlookup)
    cases v with
    | object o =>
      rw [child_of_lookup hlookup]
      rw [reach] at hv
      omega
    | _ => simp [child, hlookup, object?, entriesReach]

/-- A list keeps what it is made of, or what was in it before, and the body gets a level more. -/
theorem joined_le (hf : DepthMeasure f) {before : Option Value}
    (hbefore : ∀ v, before = some v → v.reach ≤ d) (hbody : ∀ e ∈ body, f e.2 ≤ b)
    (hd : b + 2 ≤ d) : f (joined body before) ≤ d := by
  have hobject : (object body).depth ≤ b + 1 := by
    have h := entriesDepth_le_iff.mpr fun e he => (hf.depth_le e.2).trans (hbody e he)
    rw [depth]
    omega
  -- a list has no reach beyond its depth
  have hlist : ∀ vs : List Value, (∀ v ∈ vs, v.depth + 1 ≤ d) → f (.array vs) ≤ d := by
    intro vs hvs
    have h := hf.le_reach (.array vs)
    have hdepth : elementsDepth vs ≤ d - 1 :=
      elementsDepth_le_iff.mpr fun v hv => Nat.le_sub_one_of_lt (hvs v hv)
    rw [reach] at h
    omega
  have hpair : ∀ first : Value, first.depth + 1 ≤ d → f (.array [first, object body]) ≤ d := by
    intro first hfirst
    refine hlist _ fun v hv => ?_
    simp only [List.mem_cons, List.not_mem_nil, or_false] at hv
    rcases hv with rfl | rfl
    · exact hfirst
    · omega
  cases before with
  | none => exact (hf.object_le hbody).trans hd
  | some first =>
    have hfirst := hbefore first rfl
    cases first with
    | array elements =>
      rw [reach] at hfirst
      have helements : ∀ v ∈ elements, v.depth ≤ d - 1 := elementsDepth_le_iff.mp (by omega)
      refine hlist _ fun v hv => ?_
      rcases List.mem_append.mp hv with hmem | hmem
      · have := helements v hmem
        omega
      · rw [List.mem_singleton.mp hmem]
        omega
    | object o =>
      have ho := entriesDepth_le_entriesReach o
      rw [reach] at hfirst
      exact hpair _ (by rw [depth]; omega)
    | _ => exact hpair _ (Nat.lt_of_lt_of_le (Nat.zero_lt_succ _) hd)

/-- Each name on the path to a body adds two levels at most. -/
theorem store_le (hf : DepthMeasure f) (hscope : ∀ e ∈ scope, e.2.reach ≤ d)
    (hbody : ∀ e ∈ body, f e.2 ≤ b) (hd : b + 2 * names.length ≤ d) :
    ∀ e ∈ store body names scope, f e.2 ≤ d := by
  induction names generalizing scope d with
  | nil => exact hf.of_reach hscope
  | cons name names ih =>
    rw [List.length_cons] at hd
    cases names with
    | nil =>
      refine put_le ?_ (hf.of_reach hscope)
      exact joined_le hf (fun v hv => hscope _ (mem_of_lookup hv)) hbody hd
    | cons label names =>
      obtain ⟨e, rfl⟩ : ∃ e, d = e + 2 := ⟨d - 2, by omega⟩
      rw [store_cons_cons]
      refine put_le (hf.object_le ?_) (hf.of_reach hscope)
      exact ih (reach_child_le hscope) (by omega)

/-- In an empty scope each name makes one object. -/
theorem entriesDepth_store_empty (names : List String) :
    entriesDepth (store [] names []) = names.length := by
  induction names with
  | nil => rfl
  | cons name names ih =>
    cases names with
    | nil => rfl
    | cons label names =>
      have hchild : child name [] = [] := rfl
      rw [store_cons_cons, hchild, put, entriesDepth, entriesDepth, depth, ih]
      simp

end Object

/-! ## Nodes -/

namespace Symbol

/-- How many names a block has besides the first one. -/
def labelCount (s : Symbol) : Nat :=
  match s.kind with
  | .block names => names.length - 1
  | _ => 0

theorem length_names_le {s : Symbol} {names : List String} (h : s.kind = .block names) :
    names.length ≤ s.labelCount + 1 := by
  rw [labelCount, h]
  exact Nat.le_add_of_sub_le (Nat.le_refl _)

end Symbol

namespace Node

mutual
/-- The most labels that the blocks on one way down from a node have together. The first name of a
block is not among its labels. -/
def labelDepth : Node → Nat
  | mk _ symbol children => symbol.labelCount + labelDepthAll children

def labelDepthAll : List Node → Nat
  | [] => 0
  | n :: ns => max n.labelDepth (labelDepthAll ns)
end

theorem labelDepthAll_append (ms ns : List Node) :
    labelDepthAll (ms ++ ns) = max (labelDepthAll ms) (labelDepthAll ns) := by
  induction ms with
  | nil => simp [labelDepthAll]
  | cons m ms ih => rw [List.cons_append, labelDepthAll, labelDepthAll, ih, Nat.max_assoc]

end Node

/-! ## What nodes compose -/

theorem LiteralType.reach_of_ok {type : LiteralType} {owner raw : String} {p : Position} {v : Value}
    (h : type.value owner raw p = .ok v) : v.reach = 0 := by
  cases type with
  | number =>
    rw [value] at h
    split at h <;> cases h
    rfl
  | _ =>
    cases h
    rfl

namespace Node

variable {f : Value → Nat} {b d k : Nat}

/-- What the nodes write into an empty scope, and the values that they have on their own, measure
`b` at most. -/
structure Bounded (f : Value → Nat) (b : Nat) (ns : List Node) : Prop where
  body_le : ∀ {owner : String} {body : Object}, composeAll owner ns [] = .ok body →
    ∀ e ∈ body, f e.2 ≤ b
  value_le : ∀ n ∈ ns, ∀ {owner : String} {scope : Object} {v : Option Value},
    n.compose owner [] = .ok (scope, v) → f (v.getD .null) ≤ b

theorem Bounded.elements_le {owner : String} {ns : List Node} {vs : List Value}
    (h : Bounded f b ns) (hvs : composeElements owner ns = .ok vs) : ∀ v ∈ vs, f v ≤ b := by
  have hvalue := h.value_le
  clear h
  induction ns generalizing vs with
  | nil =>
    rw [composeElements] at hvs
    cases hvs
    simp
  | cons n ns ih =>
    obtain ⟨s, w, ws, hn, hws, rfl⟩ := exists_of_composeElements_ok hvs
    intro v hv
    rcases List.mem_cons.mp hv with rfl | hmem
    · exact hvalue n List.mem_cons_self hn
    · exact ih hws (fun m hm => hvalue m (List.mem_cons_of_mem n hm)) v hmem

/-- A symbol with a scope adds two levels to what is below it, and two more for each label. -/
theorem compose_le (hf : DepthMeasure f) {id : Nat} {symbol : Symbol} {children : List Node}
    (hchildren : Bounded f b children)
    (hd : symbol.kind.hasScope = true → b + 2 * (symbol.labelCount + 1) ≤ d) {owner : String}
    {scope scope' : Object} {v : Option Value}
    (h : (mk id symbol children).compose owner scope = .ok (scope', v))
    (hscope : ∀ e ∈ scope, e.2.reach ≤ d) : (∀ e ∈ scope', f e.2 ≤ d) ∧ f (v.getD .null) ≤ d := by
  have hkept := hf.of_reach hscope
  have hleaf : ∀ {v : Value}, v.reach = 0 → f v ≤ d := by
    intro v hv
    have hle := hf.le_reach v
    omega
  have hroom : symbol.kind.hasScope = true → b + 2 ≤ d := by
    intro hk
    have := hd hk
    omega
  cases composes_of_ok h with
  | block hk _ hbody =>
    have hlength := Symbol.length_names_le hk
    have hd := hd (by rw [hk]; rfl)
    exact ⟨Object.store_le hf hscope (hchildren.body_le hbody) (by omega), hleaf rfl⟩
  | empty _ => exact ⟨Object.put_le (hleaf rfl) hkept, hleaf rfl⟩
  | attr hk hchild =>
    have hvalue := hchildren.value_le _ List.mem_cons_self hchild
    have hroom := hroom (by rw [hk]; rfl)
    exact ⟨Object.put_le (by omega) hkept, hleaf rfl⟩
  | map hk hbody =>
    have hroom := hroom (by rw [hk]; rfl)
    exact ⟨hkept, (hf.object_le (hchildren.body_le hbody)).trans hroom⟩
  | @array _ _ _ vs hk hvs =>
    have hroom := hroom (by rw [hk]; rfl)
    have hle := hf.le_reach (.array vs)
    have helements : elementsDepth vs ≤ b := elementsDepth_le_iff.mpr fun v hv =>
      (hf.depth_le v).trans (hchildren.elements_le hvs v hv)
    rw [reach] at hle
    exact ⟨hkept, by rw [Option.getD_some]; omega⟩
  | literal _ hv => exact ⟨hkept, hleaf (LiteralType.reach_of_ok hv)⟩
  | eval _ => exact ⟨hkept, hleaf rfl⟩
  | keyword _ => exact ⟨hkept, hleaf rfl⟩

/-- If no value of the scope reaches further than `d`, then the node neither writes nor has one that
does. -/
structure ReachesTo (d : Nat) (n : Node) : Prop where
  reach_le : ∀ {owner : String} {scope scope' : Object} {v : Option Value},
    n.compose owner scope = .ok (scope', v) → (∀ e ∈ scope, e.2.reach ≤ d) →
    (∀ e ∈ scope', e.2.reach ≤ d) ∧ (v.getD .null).reach ≤ d

theorem reach_of_composeAll {owner : String} {ns : List Node} {scope scope' : Object}
    (hns : ∀ n ∈ ns, n.ReachesTo d) (h : composeAll owner ns scope = .ok scope')
    (hscope : ∀ e ∈ scope, e.2.reach ≤ d) : ∀ e ∈ scope', e.2.reach ≤ d := by
  induction ns generalizing scope with
  | nil =>
    rw [composeAll] at h
    cases h
    exact hscope
  | cons n ns ih =>
    obtain ⟨s, v, hn, hrest⟩ := exists_of_composeAll_ok h
    exact ih (fun m hm => hns m (List.mem_cons_of_mem n hm)) hrest
      ((hns n List.mem_cons_self).reach_le hn hscope).1

theorem bounded_of_reachesTo {ns : List Node} (h : ∀ n ∈ ns, n.ReachesTo d) :
    Bounded reach d ns where
  body_le hbody := reach_of_composeAll h hbody (by simp)
  value_le n hn _ _ _ hvalue := ((h n hn).reach_le hvalue (by simp)).2

mutual
/-- Two levels for each scope and for each label are enough for all that a node may come to. -/
theorem reachesTo {d : Nat} : (n : Node) → 2 * (n.scopeDepth + n.labelDepth) ≤ d → n.ReachesTo d
  | mk id symbol children, hd => by
    have hbelow := reachesTo_of_mem children (Nat.le_refl _)
    refine ⟨compose_le depthMeasure_reach (bounded_of_reachesTo hbelow) fun hk => ?_⟩
    rw [scopeDepth_of_hasScope hk, labelDepth] at hd
    omega

theorem reachesTo_of_mem {d : Nat} : (ns : List Node) →
    2 * (scopeDepthAll ns + labelDepthAll ns) ≤ d → ∀ n ∈ ns, n.ReachesTo d
  | [], _, _, hn => nomatch hn
  | m :: ms, hd, n, hn => by
    rw [scopeDepthAll, labelDepthAll] at hd
    rcases List.mem_cons.mp hn with heq | hmem
    · rw [heq]
      exact reachesTo m (by omega)
    · exact reachesTo_of_mem ms (by omega) n hmem
end

/-! ## What fits into the scopes -/

theorem Bounded.mono {g : Value → Nat} {ns : List Node} (h : Bounded g b ns)
    (hfg : ∀ v, f v ≤ g v) (hd : b ≤ d) : Bounded f d ns where
  body_le hbody e he := (hfg e.2).trans ((h.body_le hbody e he).trans hd)
  value_le n hn _ _ _ hvalue := (hfg _).trans ((h.value_le n hn hvalue).trans hd)

theorem bounded_depth {ns : List Node} (hd : 2 * (scopeDepthAll ns + labelDepthAll ns) ≤ d) :
    Bounded depth d ns := by
  apply Bounded.mono (bounded_of_reachesTo (reachesTo_of_mem ns hd))
  · exact depth_le_reach
  · exact Nat.le_refl d

/-- One more node at the end. -/
theorem Bounded.concat {ms : List Node} {n : Node} (hms : Bounded f b ms)
    (hbody : ∀ {owner : String} {s scope : Object} {v : Option Value},
      composeAll owner ms [] = .ok s → n.compose owner s = .ok (scope, v) → ∀ e ∈ scope, f e.2 ≤ b)
    (hvalue : ∀ {owner : String} {scope : Object} {v : Option Value},
      n.compose owner [] = .ok (scope, v) → f (v.getD .null) ≤ b) :
    Bounded f b (ms ++ [n]) where
  body_le h := by
    obtain ⟨s, hs, hlast⟩ := exists_of_composeAll_append_ok h
    obtain ⟨s', v, hn, hnil⟩ := exists_of_composeAll_ok hlast
    rw [composeAll] at hnil
    cases hnil
    exact hbody hs hn
  value_le m hm _ _ _ h := by
    rcases List.mem_append.mp hm with hmem | hmem
    · exact hms.value_le m hmem h
    · rw [List.mem_singleton.mp hmem] at h
      exact hvalue h

/-- Only symbols with scopes write. -/
theorem eq_of_compose {owner : String} {n : Node} {scope scope' : Object} {v : Option Value}
    (hn : n.scopeDepth = 0) (h : n.compose owner scope = .ok (scope', v)) : scope' = scope := by
  cases composes_of_ok h with
  | block hk _ _ =>
    rw [scopeDepth_of_hasScope (by rw [hk]; rfl)] at hn
    cases hn
  | empty hk | attr hk _ =>
    rw [scopeDepth_of_hasScope (by rw [hk]; rfl)] at hn
    cases hn
  | _ => rfl

theorem eq_of_composeAll {owner : String} {ns : List Node} {scope scope' : Object}
    (hns : scopeDepthAll ns = 0) (h : composeAll owner ns scope = .ok scope') : scope' = scope := by
  induction ns with
  | nil =>
    rw [composeAll] at h
    cases h
    rfl
  | cons n ns ih =>
    rw [scopeDepthAll, Nat.max_eq_zero_iff] at hns
    obtain ⟨s, v, hn, hrest⟩ := exists_of_composeAll_ok h
    rw [eq_of_compose hns.1 hn] at hrest
    exact ih hns.2 hrest

/-- A symbol for which there was no scope has nothing to add to but an empty scope, so its names make
no list. -/
theorem compose_refused_le {id : Nat} {symbol : Symbol} {owner : String} {scope : Object}
    {v : Option Value} (h : (mk id symbol []).compose owner [] = .ok (scope, v)) :
    (∀ e ∈ scope, e.2.depth ≤ 2 * symbol.labelCount + 1) ∧
      (v.getD .null).depth ≤ 2 * symbol.labelCount + 1 := by
  cases composes_of_ok h with
  | @block _ _ _ names body hk _ hbody =>
    rw [composeAll] at hbody
    cases hbody
    have hlength := Symbol.length_names_le hk
    refine ⟨entriesDepth_le_iff.mp ?_, Nat.zero_le _⟩
    rw [Object.entriesDepth_store_empty]
    omega
  | empty _ => exact ⟨Object.put_le (Nat.zero_le _) (by simp), Nat.zero_le _⟩
  | map _ hbody =>
    rw [composeAll] at hbody
    cases hbody
    exact ⟨by simp, Nat.le_add_left 1 _⟩
  | array _ hvs =>
    rw [composeElements] at hvs
    cases hvs
    exact ⟨by simp, Nat.le_add_left 1 _⟩
  | @literal _ _ _ _ _ w _ hv =>
    have hdepth := depth_le_reach w
    rw [LiteralType.reach_of_ok hv] at hdepth
    exact ⟨by simp, hdepth.trans (Nat.zero_le _)⟩
  | eval _ => exact ⟨by simp, Nat.zero_le _⟩
  | keyword _ => exact ⟨by simp, Nat.zero_le _⟩

/-- What fits into `k` scopes has two levels for each of them and for each label, and one for a
symbol beyond the limit. -/
theorem Fits.bounded {ns : List Node} (h : Fits k ns) :
    Bounded depth (2 * (k + labelDepthAll ns) + 1) ns := by
  induction h with
  | within hns => exact bounded_depth (by omega)
  | @refused before id symbol hbefore =>
    rw [labelDepthAll_append, labelDepthAll, labelDepthAll, labelDepth, labelDepthAll]
    have hlimit : ∀ {x : Nat}, x ≤ 2 * symbol.labelCount + 1 →
        x ≤ 2 * (0 + max (labelDepthAll before) (max (symbol.labelCount + 0) 0)) + 1 := by
      omega
    apply Bounded.concat (bounded_depth (by omega))
    · intro owner s scope v hs hn e he
      rw [eq_of_composeAll hbefore hs] at hn
      exact hlimit ((compose_refused_le hn).1 e he)
    · intro owner scope v hn
      exact hlimit (compose_refused_le hn).2
  | @last k before id symbol children hbefore _ ih =>
    rw [labelDepthAll_append, labelDepthAll, labelDepthAll, labelDepth]
    apply Bounded.concat (bounded_depth (by omega))
    · intro owner s scope v hs hn
      have hreach := (bounded_of_reachesTo (reachesTo_of_mem before (Nat.le_refl _))).body_le hs
      refine (compose_le depthMeasure_depth ih (fun _ => by omega) hn ?_).1
      intro e he
      have hle := hreach e he
      omega
    · intro owner scope v hn
      exact (compose_le depthMeasure_depth ih (fun _ => by omega) hn (by simp)).2

end Node

/-! ## Documents -/

/-- A document is at most twice as deep as scopes may be open, and twice the labels of its blocks on
top of it. Where no block has labels, the limit on scopes is a limit on the depth. -/
theorem depth_parseDocument {recovery : Recovery} {source : String} {doc : Object}
    (h : parseDocument recovery source = .ok doc) :
    (Value.object doc).depth ≤
      2 * (maxDepth + Node.labelDepthAll (parseTree source).tree.nodes) := by
  have hfits := fits_parseTree source
  have hreduce := reduce_of_parseDocument h
  obtain ⟨st, -, hsound, hends⟩ := exists_ends_parseTree source
  obtain ⟨ts, htree, hpartial, -⟩ := hends.exists_forest hsound
  rw [htree] at hreduce hfits ⊢
  have hcompose := SymbolTree.composeAll_of_reduce
    (SymbolTree.wellFormed_ofForest hpartial).named hreduce
  rw [SymbolTree.nodes_ofForest] at hfits ⊢
  have hentries := entriesDepth_le_iff.mpr (hfits.bounded.body_le hcompose)
  have hmax : maxDepth = 128 := rfl
  rw [depth]
  omega

/-- The second `a x` makes a list of the first one, and is not closed. -/
theorem depth_parseDocument_unclosed :
    ∃ doc, parseDocument .bestEffort "a x \x7b\nv = [1]\n\x7d\na x \x7bb \x7b" = .ok doc ∧
      Node.labelDepthAll
        (parseTree "a x \x7b\nv = [1]\n\x7d\na x \x7bb \x7b").tree.nodes = 1 ∧
      (Value.object doc).depth ≤ 2 * (maxDepth + 1) := by
  generalize hsource : "a x \x7b\nv = [1]\n\x7d\na x \x7bb \x7b" = source
  have hok : (parseDocument .bestEffort source).isOk = true := by
    rw [← hsource]
    decide +kernel
  have hlabels : Node.labelDepthAll (parseTree source).tree.nodes = 1 := by
    rw [← hsource]
    decide +kernel
  cases hdoc : parseDocument .bestEffort source with
  | error e => simp [hdoc, Except.isOk, Except.toBool] at hok
  | ok doc => exact ⟨doc, rfl, hlabels, hlabels ▸ depth_parseDocument hdoc⟩

/-! ## Labels -/

namespace Plain

/-- A block with `n` labels and nothing inside. -/
def labelled (n : Nat) : Document := ⟨[.block ['b'] (List.replicate n ['x']) []]⟩

theorem eq_of_mapAll_block {f : Symbol → Symbol} (hf : ∀ s, (f s).kind = s.kind) {vs : List Tree}
    {names : List String} {span : Span} (h : mapAll f vs = [leaf (.block names span)]) :
    ∃ s, vs = [leaf s] ∧ s.kind = .block names := by
  cases vs with
  | nil =>
    rw [mapAll_nil] at h
    cases h
  | cons v vs =>
    obtain ⟨s, ts⟩ := v
    rw [mapAll_cons, map_node] at h
    obtain ⟨hnode, hvs⟩ := List.cons.inj h
    obtain ⟨hs, hts⟩ := Tree.node.inj hnode
    have hnil : ∀ {us : List Tree}, mapAll f us = [] → us = [] := by
      intro us hus
      cases us with
      | nil => rfl
      | cons u us =>
        rw [mapAll_cons] at hus
        cases hus
    refine ⟨s, by rw [hnil hvs, hnil hts, leaf], ?_⟩
    rw [← hf, hs]
    rfl

/-- One level for each name and one for the document, so no number of scopes limits the depth. -/
theorem depth_labelled (n : Nat) :
    ∃ doc, parseDocument .strict (labelled n).print = .ok doc ∧ (Value.object doc).depth = n + 2 := by
  have hscopes : (labelled n).depth ≤ maxDepth := by
    have hdepth : (labelled n).depth = 2 := rfl
    rw [hdepth]
    decide
  obtain ⟨vs, hrun, hvs⟩ := exists_trees_print (labelled n) hscopes
  obtain ⟨s, rfl, hk⟩ := eq_of_mapAll_block (f := withoutSpan) (fun _ => rfl) hvs
  generalize hnames : (['b'] :: List.replicate n ['x']).map String.ofList = names at hk
  have hlength : names.length = n + 1 := by
    rw [← hnames]
    simp
  have hblocks : Node.AllBlocksNamed (toNodes 0 [leaf s]) := by
    refine ⟨Node.blocksNamed_mk.mpr ⟨?_, trivial⟩, trivial⟩
    rw [hk, ← hnames]
    simp
  have hcompose : Node.composeAll "" (toNodes 0 [leaf s]) [] = .ok (Object.store [] names []) := by
    simp only [leaf, toNodes_cons, toNode_node, toNodes_nil, Node.composeAll, Node.compose, hk,
      Object.conflict?_empty, Except.map]
  have hwhole := Node.whole_reduceAll "" _ hblocks []
  rw [hcompose, ← SymbolTree.nodes_ofForest] at hwhole
  refine ⟨Object.store [] names [], ?_, ?_⟩
  · rw [parseDocument_strict, parseDocument_bestEffort, hrun]
    exact SymbolTree.reduce_of_whole hwhole
  · rw [depth, Object.entriesDepth_store_empty, hlength]

end Plain

/-- With 255 labels a single block is a document of 257 levels. -/
theorem not_depth_le_parseDocument :
    ¬∀ (recovery : Recovery) (source : String) (doc : Object),
      parseDocument recovery source = .ok doc → (Value.object doc).depth ≤ 2 * maxDepth := by
  intro hall
  obtain ⟨doc, hdoc, hdepth⟩ := Plain.depth_labelled 255
  have hle := hall .strict _ doc hdoc
  have hmax : maxDepth = 128 := rfl
  omega

end Hcl
