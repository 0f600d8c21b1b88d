import Hcl.Proofs.Forest.Each
import Hcl.Proofs.Reduction.Conservation

/-!
# Keys of the document

A root writes at its own key, and what it writes depends only on what is there already. So the value
at a key comes from the roots that have this key, whatever stands between them. A root that fails
also fails when no others are reduced before it.
-/

namespace Hcl

open Hcl.Tree

/-! ## Writing at a key -/

namespace Object

variable {name : String} {scope o : Object}

theorem keys_put (key : String) (v : Value) (o : Object) :
    keys (put key v o) = if key ∈ keys o then keys o else keys o ++ [key] := by
  induction o with
  | nil => rfl
  | cons entry entries ih =>
    obtain ⟨k, w⟩ := entry
    have hcons : keys ((k, w) :: entries) = k :: keys entries := rfl
    by_cases hk : k = key
    · simp [put, keys, hk]
    · rw [put, if_neg hk, hcons]
      change k :: keys (put key v entries) = _
      by_cases hkey : key ∈ keys entries
      · rw [ih, if_pos hkey, if_pos (List.mem_cons_of_mem k hkey)]
      · have hnew : key ∉ k :: keys entries := by simp [Ne.symm hk, hkey]
        rw [ih, if_neg hkey, if_neg hnew]
        rfl

/-- A key that comes again is dropped, a new one comes last. -/
theorem eraseDups_append_singleton (ks : List String) (key : String) :
    (ks ++ [key]).eraseDups =
      if key ∈ ks.eraseDups then ks.eraseDups else ks.eraseDups ++ [key] := by
  rw [List.eraseDups_append]
  by_cases hkey : key ∈ ks
  · have hold : [key].removeAll ks = [] := by simp [List.removeAll, hkey]
    rw [hold, if_pos (List.mem_eraseDups.mpr hkey), List.eraseDups_nil, List.append_nil]
  · have hnew : [key].removeAll ks = [key] := by simp [List.removeAll, hkey]
    rw [hnew, if_neg fun hmem => hkey (List.mem_eraseDups.mp hmem)]
    rfl

theorem conflict?_congr (p : Position) (names : List String)
    (h : o.lookup name = scope.lookup name) :
    conflict? p (name :: names) o = conflict? p (name :: names) scope := by
  rw [conflict?, conflict?, h]

/-- What is stored at the first name depends only on what is there. -/
theorem exists_store (body : Object) (name : String) (names : List String) (scope : Object) :
    ∃ v, ∀ o : Object, o.lookup name = scope.lookup name →
      store body (name :: names) o = put name v o := by
  cases names with
  | nil => exact ⟨joined body (scope.lookup name), fun o h => by rw [store, h]⟩
  | cons label names =>
    refine ⟨.object (store body (label :: names) (scope.child name)), fun o h => ?_⟩
    rw [store_cons_cons, child, child, h]

end Object

namespace Node

/-- A symbol with a key writes at its key or fails without a trace. Which of these, what it writes
and its result depend only on what is at its key. -/
theorem reduce_cases {n : Node} {key : String} (h : n.symbol.key? = some key) (owner : String)
    (scope : Object) :
    (∃ v result, ∀ o : Object, o.lookup key = scope.lookup key →
      n.reduce owner o = ⟨o.put key v, result⟩) ∨
    ∃ e, ∀ o : Object, o.lookup key = scope.lookup key → n.reduce owner o = ⟨o, .error e⟩ := by
  obtain ⟨id, symbol, children⟩ := n
  cases hk : symbol.kind with
  | block names =>
    cases names with
    | nil => simp [Node.symbol, Symbol.key?, hk] at h
    | cons name names =>
      obtain rfl : name = key := by simpa [Node.symbol, Symbol.key?, hk] using h
      have hreduce (o : Object) := Object.within_eq symbol.position
        (fun body => reduceAll owner children body) (List.cons_ne_nil name names) o
      cases hconflict : Object.conflict? symbol.position (name :: names) scope with
      | some e =>
        refine .inr ⟨e, fun o ho => ?_⟩
        simp only [reduce, hk, hreduce, Object.conflict?_congr _ names ho, hconflict]
      | none =>
        obtain ⟨v, hv⟩ := Object.exists_store (reduceAll owner children []).scope name names scope
        refine .inl ⟨v, (reduceAll owner children []).result, fun o ho => ?_⟩
        simp only [reduce, hk, hreduce, Object.conflict?_congr _ names ho, hconflict, hv o ho]
  | attr =>
    obtain rfl : symbol.name.getD "" = key := by simpa [Node.symbol, Symbol.key?, hk] using h
    cases children with
    | nil => exact .inl ⟨.null, .ok none, fun o _ => by simp only [reduce, hk]⟩
    | cons child siblings =>
      cases hchild : (child.reduce (symbol.name.getD "") []).result with
      | ok v => exact .inl ⟨v.getD .null, .ok none, fun o _ => by simp only [reduce, hk, hchild]⟩
      | error e => exact .inr ⟨e, fun o _ => by simp only [reduce, hk, hchild]⟩
  | _ => simp [Node.symbol, Symbol.key?, hk] at h

end Node

/-! ## Reducing some of the symbols -/

namespace SymbolTree

variable {t : SymbolTree} {ids before : List Nat} {id : Nat} {key : String}
  {scope scope' : Object} {e : Error}

/-- The scope that the reduction of the symbol `id` leaves. -/
def reduceInto (t : SymbolTree) (scope : Object) (id : Nat) : Except Error Object :=
  match t.reduceSymbol? id scope with
  | some r => r.result.map fun _ => r.scope
  | none => .ok scope

/-- Reduces the symbols `ids` one after the other into `scope`, up to the first error. -/
def reduceSymbols (t : SymbolTree) (ids : List Nat) (scope : Object) : Except Error Object :=
  ids.foldlM t.reduceInto scope

/-- The key of the symbol `id` in the body around it. -/
def key? (t : SymbolTree) (id : Nat) : Option String := (t.get? id).bind (·.symbol.key?)

/-- The roots that have the key `key`, in order. -/
def rootsAt (t : SymbolTree) (key : String) : List Nat :=
  t.roots.toList.filter (t.key? · = some key)

/-- Nothing is above the symbols `ids`, and each of them has a key: it is an attribute, or a block
with names. -/
def Keyed (t : SymbolTree) (ids : List Nat) : Prop :=
  ∀ id ∈ ids, ∃ e key, t.get? id = some e ∧ e.parent = none ∧ e.symbol.key? = some key

theorem reduceSymbols_cons :
    t.reduceSymbols (id :: ids) scope = (t.reduceInto scope id).bind (t.reduceSymbols ids) := rfl

theorem reduceSymbols_append :
    t.reduceSymbols (before ++ ids) scope =
      (t.reduceSymbols before scope).bind (t.reduceSymbols ids) := List.foldlM_append

theorem reduceSymbols_append_singleton (h : t.reduceSymbols before scope = .ok scope') :
    t.reduceSymbols (before ++ [id]) scope = t.reduceInto scope' id := by
  rw [reduceSymbols_append, h]
  change (t.reduceInto scope' id).bind (t.reduceSymbols []) = _
  cases t.reduceInto scope' id <;> rfl

theorem reduceInto_of_node? {n : Node} (hn : t.node? id = some n) (scope : Object) :
    t.reduceInto scope id = (n.reduce (t.attributeAbove id) scope).result.map fun _ =>
      (n.reduce (t.attributeAbove id) scope).scope := by
  rw [reduceInto, reduceSymbol?, hn]
  rfl

/-- The whole document is reduced root by root. -/
theorem reduceSymbols_eq (hids : t.Keyed ids) (scope : Object) :
    t.reduceSymbols ids scope =
      (Node.reduceAll "" (ids.filterMap t.node?) scope).result.map fun _ =>
        (Node.reduceAll "" (ids.filterMap t.node?) scope).scope := by
  induction ids generalizing scope with
  | nil => rfl
  | cons id ids ih =>
    obtain ⟨e, key, he, hroot, -⟩ := hids id List.mem_cons_self
    have ih := ih fun i hi => hids i (List.mem_cons_of_mem id hi)
    rw [reduceSymbols_cons, List.filterMap_cons_some (node?_of_get? he), Node.reduceAll,
      reduceInto_of_node? (node?_of_get? he), attributeAbove_of_root he hroot]
    cases hfirst : (Node.reduce "" _ scope).result with
    | error e =>
      rw [hfirst]
      rfl
    | ok v => exact ih _

theorem reduce_eq_reduceSymbols (h : t.Keyed t.roots.toList) :
    t.reduce = t.reduceSymbols t.roots.toList [] := (reduceSymbols_eq h []).symm

/-- A root with a key writes at its key or fails, whatever is at the other keys. -/
theorem reduceInto_cases {e : Entry} (he : t.get? id = some e) (hkey : e.symbol.key? = some key)
    (scope : Object) :
    (∃ v, ∀ o : Object, o.lookup key = scope.lookup key → t.reduceInto o id = .ok (o.put key v)) ∨
    ∃ fault, ∀ o : Object, o.lookup key = scope.lookup key → t.reduceInto o id = .error fault := by
  have hinto (o : Object) := reduceInto_of_node? (node?_of_get? he) o
  rcases Node.reduce_cases (n := .mk id e.symbol _) hkey (t.attributeAbove id) scope with
    ⟨v, result, hv⟩ | ⟨fault, hfault⟩
  · cases result with
    | ok w => exact .inl ⟨v, fun o ho => by rw [hinto, hv o ho]; rfl⟩
    | error fault => exact .inr ⟨fault, fun o ho => by rw [hinto, hv o ho]; rfl⟩
  · exact .inr ⟨fault, fun o ho => by rw [hinto, hfault o ho]; rfl⟩

/-! ## Key by key -/

/-- The scope after the symbols `before`: their keys in the order in which they first come, and at
each key what the symbols with this key make of an empty scope. -/
structure KeyedBy (t : SymbolTree) (before : List Nat) (scope : Object) : Prop where
  keys_eq : Object.keys scope = (before.filterMap t.key?).eraseDups
  exists_lookup : ∀ key, ∃ alone, t.reduceSymbols (before.filter (t.key? · = some key)) [] =
    .ok alone ∧ scope.lookup key = alone.lookup key

namespace KeyedBy

theorem nil : t.KeyedBy [] [] where
  keys_eq := rfl
  exists_lookup _ := ⟨[], rfl, rfl⟩

/-- One more symbol: the scope is again made key by key, or the symbol fails, also among those that
have its key. -/
theorem step (h : t.KeyedBy before scope) {e : Entry} (he : t.get? id = some e)
    (hkey : e.symbol.key? = some key) :
    (∃ scope', t.reduceInto scope id = .ok scope' ∧ t.KeyedBy (before ++ [id]) scope') ∨
    ∃ fault, t.reduceInto scope id = .error fault ∧
      t.reduceSymbols ((before ++ [id]).filter (t.key? · = some key)) [] = .error fault := by
  have hid : t.key? id = some key := by rw [key?, he, Option.bind_some, hkey]
  obtain ⟨alone, halone, hlookup⟩ := h.exists_lookup key
  have hfilter : (before ++ [id]).filter (t.key? · = some key) =
      before.filter (t.key? · = some key) ++ [id] := by simp [hid]
  rcases reduceInto_cases he hkey scope with ⟨v, hv⟩ | ⟨fault, hfault⟩
  · refine .inl ⟨scope.put key v, hv scope rfl, ?_, fun other => ?_⟩
    · rw [Object.keys_put, h.keys_eq, List.filterMap_append, List.filterMap_cons_some hid,
        List.filterMap_nil, Object.eraseDups_append_singleton]
    · by_cases hother : other = key
      · subst hother
        rw [hfilter, reduceSymbols_append_singleton halone, hv alone hlookup.symm]
        exact ⟨_, rfl, by rw [Object.lookup_put_self, Object.lookup_put_self]⟩
      · obtain ⟨o, ho, heq⟩ := h.exists_lookup other
        have hsame : (before ++ [id]).filter (t.key? · = some other) =
            before.filter (t.key? · = some other) := by simp [hid, Ne.symm hother]
        exact ⟨o, hsame ▸ ho, by rw [Object.lookup_put_of_ne hother, heq]⟩
  · refine .inr ⟨fault, hfault scope rfl, ?_⟩
    rw [hfilter, reduceSymbols_append_singleton halone, hfault alone hlookup.symm]

/-- All symbols in a row. -/
theorem run (h : t.KeyedBy before scope) (hids : t.Keyed ids) :
    (∃ scope', t.reduceSymbols ids scope = .ok scope' ∧ t.KeyedBy (before ++ ids) scope') ∨
    ∃ front id back key middle fault, ids = front ++ id :: back ∧ t.key? id = some key ∧
      t.reduceSymbols front scope = .ok middle ∧ t.reduceInto middle id = .error fault ∧
      t.reduceSymbols ids scope = .error fault ∧
      t.reduceSymbols ((before ++ ids).filter (t.key? · = some key)) [] = .error fault := by
  induction ids generalizing before scope with
  | nil => exact .inl ⟨scope, rfl, by rwa [List.append_nil]⟩
  | cons id ids ih =>
    obtain ⟨e, key, he, -, hkey⟩ := hids id List.mem_cons_self
    have happend : before ++ id :: ids = (before ++ [id]) ++ ids := by simp
    rw [reduceSymbols_cons, happend]
    rcases h.step he hkey with ⟨next, hnext, hafter⟩ | ⟨fault, hfault, halone⟩
    · rw [hnext]
      rcases ih hafter fun i hi => hids i (List.mem_cons_of_mem id hi) with
        hall | ⟨front, i, back, k, middle, fault, rfl, hk, hfront, hi, hrun, halone⟩
      · exact .inl hall
      · refine .inr ⟨id :: front, i, back, k, middle, fault, rfl, hk, ?_, hi, hrun, halone⟩
        rw [reduceSymbols_cons, hnext]
        exact hfront
    · refine .inr ⟨[], id, ids, key, scope, fault, rfl, ?_, rfl, hfault, by rw [hfault]; rfl, ?_⟩
      · rw [key?, he, Option.bind_some, hkey]
      · rw [List.filter_append, reduceSymbols_append, halone]
        rfl

end KeyedBy

/-- Each key of a document comes from the roots that have it, and the keys are in the order in which
they first come. If the reduction fails, then with the error that the roots with the key of the
first root that fails give on their own. -/
theorem reduce_keys (t : SymbolTree) (hroots : t.Keyed t.roots.toList) :
    (∀ doc, t.reduce = .ok doc →
      Object.keys doc = (t.roots.toList.filterMap t.key?).eraseDups ∧
      ∀ key, ∃ alone, t.reduceSymbols (t.rootsAt key) [] = .ok alone ∧
        doc.lookup key = alone.lookup key) ∧
    (∀ fault, t.reduce = .error fault →
      ∃ before id behind key scope, t.roots.toList = before ++ id :: behind ∧
        t.key? id = some key ∧ t.reduceSymbols before [] = .ok scope ∧
        t.reduceInto scope id = .error fault ∧
        t.reduceSymbols (t.rootsAt key) [] = .error fault) := by
  rw [reduce_eq_reduceSymbols hroots]
  rcases KeyedBy.nil.run hroots with ⟨scope, hscope, hkeyed⟩ |
    ⟨before, id, behind, key, scope, fault, hsplit, hkey, hbefore, hid, hrun, halone⟩
  · refine ⟨fun doc hdoc => ?_, fun fault hfault => ?_⟩
    · rw [hscope] at hdoc
      cases hdoc
      exact ⟨hkeyed.keys_eq, hkeyed.exists_lookup⟩
    · rw [hscope] at hfault
      cases hfault
  · refine ⟨fun doc hdoc => ?_, fun e he => ?_⟩
    · rw [hrun] at hdoc
      cases hdoc
    · rw [hrun] at he
      cases he
      exact ⟨before, id, behind, key, scope, hsplit, hkey, hbefore, hid, halone⟩

theorem reduce_keys_interleaved :
    ∃ doc alone,
      (parseTree "z = 1\nb q {}\na = 2\nb r {}\nz = 3\n").tree.reduce = .ok doc ∧
      Object.keys doc = ["z", "b", "a"] ∧
      (parseTree "z = 1\nb q {}\na = 2\nb r {}\nz = 3\n").tree.reduceSymbols [2, 5] [] =
        .ok alone ∧
      doc.lookup "b" = alone.lookup "b" := by
  generalize hsource : "z = 1\nb q {}\na = 2\nb r {}\nz = 3\n" = source
  have hreduces : (parseTree source).tree.reduce.isOk = true := by
    rw [← hsource]
    decide +kernel
  have hkeys : (parseTree source).tree.roots.toList.filterMap (parseTree source).tree.key? =
      ["z", "b", "a", "b", "z"] := by
    rw [← hsource]
    decide +kernel
  have hblocks : (parseTree source).tree.rootsAt "b" = [2, 5] := by
    rw [← hsource]
    decide +kernel
  have hroots : ∀ id ∈ (parseTree source).tree.roots.toList,
      ((parseTree source).tree.get? id).map (fun e => (e.parent, e.symbol.key?.isSome)) =
        some (none, true) := by
    rw [← hsource]
    decide +kernel
  have hkeyed : (parseTree source).tree.Keyed (parseTree source).tree.roots.toList := by
    intro id hid
    obtain ⟨e, he, hpair⟩ := Option.map_eq_some_iff.mp (hroots id hid)
    obtain ⟨hparent, hkey⟩ := Prod.mk.inj hpair
    obtain ⟨key, hkey⟩ := Option.isSome_iff_exists.mp hkey
    exact ⟨e, key, he, hparent, hkey⟩
  cases hdoc : (parseTree source).tree.reduce with
  | error e => simp [hdoc, Except.isOk, Except.toBool] at hreduces
  | ok doc =>
    obtain ⟨hkeysDoc, hlookup⟩ := (reduce_keys _ hkeyed).1 doc hdoc
    obtain ⟨alone, halone, heq⟩ := hlookup "b"
    rw [hkeys] at hkeysDoc
    rw [hblocks] at halone
    exact ⟨doc, alone, rfl, hkeysDoc.trans (by decide +kernel), halone, heq⟩

end SymbolTree

end Hcl
