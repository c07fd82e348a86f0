import Scriptlet.Scopes.Lemmas
import Scriptlet.Store

/-!
# Requests to a store

A host works on a store by requests: it makes values, opens scopes, binds names,
calls closures and builtins, and prints. A request can only name scopes that are
there. The scopes change in one of three ways: not at all, by bindings in one
scope, or by a new scope with its first bindings.
-/
namespace Scriptlet

inductive Request where
  | ret (inner : Value)
  | error (message : String)
  | str (text : String)
  | array (items : List Value)
  | hash (pairs : List (Value × Value))
  | keyedHash (entries : List (Entry Value))
  | function (params : List String) (body : Block) (scope : ScopeId)
  | macroFn (params : List String) (body : Block) (scope : ScopeId)
  | quote (node : Node)
  | newScope
  | enclose (outer : ScopeId)
  | set (scope : ScopeId) (name : String) (value : Value)
  | activate (closure : Closure) (args : List Value)
  | register (scope : ScopeId)
  | attach (channel : Channel)
  | print (id : ChannelId) (line : Text)
  | clear (id : ChannelId)
  | call (id : ChannelId) (b : Builtin) (args : List Value)

/-- The value that a request hands out, if there is one, and the store after it. -/
def Store.serve (st : Store) : Request → Option Value × Store
  | .ret inner => Prod.map some id (st.newReturn inner)
  | .error message => Prod.map some id (st.newError message)
  | .str text => Prod.map some id (st.newString text)
  | .array items => Prod.map some id (st.newArray items)
  | .hash pairs =>
    match st.newHash pairs with
    | .ok made => Prod.map some id made
    | .error _ => (none, st)
  | .keyedHash entries => Prod.map some id (st.newKeyedHash entries)
  | .function params body e => Prod.map (some ∘ .function) id (st.newClosure params body e)
  | .macroFn params body e => Prod.map (some ∘ .macroFn) id (st.newClosure params body e)
  | .quote node => Prod.map some id (st.newQuote node)
  | .newScope => (none, st.newScope.2)
  | .enclose outer => (none, (st.enclose outer).2)
  | .set e name value => (none, st.set e name value)
  | .activate c args =>
    match st.activate c args with
    | (.ok _, after) => (none, after)
    | (.error v, after) => (some v, after)
  | .register e => (none, st.register e)
  | .attach channel => (none, (st.attach channel).2)
  | .print id line => (none, st.print id line)
  | .clear id => (none, st.clear id)
  | .call channel b args => Prod.map some id (st.call channel b args)

/-- One binding of a name in a scope. -/
structure Write where
  scope : ScopeId
  name : String
  value : Value

def Write.ofBinding (e : ScopeId) (b : Binding Value) : Write := ⟨e, b.name, b.value⟩

namespace Request

/-- The scopes that a request names. -/
def scopes : Request → List ScopeId
  | .function _ _ e | .macroFn _ _ e | .enclose e | .set e _ _ | .register e => [e]
  | .activate c _ => [c.scope]
  | _ => []

/-- The values that a request hands over. A closure is handed over as a function. -/
def values : Request → List Value
  | .ret inner => [inner]
  | .array items => items
  | .hash pairs => pairs.flatMap fun p => [p.1, p.2]
  | .keyedHash entries => entries.flatMap fun e => [e.stored, e.value]
  | .set _ _ value => [value]
  | .activate c args => .function c :: args
  | .call _ _ args => args
  | _ => []

/-- What a request binds, in the order of binding. A call of a closure binds in
the scope that it opens. -/
def writes (st : Store) : Request → List Write
  | .set e name value => [⟨e, name, value⟩]
  | .activate c args =>
    match st.activate c args with
    | (.ok e, _) => c.params.zipWith (Write.mk e) args
    | (.error _, _) => []
  | .register e => Builtin.all.map fun b => ⟨e, b.name, .builtin b⟩
  | _ => []

/-- The three ways in which a request binds a name. -/
theorem mem_writes {st : Store} {r : Request} {w : Write} (hw : w ∈ r.writes st) :
    r = .set w.scope w.name w.value ∨
    (∃ c args after, r = .activate c args ∧ st.activate c args = (.ok w.scope, after) ∧
      w.value ∈ args) ∨
    r = .register w.scope ∧ ∃ b, w.value = .builtin b := by
  cases r with
  | set e name value =>
    cases List.mem_singleton.1 hw
    exact Or.inl rfl
  | activate c args =>
    simp only [writes] at hw
    split at hw
    · next e after hcall =>
      rw [← List.map_uncurry_zip_eq_zipWith] at hw
      obtain ⟨p, hp, rfl⟩ := List.mem_map.1 hw
      exact Or.inr (Or.inl ⟨c, args, after, rfl, hcall, (List.of_mem_zip hp).2⟩)
    · cases hw
  | register e =>
    obtain ⟨b, -, rfl⟩ := List.mem_map.1 hw
    exact Or.inr (Or.inr ⟨rfl, b, rfl⟩)
  | _ => cases hw

/-- What lies around the scope that a request opens, if it opens one. -/
def opened : Request → List (Option ScopeId)
  | .newScope => [none]
  | .enclose outer => [some outer]
  | .activate c args => if args.length = c.params.length then [some c.scope] else []
  | _ => []

def Admitted (st : Store) (r : Request) : Prop := ∀ e ∈ r.scopes, e ∈ st.scopes

instance (st : Store) (r : Request) : Decidable (r.Admitted st) :=
  inferInstanceAs (Decidable (∀ e ∈ r.scopes, e ∈ st.scopes))

end Request

namespace Store

def serveAll (st : Store) (rs : List Request) : Store := rs.foldl (fun st r => (st.serve r).2) st

@[simp]
theorem serveAll_nil (st : Store) : st.serveAll [] = st := rfl

@[simp]
theorem serveAll_cons (st : Store) (r : Request) (rs : List Request) :
    st.serveAll (r :: rs) = (st.serve r).2.serveAll rs := rfl

/-- Each request names only scopes that are there when its turn comes. -/
def Admits (st : Store) : List Request → Prop
  | [] => True
  | r :: rs => r.Admitted st ∧ (st.serve r).2.Admits rs

def decidableAdmits (st : Store) : (rs : List Request) → Decidable (st.Admits rs)
  | [] => inferInstanceAs (Decidable True)
  | r :: rs =>
    have := (st.serve r).2.decidableAdmits rs
    inferInstanceAs (Decidable (r.Admitted st ∧ (st.serve r).2.Admits rs))

instance (st : Store) (rs : List Request) : Decidable (st.Admits rs) := st.decidableAdmits rs

/-- All bindings that a run of requests makes, from the first to the last. -/
def history (st : Store) : List Request → List Write
  | [] => []
  | r :: rs => r.writes st ++ (st.serve r).2.history rs

/-- A state that a run of requests leads to from the empty store. -/
def ReachedBy (st : Store) (rs : List Request) : Prop := empty.Admits rs ∧ empty.serveAll rs = st

end Store

/-! ### Several bindings in one scope -/

namespace Scopes

variable {α : Type}

theorem setAll_cons (t : Scopes α) (e : ScopeId) (b : Binding α) (bs : List (Binding α)) :
    t.setAll e (b :: bs) = (t.set e b.name b.value).setAll e bs := rfl

theorem outer?_setAll (t : Scopes α) (e f : ScopeId) (bs : List (Binding α)) :
    (t.setAll e bs).outer? f = t.outer? f := by
  induction bs generalizing t with
  | nil => rfl
  | cons b bs ih => rw [setAll_cons, ih, outer?_set]

theorem chain_setAll (t : Scopes α) (e f : ScopeId) (bs : List (Binding α)) :
    (t.setAll e bs).chain f = t.chain f := by
  induction bs generalizing t with
  | nil => rfl
  | cons b bs ih => rw [setAll_cons, ih, chain_set]

theorem bindings_setAll (t : Scopes α) (e f : ScopeId) (bs : List (Binding α)) :
    (t.setAll e bs).bindings f =
      if f = e ∧ e ∈ t then bs.foldl (fun held b => Keyed.put b held) (t.bindings f)
      else t.bindings f := by
  induction bs generalizing t with
  | nil => rw [setAll, List.foldl_nil, List.foldl_nil, ite_self]
  | cons b bs ih =>
    rw [setAll_cons, ih]
    simp only [mem_set, bindings_set]
    by_cases h : f = e ∧ e ∈ t
    · rw [if_pos h, if_pos h, if_pos h, List.foldl_cons]
    · rw [if_neg h, if_neg h, if_neg h]

/-- What lies around each scope, in the order in which the scopes were opened. -/
def links (t : Scopes α) : List (Option ScopeId) := t.table.toList.map Scope.outer

theorem outer?_eq_links (t : Scopes α) (e : ScopeId) : t.outer? e = t.links[e.index]?.join := by
  rw [outer?, links, List.getElem?_map, Array.getElem?_toList]
  cases t.table[e.index]? <;> rfl

theorem mem_iff_lt_length_links (t : Scopes α) (e : ScopeId) :
    e ∈ t ↔ e.index < t.links.length := by
  rw [mem_def, links, List.length_map, Array.length_toList]

theorem links_set (t : Scopes α) (e : ScopeId) (name : String) (v : α) :
    (t.set e name v).links = t.links := by
  apply List.ext_getElem?
  intro i
  simp only [links, set, List.getElem?_map, Array.getElem?_toList, Array.getElem?_modify]
  split
  · cases t.table[i]? <;> rfl
  · rfl

theorem links_setAll (t : Scopes α) (e : ScopeId) (bs : List (Binding α)) :
    (t.setAll e bs).links = t.links := by
  induction bs generalizing t with
  | nil => rfl
  | cons b bs ih => rw [setAll_cons, ih, links_set]

theorem links_push (t : Scopes α) (outer : Option ScopeId) (h) :
    (t.push outer h).links = t.links ++ [outer] := by
  rw [links, push, Array.toList_push, List.map_append, links]
  rfl

theorem getLocal?_push (t : Scopes α) (outer : Option ScopeId) (h) (e : ScopeId) (name : String) :
    (t.push outer h).getLocal? e name = t.getLocal? e name := by
  rw [getLocal?, bindings_push, getLocal?]

end Scopes

/-! ### What a request does to the scopes -/

/-- The three ways in which scopes change, each with what is opened and what is
bound on the way. -/
inductive Scopes.Change (t : Scopes Value) :
    List (Option ScopeId) → List Write → Scopes Value → Prop where
  | rest : Change t [] [] t
  | bind {e : ScopeId} (he : e ∈ t) (bs : List (Binding Value)) :
      Change t [] (bs.map (Write.ofBinding e)) (t.setAll e bs)
  | grow (outer : Option ScopeId) (ho : ∀ o, outer = some o → o ∈ t) (bs : List (Binding Value)) :
      Change t [outer] (bs.map (Write.ofBinding t.next)) ((t.push outer ho).setAll t.next bs)

namespace Scopes.Change

variable {t t' : Scopes Value} {os : List (Option ScopeId)} {ws : List Write}

theorem links (h : Change t os ws t') : t'.links = t.links ++ os := by
  cases h with
  | rest => rw [List.append_nil]
  | bind _ bs => rw [links_setAll, List.append_nil]
  | grow outer ho bs => rw [links_setAll, links_push]

theorem mem (h : Change t os ws t') {e : ScopeId} (he : e ∈ t) : e ∈ t' := by
  have hlen : t'.links.length = t.links.length + os.length := by rw [h.links, List.length_append]
  rw [mem_iff_lt_length_links] at he ⊢
  omega

theorem outer? (h : Change t os ws t') {e : ScopeId} (he : e ∈ t) : t'.outer? e = t.outer? e := by
  have hlt : e.index < t.links.length := (mem_iff_lt_length_links t e).1 he
  rw [outer?_eq_links, h.links, List.getElem?_append_left hlt, outer?_eq_links]

theorem chain (h : Change t os ws t') {e : ScopeId} (he : e ∈ t) : t'.chain e = t.chain e := by
  cases h with
  | rest => rfl
  | bind _ bs => rw [chain_setAll]
  | grow outer ho bs => rw [chain_setAll, chain_push_of_mem he]

theorem depth (h : Change t os ws t') {e : ScopeId} (he : e ∈ t) : t'.depth e = t.depth e := by
  rw [Scopes.depth, h.chain he, Scopes.depth]

end Scopes.Change

theorem Scopes.enclose_of_mem {t : Scopes Value} {o : ScopeId} (ho : o ∈ t) :
    t.enclose o = (t.next, t.push (some o) (by simpa using ho)) := by
  rw [enclose, dif_pos ho]

namespace Store

variable {st : Store}

theorem activate_of_length_eq {c : Closure} {args : List Value} (hc : c.scope ∈ st.scopes)
    (h : args.length = c.params.length) :
    st.activate c args = (.ok st.scopes.next, { st with
      scopes := (st.scopes.push (some c.scope) (by simpa using hc)).setAll st.scopes.next
        (c.params.zipWith Binding.mk args) }) := by
  rw [activate, if_pos h, Scopes.enclose_of_mem hc]

theorem activate_of_length_ne {c : Closure} {args : List Value}
    (h : args.length ≠ c.params.length) :
    st.activate c args = (.error (.error st.next
      (Fault.paramCount c.params.length args.length).message), st.tick) := by
  rw [activate, if_neg h]
  rfl

theorem length_eq_of_activate {c : Closure} {args : List Value} {e : ScopeId} {after : Store}
    (h : st.activate c args = (.ok e, after)) : args.length = c.params.length := by
  by_cases hl : args.length = c.params.length
  · exact hl
  · rw [activate_of_length_ne hl] at h
    cases h

/-- Printing line by line changes nothing but the console. -/
theorem foldl_print (st : Store) (id : ChannelId) (lines : List Text) :
    lines.foldl (fun st line => st.print id line) st =
      { st with console := lines.foldl (fun c line => c.print id line) st.console } := by
  induction lines generalizing st with
  | nil => rfl
  | cons line lines ih => exact ih (st.print id line)

theorem newAnswer_scopes (st : Store) (a : Answer) : (st.newAnswer a).2.scopes = st.scopes := by
  cases a <;> rfl

theorem call_scopes (st : Store) (id : ChannelId) (b : Builtin) (args : List Value) :
    (st.call id b args).2.scopes = st.scopes := by
  rw [call, newAnswer_scopes, foldl_print]

/-- A request that is admitted changes the scopes in one of the three ways, and
opens and binds what it says. -/
theorem serve_change {r : Request} (h : r.Admitted st) :
    st.scopes.Change r.opened (r.writes st) (st.serve r).2.scopes := by
  cases r with
  | hash pairs =>
    simp only [serve, newHash]
    cases entriesOfPairs pairs <;> exact .rest
  | newScope => exact .grow none (by simp) []
  | enclose outer =>
    have ho : outer ∈ st.scopes := h outer (by simp [Request.scopes])
    have hs : (st.serve (.enclose outer)).2.scopes =
        st.scopes.push (some outer) (by simpa using ho) := by
      simp only [serve, enclose, Scopes.enclose_of_mem ho]
    rw [hs]
    exact .grow (some outer) (by simpa using ho) []
  | set e name value => exact .bind (h e (by simp [Request.scopes])) [⟨name, value⟩]
  | activate c args =>
    have hc : c.scope ∈ st.scopes := h c.scope (by simp [Request.scopes])
    by_cases hl : args.length = c.params.length
    · have hw : c.params.zipWith (Write.mk st.scopes.next) args =
          (c.params.zipWith Binding.mk args).map (Write.ofBinding st.scopes.next) := by
        rw [List.map_zipWith]
        rfl
      simp only [serve, Request.writes, Request.opened, if_pos hl, activate_of_length_eq hc hl, hw]
      exact .grow (some c.scope) (by simpa using hc) _
    · simp only [serve, Request.writes, Request.opened, if_neg hl, activate_of_length_ne hl]
      exact .rest
  | register e =>
    have hw : (Request.register e).writes st =
        (Builtin.all.map fun b => (⟨b.name, .builtin b⟩ : Binding Value)).map
          (Write.ofBinding e) := by
      rw [List.map_map]
      rfl
    rw [hw]
    exact .bind (h e (by simp [Request.scopes])) _
  | call id b args =>
    have hs : (st.serve (.call id b args)).2.scopes = st.scopes := call_scopes st id b args
    rw [hs]
    exact .rest
  | _ => exact .rest

end Store

end Scriptlet
