import Scriptlet.Proofs.Host

/-!
# Calls of equal closures

Equality of closures looks at the stamp and the scope, not at the parameters.
A stamp is drawn for the parameters and the body together, so equal closures
that a host knows have the same parameters and the same body. Calling one and
then the other on the same arguments fails twice with the same message, or it
opens two scopes that cannot be told apart.
-/
namespace Scriptlet

namespace Scopes

/-- The two scopes bind the same names, lie equally deep, and give the same for
every name. -/
structure Twins (t : Scopes Value) (e f : ScopeId) : Prop where
  localNames : t.localNames e = t.localNames f
  depth : t.depth e = t.depth f
  get? : ∀ name, t.get? e name = t.get? f name

theorem twins_of_bindings_eq {t : Scopes Value} {e f o : ScopeId} (he : t.outer? e = some o)
    (hf : t.outer? f = some o) (hb : t.bindings e = t.bindings f) : t.Twins e f where
  localNames := by rw [localNames, hb, localNames]
  depth := by rw [depth_of_some he, depth_of_some hf]
  get? name := by
    have hlocal : t.getLocal? e name = t.getLocal? f name := by rw [getLocal?, hb, getLocal?]
    rw [get?_of_some he, get?_of_some hf, hlocal]

end Scopes

namespace Store

variable {st after : Store} {c : Closure} {args : List Value} {e : ScopeId}

theorem activate_change (hc : c.scope ∈ st.scopes) (h : st.activate c args = (.ok e, after)) :
    st.scopes.Change [some c.scope] (c.params.zipWith (Write.mk e) args) after.scopes := by
  have hadm : (Request.activate c args).Admitted st := List.forall_mem_singleton.2 hc
  have hchange := serve_change hadm
  simp only [serve, Request.writes, Request.opened, h, if_pos (length_eq_of_activate h)] at hchange
  exact hchange

theorem bindings_activate (hc : c.scope ∈ st.scopes) (h : st.activate c args = (.ok e, after))
    (f : ScopeId) :
    after.scopes.bindings f =
      if f = e then (c.params.zipWith Binding.mk args).foldl (fun held b => Keyed.put b held) []
      else st.scopes.bindings f := by
  rw [activate_of_length_eq hc (length_eq_of_activate h)] at h
  cases h
  have hmem : st.scopes.next ∈ st.scopes.push (some c.scope) (by simpa using hc) :=
    (Scopes.mem_push ..).2 (Or.inr rfl)
  have hnone : st.scopes.bindings st.scopes.next = [] :=
    Scopes.bindings_of_notMem st.scopes.next_notMem
  rw [Scopes.bindings_setAll, Scopes.bindings_push]
  by_cases hf : f = st.scopes.next
  · rw [if_pos ⟨hf, hmem⟩, if_pos hf, hf, hnone]
  · rw [if_neg fun h => hf h.1, if_neg hf]

theorem activate_twice (hc : c.scope ∈ st.scopes) (hl : args.length = c.params.length) :
    ∃ e after f after', st.activate c args = (.ok e, after) ∧
      after.activate c args = (.ok f, after') ∧ e ≠ f ∧ after'.scopes.Twins e f := by
  obtain ⟨e, after, h⟩ : ∃ e after, st.activate c args = (.ok e, after) :=
    ⟨_, _, activate_of_length_eq hc hl⟩
  obtain ⟨-, houter, -⟩ := scope_activate hc h
  have he : e ∈ after.scopes := Scopes.mem_of_outer? houter
  have hc' : c.scope ∈ after.scopes := Scopes.outer_mem houter
  obtain ⟨f, after', h'⟩ : ∃ f after', after.activate c args = (.ok f, after') :=
    ⟨_, _, activate_of_length_eq hc' hl⟩
  obtain ⟨hf, houter', -⟩ := scope_activate hc' h'
  have hne : e ≠ f := fun hef => hf (hef ▸ he)
  -- the second call leaves the first scope alone, so both are as their own call made them
  have hbind : after'.scopes.bindings e = after'.scopes.bindings f := by
    rw [bindings_activate hc' h', if_neg hne, bindings_activate hc h, if_pos rfl,
      bindings_activate hc' h', if_pos rfl]
  have houter₂ : after'.scopes.outer? e = some c.scope :=
    ((activate_change hc' h').outer? he).trans houter
  exact ⟨e, after, f, after', h, h', hne, Scopes.twins_of_bindings_eq houter₂ houter' hbind⟩

end Store

namespace Host

/-- Equal closures of functions or macros that a host knows have the same
parameters and the same body. Called one after the other on any arguments, both
fail with the same message, the second one whatever happens in between, or they
open two scopes with the same names, the same depth and the same value for every
name. -/
theorem equal_closures_are_interchangeable {h : Host} (hl : start.Leads h) {v w : Value}
    {c d : Closure} (hv : h.Knows v) (hw : h.Knows w) (hc : v.closure? = some c)
    (hd : w.closure? = some d) (hsame : c.same d = true) :
    c.params = d.params ∧ c.body = d.body ∧ ∀ args : List Value,
      (∃ message, (∃ s failed, h.store.activate c args = (.error (.error s message), failed)) ∧
        ∀ st : Store, ∃ s failed, st.activate d args = (.error (.error s message), failed)) ∨
      ∃ e after e' after', h.store.activate c args = (.ok e, after) ∧
        after.activate d args = (.ok e', after') ∧ e ≠ e' ∧ after'.scopes.Twins e e' := by
  have hs : h.Sound := hl.sound sound_start
  -- one stamp stands for one closure, so there is only one to call
  have hcd : c = d := hs.coherent.closure_eq_of_same hv hw hc hd hsame
  subst hcd
  refine ⟨rfl, rfl, fun args => ?_⟩
  by_cases hlen : args.length = c.params.length
  · have hscope : c.scope ∈ h.store.scopes := hs.scope v c hv hc
    exact Or.inr (Store.activate_twice hscope hlen)
  · have hfail (st : Store) : ∃ s failed, st.activate c args = (.error (.error s
        (Fault.paramCount c.params.length args.length).message), failed) :=
      ⟨_, _, Store.activate_of_length_ne hlen⟩
    exact Or.inl ⟨_, hfail h.store, hfail⟩

def lender : List Request := [.newScope, .set ⟨0⟩ "y" (.int 7), .function ["x"] [] ⟨0⟩]

theorem lender_opens_twins :
    let c : Closure := ⟨⟨0⟩, ["x"], [], ⟨0⟩⟩
    let h := start.serveAll lender
    start.Leads h ∧ h.Knows (.function c) ∧ h.Knows (.macroFn c) ∧ c.same c = true ∧
      ∃ e after e' after', h.store.activate c [.int 1] = (.ok e, after) ∧
        after.activate c [.int 1] = (.ok e', after') ∧ e ≠ e' ∧ after'.scopes.Twins e e' := by
  intro c h
  have hscope : (⟨0⟩ : ScopeId) ∈ h.store.scopes := by decide
  have hl : start.Leads h := by
    refine ⟨lender, ⟨allows_plain rfl rfl, ?_, ?_, trivial⟩, rfl⟩
    · exact allows_of_scopes_eq rfl hscope (List.forall_mem_singleton.2 (.int 7))
    · exact allows_of_scopes_eq rfl hscope (List.forall_mem_nil _)
  have hf : h.Knows (.function c) := .made List.mem_cons_self
  have hm : h.Knows (.macroFn c) := .macroFn hf
  obtain ⟨-, -, hcall⟩ := equal_closures_are_interchangeable hl hf hm rfl rfl c.same_self
  refine ⟨hl, hf, hm, c.same_self, (hcall [.int 1]).resolve_left ?_⟩
  rintro ⟨message, ⟨s, failed, hfail⟩, -⟩
  rw [Store.activate_of_length_eq hscope rfl] at hfail
  cases hfail

end Host

end Scriptlet
