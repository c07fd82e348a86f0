import Mathlib.Data.List.TakeWhile
import Scriptlet.Proofs.Isolation

/-!
# Where a binding shows

A look-up that starts at some scope goes outward until it comes to a scope that
binds the name. It gets as far as a scope `e` when `e` is on the way and no scope
before it binds the name, and from there it goes on like a look-up that starts at
`e`. So a new binding in `e` shows in the look-ups of its name that get as far as
`e`, and in no others.
-/
namespace Scriptlet

namespace Scopes

variable {α : Type} {t : Scopes α} {e f : ScopeId} {name other : String} {v : α}

/-- The scopes on the chain of `f` that come before `e`. -/
def before (t : Scopes α) (f e : ScopeId) : List ScopeId := (t.chain f).takeWhile (· ≠ e)

/-- A look-up of the name that starts at `f` gets as far as `e`. -/
def Reaches (t : Scopes α) (f e : ScopeId) (name : String) : Prop :=
  e ∈ t.chain f ∧ ∀ g ∈ t.before f e, t.containsLocal g name = false

instance (t : Scopes α) (f e : ScopeId) (name : String) : Decidable (t.Reaches f e name) :=
  inferInstanceAs (Decidable (e ∈ t.chain f ∧ ∀ g ∈ t.before f e, t.containsLocal g name = false))

theorem notMem_before (t : Scopes α) (f e : ScopeId) : e ∉ t.before f e := by
  intro hmem
  have hne := List.mem_takeWhile_imp hmem
  simp at hne

theorem before_self (t : Scopes α) (e : ScopeId) : t.before e e = [] := by
  cases h : t.outer? e with
  | none => simp [before, chain_of_none h]
  | some o => simp [before, chain_of_some h]

theorem before_of_some {o : ScopeId} (h : t.outer? f = some o) (hne : f ≠ e) :
    t.before f e = f :: t.before o e := by
  simp [before, chain_of_some h, hne]

theorem chain_eq_before_append (h : e ∈ t.chain f) : t.chain f = t.before f e ++ t.chain e := by
  induction f using t.chain_induction with
  | top f ho =>
    rw [chain_of_none ho, List.mem_singleton] at h
    rw [h, before_self, List.nil_append]
  | inner f o ho ih =>
    by_cases hf : f = e
    · rw [hf, before_self, List.nil_append]
    · rw [chain_of_some ho, List.mem_cons] at h
      have hmem : e ∈ t.chain o := h.resolve_left fun hef => hf hef.symm
      rw [before_of_some ho hf, chain_of_some ho, ih hmem, List.cons_append]

/-- A look-up along a chain through `e`: first the scopes before `e`, then as from `e`. -/
theorem get?_eq_or (h : e ∈ t.chain f) (name : String) :
    t.get? f name = ((t.before f e).findSome? (t.getLocal? · name)).or (t.get? e name) := by
  rw [get?, chain_eq_before_append h, List.findSome?_append, get?]

theorem containsLocal_eq_false_iff (t : Scopes α) (e : ScopeId) (name : String) :
    t.containsLocal e name = false ↔ t.getLocal? e name = none := by
  rw [containsLocal, Option.isSome_eq_false_iff, Option.isNone_iff_eq_none]

theorem Reaches.get? (h : t.Reaches f e name) : t.get? f name = t.get? e name := by
  have hnone : (t.before f e).findSome? (t.getLocal? · name) = none := by
    rw [List.findSome?_eq_none_iff]
    exact fun g hg => (containsLocal_eq_false_iff t g name).1 (h.2 g hg)
  rw [get?_eq_or h.1, hnone, Option.none_or]

theorem get?_of_not_reaches {t' : Scopes α} (h : ¬t.Reaches f e name)
    (hc : t'.chain f = t.chain f) (hl : ∀ g, g ≠ e → t'.getLocal? g name = t.getLocal? g name) :
    t'.get? f name = t.get? f name := by
  by_cases he : e ∈ t.chain f
  · have hlocal : ∀ g ∈ t.before f e, t'.getLocal? g name = t.getLocal? g name := by
      intro g hg
      exact hl g fun hge => t.notMem_before f e (hge ▸ hg)
    -- some scope before `e` binds the name, so nothing from `e` on is looked at
    have hbinds : ∃ g ∈ t.before f e, t.containsLocal g name = true := by
      by_contra hnone
      exact h ⟨he, fun g hg => Bool.eq_false_iff.2 fun hg' => hnone ⟨g, hg, hg'⟩⟩
    have hsome : ((t.before f e).findSome? (t.getLocal? · name)).isSome :=
      List.findSome?_isSome_iff.2 hbinds
    have hchain : t'.chain f = t.before f e ++ t.chain e := hc.trans (chain_eq_before_append he)
    rw [Scopes.get?, hchain, List.findSome?_append, findSome?_congr hlocal, get?_eq_or he,
      Option.or_of_isSome hsome, Option.or_of_isSome hsome]
  · rw [Scopes.get?, hc, Scopes.get?]
    exact findSome?_congr fun g hg => hl g fun hge => he (hge ▸ hg)

theorem containsLocal_set (he : e ∈ t) (f : ScopeId) (name other : String) (v : α) :
    (t.set e name v).containsLocal f other =
      if f = e ∧ other = name then true else t.containsLocal f other := by
  rw [containsLocal, getLocal?_set he]
  split
  · rfl
  · rw [containsLocal]

theorem Reaches.set (h : t.Reaches f e name) (he : e ∈ t) (v : α) :
    (t.set e name v).Reaches f e name := by
  have hbefore : (t.set e name v).before f e = t.before f e := by
    rw [before, chain_set, before]
  refine ⟨(chain_set t e f name v).symm ▸ h.1, fun g hg => ?_⟩
  rw [hbefore] at hg
  have hge : g ≠ e := fun hge => t.notMem_before f e (hge ▸ hg)
  rw [containsLocal_set he, if_neg fun hboth => hge hboth.1]
  exact h.2 g hg

theorem get?_set_self (he : e ∈ t) (name : String) (v : α) :
    (t.set e name v).get? e name = some v := by
  have hlocal : (t.set e name v).getLocal? e name = some v := by
    rw [getLocal?_set he, if_pos ⟨rfl, rfl⟩]
  cases ho : (t.set e name v).outer? e with
  | none => rw [get?_of_none ho, hlocal]
  | some o => rw [get?_of_some ho, hlocal, Option.some_or]

theorem get?_set (he : e ∈ t) (f : ScopeId) (name other : String) (v : α) :
    (t.set e name v).get? f other =
      if other = name ∧ t.Reaches f e name then some v else t.get? f other := by
  by_cases hn : other = name
  · subst hn
    by_cases hr : t.Reaches f e other
    · rw [if_pos ⟨rfl, hr⟩, (hr.set he v).get?, get?_set_self he]
    · rw [if_neg fun h => hr h.2]
      refine get?_of_not_reaches hr (chain_set ..) fun g hg => ?_
      rw [getLocal?_set he, if_neg fun h => hg h.1]
  · rw [if_neg fun h => hn h.1, get?, chain_set, get?]
    refine findSome?_congr fun g _ => ?_
    rw [getLocal?_set he, if_neg fun h => hn h.2]

end Scopes

namespace Store

/-- The effect of binding a name in a scope. The look-ups of the name that get as far
as the scope find the new value, and all other look-ups find what they found. Only
the scope itself comes to bind the name, if it did not, and no scope is added or
moved. -/
theorem binding_shows_where_reached (st : Store) {e : ScopeId} (he : e ∈ st.scopes)
    (name : String) (v : Value) :
    (∀ f other, (st.set e name v).scopes.get? f other =
        if other = name ∧ st.scopes.Reaches f e name then some v else st.scopes.get? f other) ∧
      (∀ f other, (st.set e name v).scopes.containsLocal f other =
        if f = e ∧ other = name then true else st.scopes.containsLocal f other) ∧
      ∀ f, (f ∈ (st.set e name v).scopes ↔ f ∈ st.scopes) ∧
        (st.set e name v).scopes.outer? f = st.scopes.outer? f ∧
        (st.set e name v).scopes.depth f = st.scopes.depth f := by
  refine ⟨fun f other => Scopes.get?_set he f name other v,
    fun f other => Scopes.containsLocal_set he f name other v, fun f => ⟨?_, ?_, ?_⟩⟩
  · exact Scopes.mem_set ..
  · exact Scopes.outer?_set ..
  · exact Scopes.depth_set ..

/-- Two scopes inside an outermost one. The first of them binds a name and has a
scope inside it. -/
def alcove : List Request :=
  [.newScope, .enclose ⟨0⟩, .enclose ⟨1⟩, .enclose ⟨0⟩, .set ⟨1⟩ "x" (.int 5)]

theorem alcove_shadows :
    let st := empty.serveAll alcove
    (⟨0⟩ : ScopeId) ∈ st.scopes ∧
      (st.set ⟨0⟩ "x" (.int 9)).scopes.get? ⟨3⟩ "x" = some (.int 9) ∧
      (st.set ⟨0⟩ "x" (.int 9)).scopes.get? ⟨2⟩ "x" = st.scopes.get? ⟨2⟩ "x" := by
  intro st
  have he : (⟨0⟩ : ScopeId) ∈ st.scopes := by decide
  have h₀ : st.scopes.chain ⟨0⟩ = [⟨0⟩] := Scopes.chain_of_none (by decide)
  have h₁ : st.scopes.chain ⟨1⟩ = [⟨1⟩, ⟨0⟩] := h₀ ▸ Scopes.chain_of_some (by decide)
  have h₂ : st.scopes.chain ⟨2⟩ = [⟨2⟩, ⟨1⟩, ⟨0⟩] := h₁ ▸ Scopes.chain_of_some (by decide)
  have h₃ : st.scopes.chain ⟨3⟩ = [⟨3⟩, ⟨0⟩] := h₀ ▸ Scopes.chain_of_some (by decide)
  have hsees : st.scopes.Reaches ⟨3⟩ ⟨0⟩ "x" := by
    rw [Scopes.Reaches, Scopes.before, h₃]
    decide
  have hblind : ¬st.scopes.Reaches ⟨2⟩ ⟨0⟩ "x" := by
    rw [Scopes.Reaches, Scopes.before, h₂]
    decide
  obtain ⟨hget, -, -⟩ := binding_shows_where_reached st he "x" (.int 9)
  exact ⟨he, (hget ⟨3⟩ "x").trans (if_pos ⟨rfl, hsees⟩),
    (hget ⟨2⟩ "x").trans (if_neg fun h => hblind h.2)⟩

end Store

end Scriptlet
