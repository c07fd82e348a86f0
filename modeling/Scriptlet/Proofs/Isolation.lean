import Mathlib.Data.List.Basic
import Scriptlet.Proofs.Forest

/-!
# Isolation of scopes

What can be seen from a scope lies on its chain. Requests that bind nothing in
the scopes of the chain cannot be noticed from the scope, however many scopes
they open and whatever they bind elsewhere. Two calls of one closure share the
chain of the scope that it captured and nothing else, so bindings made in the
one call, or in scopes inside it, do not show in the other.
-/
namespace Scriptlet

theorem findSome?_congr {α β : Type} {f g : α → Option β} {xs : List α} (h : ∀ x ∈ xs, f x = g x) :
    xs.findSome? f = xs.findSome? g := by
  rw [← List.head?_filterMap, ← List.head?_filterMap, List.filterMap_congr h]

namespace Scopes

variable {α : Type} {t t' : Scopes α} {b e f g o : ScopeId}

theorem mem_chain_trans (hf : f ∈ t.chain e) (hg : g ∈ t.chain f) : g ∈ t.chain e := by
  induction e using t.chain_induction with
  | top e ho =>
    rw [chain_of_none ho, List.mem_singleton] at hf
    exact hf ▸ hg
  | inner e o ho ih =>
    rw [chain_of_some ho, List.mem_cons] at hf
    rcases hf with rfl | hf
    · exact hg
    · rw [chain_of_some ho]
      exact List.mem_cons_of_mem _ (ih hf)

theorem notMem_chain_outer (he : t.outer? e = some o) : e ∉ t.chain o := by
  intro hmem
  have hle : e.index ≤ o.index := index_le_of_mem_chain hmem
  have hlt : o.index < e.index := index_lt_of_outer? he
  omega

theorem notMem_chain_of_ne (he : t.outer? e = some o) (hf : t.outer? f = some o) (hne : e ≠ f) :
    e ∉ t.chain f := by
  rw [chain_of_some hf, List.mem_cons]
  rintro (hef | hmem)
  · exact hne hef
  · exact notMem_chain_outer he hmem

/-- All that can be seen from a scope is the same in both tables: the scopes on
its chain, how deep each of them lies and which names it binds, and what is found
under every name. -/
structure SameFrom (t t' : Scopes α) (b : ScopeId) : Prop where
  chain : t'.chain b = t.chain b
  depth : ∀ e ∈ t.chain b, t'.depth e = t.depth e
  localNames : ∀ e ∈ t.chain b, t'.localNames e = t.localNames e
  get? : ∀ name, t'.get? b name = t.get? b name

theorem sameFrom_of_bindings (hc : ∀ e ∈ t.chain b, t'.chain e = t.chain e)
    (hb : ∀ e ∈ t.chain b, t'.bindings e = t.bindings e) : t.SameFrom t' b where
  chain := hc b (t.self_mem_chain b)
  depth e he := by rw [Scopes.depth, hc e he, Scopes.depth]
  localNames e he := by rw [Scopes.localNames, hb e he, Scopes.localNames]
  get? name := by
    have hlocal : ∀ e ∈ t.chain b, t'.getLocal? e name = t.getLocal? e name := by
      intro e he
      rw [getLocal?, hb e he, getLocal?]
    rw [Scopes.get?, hc b (t.self_mem_chain b), Scopes.get?, findSome?_congr hlocal]

theorem Change.bindings {t t' : Scopes Value} {os : List (Option ScopeId)} {ws : List Write}
    (h : Change t os ws t') (hw : ∀ w ∈ ws, w.scope ≠ e) : t'.bindings e = t.bindings e := by
  have hfold {f : ScopeId} {bs : List (Binding Value)} (t : Scopes Value)
      (hbs : ∀ w ∈ bs.map (Write.ofBinding f), w.scope ≠ e) :
      (t.setAll f bs).bindings e = t.bindings e := by
    cases bs with
    | nil => rfl
    | cons b bs =>
      have hne : e ≠ f := Ne.symm (hbs (Write.ofBinding f b) List.mem_cons_self)
      rw [bindings_setAll, if_neg fun h => hne h.1]
  cases h with
  | rest => rfl
  | bind _ bs => exact hfold t hw
  | grow outer ho bs => rw [hfold _ hw, bindings_push]

end Scopes

/-- The scopes in which a request binds names, apart from a scope that it opens. -/
def Request.targets : Request → List ScopeId
  | .set e _ _ | .register e => [e]
  | _ => []

theorem Request.scope_of_mem_writes {st : Store} {r : Request} (hr : r.Admitted st) {w : Write}
    (hw : w ∈ r.writes st) : w.scope ∈ r.targets ∨ w.scope ∉ st.scopes := by
  rcases mem_writes hw with rfl | ⟨c, args, after, rfl, hcall, -⟩ | ⟨rfl, -⟩
  · exact Or.inl List.mem_cons_self
  · have hc : c.scope ∈ st.scopes := hr c.scope List.mem_cons_self
    exact Or.inr (Store.scope_activate hc hcall).1
  · exact Or.inl List.mem_cons_self

namespace Store

variable {st : Store} {b e : ScopeId}

theorem serve_bindings {r : Request} (hr : r.Admitted st) (he : e ∈ st.scopes)
    (ht : e ∉ r.targets) : (st.serve r).2.scopes.bindings e = st.scopes.bindings e := by
  refine (serve_change hr).bindings fun w hw hwe => ?_
  rcases Request.scope_of_mem_writes hr hw with htarget | hnew
  · exact ht (hwe ▸ htarget)
  · exact hnew (hwe ▸ he)

theorem serveAll_bindings {rs : List Request} (h : st.Admits rs) (he : e ∈ st.scopes)
    (ht : ∀ r ∈ rs, e ∉ r.targets) :
    (st.serveAll rs).scopes.bindings e = st.scopes.bindings e := by
  induction rs generalizing st with
  | nil => rfl
  | cons r rs ih =>
    obtain ⟨hr, hrs⟩ := List.forall_mem_cons.1 ht
    have hmem : e ∈ (st.serve r).2.scopes := (serve_change h.1).mem he
    rw [serveAll_cons, ih h.2 hmem hrs, serve_bindings h.1 he hr]

theorem sameFrom_serveAll {rs : List Request} (h : st.Admits rs) (hb : b ∈ st.scopes)
    (ht : ∀ r ∈ rs, ∀ e ∈ r.targets, e ∉ st.scopes.chain b) :
    st.scopes.SameFrom (st.serveAll rs).scopes b := by
  have hmem {e : ScopeId} (he : e ∈ st.scopes.chain b) : e ∈ st.scopes :=
    Scopes.mem_of_mem_chain hb he
  refine Scopes.sameFrom_of_bindings (fun e he => (serveAll_place h (hmem he)).2.2) fun e he => ?_
  exact serveAll_bindings h (hmem he) fun r hr het => ht r hr e het he

/-- Bindings in a scope and in scopes inside it do not show outside. The chains are
those after the run, so that scopes opened on the way count as inside. -/
theorem sameFrom_of_inside {rs : List Request} (h : st.Admits rs) (hb : b ∈ st.scopes)
    (hout : e ∉ st.scopes.chain b)
    (hin : ∀ r ∈ rs, ∀ x ∈ r.targets, e ∈ (st.serveAll rs).scopes.chain x) :
    st.scopes.SameFrom (st.serveAll rs).scopes b := by
  refine sameFrom_serveAll h hb fun r hr x hx hxb => hout ?_
  have hchain : (st.serveAll rs).scopes.chain b = st.scopes.chain b := (serveAll_place h hb).2.2
  rw [← hchain] at hxb ⊢
  exact Scopes.mem_chain_trans hxb (hin r hr x hx)

/-- In any state, requests that bind nothing in the scopes on the chain of `b` change
nothing that can be seen from `b`. Any two calls of a closure, whatever their
arguments and whatever is asked for in between, open two different scopes. While
all bindings are made in one of them or in scopes inside it, nothing changes that
can be seen from the other one or from the scope that the closure captured. -/
theorem off_chain_requests_are_invisible (st : Store) :
    (∀ b ∈ st.scopes, ∀ rs, st.Admits rs →
      (∀ r ∈ rs, ∀ e ∈ r.targets, e ∉ st.scopes.chain b) →
      st.scopes.SameFrom (st.serveAll rs).scopes b) ∧
    ∀ (c : Closure) (args args' : List Value) (e f : ScopeId) (first second : Store)
      (between : List Request), c.scope ∈ st.scopes → st.activate c args = (.ok e, first) →
      first.Admits between → (first.serveAll between).activate c args' = (.ok f, second) →
      e ≠ f ∧ ∀ rs, second.Admits rs →
        ((∀ r ∈ rs, ∀ x ∈ r.targets, e ∈ (second.serveAll rs).scopes.chain x) →
          second.scopes.SameFrom (second.serveAll rs).scopes f ∧
            second.scopes.SameFrom (second.serveAll rs).scopes c.scope) ∧
        ((∀ r ∈ rs, ∀ x ∈ r.targets, f ∈ (second.serveAll rs).scopes.chain x) →
          second.scopes.SameFrom (second.serveAll rs).scopes e ∧
            second.scopes.SameFrom (second.serveAll rs).scopes c.scope) := by
  refine ⟨fun b hb rs h ht => sameFrom_serveAll h hb ht, ?_⟩
  intro c args args' e f first second between hc hfirst hbetween hsecond
  obtain ⟨-, heo, -⟩ := scope_activate hc hfirst
  obtain ⟨he, heo', -⟩ := serveAll_place hbetween (Scopes.mem_of_outer? heo)
  have hc' : c.scope ∈ (first.serveAll between).scopes := Scopes.outer_mem (heo'.trans heo)
  obtain ⟨hf, hfo, -⟩ := scope_activate hc' hsecond
  have hne : e ≠ f := fun hef => hf (hef ▸ he)
  -- the second call leaves the scope of the first one where it is
  have hrun : (first.serveAll between).serveAll [.activate c args'] = second := by
    rw [serveAll_cons, serveAll_nil, serve, hsecond]
  have hadm : (first.serveAll between).Admits [.activate c args'] :=
    ⟨List.forall_mem_singleton.2 hc', trivial⟩
  obtain ⟨-, heo₂, -⟩ := hrun ▸ serveAll_place hadm he
  have heo₃ : second.scopes.outer? e = some c.scope := heo₂.trans (heo'.trans heo)
  have hmem : e ∈ second.scopes ∧ f ∈ second.scopes ∧ c.scope ∈ second.scopes :=
    ⟨Scopes.mem_of_outer? heo₃, Scopes.mem_of_outer? hfo, Scopes.outer_mem hfo⟩
  refine ⟨hne, fun rs hrs => ⟨fun hin => ⟨?_, ?_⟩, fun hin => ⟨?_, ?_⟩⟩⟩
  · exact sameFrom_of_inside hrs hmem.2.1 (Scopes.notMem_chain_of_ne heo₃ hfo hne) hin
  · exact sameFrom_of_inside hrs hmem.2.2 (Scopes.notMem_chain_outer heo₃) hin
  · exact sameFrom_of_inside hrs hmem.1 (Scopes.notMem_chain_of_ne hfo heo₃ hne.symm) hin
  · exact sameFrom_of_inside hrs hmem.2.2 (Scopes.notMem_chain_outer hfo) hin

def shadow : Closure := ⟨⟨0⟩, ["n"], [], ⟨0⟩⟩

def shadowCalls : List Request :=
  [.newScope, .set ⟨0⟩ "n" (.int 0), .function ["n"] [] ⟨0⟩, .activate shadow [.int 1],
   .activate shadow [.int 2]]

theorem shadowCalls_are_isolated :
    let st := empty.serveAll (shadowCalls.take 3)
    let first := empty.serveAll (shadowCalls.take 4)
    let second := empty.serveAll shadowCalls
    let rs : List Request := [.set ⟨2⟩ "n" (.int 8), .enclose ⟨2⟩, .set ⟨3⟩ "n" (.int 9)]
    st.activate shadow [.int 1] = (.ok ⟨1⟩, first) ∧
      first.activate shadow [.int 2] = (.ok ⟨2⟩, second) ∧ second.Admits rs ∧
      (second.serveAll rs).scopes.get? ⟨1⟩ "n" = some (.int 1) ∧
      (second.serveAll rs).scopes.get? ⟨0⟩ "n" = some (.int 0) := by
  intro st first second rs
  have hfirst : st.activate shadow [.int 1] = (.ok ⟨1⟩, first) := rfl
  have hsecond : first.activate shadow [.int 2] = (.ok ⟨2⟩, second) := rfl
  have hrs : second.Admits rs := by decide
  have hinner : (second.serveAll rs).scopes.outer? ⟨3⟩ = some ⟨2⟩ := by decide
  have hin : ∀ r ∈ rs, ∀ x ∈ r.targets, (⟨2⟩ : ScopeId) ∈ (second.serveAll rs).scopes.chain x := by
    have htargets : ∀ r ∈ rs, ∀ x ∈ r.targets, x = ⟨2⟩ ∨ x = ⟨3⟩ := by decide
    intro r hr x hx
    rcases htargets r hr x hx with rfl | rfl
    · exact Scopes.self_mem_chain _ _
    · rw [Scopes.chain_of_some hinner]
      exact List.mem_cons_of_mem _ (Scopes.self_mem_chain _ _)
  obtain ⟨-, hcalls⟩ := (off_chain_requests_are_invisible st).2 shadow _ _ _ _ _ _ []
    (by decide) hfirst trivial hsecond
  obtain ⟨hother, hcaptured⟩ := (hcalls rs hrs).2 hin
  have ho : second.scopes.outer? ⟨1⟩ = some ⟨0⟩ := by decide
  have htop : second.scopes.outer? ⟨0⟩ = none := by decide
  refine ⟨hfirst, hsecond, hrs, (hother.get? "n").trans ?_, (hcaptured.get? "n").trans ?_⟩
  · rw [Scopes.get?_of_some ho]
    rfl
  · exact Scopes.get?_of_none htop "n"

end Store

end Scriptlet
