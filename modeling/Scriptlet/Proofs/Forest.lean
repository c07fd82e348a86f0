import Scriptlet.Proofs.Requests

/-!
# The forest of scopes

Following the links outward from a scope never comes back to it and ends after
as many steps as the scope is deep. A new scope lies one deeper than the scope
around it, and no later request moves a scope that is there.
-/
namespace Scriptlet

namespace Scopes

variable {α : Type}

/-- The scope reached by going outward a number of times. -/
def outward (t : Scopes α) : Nat → ScopeId → Option ScopeId
  | 0, e => some e
  | n + 1, e => (t.outer? e).bind (t.outward n)

theorem outward_succ_of_none {t : Scopes α} {e : ScopeId} (h : t.outer? e = none) (n : Nat) :
    t.outward (n + 1) e = none := by
  rw [outward, h, Option.bind_none]

theorem outward_succ_of_some {t : Scopes α} {e o : ScopeId} (h : t.outer? e = some o) (n : Nat) :
    t.outward (n + 1) e = t.outward n o := by
  rw [outward, h, Option.bind_some]

theorem index_le_of_outward {t : Scopes α} {n : Nat} {e f : ScopeId}
    (h : t.outward n e = some f) : f.index ≤ e.index := by
  induction n generalizing e with
  | zero =>
    cases h
    exact Nat.le_refl _
  | succ n ih =>
    obtain ⟨o, ho, hf⟩ := Option.bind_eq_some_iff.1 h
    have hlt : o.index < e.index := index_lt_of_outer? ho
    exact Nat.le_trans (ih hf) (Nat.le_of_lt hlt)

theorem index_lt_of_outward_succ {t : Scopes α} {n : Nat} {e f : ScopeId}
    (h : t.outward (n + 1) e = some f) : f.index < e.index := by
  obtain ⟨o, ho, hf⟩ := Option.bind_eq_some_iff.1 h
  exact Nat.lt_of_le_of_lt (index_le_of_outward hf) (index_lt_of_outer? ho)

/-- Going outward comes to a scope with nothing around it after exactly as many
steps as the scope is deep. -/
theorem outward_ends_iff (t : Scopes α) (e : ScopeId) (n : Nat) :
    (∃ top, t.outward n e = some top ∧ t.outer? top = none) ↔ n = t.depth e := by
  induction e using t.chain_induction generalizing n with
  | top e h =>
    rw [depth_of_none h]
    cases n with
    | zero => simp [outward, h]
    | succ n => simp [outward_succ_of_none h]
  | inner e o h ih =>
    rw [depth_of_some h]
    cases n with
    | zero => simp [outward, h]
    | succ n => rw [outward_succ_of_some h, ih n, Nat.add_right_cancel_iff]

theorem outward_mem {t : Scopes α} {n : Nat} {e f : ScopeId} (he : e ∈ t)
    (h : t.outward n e = some f) : f ∈ t :=
  Nat.lt_of_le_of_lt (index_le_of_outward h) he

/-- No scope lies outside itself, and the way outward from a scope ends at a
scope of the table after exactly as many steps as the scope is deep. -/
structure IsForest (t : Scopes α) : Prop where
  acyclic : ∀ e ∈ t, ∀ n, t.outward (n + 1) e ≠ some e
  ends : ∀ e ∈ t, ∀ n, (∃ top ∈ t, t.outward n e = some top ∧ t.outer? top = none) ↔ n = t.depth e

theorem isForest (t : Scopes α) : t.IsForest where
  acyclic e _ n h := Nat.lt_irrefl _ (index_lt_of_outward_succ h)
  ends e he n := by
    rw [← t.outward_ends_iff e n]
    constructor
    · rintro ⟨top, -, htop⟩
      exact ⟨top, htop⟩
    · rintro ⟨top, hn, ho⟩
      exact ⟨top, outward_mem he hn, hn, ho⟩

theorem depth_push_next {t : Scopes α} {o : ScopeId} (h : ∀ o', some o = some o' → o' ∈ t) :
    (t.push (some o) h).depth t.next = t.depth o + 1 := by
  have ho : o ∈ t := h o rfl
  rw [depth_of_some (outer?_push_next t (some o) h), depth, chain_push_of_mem ho, depth]

end Scopes

namespace Store

variable {st : Store}

theorem scope_newScope (st : Store) :
    st.newScope.1 ∉ st.scopes ∧ st.newScope.2.scopes.outer? st.newScope.1 = none ∧
      st.newScope.2.scopes.depth st.newScope.1 = 0 := by
  have ho : st.newScope.2.scopes.outer? st.newScope.1 = none :=
    Scopes.outer?_push_next st.scopes none (by simp)
  exact ⟨st.scopes.next_notMem, ho, Scopes.depth_of_none ho⟩

theorem scope_enclose {o : ScopeId} (ho : o ∈ st.scopes) :
    (st.enclose o).1 ∉ st.scopes ∧ (st.enclose o).2.scopes.outer? (st.enclose o).1 = some o ∧
      (st.enclose o).2.scopes.depth (st.enclose o).1 = st.scopes.depth o + 1 := by
  simp only [enclose, Scopes.enclose_of_mem ho]
  exact ⟨st.scopes.next_notMem, Scopes.outer?_push_next .., Scopes.depth_push_next _⟩

theorem scope_activate {c : Closure} {args : List Value} {e : ScopeId} {after : Store}
    (hc : c.scope ∈ st.scopes) (h : st.activate c args = (.ok e, after)) :
    e ∉ st.scopes ∧ after.scopes.outer? e = some c.scope ∧
      after.scopes.depth e = st.scopes.depth c.scope + 1 := by
  rw [activate_of_length_eq hc (length_eq_of_activate h)] at h
  cases h
  refine ⟨st.scopes.next_notMem, ?_, ?_⟩
  · rw [Scopes.outer?_setAll, Scopes.outer?_push_next]
  · rw [Scopes.depth, Scopes.chain_setAll, ← Scopes.depth, Scopes.depth_push_next]

/-- Each scope lies inside the one that was named when it was opened. -/
theorem serveAll_links {rs : List Request} (h : st.Admits rs) :
    (st.serveAll rs).scopes.links = st.scopes.links ++ rs.flatMap Request.opened := by
  induction rs generalizing st with
  | nil => rw [serveAll_nil, List.flatMap_nil, List.append_nil]
  | cons r rs ih =>
    rw [serveAll_cons, ih h.2, (serve_change h.1).links, List.flatMap_cons, List.append_assoc]

/-- A run of requests leaves the scopes that are there where they are. -/
theorem serveAll_place {rs : List Request} (h : st.Admits rs) {e : ScopeId} (he : e ∈ st.scopes) :
    e ∈ (st.serveAll rs).scopes ∧ (st.serveAll rs).scopes.outer? e = st.scopes.outer? e ∧
      (st.serveAll rs).scopes.chain e = st.scopes.chain e := by
  induction rs generalizing st with
  | nil => exact ⟨he, rfl, rfl⟩
  | cons r rs ih =>
    have hc := serve_change h.1
    obtain ⟨hm, ho, hch⟩ := ih h.2 (hc.mem he)
    exact ⟨hm, ho.trans (hc.outer? he), hch.trans (hc.chain he)⟩

theorem serveAll_depth {rs : List Request} (h : st.Admits rs) {e : ScopeId} (he : e ∈ st.scopes) :
    (st.serveAll rs).scopes.depth e = st.scopes.depth e := by
  rw [Scopes.depth, (serveAll_place h he).2.2, Scopes.depth]

/-- In every state that requests lead to, each scope lies where it was opened,
and the scopes form a forest. A scope opened there lies inside the one it was
opened in, one deeper, and no later request moves a scope. -/
theorem ReachedBy.scopes_form_forest {rs : List Request} (h : st.ReachedBy rs) :
    st.scopes.links = rs.flatMap Request.opened ∧ st.scopes.IsForest ∧
      (∀ e after, st.newScope = (e, after) →
        after.scopes.outer? e = none ∧ after.scopes.depth e = 0) ∧
      (∀ o ∈ st.scopes, ∀ e after, st.enclose o = (e, after) →
        after.scopes.outer? e = some o ∧ after.scopes.depth e = st.scopes.depth o + 1) ∧
      (∀ c args e after, c.scope ∈ st.scopes → st.activate c args = (.ok e, after) →
        after.scopes.outer? e = some c.scope ∧
          after.scopes.depth e = st.scopes.depth c.scope + 1) ∧
      ∀ more, st.Admits more → ∀ e ∈ st.scopes,
        e ∈ (st.serveAll more).scopes ∧
          (st.serveAll more).scopes.outer? e = st.scopes.outer? e ∧
          (st.serveAll more).scopes.depth e = st.scopes.depth e := by
  obtain ⟨hrs, rfl⟩ := h
  refine ⟨serveAll_links hrs, Scopes.isForest _, ?_, ?_, ?_, ?_⟩
  · intro e after he
    cases he
    exact (scope_newScope _).2
  · intro o ho e after he
    have hs := (scope_enclose ho).2
    rw [he] at hs
    exact hs
  · intro c args e after hc he
    exact (scope_activate hc he).2
  · intro more hm e he
    obtain ⟨hmem, hout, -⟩ := serveAll_place hm he
    exact ⟨hmem, hout, serveAll_depth hm he⟩

/-- A scope that holds closures over itself and over a scope inside it. -/
def knot : List Request :=
  [.newScope, .enclose ⟨0⟩, .set ⟨0⟩ "f" (.function ⟨⟨0⟩, ["x"], [], ⟨0⟩⟩),
   .set ⟨0⟩ "g" (.macroFn ⟨⟨1⟩, [], [], ⟨1⟩⟩), .activate ⟨⟨1⟩, [], [], ⟨1⟩⟩ [], .register ⟨0⟩]

theorem knot_forms_forest :
    (empty.serveAll knot).ReachedBy knot ∧
      (empty.serveAll knot).scopes.links = [none, some ⟨0⟩, some ⟨1⟩] ∧
      (empty.serveAll knot).scopes.IsForest := by
  have hk : (empty.serveAll knot).ReachedBy knot := ⟨by decide, rfl⟩
  exact ⟨hk, hk.scopes_form_forest.1, hk.scopes_form_forest.2.1⟩

end Store

end Scriptlet
