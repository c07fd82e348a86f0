import Scriptlet.Proofs.Forest

/-!
# Looking up names

What a scope gives for a name is settled by the bindings made so far. The
nearest scope outward on which the name was ever bound decides, and of the
bindings there the latest one. What can be seen through a scope once can be
seen through it ever after.
-/
namespace Scriptlet

/-! ### The latest binding -/

namespace Write

def Hits (w : Write) (e : ScopeId) (name : String) : Prop := w.scope = e ∧ w.name = name

instance (w : Write) (e : ScopeId) (name : String) : Decidable (w.Hits e name) :=
  inferInstanceAs (Decidable (w.scope = e ∧ w.name = name))

/-- The name has been bound on the scope. -/
def Bound (ws : List Write) (e : ScopeId) (name : String) : Prop := ∃ w ∈ ws, w.Hits e name

instance (ws : List Write) (e : ScopeId) (name : String) : Decidable (Bound ws e name) :=
  inferInstanceAs (Decidable (∃ w ∈ ws, w.Hits e name))

/-- The value was given by the most recent binding of the name on the scope. -/
def Latest (ws : List Write) (e : ScopeId) (name : String) (v : Value) : Prop :=
  ∃ before after, ws = before ++ ⟨e, name, v⟩ :: after ∧ ¬Bound after e name

def latest? : List Write → ScopeId → String → Option Value
  | [], _, _ => none
  | w :: ws, e, name => (latest? ws e name).or (if w.Hits e name then some w.value else none)

theorem latest?_append (ws us : List Write) (e : ScopeId) (name : String) :
    latest? (ws ++ us) e name = (latest? us e name).or (latest? ws e name) := by
  induction ws with
  | nil => rw [List.nil_append, latest?, Option.or_none]
  | cons w ws ih => rw [List.cons_append, latest?, ih, latest?, Option.or_assoc]

theorem latest?_eq_none_iff (ws : List Write) (e : ScopeId) (name : String) :
    latest? ws e name = none ↔ ¬Bound ws e name := by
  induction ws with
  | nil => simp [latest?, Bound]
  | cons w ws ih =>
    have hb : Bound (w :: ws) e name ↔ w.Hits e name ∨ Bound ws e name := by simp [Bound]
    rw [latest?, Option.or_eq_none_iff, ih, hb]
    by_cases h : w.Hits e name <;> simp [h]

theorem latest?_eq_some_iff (ws : List Write) (e : ScopeId) (name : String) (v : Value) :
    latest? ws e name = some v ↔ Latest ws e name v := by
  constructor
  · intro h
    induction ws with
    | nil => simp [latest?] at h
    | cons w ws ih =>
      rw [latest?, Option.or_eq_some_iff] at h
      rcases h with h | ⟨hnone, h⟩
      · obtain ⟨before, after, rfl, hafter⟩ := ih h
        exact ⟨w :: before, after, rfl, hafter⟩
      · -- nothing after `w` binds the name on the scope, so `w` is the latest
        split at h
        · next hw =>
          obtain ⟨rfl, rfl⟩ := hw
          cases h
          exact ⟨[], ws, rfl, (latest?_eq_none_iff ..).1 hnone⟩
        · cases h
  · rintro ⟨before, after, rfl, hafter⟩
    rw [latest?_append, latest?, (latest?_eq_none_iff ..).2 hafter]
    simp [Hits]

end Write

/-! ### Bindings of one scope -/

namespace Scopes

theorem getLocal?_setAll {t : Scopes Value} {e : ScopeId} (he : e ∈ t) (bs : List (Binding Value))
    (f : ScopeId) (name : String) :
    (t.setAll e bs).getLocal? f name =
      (Write.latest? (bs.map (Write.ofBinding e)) f name).or (t.getLocal? f name) := by
  induction bs generalizing t with
  | nil => rfl
  | cons b bs ih =>
    have hset : (t.set e b.name b.value).getLocal? f name =
        (if (Write.ofBinding e b).Hits f name then some b.value else none).or
          (t.getLocal? f name) := by
      rw [getLocal?_set he]
      by_cases h : f = e ∧ name = b.name
      · obtain ⟨rfl, rfl⟩ := h
        simp [Write.Hits, Write.ofBinding]
      · have hw : ¬(Write.ofBinding e b).Hits f name := fun hw => h ⟨hw.1.symm, hw.2.symm⟩
        rw [if_neg h, if_neg hw, Option.none_or]
    rw [setAll_cons, ih ((mem_set ..).2 he), hset, List.map_cons, Write.latest?, Option.or_assoc]
    rfl

theorem Change.getLocal? {t t' : Scopes Value} {os : List (Option ScopeId)} {ws : List Write}
    (h : Change t os ws t') (e : ScopeId) (name : String) :
    t'.getLocal? e name = (Write.latest? ws e name).or (t.getLocal? e name) := by
  cases h with
  | rest => rfl
  | bind he bs => exact getLocal?_setAll he bs e name
  | grow outer ho bs =>
    have hn : t.next ∈ t.push outer ho := (mem_push ..).2 (Or.inr rfl)
    rw [getLocal?_setAll hn, getLocal?_push]

theorem getLocal?_of_notMem {t : Scopes Value} {e : ScopeId} (h : e ∉ t) (name : String) :
    t.getLocal? e name = none := by
  rw [getLocal?, bindings_of_notMem h]
  rfl

theorem mem_of_isSome_get? {t : Scopes Value} {e : ScopeId} {name : String}
    (h : (t.get? e name).isSome) : e ∈ t := by
  by_cases he : e ∈ t
  · exact he
  · rw [get?_of_none (outer?_of_notMem he), getLocal?_of_notMem he] at h
    cases h

end Scopes

namespace Store

variable {st : Store}

/-- What a scope itself gives for a name after a run: the latest binding that the
run made, or else what was there before. -/
theorem serveAll_getLocal? {rs : List Request} (h : st.Admits rs) (e : ScopeId) (name : String) :
    (st.serveAll rs).scopes.getLocal? e name =
      (Write.latest? (st.history rs) e name).or (st.scopes.getLocal? e name) := by
  induction rs generalizing st with
  | nil => rfl
  | cons r rs ih =>
    rw [serveAll_cons, ih h.2, (serve_change h.1).getLocal?, history, Write.latest?_append,
      Option.or_assoc]

theorem isSome_get?_serveAll {rs : List Request} (h : st.Admits rs) {e : ScopeId} {name : String}
    (hv : (st.scopes.get? e name).isSome) :
    ((st.serveAll rs).scopes.get? e name).isSome := by
  have he : e ∈ st.scopes := Scopes.mem_of_isSome_get? hv
  rw [Scopes.get?, List.findSome?_isSome_iff] at hv
  obtain ⟨f, hf, hl⟩ := hv
  rw [Scopes.get?, (serveAll_place h he).2.2, List.findSome?_isSome_iff]
  refine ⟨f, hf, ?_⟩
  rw [serveAll_getLocal? h, Option.isSome_or, hl, Bool.or_true]

/-- A look-up finds the value of the most recent binding of the name on the first
scope, going outward, on which the name was ever bound during the run. It finds
nothing exactly when there is no such scope. A name that is found once is found
after any further requests. -/
theorem ReachedBy.get?_agrees_with_history {rs : List Request} (h : st.ReachedBy rs)
    (e : ScopeId) (name : String) :
    (∀ v, st.scopes.get? e name = some v ↔
      ∃ inner f outer, st.scopes.chain e = inner ++ f :: outer ∧
        (∀ g ∈ inner, ¬Write.Bound (empty.history rs) g name) ∧
        Write.Latest (empty.history rs) f name v) ∧
      (st.scopes.get? e name = none ↔
        ∀ f ∈ st.scopes.chain e, ¬Write.Bound (empty.history rs) f name) ∧
      ∀ more, st.Admits more → (st.scopes.get? e name).isSome →
        ((st.serveAll more).scopes.get? e name).isSome := by
  obtain ⟨hrs, rfl⟩ := h
  -- nothing is bound in the empty store, so the bindings of a scope are all from the run
  have hlocal (f : ScopeId) : (empty.serveAll rs).scopes.getLocal? f name =
      Write.latest? (empty.history rs) f name := by
    rw [serveAll_getLocal? hrs, Scopes.getLocal?_of_notMem (Nat.not_lt_zero _), Option.or_none]
  refine ⟨?_, ?_, fun more hm hv => isSome_get?_serveAll hm hv⟩
  · intro v
    simp only [Scopes.get?, List.findSome?_eq_some_iff, hlocal, Write.latest?_eq_some_iff,
      Write.latest?_eq_none_iff]
    constructor
    · rintro ⟨inner, f, outer, hc, hv, hi⟩
      exact ⟨inner, f, outer, hc, hi, hv⟩
    · rintro ⟨inner, f, outer, hc, hi, hv⟩
      exact ⟨inner, f, outer, hc, hv, hi⟩
  · simp only [Scopes.get?, List.findSome?_eq_none_iff, hlocal, Write.latest?_eq_none_iff]

/-- Two names over three scopes: one is shadowed, bound anew and passed twice as
a parameter, the other is bound outermost after all scopes have been opened. -/
def tangle : List Request :=
  [.newScope, .enclose ⟨0⟩, .set ⟨0⟩ "x" (.int 1), .set ⟨1⟩ "x" (.int 2), .set ⟨0⟩ "x" (.int 3),
   .activate ⟨⟨0⟩, ["x", "x"], [], ⟨1⟩⟩ [.int 4, .int 5], .register ⟨0⟩, .set ⟨0⟩ "y" (.int 6),
   .set ⟨0⟩ "y" (.int 7)]

theorem tangle_get? :
    (empty.serveAll tangle).ReachedBy tangle ∧
      (empty.serveAll tangle).scopes.get? ⟨2⟩ "y" = some (.int 7) := by
  have hr : (empty.serveAll tangle).ReachedBy tangle := ⟨by decide, rfl⟩
  have h₂ : (empty.serveAll tangle).scopes.outer? ⟨2⟩ = some ⟨1⟩ := by decide
  have h₁ : (empty.serveAll tangle).scopes.outer? ⟨1⟩ = some ⟨0⟩ := by decide
  have h₀ : (empty.serveAll tangle).scopes.outer? ⟨0⟩ = none := by decide
  have hb : ∀ g ∈ [(⟨2⟩ : ScopeId), ⟨1⟩], ¬Write.Bound (empty.history tangle) g "y" := by decide
  have hv : Write.Latest (empty.history tangle) ⟨0⟩ "y" (.int 7) :=
    ⟨(empty.history tangle).dropLast, [], rfl, by decide⟩
  refine ⟨hr, ((hr.get?_agrees_with_history ⟨2⟩ "y").1 _).2 ⟨[⟨2⟩, ⟨1⟩], ⟨0⟩, [], ?_, hb, hv⟩⟩
  rw [Scopes.chain_of_some h₂, Scopes.chain_of_some h₁, Scopes.chain_of_none h₀]
  rfl

end Store

end Scriptlet
