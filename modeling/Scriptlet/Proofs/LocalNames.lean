import Mathlib.Data.List.Sort
import Scriptlet.Proofs.ByteOrder
import Scriptlet.Proofs.CallScope
import Scriptlet.Scopes.Outline

/-!
# The names of a scope

A scope lists the names that have been bound on it: one by one, as parameters of the
call that opened it, or with the builtins that were registered in it. Each name stands
there once, and the names are in the order of their bytes. A name that is listed stays
listed. Binding it again changes neither the list nor the outline of the scope.
-/
namespace Scriptlet

/-! ### Ways to bind a name -/

inductive Request.Binds (st : Store) (e : ScopeId) (name : String) : Request → Prop where
  | set (v : Value) : Binds st e name (.set e name v)
  | activate {c : Closure} {args : List Value} {after : Store}
      (hcall : st.activate c args = (.ok e, after)) (hname : name ∈ c.params) :
      Binds st e name (.activate c args)
  | register {b : Builtin} (hname : b.name = name) : Binds st e name (.register e)

theorem Request.bound_writes_iff (st : Store) (r : Request) (e : ScopeId) (name : String) :
    Write.Bound (r.writes st) e name ↔ r.Binds st e name := by
  constructor
  · rintro ⟨w, hw, rfl, rfl⟩
    rcases mem_writes hw with rfl | ⟨c, args, after, rfl, hcall, -⟩ | ⟨rfl, -⟩
    · exact .set w.value
    · simp only [writes, hcall] at hw
      exact .activate hcall
        ((Write.bound_params_iff (Store.length_eq_of_activate hcall)).1 ⟨w, hw, rfl, rfl⟩)
    · obtain ⟨b, -, hb⟩ := List.mem_map.1 hw
      exact .register (congrArg Write.name hb)
  · intro h
    cases h with
    | set v => exact ⟨_, List.mem_cons_self, rfl, rfl⟩
    | activate hcall hname =>
      simp only [writes, hcall]
      exact (Write.bound_params_iff (Store.length_eq_of_activate hcall)).2 hname
    | register hname => exact ⟨_, List.mem_map_of_mem (Builtin.mem_all _), rfl, hname⟩

namespace Store

variable {st : Store} {e : ScopeId} {name : String}

/-- Some request of the run binds the name on the scope. -/
def Binds (st : Store) (rs : List Request) (e : ScopeId) (name : String) : Prop :=
  ∃ before r after, rs = before ++ r :: after ∧ r.Binds (st.serveAll before) e name

theorem binds_cons_iff (st : Store) (r : Request) (rs : List Request) (e : ScopeId)
    (name : String) :
    st.Binds (r :: rs) e name ↔ r.Binds st e name ∨ (st.serve r).2.Binds rs e name := by
  constructor
  · rintro ⟨before, r', after, hrs, hb⟩
    cases before with
    | nil =>
      cases hrs
      exact Or.inl hb
    | cons _ before =>
      cases hrs
      exact Or.inr ⟨before, r', after, rfl, hb⟩
  · rintro (hb | ⟨before, r', after, rfl, hb⟩)
    · exact ⟨[], r, rs, rfl, hb⟩
    · exact ⟨r :: before, r', after, rfl, hb⟩

theorem bound_history_iff (st : Store) (rs : List Request) (e : ScopeId) (name : String) :
    Write.Bound (st.history rs) e name ↔ st.Binds rs e name := by
  induction rs generalizing st with
  | nil => simp [history, Write.Bound, Binds]
  | cons r rs ih =>
    have happend : Write.Bound (st.history (r :: rs)) e name ↔
        Write.Bound (r.writes st) e name ∨ Write.Bound ((st.serve r).2.history rs) e name := by
      simp only [history, Write.Bound, List.mem_append, or_and_right, exists_or]
    rw [happend, Request.bound_writes_iff, ih, binds_cons_iff]

end Store

/-! ### One binding a name -/

theorem Scopes.nodup_keys_setAll {t : Scopes Value} {e : ScopeId}
    (hn : (Keyed.keys (t.bindings e)).Nodup) (f : ScopeId) (bs : List (Binding Value)) :
    (Keyed.keys ((t.setAll f bs).bindings e)).Nodup := by
  rw [bindings_setAll]
  split
  · exact Keyed.nodup_keys_foldl_put bs hn
  · exact hn

theorem Scopes.Change.nodup_keys {t t' : Scopes Value} {os : List (Option ScopeId)}
    {ws : List Write} (h : Change t os ws t') {e : ScopeId}
    (hn : (Keyed.keys (t.bindings e)).Nodup) : (Keyed.keys (t'.bindings e)).Nodup := by
  cases h with
  | rest => exact hn
  | bind _ bs => exact nodup_keys_setAll hn _ bs
  | grow outer ho bs =>
    have hpush : (Keyed.keys ((t.push outer ho).bindings e)).Nodup := by
      rw [bindings_push]
      exact hn
    exact nodup_keys_setAll hpush _ bs

theorem Store.serveAll_nodup_keys {st : Store} {rs : List Request} (h : st.Admits rs) {e : ScopeId}
    (hn : (Keyed.keys (st.scopes.bindings e)).Nodup) :
    (Keyed.keys ((st.serveAll rs).scopes.bindings e)).Nodup := by
  induction rs generalizing st with
  | nil => exact hn
  | cons r rs ih => exact ih h.2 ((serve_change h.1).nodup_keys hn)

/-! ### Sorted names -/

theorem Scopes.pairwise_localNames {α : Type} {t : Scopes α} {e : ScopeId}
    (hn : (Keyed.keys (t.bindings e)).Nodup) : (t.localNames e).Pairwise (· < ·) := by
  have hle : (t.localNames e).Pairwise fun a b => decide (a ≤ b) = true := by
    refine List.pairwise_mergeSort (fun a b c hab hbc => ?_) (fun a b => ?_) _
    · exact decide_eq_true (String.le_trans (of_decide_eq_true hab) (of_decide_eq_true hbc))
    · rw [Bool.or_eq_true, decide_eq_true_iff, decide_eq_true_iff]
      exact String.le_total a b
  -- no name occurs twice, so neighbours are not equal
  refine hle.imp₂ (fun a b hab hne => ?_) (nodup_localNames hn)
  rw [← String.not_le]
  exact fun hba => hne (String.le_antisymm (of_decide_eq_true hab) hba)

namespace Store

variable {st : Store} {rs : List Request} {e : ScopeId}

theorem mem_localNames_serveAll (h : st.Admits rs) (e : ScopeId) (name : String) :
    name ∈ (st.serveAll rs).scopes.localNames e ↔
      st.Binds rs e name ∨ name ∈ st.scopes.localNames e := by
  rw [Scopes.mem_localNames_iff, Scopes.mem_localNames_iff, Scopes.containsLocal,
    serveAll_getLocal? h, Option.isSome_or, Bool.or_eq_true, Scopes.containsLocal,
    Option.isSome_iff_ne_none, Ne, Write.latest?_eq_none_iff, not_not, bound_history_iff]

/-- Names that are listed stay listed, in the same order. -/
theorem sublist_localNames_serveAll (h : st.Admits rs)
    (hn : (Keyed.keys (st.scopes.bindings e)).Nodup) :
    (st.scopes.localNames e).Sublist ((st.serveAll rs).scopes.localNames e) := by
  have hsub : st.scopes.localNames e ⊆ (st.serveAll rs).scopes.localNames e :=
    fun name hname => (mem_localNames_serveAll h e name).2 (Or.inr hname)
  exact List.sublist_of_subperm_of_pairwise
    (List.subperm_of_subset (Scopes.nodup_localNames hn) hsub)
    (Scopes.pairwise_localNames hn) (Scopes.pairwise_localNames (serveAll_nodup_keys h hn))

theorem localNames_serveAll_of_rebinding (h : st.Admits rs)
    (hn : (Keyed.keys (st.scopes.bindings e)).Nodup)
    (hrs : ∀ name, st.Binds rs e name → name ∈ st.scopes.localNames e) :
    (st.serveAll rs).scopes.localNames e = st.scopes.localNames e := by
  refine (Scopes.pairwise_localNames (serveAll_nodup_keys h hn)).eq_of_mem_iff
    (Scopes.pairwise_localNames hn) fun name => ?_
  rw [mem_localNames_serveAll h, or_iff_right_of_imp (hrs name)]

/-- In every state that requests lead to, the names that a scope lists are those that
some request has bound on it, and those that it contains. Each is listed once, in the
strict order of the bytes, which is the order of the code points for all strings. No
later request takes a name off the list. As long as all names that are bound on the
scope are on the list already, the list and the outline of the scope stay the same. -/
theorem ReachedBy.localNames_is_sorted_domain (h : st.ReachedBy rs) (he : e ∈ st.scopes) :
    (∀ name, name ∈ st.scopes.localNames e ↔ empty.Binds rs e name) ∧
    (∀ name, name ∈ st.scopes.localNames e ↔ st.scopes.containsLocal e name = true) ∧
    (st.scopes.localNames e).Nodup ∧
    (st.scopes.localNames e).Pairwise Utf8.BytesLt ∧
    (∀ x y, Utf8.BytesLt x y ↔ Utf8.PointsLt x y) ∧
    ∀ more, st.Admits more →
      (st.scopes.localNames e).Sublist ((st.serveAll more).scopes.localNames e) ∧
      ((∀ name, st.Binds more e name → name ∈ st.scopes.localNames e) →
        (st.serveAll more).scopes.localNames e = st.scopes.localNames e ∧
        ∀ hidden, (st.serveAll more).scopes.outline hidden e = st.scopes.outline hidden e) := by
  obtain ⟨hrs, rfl⟩ := h
  -- the empty store has no scopes, so every binding is from the run
  have hempty : empty.scopes.bindings e = [] := Scopes.bindings_of_notMem (Nat.not_lt_zero _)
  have hn : (Keyed.keys ((empty.serveAll rs).scopes.bindings e)).Nodup := by
    refine serveAll_nodup_keys hrs ?_
    rw [hempty]
    exact List.nodup_nil
  refine ⟨fun name => ?_, Scopes.mem_localNames_iff _ e, Scopes.nodup_localNames hn, ?_,
    fun x y => ?_, fun more hmore => ⟨?_, ?_⟩⟩
  · have hnone : name ∉ empty.scopes.localNames e := by
      rw [Scopes.mem_localNames_iff, Scopes.containsLocal, Scopes.getLocal?, hempty]
      exact Bool.false_ne_true
    rw [mem_localNames_serveAll hrs, or_iff_left hnone]
  · exact (Scopes.pairwise_localNames hn).imp fun hlt => (Utf8.bytesLt_iff _ _).2 hlt
  · exact (Utf8.bytesLt_iff x y).trans (Utf8.pointsLt_iff x y).symm
  · exact sublist_localNames_serveAll hmore hn
  · intro hagain
    have hnames := localNames_serveAll_of_rebinding hmore hn hagain
    refine ⟨hnames, fun hidden => ?_⟩
    rw [Scopes.outline, hnames, serveAll_depth hmore he, Scopes.outline]

def polyglot : List Request :=
  [.newScope, .set ⟨0⟩ "😀" (.int 1), .set ⟨0⟩ "é" (.int 2), .register ⟨0⟩,
   .set ⟨0⟩ "é" (.int 3), .activate ⟨⟨0⟩, ["日", "z", "日"], [], ⟨0⟩⟩ [.int 4, .int 5, .int 6]]

/-- The names of the outer scope are bound once more, and one of them in the inner scope,
where it is new. This does not show in the outline of the outer scope. -/
theorem polyglot_lists_names :
    let st := empty.serveAll polyglot
    let again : List Request := [.set ⟨0⟩ "é" (.int 7), .register ⟨0⟩, .set ⟨1⟩ "é" (.int 8)]
    st.ReachedBy polyglot ∧ (⟨0⟩ : ScopeId) ∈ st.scopes ∧ (⟨1⟩ : ScopeId) ∈ st.scopes ∧
      "日" ∈ st.scopes.localNames ⟨1⟩ ∧ (st.scopes.localNames ⟨1⟩).Pairwise Utf8.BytesLt ∧
      st.Admits again ∧
      ∀ hidden, (st.serveAll again).scopes.outline hidden ⟨0⟩ = st.scopes.outline hidden ⟨0⟩ := by
  intro st again
  have hreached : st.ReachedBy polyglot := ⟨by decide, rfl⟩
  have houter : (⟨0⟩ : ScopeId) ∈ st.scopes := by decide
  have hinner : (⟨1⟩ : ScopeId) ∈ st.scopes := by decide
  have hagain : st.Admits again := by decide
  have hold : ∀ w ∈ st.history again,
      w.scope = ⟨0⟩ → st.scopes.containsLocal ⟨0⟩ w.name = true := by decide
  obtain ⟨-, hcontains, -, -, -, hlater⟩ := hreached.localNames_is_sorted_domain houter
  obtain ⟨hbound, -, -, hsorted, -, -⟩ := hreached.localNames_is_sorted_domain hinner
  have hcall : empty.Binds polyglot ⟨1⟩ "日" :=
    ⟨polyglot.dropLast, _, [], rfl, .activate rfl List.mem_cons_self⟩
  refine ⟨hreached, houter, hinner, (hbound "日").2 hcall, hsorted, hagain, ?_⟩
  refine ((hlater again hagain).2 fun name hname => (hcontains name).2 ?_).2
  obtain ⟨w, hw, hscope, rfl⟩ := (bound_history_iff ..).2 hname
  exact hold w hw hscope

end Store

end Scriptlet
