import Scriptlet.Proofs.Activation
import Scriptlet.Proofs.LastWrite

/-!
# The scope of a call

A call with the wrong number of arguments gives an error value and leaves all
scopes alone. Any other call opens one scope inside the captured one and binds
the parameters in it, each to its argument; where a parameter is repeated, the
last argument given for it counts. All other names are looked up in the captured
scope, as it is at the time of the look-up.
-/
namespace Scriptlet

/-! ### Parameters -/

namespace Write

variable {params : List String} {args : List Value} {e : ScopeId} {name : String}

theorem bound_params_iff (hl : args.length = params.length) :
    Bound (params.zipWith (Write.mk e) args) e name ↔ name ∈ params := by
  have hnames : (params.zipWith (Write.mk e) args).map Write.name = params := by
    rw [List.map_zipWith, ← List.map_uncurry_zip_eq_zipWith]
    exact List.map_fst_zip (Nat.le_of_eq hl.symm)
  constructor
  · rintro ⟨w, hw, -, rfl⟩
    exact hnames ▸ List.mem_map_of_mem hw
  · intro hmem
    rw [← hnames] at hmem
    obtain ⟨w, hw, hname⟩ := List.mem_map.1 hmem
    obtain ⟨p, -, rfl⟩ := List.mem_map.1 (List.map_uncurry_zip_eq_zipWith ▸ hw)
    exact ⟨_, hw, rfl, hname⟩

theorem latest_param (hl : args.length = params.length) {i : Nat} (hi : params[i]? = some name)
    (hlast : ∀ j, i < j → params[j]? ≠ some name) :
    ∃ v, args[i]? = some v ∧ Latest (params.zipWith (Write.mk e) args) e name v := by
  obtain ⟨hlt, -⟩ := List.getElem?_eq_some_iff.1 hi
  obtain ⟨v, hv⟩ : ∃ v, args[i]? = some v := ⟨_, List.getElem?_eq_getElem (hl ▸ hlt)⟩
  have hw : (params.zipWith (Write.mk e) args)[i]? = some ⟨e, name, v⟩ := by
    rw [List.getElem?_zipWith, hi, hv]
  obtain ⟨hlt', hget⟩ := List.getElem?_eq_some_iff.1 hw
  refine ⟨v, hv, (params.zipWith (Write.mk e) args).take i,
    (params.zipWith (Write.mk e) args).drop (i + 1), ?_, ?_⟩
  · rw [← hget, List.getElem_cons_drop, List.take_append_drop]
  · -- a later binding of the name would give a later place of the parameter
    rintro ⟨w, hmem, -, hname⟩
    obtain ⟨k, hk⟩ := List.mem_iff_getElem?.1 hmem
    rw [List.getElem?_drop, List.getElem?_zipWith_eq_some] at hk
    obtain ⟨p, a, hp, -, rfl⟩ := hk
    exact hlast (i + 1 + k) (by omega) (hp.trans (congrArg some hname))

end Write

/-! ### Local names -/

namespace Scopes

variable {α : Type}

theorem mem_localNames_iff (t : Scopes α) (e : ScopeId) (name : String) :
    name ∈ t.localNames e ↔ t.containsLocal e name = true := by
  rw [localNames, List.mem_mergeSort, ← Keyed.find?_isSome_iff, containsLocal, getLocal?,
    Option.isSome_map]

theorem nodup_localNames {t : Scopes α} {e : ScopeId} (h : (Keyed.keys (t.bindings e)).Nodup) :
    (t.localNames e).Nodup :=
  (List.mergeSort_perm ..).nodup_iff.2 h

end Scopes

/-! ### Calls -/

namespace Store

variable {st after : Store} {c : Closure} {args : List Value} {e : ScopeId}

theorem getLocal?_activate (hc : c.scope ∈ st.scopes) (h : st.activate c args = (.ok e, after))
    (name : String) :
    after.scopes.getLocal? e name =
      Write.latest? (c.params.zipWith (Write.mk e) args) e name := by
  rw [(activate_change hc h).getLocal?, Scopes.getLocal?_of_notMem (scope_activate hc h).1,
    Option.or_none]

/-- A name that is no parameter is passed on to the captured scope, for as long as it
has not been bound in the scope of the call. -/
theorem get?_serveAll_activate (hc : c.scope ∈ st.scopes)
    (h : st.activate c args = (.ok e, after)) {rs : List Request} (hrs : after.Admits rs)
    {name : String} (hname : name ∉ c.params) (hfree : ¬Write.Bound (after.history rs) e name) :
    (after.serveAll rs).scopes.get? e name = (after.serveAll rs).scopes.get? c.scope name := by
  obtain ⟨-, houter, -⟩ := scope_activate hc h
  obtain ⟨-, houter', -⟩ := serveAll_place hrs (Scopes.mem_of_outer? houter)
  have hcall : ¬Write.Bound (c.params.zipWith (Write.mk e) args) e name := fun hbound =>
    hname ((Write.bound_params_iff (length_eq_of_activate h)).1 hbound)
  have hlocal : (after.serveAll rs).scopes.getLocal? e name = none := by
    rw [serveAll_getLocal? hrs, (Write.latest?_eq_none_iff ..).2 hfree, getLocal?_activate hc h,
      (Write.latest?_eq_none_iff ..).2 hcall, Option.or_none]
  rw [Scopes.get?_of_some (houter'.trans houter), hlocal, Option.none_or]

/-- A call of `c` on `args` has opened the scope `e`, with the parameters bound as they
should be and everything else as it was. -/
structure Opens (st : Store) (c : Closure) (args : List Value) (e : ScopeId) (after : Store) :
    Prop where
  fresh : e ∉ st.scopes
  outer : after.scopes.outer? e = some c.scope
  depth : after.scopes.depth e = st.scopes.depth c.scope + 1
  nodup : (after.scopes.localNames e).Nodup
  names : ∀ name, name ∈ after.scopes.localNames e ↔ name ∈ c.params
  param : ∀ (i : Nat) (name : String), c.params[i]? = some name →
    (∀ j, i < j → c.params[j]? ≠ some name) →
    ∃ v, args[i]? = some v ∧ after.scopes.get? e name = some v
  passed : ∀ rs, after.Admits rs → ∀ name, name ∉ c.params →
    ¬Write.Bound (after.history rs) e name →
    (after.serveAll rs).scopes.get? e name = (after.serveAll rs).scopes.get? c.scope name
  kept : ∀ f ∈ st.scopes, after.scopes.bindings f = st.scopes.bindings f ∧
    after.scopes.outer? f = st.scopes.outer? f ∧ after.scopes.depth f = st.scopes.depth f

theorem opens_of_activate (hc : c.scope ∈ st.scopes) (h : st.activate c args = (.ok e, after)) :
    st.Opens c args e after := by
  have hl : args.length = c.params.length := length_eq_of_activate h
  obtain ⟨hfresh, houter, hdepth⟩ := scope_activate hc h
  refine ⟨hfresh, houter, hdepth, ?_, fun name => ?_, fun i name hi hlast => ?_,
    fun rs hrs name => get?_serveAll_activate hc h hrs, fun f hf => ⟨?_, ?_, ?_⟩⟩
  · refine Scopes.nodup_localNames ?_
    rw [bindings_activate hc h, if_pos rfl]
    exact Keyed.nodup_keys_foldl_put _ List.nodup_nil
  · rw [Scopes.mem_localNames_iff, Scopes.containsLocal, getLocal?_activate hc h,
      Option.isSome_iff_ne_none, Ne, Write.latest?_eq_none_iff, not_not, Write.bound_params_iff hl]
  · obtain ⟨v, hv, hlatest⟩ := Write.latest_param (e := e) hl hi hlast
    refine ⟨v, hv, ?_⟩
    rw [Scopes.get?_of_some houter, getLocal?_activate hc h,
      (Write.latest?_eq_some_iff ..).2 hlatest, Option.some_or]
  · have hne : f ≠ e := fun hfe => hfresh (hfe ▸ hf)
    rw [bindings_activate hc h, if_neg hne]
  · exact (activate_change hc h).outer? hf
  · exact (activate_change hc h).depth hf

/-- A call with the wrong number of arguments gives an error value that tells both
numbers, and all scopes are as before. Any other call opens a new scope inside the
captured one. This scope binds the parameters, each to the last argument given for
it, and passes on every other name. No scope that was there is changed. -/
theorem call_binds_or_changes_nothing (st : Store) {c : Closure} (hc : c.scope ∈ st.scopes)
    (args : List Value) :
    (args.length ≠ c.params.length →
      ∃ s failed, st.activate c args = (.error (.error s ("wrong number of arguments: want=" ++
        toString c.params.length ++ ", got=" ++ toString args.length)), failed) ∧
        failed.scopes = st.scopes) ∧
      (args.length = c.params.length →
        ∃ e after, st.activate c args = (.ok e, after) ∧ st.Opens c args e after) := by
  refine ⟨fun hl => ⟨_, _, activate_of_length_ne hl, rfl⟩, fun hl => ?_⟩
  exact ⟨_, _, activate_of_length_eq hc hl, opens_of_activate hc (activate_of_length_eq hc hl)⟩

def stutter : Closure := ⟨⟨0⟩, ["x", "y", "x"], [], ⟨0⟩⟩

def stutterMade : List Request :=
  [.newScope, .set ⟨0⟩ "x" (.int 0), .set ⟨0⟩ "z" (.int 4), .function ["x", "y", "x"] [] ⟨0⟩]

/-- One argument is missing in a first call. A second call has all of them, and then a
name of the captured scope is bound anew. -/
theorem stutter_binds_last :
    let st := empty.serveAll stutterMade
    stutter.scope ∈ st.scopes ∧
      (∃ s failed, st.activate stutter [.int 1, .int 2] =
        (.error (.error s "wrong number of arguments: want=3, got=2"), failed) ∧
        failed.scopes = st.scopes) ∧
      ∃ e after, st.activate stutter [.int 1, .int 2, .int 3] = (.ok e, after) ∧
        after.scopes.get? e "x" = some (.int 3) ∧
        (after.set ⟨0⟩ "z" (.int 8)).scopes.get? e "z" =
          (after.set ⟨0⟩ "z" (.int 8)).scopes.get? ⟨0⟩ "z" := by
  intro st
  have hc : stutter.scope ∈ st.scopes := by decide
  have hshort := (call_binds_or_changes_nothing st hc [.int 1, .int 2]).1 (by decide)
  obtain ⟨e, after, hcall, hopens⟩ :=
    (call_binds_or_changes_nothing st hc [.int 1, .int 2, .int 3]).2 rfl
  obtain ⟨v, hv, hx⟩ := hopens.param 2 "x" rfl fun j hj => by
    rw [List.getElem?_eq_none (show stutter.params.length ≤ j from hj)]
    exact (Option.some_ne_none "x").symm
  cases hv
  have hadm : after.Admits [.set ⟨0⟩ "z" (.int 8)] :=
    ⟨List.forall_mem_singleton.2 (Scopes.outer_mem hopens.outer), trivial⟩
  have hne : e ≠ ⟨0⟩ := fun he => hopens.fresh (he ▸ hc)
  have hfree : ¬Write.Bound (after.history [.set ⟨0⟩ "z" (.int 8)]) e "z" := by
    rintro ⟨w, hw, hscope, -⟩
    cases List.mem_singleton.1 hw
    exact hne hscope.symm
  exact ⟨hc, hshort, e, after, hcall, hx, hopens.passed _ hadm "z" (by decide) hfree⟩

end Store

end Scriptlet
