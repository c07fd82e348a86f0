import Scriptlet.Proofs.Commands
import Scriptlet.Proofs.Shadowing

/-!
# Registered builtins

A registry can be asked for a builtin by its name, and it can bind all builtins in a
scope. Both ways lead to the same values. Where a scope inside the registered one stands
in the way of a look-up, because it binds the name itself, it decides alone.
-/
namespace Scriptlet

theorem Builtin.name_injective : Function.Injective Builtin.name := by
  intro b c h
  have hsome : some b = some c := by rw [← ofName?_name b, h, ofName?_name c]
  exact Option.some.inj hsome

/-- The latest of the bindings of builtins under their names. Since no two of them share a
name, it is also the first one. -/
theorem Write.latest?_builtins (e f : ScopeId) (name : String) (bs : List Builtin) :
    latest? (bs.map fun b => ⟨e, b.name, .builtin b⟩) f name =
      if e = f then (bs.find? (·.name == name)).map .builtin else none := by
  induction bs with
  | nil => rw [List.map_nil, latest?, List.find?_nil, Option.map_none, ite_self]
  | cons b bs ih =>
    rw [List.map_cons, latest?, ih]
    by_cases hf : e = f
    · by_cases hb : b.name = name
      · have hfirst : (b :: bs).find? (·.name == name) = some b :=
          List.find?_cons_of_pos (beq_iff_eq.2 hb)
        rw [if_pos hf, if_pos ⟨hf, hb⟩, if_pos hf, hfirst]
        cases hlater : bs.find? (·.name == name) with
        | none => rfl
        | some c =>
          have hc : c.name = name := by simpa using List.find?_some hlater
          rw [Builtin.name_injective (hc.trans hb.symm)]
          rfl
      · have hfirst : (b :: bs).find? (·.name == name) = bs.find? (·.name == name) :=
          List.find?_cons_of_neg fun h => hb (beq_iff_eq.1 h)
        rw [if_neg (c := Hits _ f name) fun h => hb h.2, Option.or_none, hfirst]
    · rw [if_neg hf, if_neg fun h => hf h.1, if_neg hf, Option.or_none]

namespace Scopes

variable {α : Type} {t : Scopes α} {e f : ScopeId}

/-- Among scopes in a row, the nearest one that binds the name decides. -/
theorem findSome?_getLocal? (t : Scopes α) (name : String) (es : List ScopeId) :
    es.findSome? (t.getLocal? · name) =
      (es.find? (t.containsLocal · name)).bind (t.getLocal? · name) := by
  induction es with
  | nil => rfl
  | cons e es ih =>
    cases he : t.getLocal? e name with
    | none =>
      have hnext : (e :: es).find? (t.containsLocal · name) = es.find? (t.containsLocal · name) :=
        List.find?_cons_of_neg (by simp [containsLocal, he])
      rw [List.findSome?_cons_of_isNone (by simp [he]), hnext, ih]
    | some v =>
      have hfirst : (e :: es).find? (t.containsLocal · name) = some e :=
        List.find?_cons_of_pos (by simp [containsLocal, he])
      rw [List.findSome?_cons_of_isSome (by simp [he]), hfirst, Option.bind_some]

theorem notMem_chain_of_mem_chain (hf : f ∈ t.chain e) (hne : f ≠ e) : e ∉ t.chain f := by
  intro he
  have hle : f.index ≤ e.index := index_le_of_mem_chain hf
  have hge : e.index ≤ f.index := index_le_of_mem_chain he
  apply hne
  cases e
  cases f
  congr
  exact Nat.le_antisymm hle hge

end Scopes

namespace Store

variable {st : Store} {e f : ScopeId}

theorem chain_register (st : Store) (e f : ScopeId) :
    (st.register e).scopes.chain f = st.scopes.chain f :=
  Scopes.chain_setAll ..

theorem before_register (st : Store) (e f g : ScopeId) :
    (st.register e).scopes.before f g = st.scopes.before f g := by
  rw [Scopes.before, chain_register, Scopes.before]

theorem register_change (he : e ∈ st.scopes) :
    Scopes.Change st.scopes [] (Builtin.all.map fun b => ⟨e, b.name, .builtin b⟩)
      (st.register e).scopes := by
  have hr : (Request.register e).Admitted st := List.forall_mem_singleton.2 he
  exact serve_change hr

theorem getLocal?_register (he : e ∈ st.scopes) (f : ScopeId) (name : String) :
    (st.register e).scopes.getLocal? f name =
      (if e = f then (Builtin.ofName? name).map .builtin else none).or
        (st.scopes.getLocal? f name) := by
  rw [(register_change he).getLocal?, Write.latest?_builtins, Builtin.ofName?]

/-- Registration cannot be noticed from a scope that does not lie inside the scope. -/
theorem sameFrom_register (st : Store) (h : e ∉ st.scopes.chain f) :
    st.scopes.SameFrom (st.register e).scopes f := by
  refine Scopes.sameFrom_of_bindings (fun g _ => chain_register st e g) fun g hg => ?_
  have hne : g ≠ e := fun hge => h (hge ▸ hg)
  rw [register, Scopes.bindings_setAll, if_neg fun hboth => hne hboth.1]

theorem get?_register_self (he : e ∈ st.scopes) (name : String) :
    (st.register e).scopes.get? e name =
      ((Builtin.ofName? name).map .builtin).or (st.scopes.get? e name) := by
  have hlocal := getLocal?_register he e name
  rw [if_pos rfl] at hlocal
  have houter : (st.register e).scopes.outer? e = st.scopes.outer? e := Scopes.outer?_setAll ..
  cases ho : st.scopes.outer? e with
  | none => rw [Scopes.get?_of_none (houter.trans ho), hlocal, Scopes.get?_of_none ho]
  | some o =>
    have hsame := sameFrom_register st (Scopes.notMem_chain_outer ho)
    rw [Scopes.get?_of_some (houter.trans ho), hlocal, hsame.get?, Scopes.get?_of_some ho,
      Option.or_assoc]

/-- From inside, first the scopes on the way are asked, then the builtins. -/
theorem get?_register (he : e ∈ st.scopes) (hf : e ∈ st.scopes.chain f) (name : String) :
    (st.register e).scopes.get? f name =
      ((st.scopes.before f e).findSome? (st.scopes.getLocal? · name)).or
        (((Builtin.ofName? name).map .builtin).or (st.scopes.get? e name)) := by
  have hf' : e ∈ (st.register e).scopes.chain f := (chain_register st e f).symm ▸ hf
  have hway : ∀ g ∈ st.scopes.before f e,
      (st.register e).scopes.getLocal? g name = st.scopes.getLocal? g name := by
    intro g hg
    have hne : e ≠ g := fun heg => st.scopes.notMem_before f e (heg ▸ hg)
    rw [getLocal?_register he, if_neg hne, Option.none_or]
  rw [Scopes.get?_eq_or hf', before_register, findSome?_congr hway, get?_register_self he]

theorem get?_register_eq_some_iff (he : e ∈ st.scopes) (hf : e ∈ st.scopes.chain f)
    (b : Builtin) :
    (st.register e).scopes.get? f b.name = some (.builtin b) ↔
      (∀ g ∈ st.scopes.before f e, st.scopes.containsLocal g b.name = false) ∨
      ∃ g, (st.scopes.before f e).find? (st.scopes.containsLocal · b.name) = some g ∧
        st.scopes.getLocal? g b.name = some (.builtin b) := by
  rw [get?_register he hf, Builtin.ofName?_name, Option.map_some, Option.some_or,
    Scopes.findSome?_getLocal?]
  -- either no scope on the way binds the name, or the nearest one that does has the last word
  cases hnear : (st.scopes.before f e).find? (st.scopes.containsLocal · b.name) with
  | none =>
    have hfree : ∀ g ∈ st.scopes.before f e, st.scopes.containsLocal g b.name = false :=
      fun g hg => Bool.eq_false_iff.2 (List.find?_eq_none.1 hnear g hg)
    exact ⟨fun _ => Or.inl hfree, fun _ => rfl⟩
  | some g =>
    have hbinds : st.scopes.containsLocal g b.name = true := by
      simpa using List.find?_some hnear
    have hmem : g ∈ st.scopes.before f e := List.mem_of_find?_eq_some hnear
    obtain ⟨v, hv⟩ := Option.isSome_iff_exists.1 hbinds
    rw [Option.bind_some, hv, Option.some_or]
    constructor
    · intro heq
      exact Or.inr ⟨g, rfl, hv.trans heq⟩
    · rintro (hfree | ⟨g', hg', hv'⟩)
      · exact absurd hbinds (Bool.eq_false_iff.1 (hfree g hmem))
      · rw [Option.some.inj hg', hv'] at hv
        exact hv.symm

/-- A second registration changes nothing that a scope gives for a name. -/
theorem get?_register_register (he : e ∈ st.scopes) (f : ScopeId) (name : String) :
    ((st.register e).register e).scopes.get? f name = (st.register e).scopes.get? f name := by
  by_cases hf : e ∈ (st.register e).scopes.chain f
  · have hagain (a c : Option Value) : a.or (a.or c) = a.or c := by
      rw [← Option.or_assoc, Option.or_self]
    have hmem : e ∈ (st.register e).scopes := (register_change he).mem he
    rw [get?_register hmem hf, get?_register_self he, hagain,
      Scopes.get?_eq_or hf, get?_register_self he]
  · exact (sameFrom_register _ hf).get? name

end Store

namespace Session

variable {s : Session} {r place : String} {id : ChannelId} {e : ScopeId}

/-- What a session comes to hold when it asks a registry for a name. -/
def lookedUp (s : Session) (r name : String) : Option Value :=
  match step (.builtin name r name) s with
  | .ok (.absent, _) => none
  | .ok (_, after) => after.var? name
  | .error _ => none

theorem registry_eq_ok (hr : (Keyed.find? r s.registries).map Binding.value = some id) :
    registry r s = .ok (id, s) := by
  rw [registry, hr]
  rfl

theorem scope_eq_ok (he : (Keyed.find? place s.scopes).map Binding.value = some e) :
    scope place s = .ok (e, s) := by
  rw [scope, he]
  rfl

theorem lookedUp_eq (hr : (Keyed.find? r s.registries).map Binding.value = some id)
    (name : String) : s.lookedUp r name = (Builtin.ofName? name).map .builtin := by
  have hstep : step (.builtin name r name) s =
      keep? name ((Builtin.ofName? name).map .builtin) s := by
    simp only [step, bind, StateT.bind, registry_eq_ok hr, Except.bind]
  rw [lookedUp, hstep]
  cases Builtin.ofName? name with
  | none => rfl
  | some b =>
    exact congrArg (Option.map Binding.value) (Keyed.find?_put_self ⟨name, .builtin b⟩ s.vars)

theorem lookedUp_eq_some_iff (hr : (Keyed.find? r s.registries).map Binding.value = some id)
    {name : String} {v : Value} :
    s.lookedUp r name = some v ↔ ∃ b : Builtin, b.name = name ∧ v = .builtin b := by
  rw [lookedUp_eq hr, Option.map_eq_some_iff]
  constructor
  · rintro ⟨b, hb, rfl⟩
    have hname : b.name = name := by simpa using List.find?_some hb
    exact ⟨b, hname, rfl⟩
  · rintro ⟨b, rfl, rfl⟩
    exact ⟨b, b.ofName?_name, rfl⟩

theorem perform_register (hr : (Keyed.find? r s.registries).map Binding.value = some id)
    (he : (Keyed.find? place s.scopes).map Binding.value = some e) :
    (s.perform (.register r place)).2 = { s with store := s.store.register e } := by
  have hstep : step (.register r place) s =
      .ok (.names ((s.store.register e).scopes.localNames e),
        { s with store := s.store.register e }) := by
    simp only [step, bind, StateT.bind, registry_eq_ok hr, scope_eq_ok he, Except.bind]
    rfl
  rw [perform, hstep]

/-- A second registration finds the registries and scopes under the names they had. -/
theorem store_register_register {r' : String} {id' : ChannelId}
    (hr : (Keyed.find? r s.registries).map Binding.value = some id)
    (hr' : (Keyed.find? r' s.registries).map Binding.value = some id')
    (he : (Keyed.find? place s.scopes).map Binding.value = some e) :
    ((s.perform (.register r place)).2.perform (.register r' place)).2.store =
      (s.store.register e).register e := by
  have hagain := perform_register (s := { s with store := s.store.register e }) hr' he
  rw [perform_register hr he, hagain]

/-- Whatever a session has done, let it register the builtins in a scope through one of its
registries. What the registry gives for a name is a builtin of that name. The scope then
gives for every name what the registry gives, or else what it gave before. A scope inside it
gives the builtin unless a scope on the way binds the name, and the nearest one that does
binds it to something else. Registering once more, through any registry, changes nothing
that any scope gives. Scopes that do not lie inside, among them those around the scope, see
nothing of all this. -/
theorem registration_agrees_with_lookup {s : Session} {cs : List Command}
    (hs : (empty.run cs).2 = s) {r r' place : String} {id id' : ChannelId} {e : ScopeId}
    (hr : (Keyed.find? r s.registries).map Binding.value = some id)
    (hr' : (Keyed.find? r' s.registries).map Binding.value = some id')
    (he : (Keyed.find? place s.scopes).map Binding.value = some e) :
    let old := s.store.scopes
    let once := (s.perform (.register r place)).2
    let new := once.store.scopes
    let twice := (once.perform (.register r' place)).2
    (∀ name v, s.lookedUp r name = some v ↔ ∃ b : Builtin, b.name = name ∧ v = .builtin b) ∧
    (∀ name, new.get? e name = (s.lookedUp r name).or (old.get? e name)) ∧
    (∀ f, e ∈ old.chain f → ∀ name v, s.lookedUp r name = some v →
      (new.get? f name = some v ↔
        (∀ g ∈ old.before f e, old.containsLocal g name = false) ∨
        ∃ g, (old.before f e).find? (old.containsLocal · name) = some g ∧
          old.getLocal? g name = some v)) ∧
    (∀ f name, twice.store.scopes.get? f name = new.get? f name) ∧
    (∀ f, e ∉ old.chain f → old.SameFrom new f) ∧
    ∀ f ∈ old.chain e, f ≠ e → old.SameFrom new f := by
  intro old once new twice
  have hmem : e ∈ s.store.scopes := by
    obtain ⟨h, -, hfollows⟩ := follows_start.run cs
    obtain ⟨b, hb, rfl⟩ := Option.map_eq_some_iff.1 he
    rw [hs] at hfollows
    exact hfollows.store ▸ hfollows.scopes b (Keyed.mem_of_find?_eq_some hb)
  have honce : once = { s with store := s.store.register e } := perform_register hr he
  have htwice : twice.store = (s.store.register e).register e := store_register_register hr hr' he
  have hnew : new = (s.store.register e).scopes := congrArg (fun s => s.store.scopes) honce
  rw [hnew]
  refine ⟨fun name v => lookedUp_eq_some_iff hr, fun name => ?_, ?_, fun f name => ?_,
    fun f hf => Store.sameFrom_register s.store hf, fun f hf hne => ?_⟩
  · rw [lookedUp_eq hr]
    exact Store.get?_register_self hmem name
  · intro f hf name v hv
    obtain ⟨b, rfl, rfl⟩ := (lookedUp_eq_some_iff hr).1 hv
    exact Store.get?_register_eq_some_iff hmem hf b
  · rw [htwice]
    exact Store.get?_register_register hmem f name
  · exact Store.sameFrom_register s.store (Scopes.notMem_chain_of_mem_chain hf hne)

/-- Three scopes one inside the other, and two registries. The outer and the inner scope
bind names of builtins. -/
def household : List Command :=
  [.newScope "house", .enclose "room" "house", .enclose "desk" "room",
   .newRegistry "r" .silent, .newRegistry "q" .standard,
   .set "house" "len" (.int 1), .set "desk" "first" (.int 2)]

theorem household_registers :
    let s := (empty.run household).2
    let once := (s.perform (.register "r" "room")).2
    (Keyed.find? "r" s.registries).map Binding.value = some ⟨0⟩ ∧
      (Keyed.find? "q" s.registries).map Binding.value = some ⟨1⟩ ∧
      (Keyed.find? "room" s.scopes).map Binding.value = some ⟨1⟩ ∧
      once.store.scopes.get? ⟨1⟩ "len" = some (.builtin .len) ∧
      once.store.scopes.get? ⟨2⟩ "len" = some (.builtin .len) ∧
      once.store.scopes.get? ⟨2⟩ "first" ≠ some (.builtin .first) ∧
      once.store.scopes.get? ⟨0⟩ "len" = s.store.scopes.get? ⟨0⟩ "len" := by
  intro s once
  have hr : (Keyed.find? "r" s.registries).map Binding.value = some ⟨0⟩ := rfl
  have hq : (Keyed.find? "q" s.registries).map Binding.value = some ⟨1⟩ := rfl
  have he : (Keyed.find? "room" s.scopes).map Binding.value = some ⟨1⟩ := rfl
  have h₀ : s.store.scopes.chain ⟨0⟩ = [⟨0⟩] := Scopes.chain_of_none (by decide)
  have h₁ : s.store.scopes.chain ⟨1⟩ = [⟨1⟩, ⟨0⟩] := h₀ ▸ Scopes.chain_of_some (by decide)
  have h₂ : s.store.scopes.chain ⟨2⟩ = [⟨2⟩, ⟨1⟩, ⟨0⟩] := h₁ ▸ Scopes.chain_of_some (by decide)
  have hbefore : s.store.scopes.before ⟨2⟩ ⟨1⟩ = [⟨2⟩] := by
    rw [Scopes.before, h₂]
    decide
  obtain ⟨hlook, hself, hinside, -, -, houter⟩ := registration_agrees_with_lookup rfl hr hq he
  have hlen : s.lookedUp "r" "len" = some (.builtin .len) := (hlook ..).2 ⟨.len, rfl, rfl⟩
  have hfirst : s.lookedUp "r" "first" = some (.builtin .first) := (hlook ..).2 ⟨.first, rfl, rfl⟩
  have hin : (⟨1⟩ : ScopeId) ∈ s.store.scopes.chain ⟨2⟩ := by rw [h₂]; decide
  refine ⟨hr, hq, he, ?_, ?_, ?_, ?_⟩
  · rw [hself, hlen, Option.some_or]
  · rw [hinside ⟨2⟩ hin _ _ hlen, hbefore]
    exact Or.inl (by decide)
  · rw [Ne, hinside ⟨2⟩ hin _ _ hfirst, hbefore]
    rintro (hfree | ⟨g, hg, hv⟩)
    · exact absurd (hfree ⟨2⟩ List.mem_cons_self) (by decide)
    · have hdesk : s.store.scopes.getLocal? ⟨2⟩ "first" = some (.int 2) := rfl
      rw [← Option.some.inj hg, hdesk] at hv
      cases hv
  · exact (houter ⟨0⟩ (by rw [h₁]; decide) (by decide)).get? "len"

end Session

end Scriptlet
