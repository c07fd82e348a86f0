import Scriptlet.Proofs.Entries
import Scriptlet.Proofs.Likeness
import Scriptlet.Proofs.Lookup

/-!
# Hosts

A host holds on to what the store hands out to it. It knows these values, their
parts and all plain data, and it passes on only values that it knows. Whatever
it asks for, each stamp among the values it knows stands for one payload: a
value just made is the only one with its stamp, and all its parts were known
before.
-/
namespace Scriptlet

/-! ### Answers of builtins -/

/-- What an answer passes on or puts into a new array has the property. -/
def Answer.All (P : Value → Prop) : Answer → Prop
  | .value v => P v
  | .array items => ∀ v ∈ items, P v
  | .fault _ => True

namespace Builtin

variable {P : Value → Prop}

theorem onArray_all (item : ∀ s vs, P (.array s vs) → ∀ v ∈ vs, P v) {b : Builtin} {v : Value}
    {f : List Value → Answer} (hv : P v)
    (hf : ∀ items : List Value, (∀ v ∈ items, P v) → (f items).All P) :
    (b.onArray v f).All P := by
  cases v with
  | array s vs => exact hf vs (item s vs hv)
  | _ => trivial

theorem onOne_all {args : List Value} {f : Value → Answer} (hargs : ∀ v ∈ args, P v)
    (hf : ∀ v, P v → (f v).All P) : (onOne args f).All P := by
  match args with
  | [v] => exact hf v (hargs v List.mem_cons_self)
  | [] => trivial
  | _ :: _ :: _ => trivial

/-- A builtin answers by an integer, null, or values drawn from its arguments. -/
theorem answer_all (int : ∀ n, P (.int n)) (null : P .null)
    (item : ∀ s vs, P (.array s vs) → ∀ v ∈ vs, P v) (b : Builtin) {args : List Value}
    (hargs : ∀ v ∈ args, P v) : (b.answer args).All P := by
  have getD_all (o : Option Value) (ho : ∀ v ∈ o, P v) : (Answer.ofOption o).All P := by
    cases o with
    | none => exact null
    | some v => exact ho v rfl
  cases b with
  | len =>
    refine onOne_all hargs fun v _ => ?_
    cases v <;> first | exact int _ | trivial
  | first =>
    refine onOne_all hargs fun v hv => onArray_all item hv fun items hi => ?_
    exact getD_all _ fun v hv => hi v (List.mem_of_head? hv)
  | last =>
    refine onOne_all hargs fun v hv => onArray_all item hv fun items hi => ?_
    exact getD_all _ fun v hv => hi v (List.mem_of_getLast? hv)
  | rest =>
    refine onOne_all hargs fun v hv => onArray_all item hv fun items hi => ?_
    cases items with
    | nil => exact null
    | cons x tail => exact fun v hv => hi v (List.mem_cons_of_mem _ hv)
  | push =>
    match args with
    | [target, x] =>
      refine onArray_all item (hargs target List.mem_cons_self) fun items hi v hv => ?_
      rcases List.mem_append.1 hv with hv | hv
      · exact hi v hv
      · exact hargs v (List.mem_cons_of_mem _ hv)
    | [] => trivial
    | [_] => trivial
    | _ :: _ :: _ :: _ => trivial
  | puts => exact null

end Builtin

/-- What is found under a key is a part of the hash. -/
theorem Value.part_of_lookup {receiver key v : Value}
    (h : receiver.lookup key = .ok (some v)) : v.Part receiver := by
  cases receiver with
  | hash s es =>
    simp only [lookup, entries?] at h
    split at h
    · cases h
    · obtain ⟨e, he, rfl⟩ := Option.map_eq_some_iff.1 (Except.ok.inj h)
      exact .value s (Keyed.mem_of_find?_eq_some he)
  | _ => cases h

/-! ### What a host knows -/

/-- A store and all that it has handed out. -/
structure Host where
  store : Store
  made : List Value

/-- What can be had from values once they are made. -/
inductive Known (made : List Value) : Value → Prop where
  | made {v : Value} (hv : v ∈ made) : Known made v
  | int (n : Int64) : Known made (.int n)
  | bool (b : Bool) : Known made (.bool b)
  | null : Known made .null
  | builtin (b : Builtin) : Known made (.builtin b)
  | part {v w : Value} (hw : w.Part v) (hv : Known made v) : Known made w
  | function {c : Closure} (hc : Known made (.macroFn c)) : Known made (.function c)
  | macroFn {c : Closure} (hc : Known made (.function c)) : Known made (.macroFn c)

theorem Known.mono {made more : List Value} (h : made ⊆ more) {v : Value} (hv : Known made v) :
    Known more v := by
  induction hv with
  | made hv => exact .made (h hv)
  | int n => exact .int n
  | bool b => exact .bool b
  | null => exact .null
  | builtin b => exact .builtin b
  | part hw _ ih => exact .part hw ih
  | function _ ih => exact .function ih
  | macroFn _ ih => exact .macroFn ih

theorem Known.of_append {made more : List Value} (hm : ∀ v ∈ more, Known made v) {v : Value}
    (hv : Known (made ++ more) v) : Known made v := by
  induction hv with
  | made hv =>
    rcases List.mem_append.1 hv with hv | hv
    · exact .made hv
    · exact hm _ hv
  | int n => exact .int n
  | bool b => exact .bool b
  | null => exact .null
  | builtin b => exact .builtin b
  | part hw _ ih => exact .part hw ih
  | function _ ih => exact .function ih
  | macroFn _ ih => exact .macroFn ih

/-- A new value adds nothing to what is known but itself, when its parts were
known before. A new closure can be had as a function and as a macro. -/
theorem Known.of_append_singleton {made : List Value} {m : Value}
    (hm : ∀ w, w.Part m → Known made w) {v : Value} (hv : Known (made ++ [m]) v) :
    Known made v ∨ v.cell? = m.cell? := by
  induction hv with
  | made hv =>
    rcases List.mem_append.1 hv with hv | hv
    · exact Or.inl (.made hv)
    · exact Or.inr (by rw [List.mem_singleton.1 hv])
  | int n => exact Or.inl (.int n)
  | bool b => exact Or.inl (.bool b)
  | null => exact Or.inl .null
  | builtin b => exact Or.inl (.builtin b)
  | part hw _ ih =>
    rcases ih with hv | hc
    · exact Or.inl (.part hw hv)
    · exact Or.inl (hm _ (hw.of_cell_eq hc))
  | function _ ih => exact ih.imp .function id
  | macroFn _ ih => exact ih.imp .macroFn id

namespace Host

def start : Host := ⟨Store.empty, []⟩

def Knows (h : Host) (v : Value) : Prop := Known h.made v

/-- The host names scopes that are there and passes on values that it knows. -/
def Allows (h : Host) (r : Request) : Prop := r.Admitted h.store ∧ ∀ v ∈ r.values, h.Knows v

def serve (h : Host) (r : Request) : Host :=
  ⟨(h.store.serve r).2, h.made ++ (h.store.serve r).1.toList⟩

theorem allows_of_scopes_nil {h : Host} {r : Request} (hs : r.scopes = [])
    (hv : ∀ v ∈ r.values, h.Knows v) : h.Allows r :=
  ⟨by simp [Request.Admitted, hs], hv⟩

theorem allows_of_scopes_eq {h : Host} {r : Request} {e : ScopeId} (hs : r.scopes = [e])
    (he : e ∈ h.store.scopes) (hv : ∀ v ∈ r.values, h.Knows v) : h.Allows r :=
  ⟨by simp [Request.Admitted, hs, he], hv⟩

/-- What holds of all that is taken from a list in pairs. -/
theorem forall_mem_pairs {α : Type} {P : Value → Prop} {xs : List α} {f g : α → Value} :
    (∀ v ∈ xs.flatMap fun x => [f x, g x], P v) ↔ ∀ x ∈ xs, P (f x) ∧ P (g x) := by
  rw [List.forall_mem_flatMap]
  simp

/-- What names no scope and passes on no value can always be asked for. -/
theorem allows_plain {h : Host} {r : Request} (hs : r.scopes = []) (hv : r.values = []) :
    h.Allows r :=
  allows_of_scopes_nil hs (by simp [hv])

theorem Knows.serve {h : Host} {v : Value} (hv : h.Knows v) (r : Request) : (h.serve r).Knows v :=
  Known.mono (List.subset_append_left _ _) hv

theorem Knows.function {h : Host} {v : Value} (hv : h.Knows v) {c : Closure}
    (hc : v.closure? = some c) : h.Knows (.function c) := by
  cases v with
  | function d =>
    cases hc
    exact hv
  | macroFn d =>
    cases hc
    exact Known.function hv
  | _ => cases hc

theorem answer_known {h : Host} (b : Builtin) {args : List Value} (hargs : ∀ v ∈ args, h.Knows v) :
    (b.answer args).All h.Knows :=
  Builtin.answer_all Known.int Known.null (fun s _ hvs _ hv => .part (.item s hv) hvs) b hargs

/-- A value just made, before the next stamp is drawn. -/
structure Fresh (h : Host) (v : Value) : Prop where
  stamp : ∃ p, v.cell? = some (h.store.next, p)
  part : ∀ w, w.Part v → h.Knows w
  keys : ∀ s es, v = .hash s es → (Keyed.keys es).Nodup
  scope : ∀ c, v.closure? = some c → c.scope ∈ h.store.scopes

/-- A request draws no stamp and hands out nothing new, or it draws one for the
value that it hands out. -/
inductive Yields (h : Host) : Option Value → Store → Prop where
  | old {o : Option Value} {st : Store} (ho : ∀ v ∈ o, h.Knows v)
      (hst : st.stamps = h.store.stamps) : Yields h o st
  | new {v : Value} {st : Store} (hv : h.Fresh v) (hst : st.stamps = h.store.stamps + 1) :
      Yields h (some v) st

variable {h : Host} {r : Request}

theorem fresh_ret {inner : Value} (hv : h.Knows inner) : h.Fresh (.ret h.store.next inner) where
  stamp := ⟨_, rfl⟩
  part w hw := by
    cases hw
    exact hv
  keys := by simp
  scope := by simp [Value.closure?]

theorem fresh_array {items : List Value} (hv : ∀ v ∈ items, h.Knows v) :
    h.Fresh (.array h.store.next items) where
  stamp := ⟨_, rfl⟩
  part w hw := by
    cases hw with
    | item _ hm => exact hv w hm
  keys := by simp
  scope := by simp [Value.closure?]

theorem fresh_hash {entries : List (Entry Value)} (hn : (Keyed.keys entries).Nodup)
    (hv : ∀ e ∈ entries, h.Knows e.stored ∧ h.Knows e.value) :
    h.Fresh (.hash h.store.next entries) where
  stamp := ⟨_, rfl⟩
  part w hw := by
    cases hw with
    | stored _ he => exact (hv _ he).1
    | value _ he => exact (hv _ he).2
  keys s es he := by
    cases he
    exact hn
  scope := by simp [Value.closure?]

/-- Values without parts. -/
theorem fresh_of_leaf {v : Value} {p : Payload} (hc : v.cell? = some (h.store.next, p))
    (hk : v.kind ≠ .ret ∧ v.kind ≠ .array ∧ v.kind ≠ .hash)
    (hs : ∀ c, v.closure? = some c → c.scope ∈ h.store.scopes) : h.Fresh v where
  stamp := ⟨p, hc⟩
  part w hw := by
    obtain ⟨hret, harray, hhash⟩ := hk
    cases hw with
    | inner => exact absurd rfl hret
    | item => exact absurd rfl harray
    | stored => exact absurd rfl hhash
    | value => exact absurd rfl hhash
  keys s es he := absurd (congrArg Value.kind he) hk.2.2
  scope := hs

theorem fresh_error (message : String) : h.Fresh (.error h.store.next message) :=
  fresh_of_leaf rfl (by simp [Value.kind]) (by simp [Value.closure?])

theorem yields_newAnswer {st : Store} {a : Answer} (ha : a.All h.Knows)
    (hst : st.stamps = h.store.stamps) :
    h.Yields (some (st.newAnswer a).1) (st.newAnswer a).2 := by
  have hnext : st.next = h.store.next := by rw [Store.next, hst, Store.next]
  cases a with
  | value v =>
    refine .old (fun w hw => ?_) hst
    cases hw
    exact ha
  | array items =>
    refine .new ?_ (congrArg (· + 1) hst)
    simp only [Store.newAnswer, Store.newArray, hnext]
    exact fresh_array ha
  | fault f =>
    refine .new ?_ (congrArg (· + 1) hst)
    simp only [Store.newAnswer, Store.newFault, Store.newError, hnext]
    exact fresh_error f.message

theorem serve_yields (hr : h.Allows r) : h.Yields (h.store.serve r).1 (h.store.serve r).2 := by
  obtain ⟨hadm, hval⟩ := hr
  cases r with
  | ret inner => exact .new (fresh_ret (hval inner List.mem_cons_self)) rfl
  | error message => exact .new (fresh_error message) rfl
  | str text => exact .new (fresh_of_leaf rfl (by simp [Value.kind]) (by simp [Value.closure?])) rfl
  | array items => exact .new (fresh_array hval) rfl
  | hash pairs =>
    simp only [Store.serve, Store.newHash]
    cases he : entriesOfPairs pairs with
    | error e => exact .old (by simp) rfl
    | ok entries =>
      refine .new (fresh_hash (nodup_keys_entriesOfPairs he) fun e hm => ?_) rfl
      exact forall_mem_pairs.1 hval _ (mem_of_mem_entriesOfPairs he hm)
  | keyedHash entries =>
    refine .new (fresh_hash (nodup_keys_entriesOfKeyed entries) fun e hm => ?_) rfl
    exact forall_mem_pairs.1 hval e (mem_of_mem_entriesOfKeyed hm)
  | function params body e =>
    refine .new (fresh_of_leaf rfl (by simp [Value.kind]) ?_) rfl
    intro c hc
    cases hc
    exact hadm e List.mem_cons_self
  | macroFn params body e =>
    refine .new (fresh_of_leaf rfl (by simp [Value.kind]) ?_) rfl
    intro c hc
    cases hc
    exact hadm e List.mem_cons_self
  | quote node =>
    exact .new (fresh_of_leaf rfl (by simp [Value.kind]) (by simp [Value.closure?])) rfl
  | activate c args =>
    have hc : c.scope ∈ h.store.scopes := hadm c.scope List.mem_cons_self
    by_cases hl : args.length = c.params.length
    · simp only [Store.serve, Store.activate_of_length_eq hc hl]
      exact .old (by simp) rfl
    · simp only [Store.serve, Store.activate_of_length_ne hl]
      exact .new (fresh_error _) rfl
  | register e => exact .old (by simp [Store.serve]) (by simp only [Store.serve, Store.register])
  | call id b args =>
    have ha : (b.answer args).All h.Knows := answer_known b hval
    have hst : ((b.lines args).foldl (fun st line => st.print id line) h.store).stamps =
        h.store.stamps := by rw [Store.foldl_print]
    exact yields_newAnswer ha hst
  | _ => exact .old (by simp [Store.serve]) rfl

/-- What is known after a request was known before, or has the cell of the one
value that was made. -/
theorem knows_serve (hr : h.Allows r) :
    ((h.serve r).store.stamps = h.store.stamps ∧ ∀ v, (h.serve r).Knows v → h.Knows v) ∨
      (h.serve r).store.stamps = h.store.stamps + 1 ∧
        ∃ m, h.Fresh m ∧ ∀ v, (h.serve r).Knows v → h.Knows v ∨ v.cell? = m.cell? := by
  have hy := serve_yields hr
  simp only [Knows, serve]
  generalize (h.store.serve r).1 = o, (h.store.serve r).2 = st at hy
  cases hy with
  | old ho hst =>
    refine Or.inl ⟨hst, fun v hv => hv.of_append fun w hw => ho w ?_⟩
    simpa using hw
  | new hm hst => exact Or.inr ⟨hst, _, hm, fun v hv => hv.of_append_singleton hm.part⟩

/-! ### What holds of all that a host knows -/

structure Sound (h : Host) : Prop where
  bound : ∀ e name v, h.store.scopes.getLocal? e name = some v → h.Knows v
  older : ∀ v s p, h.Knows v → v.cell? = some (s, p) → s.index < h.store.stamps
  cell : ∀ v w s p q, h.Knows v → h.Knows w → v.cell? = some (s, p) → w.cell? = some (s, q) → p = q
  keys : ∀ s es, h.Knows (.hash s es) → (Keyed.keys es).Nodup
  scope : ∀ v c, h.Knows v → v.closure? = some c → c.scope ∈ h.store.scopes

theorem cell?_of_known_nil {v : Value} (hv : Known [] v) : v.cell? = none := by
  induction hv with
  | made hv => cases hv
  | part hw _ ih => cases hw <;> cases ih
  | function _ ih => cases ih
  | macroFn _ ih => cases ih
  | _ => rfl

theorem sound_start : start.Sound where
  bound e name v hv := by
    rw [Scopes.getLocal?_of_notMem (Nat.not_lt_zero _)] at hv
    cases hv
  older v s p hv hc := by
    rw [cell?_of_known_nil hv] at hc
    cases hc
  cell v w s p q hv _ hc _ := by
    rw [cell?_of_known_nil hv] at hc
    cases hc
  keys s es hv := by cases cell?_of_known_nil hv
  scope v c hv hc := by
    rw [Value.closure?_eq_some_iff, cell?_of_known_nil hv] at hc
    cases hc

/-- All that a request binds is passed with it or is a builtin. -/
theorem write_value_mem {st : Store} {w : Write} (hw : w ∈ r.writes st) :
    w.value ∈ r.values ∨ ∃ b, w.value = .builtin b := by
  rcases Request.mem_writes hw with hr | ⟨c, args, after, hr, -, harg⟩ | ⟨-, hb⟩
  · rw [hr]
    exact Or.inl List.mem_cons_self
  · rw [hr]
    exact Or.inl (List.mem_cons_of_mem _ harg)
  · exact Or.inr hb

theorem bound_serve (hs : h.Sound) (hr : h.Allows r) {e : ScopeId} {name : String} {v : Value}
    (hv : (h.serve r).store.scopes.getLocal? e name = some v) : (h.serve r).Knows v := by
  have hc := (Store.serve_change hr.1).getLocal? e name
  rw [show (h.serve r).store = (h.store.serve r).2 from rfl, hc, Option.or_eq_some_iff] at hv
  rcases hv with hw | ⟨-, hv⟩
  · obtain ⟨before, after, hws, -⟩ := (Write.latest?_eq_some_iff ..).1 hw
    have hm : (⟨e, name, v⟩ : Write) ∈ r.writes h.store := by simp [hws]
    rcases write_value_mem hm with hm | ⟨b, rfl⟩
    · exact (hr.2 v hm).serve r
    · exact .builtin b
  · exact (hs.bound e name v hv).serve r

theorem Sound.serve (hs : h.Sound) (hr : h.Allows r) : (h.serve r).Sound := by
  have hmem {e : ScopeId} (he : e ∈ h.store.scopes) : e ∈ (h.serve r).store.scopes :=
    (Store.serve_change hr.1).mem he
  rcases knows_serve hr with ⟨hst, hold⟩ | ⟨hst, m, hm, hnew⟩
  · exact {
      bound := fun e name v => bound_serve hs hr
      older := fun v s p hv hc => hst ▸ hs.older v s p (hold v hv) hc
      cell := fun v w s p q hv hw => hs.cell v w s p q (hold v hv) (hold w hw)
      keys := fun s es hv => hs.keys s es (hold _ hv)
      scope := fun v c hv hc => hmem (hs.scope v c (hold v hv) hc) }
  · obtain ⟨pm, hpm⟩ := hm.stamp
    -- no value from before has the stamp of the new one
    have hne {v : Value} {p : Payload} (hv : h.Knows v) : v.cell? ≠ some (h.store.next, p) :=
      fun hc => Nat.lt_irrefl _ (hs.older v _ p hv hc)
    have hnext {v : Value} {s : Stamp} {p : Payload} (hv : v.cell? = m.cell?)
        (hc : v.cell? = some (s, p)) : s = h.store.next ∧ p = pm := by
      rw [hv, hpm] at hc
      cases hc
      exact ⟨rfl, rfl⟩
    exact {
      bound := fun e name v => bound_serve hs hr
      older := fun v s p hv hc => by
        rw [hst]
        rcases hnew v hv with hv | hv
        · exact Nat.lt_succ_of_lt (hs.older v s p hv hc)
        · rw [(hnext hv hc).1]
          exact Nat.lt_succ_self _
      cell := fun v w s p q hv hw hc hc' => by
        rcases hnew v hv with hv | hv <;> rcases hnew w hw with hw | hw
        · exact hs.cell v w s p q hv hw hc hc'
        · rw [(hnext hw hc').1] at hc
          exact absurd hc (hne hv)
        · rw [(hnext hv hc).1] at hc'
          exact absurd hc' (hne hw)
        · exact (hnext hv hc).2.trans (hnext hw hc').2.symm
      keys := fun s es hv => by
        rcases hnew _ hv with hv | hv
        · exact hs.keys s es hv
        · cases m <;> cases hv
          exact hm.keys _ _ rfl
      scope := fun v c hv hc => by
        rcases hnew v hv with hv | hv
        · exact hmem (hs.scope v c hv hc)
        · rw [Value.closure?_eq_some_iff, hv, ← Value.closure?_eq_some_iff] at hc
          exact hmem (hm.scope c hc) }

theorem Sound.get? (hs : h.Sound) {e : ScopeId} {name : String} {v : Value}
    (hv : h.store.scopes.get? e name = some v) : h.Knows v := by
  obtain ⟨f, -, hf⟩ := List.exists_of_findSome?_eq_some hv
  exact hs.bound f name v hf

theorem Sound.coherent (hs : h.Sound) : Coherent h.Knows where
  part hw hv := .part hw hv
  cell hv hw := hs.cell _ _ _ _ _ hv hw
  keys hv := hs.keys _ _ hv

/-! ### Runs -/

def serveAll (h : Host) (rs : List Request) : Host := rs.foldl serve h

def Admits (h : Host) : List Request → Prop
  | [] => True
  | r :: rs => h.Allows r ∧ (h.serve r).Admits rs

theorem admits_append {rs rs' : List Request} :
    h.Admits (rs ++ rs') ↔ h.Admits rs ∧ (h.serveAll rs).Admits rs' := by
  induction rs generalizing h with
  | nil => exact ⟨fun hrs => ⟨trivial, hrs⟩, And.right⟩
  | cons r rs ih => rw [List.cons_append, Admits, ih, Admits, and_assoc]; rfl

/-- Requests that the first host allows one after the other turn it into the second. -/
def Leads (h h' : Host) : Prop := ∃ rs, h.Admits rs ∧ h.serveAll rs = h'

namespace Leads

variable {h' h'' : Host}

theorem refl (h : Host) : h.Leads h := ⟨[], trivial, rfl⟩

theorem single (hr : h.Allows r) : h.Leads (h.serve r) := ⟨[r], ⟨hr, trivial⟩, rfl⟩

theorem trans (hl : h.Leads h') (hl' : h'.Leads h'') : h.Leads h'' := by
  obtain ⟨rs, hrs, rfl⟩ := hl
  obtain ⟨rs', hrs', rfl⟩ := hl'
  refine ⟨rs ++ rs', admits_append.2 ⟨hrs, hrs'⟩, ?_⟩
  rw [serveAll, List.foldl_append, serveAll, serveAll]

/-- What every allowed request keeps is kept all the way. -/
theorem keeps {P : Host → Prop} (step : ∀ h r, h.Allows r → P h → P (h.serve r))
    (hl : h.Leads h') (hp : P h) : P h' := by
  obtain ⟨rs, hrs, rfl⟩ := hl
  induction rs generalizing h with
  | nil => exact hp
  | cons r rs ih => exact ih (step h r hrs.1 hp) hrs.2

theorem sound (hl : h.Leads h') (hs : h.Sound) : h'.Sound :=
  hl.keeps (fun _ _ hr hs => hs.serve hr) hs

theorem knows (hl : h.Leads h') {v : Value} (hv : h.Knows v) : h'.Knows v :=
  hl.keeps (P := fun h => h.Knows v) (fun _ r _ hv => hv.serve r) hv

theorem mem (hl : h.Leads h') {e : ScopeId} (he : e ∈ h.store.scopes) : e ∈ h'.store.scopes :=
  hl.keeps (P := fun h => e ∈ h.store.scopes) (fun _ _ hr he => (Store.serve_change hr.1).mem he) he

end Leads

end Host

end Scriptlet
