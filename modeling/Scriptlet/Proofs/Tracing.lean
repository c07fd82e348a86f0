import Scriptlet.Proofs.Host
import Scriptlet.Session.Step

/-!
# Sessions as runs of requests

Each command of a session comes down to requests of a host: a session has the
store of a host, its variables hold values that the host knows, and its scope
names stand for scopes that are there. A rule for each way of acting on a
session says how this is kept; terms and commands are traced with these rules.
-/
namespace Scriptlet.Session

/-- The session has the store of a host that can come about, and refers to
nothing that the host cannot refer to. -/
structure Follows (s : Session) (h : Host) : Prop where
  reached : Host.start.Leads h
  store : s.store = h.store
  vars : ∀ b ∈ s.vars, h.Knows b.value
  scopes : ∀ b ∈ s.scopes, b.value ∈ h.store.scopes

theorem Follows.sound {s : Session} {h : Host} (hs : s.Follows h) : h.Sound :=
  hs.reached.sound Host.sound_start

/-- Started on a session that follows the host, the action leads the host on to
one that the session then follows, with a result as described. -/
def Traced {α : Type} (h : Host) (act : Action α) (Q : Host → α → Prop) : Prop :=
  ∀ s a s', s.Follows h → act s = .ok (a, s') → ∃ h', h.Leads h' ∧ s'.Follows h' ∧ Q h' a

/-- The action leaves the host where it is. -/
def Stays {α : Type} (h : Host) (act : Action α) (P : α → Prop) : Prop :=
  Traced h act fun h' a => h' = h ∧ P a

/-! ### Rules -/

variable {α β : Type} {h : Host} {P : α → Prop} {Q : Host → α → Prop} {R : Host → β → Prop}

theorem Traced.bind {act : Action α} {f : α → Action β} (ha : Traced h act Q)
    (hf : ∀ h' a, h.Leads h' → Q h' a → Traced h' (f a) R) : Traced h (act >>= f) R := by
  intro s b s'' hs hrun
  cases hact : act s with
  | error e => simp [Bind.bind, StateT.bind, Except.bind, hact] at hrun
  | ok r =>
    obtain ⟨a, s'⟩ := r
    have hfa : f a s' = .ok (b, s'') := by
      simpa [Bind.bind, StateT.bind, Except.bind, hact] using hrun
    obtain ⟨h', hl, hs', hq⟩ := ha s a s' hs hact
    obtain ⟨h'', hl', hs'', hr⟩ := hf h' a hl hq s' b s'' hs' hfa
    exact ⟨h'', hl.trans hl', hs'', hr⟩

theorem Stays.bind {act : Action α} {f : α → Action β} (ha : Stays h act P)
    (hf : ∀ a, P a → Traced h (f a) R) : Traced h (act >>= f) R := by
  refine Traced.bind ha fun h' a _ hq => ?_
  obtain ⟨rfl, hp⟩ := hq
  exact hf a hp

theorem Stays.traced {act : Action α} (ha : Stays h act P) (hq : ∀ a, P a → Q h a) :
    Traced h act Q := by
  intro s a s' hs hrun
  obtain ⟨h', hl, hs', rfl, hp⟩ := ha s a s' hs hrun
  exact ⟨h', hl, hs', hq a hp⟩

theorem traced_pure {a : α} (hq : Q h a) : Traced h (pure a) Q := by
  intro s b s' hs hrun
  cases hrun
  exact ⟨h, .refl h, hs, hq⟩

theorem traced_fail (f : Failure) : Traced h (fail f) Q := by
  intro s a s' hs hrun
  cases hrun

theorem stays_ofOption (f : Failure) (o : Option α) : Stays h (ofOption f o) (o = some ·) := by
  cases o with
  | none => exact traced_fail f
  | some a => exact traced_pure ⟨rfl, rfl⟩

theorem traced_of_sound {act : Action α} (ha : h.Sound → Traced h act Q) : Traced h act Q :=
  fun s a s' hs hrun => ha hs.sound s a s' hs hrun

/-- Actions that only look at the session. -/
theorem stays_look {act : Action α}
    (hp : ∀ s a s', s.Follows h → act s = .ok (a, s') → s' = s ∧ P a) : Stays h act P := by
  intro s a s' hs hrun
  obtain ⟨rfl, hpa⟩ := hp s a s' hs hrun
  exact ⟨h, .refl h, hs, rfl, hpa⟩

theorem stays_read (f : Store → α) : Stays h (read f) (· = f h.store) := by
  refine stays_look fun s a s' hs hrun => ?_
  cases hrun
  exact ⟨rfl, congrArg f hs.store⟩

theorem stays_modify {f : Session → Session} (hf : ∀ s, s.Follows h → (f s).Follows h) :
    Stays h (modify f) fun _ => True := by
  intro s a s' hs hrun
  cases hrun
  exact ⟨h, .refl h, hf s hs, rfl, trivial⟩

/-- Changes of the store that a request brings about. -/
theorem traced_update {f : Store → α × Store} (r : Request) (hr : h.Allows r)
    (hf : (f h.store).2 = (h.store.serve r).2) (hq : Q (h.serve r) (f h.store).1) :
    Traced h (update f) Q := by
  intro s a s' hs hrun
  cases hrun
  rw [hs.store]
  refine ⟨h.serve r, .single hr, ?_, hq⟩
  exact {
    reached := hs.reached.trans (.single hr)
    store := hf
    vars := fun b hb => (hs.vars b hb).serve r
    scopes := fun b hb => (Host.Leads.single hr).mem (hs.scopes b hb) }

/-- Values that a request hands out. -/
theorem traced_make {f : Store → Value × Store} (r : Request) (hr : h.Allows r)
    (hf : h.store.serve r = Prod.map some id (f h.store)) :
    Traced h (update f) Host.Knows := by
  refine traced_update r hr (by rw [hf]; rfl) (.made ?_)
  rw [Host.serve, hf]
  simp

/-! ### Names -/

theorem stays_named {f : Failure} {get : Session → Option α}
    (hp : ∀ s a, s.Follows h → get s = some a → P a) :
    Stays h (fun s => ofOption f (get s) s) P := by
  intro s a s' hs hrun
  obtain ⟨h', hl, hs', heq, hg⟩ := stays_ofOption f (get s) s a s' hs hrun
  exact ⟨h', hl, hs', heq, hp s a hs hg⟩

theorem exists_mem_of_find? {name : String} {bs : List (Binding α)} {a : α}
    (hf : (Keyed.find? name bs).map Binding.value = some a) : ∃ b ∈ bs, b.value = a := by
  obtain ⟨b, hb, rfl⟩ := Option.map_eq_some_iff.1 hf
  exact ⟨b, Keyed.mem_of_find?_eq_some hb, rfl⟩

theorem stays_var (name : String) : Stays h (var name) h.Knows := by
  refine stays_named fun s v hs hv => ?_
  obtain ⟨b, hb, rfl⟩ := exists_mem_of_find? hv
  exact hs.vars b hb

theorem stays_scope (name : String) : Stays h (scope name) (· ∈ h.store.scopes) := by
  refine stays_named fun s e hs he => ?_
  obtain ⟨b, hb, rfl⟩ := exists_mem_of_find? he
  exact hs.scopes b hb

theorem stays_registry (name : String) : Stays h (registry name) fun _ => True :=
  stays_named fun _ _ _ _ => trivial

theorem stays_bindVar (name : String) {v : Value} (hv : h.Knows v) :
    Stays h (bindVar name v) fun _ => True := by
  refine stays_modify fun s hs => { hs with vars := fun b hb => ?_ }
  rcases Keyed.mem_of_mem_put hb with rfl | hb
  · exact hv
  · exact hs.vars b hb

theorem stays_bindScope (name : String) {e : ScopeId} (he : e ∈ h.store.scopes) :
    Stays h (bindScope name e) fun _ => True := by
  refine stays_modify fun s hs => { hs with scopes := fun b hb => ?_ }
  rcases Keyed.mem_of_mem_put hb with rfl | hb
  · exact he
  · exact hs.scopes b hb

theorem stays_bindRegistry (name : String) (id : ChannelId) :
    Stays h (bindRegistry name id) fun _ => True :=
  stays_modify fun _ hs => { hs with }

/-! ### Terms -/

theorem stays_fill {f : Session → Except Failure α} :
    Stays h (fun s => (f s).map (·, s)) fun _ => True := by
  refine stays_look fun s a s' hs hrun => ?_
  cases hf : f s with
  | error e =>
    rw [hf] at hrun
    cases hrun
  | ok b =>
    rw [hf] at hrun
    cases hrun
    exact ⟨rfl, trivial⟩

theorem mem_newScope (st : Store) : st.newScope.1 ∈ st.newScope.2.scopes :=
  (Scopes.mem_push st.scopes none (by simp) _).2 (Or.inr rfl)

theorem traced_newScope : Traced h (update Store.newScope) fun h' e => e ∈ h'.store.scopes :=
  traced_update .newScope (Host.allows_plain rfl rfl) rfl (mem_newScope h.store)

theorem traced_newClosure (params : List String) (body : List DraftStmt) (name : Option String) :
    Traced h (newClosure params body name) fun h' c => h'.Knows (.function c) := by
  have make (h : Host) (block : Block) (e : ScopeId) (he : e ∈ h.store.scopes) :
      Traced h (update fun st => st.newClosure params block e) fun h' c =>
        h'.Knows (.function c) := by
    have hr : h.Allows (.function params block e) :=
      Host.allows_of_scopes_eq rfl he (List.forall_mem_nil _)
    refine traced_update (.function params block e) hr rfl (.made ?_)
    simp [Host.serve, Store.serve]
  apply stays_fill.bind
  intro block _
  cases name with
  | none => exact traced_newScope.bind fun h' e _ he => make h' block e he
  | some name => exact (stays_scope name).bind fun e he => make h block e he

theorem traced_newHash {pairs : List (Value × Value)}
    (hp : ∀ p ∈ pairs, h.Knows p.1 ∧ h.Knows p.2) : Traced h (newHash pairs) Host.Knows := by
  have hr : h.Allows (.hash pairs) :=
    Host.allows_of_scopes_nil rfl (Host.forall_mem_pairs.2 hp)
  intro s v s' hs hrun
  rw [newHash, hs.store] at hrun
  cases hmade : h.store.newHash pairs with
  | error e =>
    rw [hmade] at hrun
    cases hrun
  | ok made =>
    rw [hmade] at hrun
    have hf : h.store.serve (.hash pairs) = Prod.map some id made := by rw [Store.serve, hmade]
    exact traced_make (f := fun _ => made) (.hash pairs) hr hf s v s' hs hrun

theorem traced_newKeyedHash {entries : List (Entry Value)}
    (he : ∀ e ∈ entries, h.Knows e.stored ∧ h.Knows e.value) :
    Traced h (update fun st => st.newKeyedHash entries) Host.Knows := by
  have hr : h.Allows (.keyedHash entries) :=
    Host.allows_of_scopes_nil rfl (Host.forall_mem_pairs.2 he)
  exact traced_make (.keyedHash entries) hr rfl

theorem traced_newReturn {v : Value} (hv : h.Knows v) :
    Traced h (update fun st => st.newReturn v) Host.Knows :=
  traced_make (.ret v) (Host.allows_of_scopes_nil rfl (List.forall_mem_singleton.2 hv)) rfl

theorem traced_newArray {vs : List Value} (hvs : ∀ v ∈ vs, h.Knows v) :
    Traced h (update fun st => st.newArray vs) Host.Knows :=
  traced_make (.array vs) (Host.allows_of_scopes_nil rfl hvs) rfl

theorem traced_newError (message : String) :
    Traced h (update fun st => st.newError message) Host.Knows :=
  traced_make (.error message) (Host.allows_plain rfl rfl) rfl

theorem traced_newQuote (node : Node) :
    Traced h (update fun st => st.newQuote node) Host.Knows :=
  traced_make (.quote node) (Host.allows_plain rfl rfl) rfl

theorem traced_newString (text : String) :
    Traced h (update fun st => st.newString text) Host.Knows :=
  traced_make (.str text) (Host.allows_plain rfl rfl) rfl

theorem traced_wrap (wrapper : Wrapper) {v : Value} (hv : h.Knows v) :
    Traced h (update fun st => st.wrap wrapper v) Host.Knows := by
  cases wrapper with
  | array => exact traced_newArray fun w hw => List.mem_singleton.1 hw ▸ hv
  | ret => exact traced_newReturn hv
  | hash =>
    refine traced_newKeyedHash fun e he => ?_
    cases List.mem_singleton.1 he
    exact ⟨.int 0, hv⟩

theorem traced_wrapTimes (wrapper : Wrapper) (n : Nat) {v : Value} (hv : h.Knows v) :
    Traced h (update (Store.wrapTimes wrapper n v)) Host.Knows := by
  induction n generalizing h v with
  | zero => exact traced_pure hv
  | succ n ih => exact (traced_wrap wrapper hv).bind fun h' w _ hw => ih hw

theorem known_integersFrom {made : List Value} {low high : Int64} :
    ∀ v ∈ integersFrom low high, Known made v := by
  intro v hv
  obtain ⟨i, -, rfl⟩ := List.mem_map.1 hv
  exact .int _

mutual

/-- Making a value from a term is a run of requests, and the value is known at its end. -/
theorem traced_make_term (t : Term) (h : Host) : Traced h t.make Host.Knows := by
  cases t with
  | int n => exact traced_pure (.int n)
  | bool b => exact traced_pure (.bool b)
  | null => exact traced_pure .null
  | ret inner => exact (traced_make_term inner h).bind fun h' v _ hv => traced_newReturn hv
  | error message => exact traced_newError message
  | str text => exact traced_newString text
  | array items => exact (traced_makeAll items h).bind fun h' vs _ hvs => traced_newArray hvs
  | hash pairs => exact (traced_makePairs pairs h).bind fun h' ps _ hps => traced_newHash hps
  | keyedHash entries =>
    exact (traced_makeEntries entries h).bind fun h' es _ hes => traced_newKeyedHash hes
  | function params body name =>
    exact (traced_newClosure params body name).bind fun h' c _ hc => traced_pure hc
  | macroFn params body name =>
    exact (traced_newClosure params body name).bind fun h' c _ hc => traced_pure hc.macroFn
  | builtin b => exact traced_pure (.builtin b)
  | quote node => exact stays_fill.bind fun n _ => traced_newQuote n
  | var name => exact (stays_var name).traced fun _ hv => hv
  | repeated text times => exact traced_newString _
  | range low high => exact traced_newArray known_integersFrom
  | nested wrapper times inner =>
    exact (traced_make_term inner h).bind fun h' v _ hv => traced_wrapTimes wrapper times hv
termination_by structural t

theorem traced_makeAll (ts : List Term) (h : Host) :
    Traced h (makeAll ts) fun h' vs => ∀ v ∈ vs, h'.Knows v := by
  cases ts with
  | nil => exact traced_pure (List.forall_mem_nil _)
  | cons t ts =>
    apply (traced_make_term t h).bind
    intro h₁ v _ hv
    apply (traced_makeAll ts h₁).bind
    intro h₂ vs hl hvs
    exact traced_pure (List.forall_mem_cons.2 ⟨hl.knows hv, hvs⟩)
termination_by structural ts

theorem traced_makePairs (ps : List (Term × Term)) (h : Host) :
    Traced h (makePairs ps) fun h' vs => ∀ p ∈ vs, h'.Knows p.1 ∧ h'.Knows p.2 := by
  rcases ps with _ | ⟨⟨key, value⟩, ps⟩
  · exact traced_pure (List.forall_mem_nil _)
  · refine (traced_make_term key h).bind fun h₁ k _ hk => ?_
    apply (traced_make_term value h₁).bind
    intro h₂ v hl₂ hv
    apply (traced_makePairs ps h₂).bind
    intro h₃ vs hl₃ hvs
    exact traced_pure (List.forall_mem_cons.2 ⟨⟨(hl₂.trans hl₃).knows hk, hl₃.knows hv⟩, hvs⟩)
termination_by structural ps

theorem traced_makeEntries (es : List (Entry Term)) (h : Host) :
    Traced h (makeEntries es) fun h' vs => ∀ e ∈ vs, h'.Knows e.stored ∧ h'.Knows e.value := by
  rcases es with _ | ⟨⟨key, stored, value⟩, es⟩
  · exact traced_pure (List.forall_mem_nil _)
  · refine (traced_make_term stored h).bind fun h₁ k _ hk => ?_
    apply (traced_make_term value h₁).bind
    intro h₂ v hl₂ hv
    apply (traced_makeEntries es h₂).bind
    intro h₃ vs hl₃ hvs
    exact traced_pure (List.forall_mem_cons.2 ⟨⟨(hl₂.trans hl₃).knows hk, hl₃.knows hv⟩, hvs⟩)
termination_by structural es

end

end Scriptlet.Session
