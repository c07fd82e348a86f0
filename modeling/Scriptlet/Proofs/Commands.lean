import Scriptlet.Proofs.Forest
import Scriptlet.Proofs.Tracing

/-!
# Commands as runs of requests

Each command leads the host that a session follows on to another one, and a
command that fails leaves the session where it was. So every session follows a
host that can come about.
-/
namespace Scriptlet

/-! ### What can be had from known values -/

namespace Host

variable {h : Host} {v : Value}

theorem Knows.unwrapped (hv : h.Knows v) : h.Knows v.unwrapped := by
  cases v with
  | ret s inner => exact .part (.inner s inner) hv
  | _ => exact hv

theorem Knows.item (hv : h.Knows v) {i : Nat} {w : Value}
    (hw : v.items?.bind (·[i]?) = some w) : h.Knows w := by
  cases v with
  | array s items => exact .part (.item s (List.mem_of_getElem? hw)) hv
  | _ => cases hw

theorem Knows.entry (hv : h.Knows v) {k w : Value} (hw : v.lookup k = .ok (some w)) :
    h.Knows w :=
  .part (Value.part_of_lookup hw) hv

end Host

namespace Session

variable {h : Host}

/-! ### Replies -/

/-- A reply that is read off the store. -/
theorem traced_reply {α : Type} (f : Store → α) (reply : α → Reply) :
    Traced h (do return reply (← read f)) fun _ _ => True :=
  (stays_read f).bind fun _ _ => traced_pure trivial

theorem traced_keep (name : String) {v : Value} (hv : h.Knows v) :
    Traced h (keep name v) fun _ _ => True :=
  (stays_bindVar name hv).bind fun _ _ => traced_reply _ _

theorem traced_keep? (name : String) {o : Option Value} (ho : ∀ v, o = some v → h.Knows v) :
    Traced h (keep? name o) fun _ _ => True := by
  cases o with
  | none => exact traced_pure trivial
  | some v => exact traced_keep name (ho v rfl)

/-! ### Scopes -/

theorem traced_enclose {o : ScopeId} (ho : o ∈ h.store.scopes) :
    Traced h (update fun st => st.enclose o) fun h' e => e ∈ h'.store.scopes := by
  have hr : h.Allows (.enclose o) := Host.allows_of_scopes_eq rfl ho (List.forall_mem_nil _)
  exact traced_update (.enclose o) hr rfl (Scopes.mem_of_outer? (Store.scope_enclose ho).2.1)

theorem traced_encloseTimes {o : ScopeId} (n : Nat) (ho : o ∈ h.store.scopes) :
    Traced h (update fun st => st.encloseTimes o n) fun h' e => e ∈ h'.store.scopes := by
  induction n generalizing h o with
  | zero => exact traced_pure ho
  | succ n ih => exact (traced_enclose ho).bind fun h' e _ he => ih he

theorem traced_set {e : ScopeId} (name : String) {v : Value} (he : e ∈ h.store.scopes)
    (hv : h.Knows v) : Traced h (change fun st => st.set e name v) fun _ _ => True := by
  have hr : h.Allows (.set e name v) :=
    Host.allows_of_scopes_eq rfl he (List.forall_mem_singleton.2 hv)
  exact traced_update (.set e name v) hr rfl trivial

theorem traced_register {e : ScopeId} (he : e ∈ h.store.scopes) :
    Traced h (change fun st => st.register e) fun _ _ => True := by
  have hr : h.Allows (.register e) := Host.allows_of_scopes_eq rfl he (List.forall_mem_nil _)
  exact traced_update (.register e) hr (by rw [Store.serve]) trivial

theorem traced_activate {c : Closure} {args : List Value} (hc : h.Knows (.function c))
    (hargs : ∀ v ∈ args, h.Knows v) :
    Traced h (update fun st => st.activate c args) fun h' made =>
      ∀ e, made = .ok e → e ∈ h'.store.scopes := by
  refine traced_of_sound fun hs => ?_
  have hmem : c.scope ∈ h.store.scopes := hs.scope _ c hc rfl
  have hr : h.Allows (.activate c args) :=
    Host.allows_of_scopes_eq rfl hmem (List.forall_mem_cons.2 ⟨hc, hargs⟩)
  obtain ⟨made, after, hmade⟩ : ∃ made after, h.store.activate c args = (made, after) :=
    ⟨_, _, rfl⟩
  have hserve : (h.store.serve (.activate c args)).2 = after := by
    rw [Store.serve, hmade]
    cases made <;> rfl
  refine traced_update (.activate c args) hr (by rw [hserve, hmade]) ?_
  rw [hmade, Host.serve, hserve]
  rintro e rfl
  exact Scopes.mem_of_outer? (Store.scope_activate hmem hmade).2.1

/-! ### Calls and printing -/

theorem stays_scrambled (f : List ChannelId → List ChannelId) :
    Stays h (modify fun s => { s with scrambled := f s.scrambled }) fun _ => True :=
  stays_modify fun _ hs => { hs with }

theorem traced_echoed {α : Type} {act : Action α} {Q : Host → α → Prop} (ha : Traced h act Q) :
    Traced h (echoed act) fun h' r => Q h' r.1 := by
  apply (stays_read _).bind
  intro before _
  apply ha.bind
  intro h' a _ hq
  exact (stays_read _).bind fun after _ => traced_pure hq

theorem traced_callBuiltin (id : ChannelId) (b : Builtin) {args : List Value}
    (hargs : ∀ v ∈ args, h.Knows v) :
    Traced h (callBuiltin id b args) fun h' r => h'.Knows r.1 := by
  have hr : h.Allows (.call id b args) := Host.allows_of_scopes_nil rfl hargs
  have hcall := traced_echoed (traced_make (f := fun st => st.call id b args) _ hr rfl)
  unfold callBuiltin
  cases b == .puts && anyUnordered args with
  | false => exact hcall.bind fun _ _ _ hv => traced_pure hv
  | true =>
    apply (stays_scrambled (id :: ·)).bind
    intro _ _
    exact hcall.bind fun _ _ _ hv => traced_pure hv

theorem traced_attach (channel : Channel) :
    Traced h (update fun st => st.attach channel) fun _ _ => True :=
  traced_update (.attach channel) (Host.allows_plain rfl rfl) rfl trivial

theorem stays_held (id : ChannelId) : Stays h (held id) fun _ => True := by
  refine stays_look fun s a s' _ hrun => ?_
  cases hrun
  exact ⟨rfl, trivial⟩

theorem traced_print (id : ChannelId) (line : Text) :
    Traced h (change fun st => st.print id line) fun _ _ => True :=
  traced_update (.print id line) (Host.allows_plain rfl rfl) rfl trivial

theorem traced_clear (id : ChannelId) : Traced h (clear id) fun _ _ => True := by
  have hclear : Traced h (change fun st => st.clear id) fun _ _ => True :=
    traced_update (.clear id) (Host.allows_plain rfl rfl) rfl trivial
  apply hclear.bind
  intro h' _ _ _
  exact (stays_scrambled _).traced fun _ _ => trivial

/-! ### Commands -/

theorem traced_showScope (into : String) {e : ScopeId} (he : e ∈ h.store.scopes)
    (reply : List String → Nat → Reply) :
    Traced h (do
      bindScope into e
      let (names, depth) ← scopeView e
      return reply names depth) fun _ _ => True :=
  (stays_bindScope into he).bind fun _ _ => (stays_read _).bind fun _ _ => traced_pure trivial

theorem traced_compare (left right : Term) (reply : Value → Value → Reply) :
    Traced h (do return reply (← left.make) (← right.make)) fun _ _ => True := by
  apply (traced_make_term left h).bind
  intro h' v _ _
  exact (traced_make_term right h').bind fun _ _ _ _ => traced_pure trivial

theorem traced_get (scopeName name : String) (into : Option String) :
    Traced h (step (.get scopeName name into)) fun _ _ => True := by
  apply (stays_scope scopeName).bind
  intro e _
  apply traced_of_sound
  intro hs
  apply (stays_read _).bind
  intro o ho
  cases o with
  | none => exact traced_pure trivial
  | some v =>
    cases into with
    | none => exact traced_reply _ _
    | some var => exact traced_keep var (hs.get? ho.symm)

theorem traced_lookup (into : String) (value key : Term) :
    Traced h (step (.lookup into value key)) fun _ _ => True := by
  apply (traced_make_term value h).bind
  intro h₁ v _ hv
  apply (traced_make_term key h₁).bind
  intro h₂ k hl _
  split
  · next w hw =>
    have hknown : h₂.Knows w := (hl.knows hv).entry hw
    exact (stays_bindVar into hknown).bind fun _ _ => traced_reply _ _
  · exact traced_pure trivial
  · exact traced_fail _

theorem traced_step_activate (into : String) (value : Term) (args : List Term) :
    Traced h (step (.activate into value args)) fun _ _ => True := by
  apply (traced_make_term value h).bind
  intro h₁ v _ hv
  apply (traced_makeAll args h₁).bind
  intro h₂ vs hl hvs
  dsimp only
  split
  · next c hc =>
    apply (traced_activate ((hl.knows hv).function hc) hvs).bind
    intro h₃ made _ hmade
    cases made with
    | ok e => exact traced_showScope into (hmade e rfl) .activation
    | error w => exact traced_reply _ _
  · exact traced_pure trivial

theorem traced_step_call (into registryName : String) (callee : Term) (args : List Term) :
    Traced h (step (.call into registryName callee args)) fun _ _ => True := by
  apply (traced_make_term callee h).bind
  intro h₁ v _ _
  apply (stays_ofOption _ v.builtin?).bind
  intro b _
  apply (traced_makeAll args h₁).bind
  intro h₂ vs _ hvs
  apply (stays_registry registryName).bind
  intro id _
  apply (traced_callBuiltin id b hvs).bind
  intro h₃ r _ hw
  exact (stays_bindVar into hw).bind fun _ _ => traced_reply _ _

theorem stays_get : Stays h get fun _ => True := by
  refine stays_look fun s a s' _ hrun => ?_
  cases hrun
  exact ⟨rfl, trivial⟩

theorem stays_eraseScope (name : String) :
    Stays h (modify fun s => { s with scopes := Keyed.erase name s.scopes }) fun _ => True :=
  stays_modify fun _ hs => { hs with scopes := fun b hb => hs.scopes b (List.mem_filter.1 hb).1 }

theorem stays_eraseVar (name : String) :
    Stays h (modify fun s => { s with vars := Keyed.erase name s.vars }) fun _ => True :=
  stays_modify fun _ hs => { hs with vars := fun b hb => hs.vars b (List.mem_filter.1 hb).1 }

/-- Every command comes down to requests that the host may make. -/
theorem traced_step (c : Command) (h : Host) : Traced h (step c) fun _ _ => True := by
  cases c with
  | newScope into =>
    apply traced_newScope.bind
    intro h' e _ he
    exact (stays_bindScope into he).bind fun _ _ => traced_pure trivial
  | enclose into name =>
    apply (stays_scope name).bind
    intro o ho
    apply (traced_enclose ho).bind
    intro h' e _ he
    exact (stays_bindScope into he).bind fun _ _ => traced_reply _ _
  | aliasScope into name =>
    apply (stays_scope name).bind
    intro e he
    exact (stays_bindScope into he).bind fun _ _ => traced_pure trivial
  | outer into name =>
    apply (stays_scope name).bind
    intro e _
    apply (stays_read _).bind
    intro o ho
    cases o with
    | none => exact traced_pure trivial
    | some o =>
      have hmem : o ∈ h.store.scopes := Scopes.outer_mem ho.symm
      exact (stays_bindScope into hmem).bind fun _ _ => traced_pure trivial
  | encloseTimes into name times =>
    apply (stays_scope name).bind
    intro o ho
    apply (traced_encloseTimes times ho).bind
    intro h' e _ he
    exact (stays_bindScope into he).bind fun _ _ => traced_reply _ _
  | get scopeName name into => exact traced_get scopeName name into
  | set scopeName name value =>
    apply (traced_make_term value h).bind
    intro h' v _ hv
    apply (stays_scope scopeName).bind
    intro e he
    exact (traced_set name he hv).bind fun _ _ _ _ => traced_reply _ _
  | containsLocal scopeName name =>
    exact (stays_scope scopeName).bind fun e _ => traced_reply _ _
  | depth scopeName => exact (stays_scope scopeName).bind fun e _ => traced_reply _ _
  | localNames scopeName => exact (stays_scope scopeName).bind fun e _ => traced_reply _ _
  | scopeOutline scopeName => exact (stays_scope scopeName).bind fun e _ => traced_reply _ _
  | sameScope left right =>
    apply (stays_scope left).bind
    intro e _
    exact (stays_scope right).bind fun f _ => traced_pure trivial
  | dropScope name =>
    apply stays_get.bind
    intro _ _
    exact (stays_eraseScope name).bind fun _ _ => traced_pure trivial
  | dropVar name =>
    apply stays_get.bind
    intro _ _
    exact (stays_eraseVar name).bind fun _ _ => traced_pure trivial
  | bind into value => exact (traced_make_term value h).bind fun h' v _ hv => traced_keep into hv
  | inspect value => exact (traced_make_term value h).bind fun h' v _ _ => traced_reply _ _
  | render value => exact (traced_make_term value h).bind fun h' v _ _ => traced_pure trivial
  | outline value => exact (traced_make_term value h).bind fun h' v _ _ => traced_pure trivial
  | equal left right => exact traced_compare left right _
  | shared left right => exact traced_compare left right _
  | unwrap into value =>
    exact (traced_make_term value h).bind fun h' v _ hv => traced_keep into hv.unwrapped
  | unquote into value =>
    apply (traced_make_term value h).bind
    intro h' v _ _
    cases v.quotedNode with
    | ok node =>
      apply (traced_newQuote node).bind
      intro h'' w _ hw
      exact (stays_bindVar into hw).bind fun _ _ => traced_pure trivial
    | error e => exact traced_fail _
  | item into value position =>
    exact (traced_make_term value h).bind fun h' v _ hv => traced_keep? into fun w hw => hv.item hw
  | lookup into value key => exact traced_lookup into value key
  | closureScope into value =>
    apply (traced_make_term value h).bind
    intro h' v _ hv
    dsimp only
    split
    · next c hc =>
      exact traced_of_sound fun hs => traced_showScope into (hs.scope v c hv hc) .scope
    · exact traced_pure trivial
  | activate into value args => exact traced_step_activate into value args
  | sameClosure left right => exact traced_compare left right _
  | asFunction into value =>
    refine (traced_make_term value h).bind fun h' v _ hv => traced_keep? into fun w hw => ?_
    obtain ⟨c, hc, rfl⟩ := Option.map_eq_some_iff.1 hw
    exact hv.function hc
  | asMacro into value =>
    refine (traced_make_term value h).bind fun h' v _ hv => traced_keep? into fun w hw => ?_
    obtain ⟨c, hc, rfl⟩ := Option.map_eq_some_iff.1 hw
    exact Known.macroFn (hv.function hc)
  | newRegistry into channel =>
    apply (traced_attach channel).bind
    intro h' id _ _
    exact (stays_bindRegistry into id).bind fun _ _ => traced_pure trivial
  | shareRegistry into name =>
    apply (stays_registry name).bind
    intro id _
    exact (stays_bindRegistry into id).bind fun _ _ => traced_pure trivial
  | builtin into registryName name =>
    refine (stays_registry registryName).bind fun _ _ => traced_keep? into fun w hw => ?_
    obtain ⟨b, -, rfl⟩ := Option.map_eq_some_iff.1 hw
    exact Known.builtin b
  | register registryName scopeName =>
    apply (stays_registry registryName).bind
    intro _ _
    apply (stays_scope scopeName).bind
    intro e he
    exact (traced_register he).bind fun _ _ _ _ => traced_reply _ _
  | call into registryName callee args => exact traced_step_call into registryName callee args
  | print registryName line =>
    apply (stays_registry registryName).bind
    intro id _
    exact (traced_echoed (traced_print id line.toList)).bind fun _ _ _ _ => traced_pure trivial
  | held registryName =>
    apply (stays_registry registryName).bind
    intro id _
    exact (stays_held id).bind fun _ _ => traced_pure trivial
  | clear registryName =>
    apply (stays_registry registryName).bind
    intro id _
    exact (traced_clear id).bind fun _ _ _ _ => traced_pure trivial

/-! ### Runs -/

theorem Follows.perform {s : Session} (hs : s.Follows h) (c : Command) :
    ∃ h', h.Leads h' ∧ (s.perform c).2.Follows h' := by
  unfold Session.perform
  split
  · next reply after hstep =>
    obtain ⟨h', hl, hs', -⟩ := traced_step c h s reply after hs hstep
    exact ⟨h', hl, hs'⟩
  · exact ⟨h, .refl h, hs⟩

theorem Follows.run {s : Session} (hs : s.Follows h) (cs : List Command) :
    ∃ h', h.Leads h' ∧ (s.run cs).2.Follows h' := by
  induction cs generalizing s h with
  | nil => exact ⟨h, .refl h, hs⟩
  | cons c cs ih =>
    obtain ⟨h₁, hl₁, hs₁⟩ := hs.perform c
    obtain ⟨h₂, hl₂, hs₂⟩ := ih hs₁
    exact ⟨h₂, hl₁.trans hl₂, hs₂⟩

theorem follows_start : empty.Follows Host.start :=
  ⟨.refl _, rfl, List.forall_mem_nil _, List.forall_mem_nil _⟩

end Session

end Scriptlet
