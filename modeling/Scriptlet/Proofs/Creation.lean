import Mathlib.Data.List.Induction
import Scriptlet.Proofs.Host

/-!
# Creation and identity

Quotes and closures are told apart by the request that made them. Each quote,
function or macro that a host knows goes back to one request of the run, and two
of them are equal when they are of one kind and go back to the same request,
whatever way they were passed around. What a request makes is equal to nothing
that was there before.
-/
namespace Scriptlet

/-! ### Which request makes a value -/

def Request.creates : Request → Bool
  | .quote _ | .function _ _ _ | .macroFn _ _ _ => true
  | _ => false

/-- The request can have made the value, as far as quotes, closures and hashes
are concerned. -/
def Value.MadeBy (r : Request) : Value → Prop
  | .quote _ node => r = .quote node
  | .function c => r = .function c.params c.body c.scope
  | .macroFn c => r = .macroFn c.params c.body c.scope
  | .hash _ es =>
    (∃ pairs, r = .hash pairs ∧ entriesOfPairs pairs = .ok es) ∨ ∃ entries, r = .keyedHash entries
  | _ => True

namespace Host

variable {h : Host} {r : Request} {m v w : Value}

/-- What a request hands out was known before or is of its own making. -/
theorem serve_source (hval : ∀ v ∈ r.values, h.Knows v) (hm : (h.store.serve r).1 = some m) :
    h.Knows m ∨ m.MadeBy r := by
  cases r with
  | hash pairs =>
    simp only [Store.serve, Store.newHash] at hm
    cases he : entriesOfPairs pairs with
    | error e =>
      rw [he] at hm
      cases hm
    | ok es =>
      rw [he] at hm
      cases hm
      exact Or.inr (Or.inl ⟨pairs, rfl, he⟩)
  | keyedHash entries =>
    cases hm
    exact Or.inr (Or.inr ⟨entries, rfl⟩)
  | activate c args =>
    by_cases hl : args.length = c.params.length
    · simp only [Store.serve, Store.activate, if_pos hl] at hm
      cases hm
    · simp only [Store.serve, Store.activate_of_length_ne hl] at hm
      cases hm
      exact Or.inr trivial
  | call id b args =>
    have ha : (b.answer args).All h.Knows := answer_known b hval
    simp only [Store.serve, Store.call] at hm
    cases hans : b.answer args with
    | value v =>
      rw [hans] at hm ha
      cases hm
      exact Or.inl ha
    | array items =>
      rw [hans] at hm
      cases hm
      exact Or.inr trivial
    | fault f =>
      rw [hans] at hm
      cases hm
      exact Or.inr trivial
  | _ =>
    cases hm <;> exact Or.inr (by trivial)

theorem Sound.known_or_made (hs : h.Sound) (hr : h.Allows r) (hv : (h.serve r).Knows v) :
    h.Knows v ∨ ∃ m, (h.store.serve r).1 = some m ∧ m.MadeBy r ∧ v.cell? = m.cell? := by
  have hv' : Known (h.made ++ (h.store.serve r).1.toList) v := hv
  have hy := serve_yields hr
  have hsource (m : Value) (hm : (h.store.serve r).1 = some m) := serve_source hr.2 hm
  generalize (h.store.serve r).1 = o, (h.store.serve r).2 = st at hy hv' hsource ⊢
  cases hy with
  | old ho hst =>
    refine Or.inl (hv'.of_append fun w hw => ho w ?_)
    simpa using hw
  | @new m st hm hst =>
    obtain ⟨p, hp⟩ := hm.stamp
    have hnew : ¬h.Knows m := fun hk => Nat.lt_irrefl _ (hs.older m _ p hk hp)
    rcases hv'.of_append_singleton hm.part with hold | hcell
    · exact Or.inl hold
    · exact Or.inr ⟨m, rfl, (hsource m rfl).resolve_left hnew, hcell⟩

end Host

/-! ### Equality by identity -/

def Kind.created : List Kind := [.quote, .function, .macroFn]

namespace Value

theorem kind_mem_created_iff (v : Value) :
    v.kind ∈ Kind.created ↔ (∃ s n, v = .quote s n) ∨ ∃ c, v.closure? = some c := by
  cases v <;> simp [kind, Kind.created, closure?]

theorem kind_eq_of_same {v w : Value} (h : v.same w = true) : v.kind = w.kind := by
  cases v <;> cases w <;> first | rfl | cases h

theorem closure?_of_same {v w : Value} {c : Closure} (h : v.same w = true)
    (hc : v.closure? = some c) : ∃ d, w.closure? = some d ∧ c.same d = true := by
  have hkind := kind_eq_of_same h
  cases v with
  | function c' =>
    cases w with
    | function d =>
      cases hc
      exact ⟨d, rfl, h⟩
    | _ => cases hkind
  | macroFn c' =>
    cases w with
    | macroFn d =>
      cases hc
      exact ⟨d, rfl, h⟩
    | _ => cases hkind
  | _ => cases hc

theorem stamp_eq_of_same {v w : Value} (h : v.same w = true) (hk : v.kind ∈ Kind.created) :
    v.cell?.map Prod.fst = w.cell?.map Prod.fst := by
  rcases v.kind_mem_created_iff.1 hk with ⟨s, n, rfl⟩ | ⟨c, hc⟩
  · cases w with
    | quote t n' => exact congrArg some (beq_iff_eq.1 h)
    | _ => cases kind_eq_of_same h
  · obtain ⟨d, hd, hcd⟩ := closure?_of_same h hc
    have hstamp : c.stamp = d.stamp := ((c.same_iff d).1 hcd).1
    rw [(v.closure?_eq_some_iff c).1 hc, (w.closure?_eq_some_iff d).1 hd]
    exact congrArg some hstamp

theorem same_of_closure?_eq {v w : Value} {c : Closure} (hv : v.closure? = some c)
    (hw : w.closure? = some c) (hk : v.kind = w.kind) : v.same w = true := by
  cases v with
  | function d =>
    cases w with
    | function e =>
      cases hv
      cases hw
      exact c.same_self
    | _ => cases hk
  | macroFn d =>
    cases w with
    | macroFn e =>
      cases hv
      cases hw
      exact c.same_self
    | _ => cases hk
  | _ => cases hv

/-- The two are one value, or a function and a macro over one closure. -/
def OneIdentity (v w : Value) : Prop := v = w ∨ ∃ c, v.closure? = some c ∧ w.closure? = some c

namespace OneIdentity

variable {v w : Value}

theorem cell (h : v.OneIdentity w) : v.cell? = w.cell? := by
  rcases h with rfl | ⟨c, hv, hw⟩
  · rfl
  · rw [closure?_eq_some_iff] at hv hw
    rw [hv, hw]

theorem symm (h : v.OneIdentity w) : w.OneIdentity v := by
  rcases h with rfl | ⟨c, hv, hw⟩
  · exact Or.inl rfl
  · exact Or.inr ⟨c, hw, hv⟩

theorem trans {u : Value} (h : u.OneIdentity v) (h' : v.OneIdentity w) : u.OneIdentity w := by
  rcases h with rfl | ⟨c, hu, hv⟩
  · exact h'
  · refine Or.inr ⟨c, hu, ?_⟩
    rw [closure?_eq_some_iff, ← h'.cell, ← closure?_eq_some_iff]
    exact hv

theorem kind_mem (h : v.OneIdentity w) (hw : w.kind ∈ Kind.created) : v.kind ∈ Kind.created := by
  rcases h with rfl | ⟨c, hv, -⟩
  · exact hw
  · exact v.kind_mem_created_iff.2 (Or.inr ⟨c, hv⟩)

theorem same (h : v.OneIdentity w) (hw : w.kind ∈ Kind.created) (hk : v.kind = w.kind) :
    v.same w = true := by
  rcases h with rfl | ⟨c, hv, hwc⟩
  · rcases v.kind_mem_created_iff.1 hw with ⟨s, n, rfl⟩ | ⟨c, hc⟩
    · exact beq_self_eq_true s
    · exact same_of_closure?_eq hc hc rfl
  · exact same_of_closure?_eq hv hwc hk

end OneIdentity

theorem MadeBy.creates {r : Request} {m v : Value} (hm : m.MadeBy r) (hc : v.cell? = m.cell?)
    (hk : v.kind ∈ Kind.created) : r.creates = true ∧ v.OneIdentity m := by
  rcases v.kind_mem_created_iff.1 hk with ⟨s, n, rfl⟩ | ⟨c, hv⟩
  · cases m <;> cases hc
    rw [show r = .quote n from hm]
    exact ⟨rfl, Or.inl rfl⟩
  · have hmc : m.closure? = some c := by
      rw [closure?_eq_some_iff, ← hc]
      exact (v.closure?_eq_some_iff c).1 hv
    refine ⟨?_, Or.inr ⟨c, hv, hmc⟩⟩
    cases m with
    | function d =>
      rw [show r = .function d.params d.body d.scope from hm]
      rfl
    | macroFn d =>
      rw [show r = .macroFn d.params d.body d.scope from hm]
      rfl
    | _ => cases hmc

end Value

/-! ### Places of a run -/

namespace Host

variable {h : Host} {r : Request} {rs : List Request} {i j : Nat} {m v w : Value}

theorem serveAll_append (h : Host) (rs rs' : List Request) :
    h.serveAll (rs ++ rs') = (h.serveAll rs).serveAll rs' := by
  rw [serveAll, List.foldl_append, serveAll, serveAll]

/-- The host as it stands when the request at the given place of a run comes up. -/
def before (rs : List Request) (i : Nat) : Host := start.serveAll (rs.take i)

theorem before_length (rs : List Request) : before rs rs.length = start.serveAll rs := by
  rw [before, List.take_length]

theorem before_append (rs rs' : List Request) (hi : i ≤ rs.length) :
    before (rs ++ rs') i = before rs i := by
  rw [before, List.take_append_of_le_length hi, before]

theorem before_succ (hr : rs[i]? = some r) : before rs (i + 1) = (before rs i).serve r := by
  rw [before, List.take_add_one, hr, serveAll_append]
  rfl

theorem start_leads_before (hrs : start.Admits rs) (i : Nat) : start.Leads (before rs i) := by
  rw [← rs.take_append_drop i, admits_append] at hrs
  exact ⟨rs.take i, hrs.1, rfl⟩

theorem before_leads (hrs : start.Admits rs) (hij : i ≤ j) : (before rs i).Leads (before rs j) := by
  obtain ⟨k, rfl⟩ := Nat.exists_eq_add_of_le hij
  rw [← rs.take_append_drop (i + k), List.take_add, List.append_assoc, admits_append,
    admits_append] at hrs
  refine ⟨(rs.drop i).take k, hrs.2.1, ?_⟩
  rw [before, before, List.take_add, serveAll_append]

/-- The request at the given place of a run is for a new quote, function or macro,
and the value is the one that it made, or the other value over the closure that
it made. -/
def CreatedAt (rs : List Request) (i : Nat) (v : Value) : Prop :=
  ∃ r m, rs[i]? = some r ∧ r.creates = true ∧ ((before rs i).store.serve r).1 = some m ∧
    v.OneIdentity m

theorem exists_cell_of_creates (hr : r.creates = true) {st : Store}
    (hm : (st.serve r).1 = some m) : m.kind ∈ Kind.created ∧ ∃ p, m.cell? = some (st.next, p) := by
  cases r with
  | quote node =>
    cases hm
    exact ⟨by simp [Value.kind, Kind.created], _, rfl⟩
  | function params body e =>
    cases hm
    exact ⟨by simp [Value.kind, Kind.created], _, rfl⟩
  | macroFn params body e =>
    cases hm
    exact ⟨by simp [Value.kind, Kind.created], _, rfl⟩
  | _ => cases hr

theorem Sound.not_same_of_creates (hs : h.Sound) (hr : r.creates = true)
    (hm : (h.store.serve r).1 = some m) (hw : w.OneIdentity m) (hv : h.Knows v) :
    w.same v = false ∧ v.same w = false := by
  obtain ⟨hkind, p, hp⟩ := exists_cell_of_creates hr hm
  have hwk : w.kind ∈ Kind.created := hw.kind_mem hkind
  have hwc : w.cell?.map Prod.fst = some h.store.next := by
    rw [hw.cell, hp]
    rfl
  have hne : v.cell?.map Prod.fst ≠ some h.store.next := by
    intro hc
    obtain ⟨⟨s, q⟩, hq, rfl⟩ := Option.map_eq_some_iff.1 hc
    exact Nat.lt_irrefl _ (hs.older v _ q hv hq)
  constructor
  · refine Bool.eq_false_iff.2 fun hsame => hne ?_
    rw [← Value.stamp_eq_of_same hsame hwk, hwc]
  · refine Bool.eq_false_iff.2 fun hsame => hne ?_
    have hvk : v.kind ∈ Kind.created := Value.kind_eq_of_same hsame ▸ hwk
    rw [Value.stamp_eq_of_same hsame hvk, hwc]

theorem Knows.oneIdentity (hm : h.Knows m) (hv : v.OneIdentity m) : h.Knows v := by
  rcases hv with rfl | ⟨c, hvc, hmc⟩
  · exact hm
  · have hf : h.Knows (.function c) := hm.function hmc
    cases v with
    | function d =>
      cases hvc
      exact hf
    | macroFn d =>
      cases hvc
      exact Known.macroFn hf
    | _ => cases hvc

namespace CreatedAt

theorem kind_mem (hv : CreatedAt rs i v) : v.kind ∈ Kind.created := by
  obtain ⟨r, m, -, hr, hm, hid⟩ := hv
  exact hid.kind_mem (exists_cell_of_creates hr hm).1

theorem knows (hv : CreatedAt rs i v) (hrs : start.Admits rs) (hij : i < j) :
    (before rs j).Knows v := by
  obtain ⟨r, m, hi, -, hm, hid⟩ := hv
  have hnext : (before rs (i + 1)).Knows m := by
    rw [before_succ hi]
    refine .made (List.mem_append_right _ ?_)
    rw [hm]
    exact List.mem_singleton_self m
  exact ((before_leads hrs hij).knows hnext).oneIdentity hid

/-- A value and one created later are not equal. -/
theorem not_same_of_lt (hrs : start.Admits rs) (hv : CreatedAt rs i v) (hw : CreatedAt rs j w)
    (hij : i < j) : w.same v = false ∧ v.same w = false := by
  have hs : (before rs j).Sound := (start_leads_before hrs j).sound sound_start
  have hknown : (before rs j).Knows v := hv.knows hrs hij
  obtain ⟨r, m, -, hr, hm, hid⟩ := hw
  exact hs.not_same_of_creates hr hm hid hknown

theorem same_iff (hrs : start.Admits rs) (hv : CreatedAt rs i v) (hw : CreatedAt rs j w) :
    v.same w = true ↔ v.kind = w.kind ∧ i = j := by
  constructor
  · intro hsame
    refine ⟨Value.kind_eq_of_same hsame, ?_⟩
    rcases Nat.lt_trichotomy i j with hij | hij | hij
    · rw [(not_same_of_lt hrs hv hw hij).2] at hsame
      cases hsame
    · exact hij
    · rw [(not_same_of_lt hrs hw hv hij).1] at hsame
      cases hsame
  · rintro ⟨hkind, rfl⟩
    have hwk := hw.kind_mem
    obtain ⟨r, m, hi, -, hm, hvm⟩ := hv
    obtain ⟨r', m', hi', -, hm', hwm⟩ := hw
    cases hi.symm.trans hi'
    cases hm.symm.trans hm'
    exact (hvm.trans hwm.symm).same hwk hkind

theorem place_unique (hrs : start.Admits rs) (hv : CreatedAt rs i v) (hv' : CreatedAt rs j v) :
    i = j := by
  have hself : v.same v = true := Value.OneIdentity.same (Or.inl rfl) hv.kind_mem rfl
  exact ((same_iff hrs hv hv').1 hself).2

end CreatedAt

/-- Every value with a stamp that is known after a run was made by a request of the
run, at the place where that request came up. -/
theorem exists_maker (hrs : start.Admits rs) (hv : (start.serveAll rs).Knows v)
    (hc : v.cell? ≠ none) :
    ∃ i r m, rs[i]? = some r ∧ ((before rs i).store.serve r).1 = some m ∧ m.MadeBy r ∧
      v.cell? = m.cell? := by
  -- from the end of the run: the last request made the value, or it was known before
  induction rs using List.reverseRecOn with
  | nil => exact absurd (cell?_of_known_nil hv) hc
  | append_singleton rs r ih =>
    rw [admits_append] at hrs
    rw [serveAll_append] at hv
    have hs : (start.serveAll rs).Sound := Leads.sound ⟨rs, hrs.1, rfl⟩ sound_start
    rcases hs.known_or_made hrs.2.1 hv with hold | ⟨m, hm, hmade, hcell⟩
    · obtain ⟨i, q, m, hi, hm, hmade, hcell⟩ := ih hrs.1 hold
      have hlt : i < rs.length := (List.getElem?_eq_some_iff.1 hi).1
      refine ⟨i, q, m, ?_, ?_, hmade, hcell⟩
      · rw [List.getElem?_append_left hlt, hi]
      · rw [before_append rs [r] (Nat.le_of_lt hlt), hm]
    · refine ⟨rs.length, r, m, by simp, ?_, hmade, hcell⟩
      rw [before_append rs [r] (Nat.le_refl _), before_length, hm]

theorem exists_createdAt (hrs : start.Admits rs) (hv : (start.serveAll rs).Knows v)
    (hk : v.kind ∈ Kind.created) : ∃ i, CreatedAt rs i v := by
  have hc : v.cell? ≠ none := by
    rcases v.kind_mem_created_iff.1 hk with ⟨s, n, rfl⟩ | ⟨c, hc⟩
    · simp [Value.cell?]
    · simp [(v.closure?_eq_some_iff c).1 hc]
  obtain ⟨i, r, m, hi, hm, hmade, hcell⟩ := exists_maker hrs hv hc
  obtain ⟨hr, hid⟩ := hmade.creates hcell hk
  exact ⟨i, r, m, hi, hr, hm, hid⟩

/-- After every run, what scopes give for names is known, and each known quote,
function or macro was created at exactly one place of the run. Two of them are
equal exactly when they are of one kind and were created at one place; a function
and a macro never are. What is created next is equal to nothing known, and so a
quote made again from the node of a known quote differs from it. -/
theorem identity_is_creation {rs : List Request} (hrs : start.Admits rs) :
    let h := start.serveAll rs
    (∀ e name v, h.store.scopes.get? e name = some v → h.Knows v) ∧
    (∀ v, h.Knows v → v.kind ∈ Kind.created → ∃! i, CreatedAt rs i v) ∧
    (∀ v w i j, CreatedAt rs i v → CreatedAt rs j w →
      (v.same w = true ↔ v.kind = w.kind ∧ i = j)) ∧
    (∀ c d, (Value.function c).same (.macroFn d) = false ∧
      (Value.macroFn d).same (.function c) = false) ∧
    (∀ r m, r.creates = true → (h.store.serve r).1 = some m →
      ∀ v, h.Knows v → m.same v = false ∧ v.same m = false) ∧
    ∀ q node, h.Knows q → q.quotedNode = .ok node →
      let again := (h.store.newQuote node).1
      again.same q = false ∧ q.same again = false ∧ again.quotedNode = .ok node := by
  intro h
  have hs : h.Sound := Leads.sound ⟨rs, hrs, rfl⟩ sound_start
  refine ⟨?_, ?_, ?_, fun _ _ => ⟨rfl, rfl⟩, ?_, ?_⟩
  · intro e name v hv
    exact hs.get? hv
  · intro v hv hk
    obtain ⟨i, hi⟩ := exists_createdAt hrs hv hk
    exact ⟨i, hi, fun j hj => hj.place_unique hrs hi⟩
  · intro v w i j hv hw
    exact hv.same_iff hrs hw
  · intro r m hr hm v hv
    exact hs.not_same_of_creates hr hm (Or.inl rfl) hv
  · intro q node hq hnode again
    obtain ⟨hne, hne'⟩ := hs.not_same_of_creates (r := .quote node) rfl rfl (Or.inl rfl) hq
    exact ⟨hne, hne', rfl⟩

/-- Two quotes of one node, and a function that is passed through an array and a
binding after another one just like it was made. -/
def lookalikes : List Request :=
  [.newScope, .quote (.program []), .quote (.program []), .function ["x"] [] ⟨0⟩,
    .function ["x"] [] ⟨0⟩, .array [.function ⟨⟨2⟩, ["x"], [], ⟨0⟩⟩],
    .set ⟨0⟩ "f" (.function ⟨⟨2⟩, ["x"], [], ⟨0⟩⟩)]

theorem lookalikes_are_told_apart :
    let q := Value.quote ⟨0⟩ (.program [])
    let q' := Value.quote ⟨1⟩ (.program [])
    let c : Closure := ⟨⟨2⟩, ["x"], [], ⟨0⟩⟩
    let h := start.serveAll lookalikes
    start.Admits lookalikes ∧ CreatedAt lookalikes 1 q ∧ CreatedAt lookalikes 2 q' ∧
      q.same q' = false ∧ (∃! i, CreatedAt lookalikes i (.function c)) ∧
      (Value.function c).same (.macroFn c) = false ∧
      (h.store.newQuote (.program [])).1.same q = false := by
  intro q q' c h
  have hscope : (⟨0⟩ : ScopeId) ∈ (start.serve .newScope).store.scopes := by decide
  have hrs : start.Admits lookalikes := by
    refine ⟨allows_plain rfl rfl, allows_plain rfl rfl, allows_plain rfl rfl, ?_, ?_, ?_, ?_,
      trivial⟩
    · exact allows_of_scopes_eq rfl hscope (List.forall_mem_nil _)
    · exact allows_of_scopes_eq rfl hscope (List.forall_mem_nil _)
    · refine allows_of_scopes_nil rfl (List.forall_mem_singleton.2 (.made ?_))
      exact List.mem_cons_of_mem _ (List.mem_cons_of_mem _ List.mem_cons_self)
    · refine allows_of_scopes_eq rfl hscope (List.forall_mem_singleton.2 (.made ?_))
      exact List.mem_cons_of_mem _ (List.mem_cons_of_mem _ List.mem_cons_self)
  have hq : CreatedAt lookalikes 1 q := ⟨_, _, rfl, rfl, rfl, Or.inl rfl⟩
  have hq' : CreatedAt lookalikes 2 q' := ⟨_, _, rfl, rfl, rfl, Or.inl rfl⟩
  obtain ⟨hget, horigin, hsame, hother, -, hagain⟩ := identity_is_creation hrs
  have hne : q.same q' = false := Bool.eq_false_iff.2 fun hqq => by
    cases ((hsame q q' 1 2 hq hq').1 hqq).2
  have hf : h.Knows (.function c) := hget ⟨0⟩ "f" _ (by rw [Scopes.get?_of_none] <;> rfl)
  have hknown : h.Knows q := .made List.mem_cons_self
  exact ⟨hrs, hq, hq', hne, horigin _ hf (by simp [Value.kind, Kind.created]), (hother c c).1,
    (hagain q _ hknown rfl).1⟩

end Host

end Scriptlet
