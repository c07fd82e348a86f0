import Scriptlet.Proofs.Creation
import Scriptlet.Proofs.KeySeparation

/-!
# Orders of entries in alike values

The entries of a hash print in whatever order they are gone through. Equality
takes no notice of the order, of the keys that entries store, of parameters and
of quoted nodes, all of which are printed. For values of a run whose hashes are
made from pairs this makes no difference: orders of the entries in one of two
equal values, chosen place by place, have counterparts in the other one that print
the same text, unless two strings that serve as keys happen to have one hash.
-/
namespace Scriptlet

/-! ### Orders of entries -/

theorem eq_of_forall₂ {α : Type} {R : α → α → Prop} {xs ys : List α} (h : List.Forall₂ R xs ys)
    (step : ∀ x ∈ xs, ∀ y, R x y → y = x) : ys = xs := by
  induction h with
  | nil => rfl
  | cons hr _ ih =>
    rw [step _ List.mem_cons_self _ hr, ih fun x hx => step x (List.mem_cons_of_mem _ hx)]

theorem eq_of_perm_of_short {α : Type} {xs ys : List α} (hp : xs.Perm ys) (hl : xs.length ≤ 1) :
    xs = ys := by
  cases xs with
  | nil => exact hp.nil_eq
  | cons x xs =>
    have hnil : xs = [] := List.eq_nil_of_length_eq_zero (by rw [List.length_cons] at hl; omega)
    rw [hnil] at hp ⊢
    exact hp.singleton_eq

inductive Entry.Rel {α : Type} (R : α → α → Prop) : Entry α → Entry α → Prop where
  | mk (key : HashKey) {stored stored' value value' : α} (hs : R stored stored')
      (hv : R value value') : Rel R ⟨key, stored, value⟩ ⟨key, stored', value'⟩

/-- The second value is the first one with the entries of each hash in some order,
chosen anew at every place where a hash stands. -/
inductive Value.Reordered : Value → Value → Prop where
  | self (v : Value) : Reordered v v
  | ret (s : Stamp) {v w : Value} (h : Reordered v w) : Reordered (.ret s v) (.ret s w)
  | array (s : Stamp) {vs ws : List Value} (h : List.Forall₂ Reordered vs ws) :
      Reordered (.array s vs) (.array s ws)
  | hash (s : Stamp) {es fs gs : List (Entry Value)} (hp : es.Perm fs)
      (h : List.Forall₂ (Entry.Rel Reordered) fs gs) : Reordered (.hash s es) (.hash s gs)

namespace Value

variable {v w : Value} {s : Stamp}

theorem Reordered.of_ret (h : (Value.ret s v).Reordered w) :
    ∃ v', w = .ret s v' ∧ v.Reordered v' := by
  cases h with
  | self => exact ⟨v, rfl, .self v⟩
  | ret _ h => exact ⟨_, rfl, h⟩

theorem Reordered.of_array {vs : List Value} (h : (Value.array s vs).Reordered w) :
    ∃ ws, w = .array s ws ∧ List.Forall₂ Reordered vs ws := by
  cases h with
  | self => exact ⟨vs, rfl, List.forall₂_same.2 fun v _ => .self v⟩
  | array _ h => exact ⟨_, rfl, h⟩

theorem Reordered.of_hash {es : List (Entry Value)} (h : (Value.hash s es).Reordered w) :
    ∃ fs gs, w = .hash s gs ∧ es.Perm fs ∧ List.Forall₂ (Entry.Rel Reordered) fs gs := by
  cases h with
  | self =>
    refine ⟨es, es, rfl, .refl es, List.forall₂_same.2 fun e _ => ?_⟩
    exact .mk e.key (.self e.stored) (.self e.value)
  | hash _ hp h => exact ⟨_, _, rfl, hp, h⟩

theorem Reordered.eq_of_hashKey {k : HashKey} (h : v.Reordered w) (hk : v.hashKey = .ok k) :
    w = v := by
  cases h with
  | self => rfl
  | ret => cases hk
  | array => cases hk
  | hash => cases hk

theorem Reordered.eq_of_short (h : v.Reordered w)
    (hshort : ∀ s es, (Value.hash s es).Within v → es.length ≤ 1) : w = v := by
  induction v using Value.part_induction generalizing w with
  | step v ih =>
    have hpart {u u' : Value} (hu : u.Part v) (huu : u.Reordered u') : u' = u :=
      ih u hu huu fun s es hes => hshort s es (hes.of_part hu)
    cases v with
    | ret s u =>
      obtain ⟨u', rfl, hu⟩ := h.of_ret
      rw [hpart (.inner s u) hu]
    | array s vs =>
      obtain ⟨ws, rfl, hws⟩ := h.of_array
      rw [eq_of_forall₂ hws fun u hu u' huu => hpart (.item s hu) huu]
    | hash s es =>
      obtain ⟨fs, gs, rfl, hperm, hgs⟩ := h.of_hash
      have hfs : fs = es := (eq_of_perm_of_short hperm (hshort s es (.self _))).symm
      subst hfs
      rw [eq_of_forall₂ hgs fun e he g hg => ?_]
      cases hg with
      | mk key hs hv => rw [hpart (.stored s he) hs, hpart (.value s he) hv]
    | _ =>
      cases h
      rfl

end Value

/-! ### Matching entries -/

theorem exists_forall₂ {α β : Type} {R : α → β → Prop} {xs : List α}
    (h : ∀ x ∈ xs, ∃ y, R x y) : ∃ ys, List.Forall₂ R xs ys := by
  induction xs with
  | nil => exact ⟨[], .nil⟩
  | cons x xs ih =>
    obtain ⟨y, hy⟩ := h x List.mem_cons_self
    obtain ⟨ys, hys⟩ := ih fun x' hx => h x' (List.mem_cons_of_mem _ hx)
    exact ⟨y :: ys, .cons hy hys⟩

/-- When one of two matching lists is changed place by place, the other one can
follow so that nothing that `f` shows differs. -/
theorem exists_follower {α β : Type} {R S : α → α → Prop} {f : α → β} {xs ys xs' : List α}
    (hxy : List.Forall₂ R xs ys) (hxx : List.Forall₂ S xs xs')
    (step : ∀ x ∈ xs, ∀ y ∈ ys, ∀ x', R x y → S x x' → ∃ y', S y y' ∧ f y' = f x') :
    ∃ ys', List.Forall₂ S ys ys' ∧ ys'.map f = xs'.map f := by
  induction hxy generalizing xs' with
  | nil =>
    cases hxx
    exact ⟨[], .nil, rfl⟩
  | @cons x y xs ys hr _ ih =>
    cases hxx with
    | @cons _ x' _ xs' hs hxx =>
      obtain ⟨y', hy', hf⟩ := step x List.mem_cons_self y List.mem_cons_self x' hr hs
      obtain ⟨ys', hys', hmap⟩ := ih hxx fun u hu w hw =>
        step u (List.mem_cons_of_mem _ hu) w (List.mem_cons_of_mem _ hw)
      exact ⟨y' :: ys', .cons hy' hys', by rw [List.map_cons, List.map_cons, hf, hmap]⟩

namespace Keyed

variable {α κ : Type} [Keyed α κ] [DecidableEq κ] {xs ys xs' ys' : List α}

theorem of_forall₂_find? (h : List.Forall₂ (fun x y => find? (key x) ys = some y) xs' ys') :
    keys ys' = keys xs' ∧ ys' ⊆ ys := by
  induction h with
  | nil => exact ⟨rfl, List.nil_subset _⟩
  | cons hfind _ ih =>
    refine ⟨?_, List.cons_subset.2 ⟨mem_of_find?_eq_some hfind, ih.2⟩⟩
    rw [keys_cons, keys_cons, key_of_find?_eq_some hfind, ih.1]

theorem exists_counterparts (hn : (keys xs).Nodup) (hl : xs.length = ys.length)
    (h : ∀ x ∈ xs, ∃ y, find? (key x) ys = some y) (hp : xs.Perm xs') :
    ∃ ys', ys.Perm ys' ∧ List.Forall₂ (fun x y => find? (key x) ys = some y) xs' ys' := by
  obtain ⟨ys', hys'⟩ := exists_forall₂ fun x hx => h x (hp.mem_iff.2 hx)
  obtain ⟨hkeys, hsub⟩ := of_forall₂_find? hys'
  have hnodup : ys'.Nodup := by
    have hn' : (keys ys').Nodup := hkeys ▸ (hp.map key).nodup_iff.1 hn
    exact hn'.of_map key
  have hlen : ys.length ≤ ys'.length := by
    have hx : xs.length = xs'.length := hp.length_eq
    have hy : xs'.length = ys'.length := hys'.length_eq
    omega
  exact ⟨ys', ((List.subperm_of_subset hnodup hsub).perm_of_length_le hlen).symm, hys'⟩

end Keyed

/-! ### What is printed -/

def KeyText (K : Value → Prop) (x : String) : Prop :=
  ∃ s es e t, K (.hash s es) ∧ e ∈ es ∧ e.stored = .str t x

/-- No two strings that are stored as keys in the family have one hash. -/
def KeysApart (K : Value → Prop) : Prop :=
  ∀ x y, KeyText K x → KeyText K y → Fnv.ofString x = Fnv.ofString y → x = y

/-- A coherent family of values in which the entries of hashes have the hash keys
of what they store, and these keys are apart. -/
structure Faithful (K : Value → Prop) : Prop where
  coherent : Coherent K
  stored : ∀ {s : Stamp} {es : List (Entry Value)}, K (.hash s es) →
    ∀ e ∈ es, e.stored.hashKey = .ok e.key
  apart : KeysApart K

namespace Faithful

variable {K : Value → Prop} {a b : Value} {s t : Stamp} {es fs : List (Entry Value)}

theorem render_eq_of_leaf (hK : Faithful K) (ha : K a) (hb : K b) (hab : a.alike b = true)
    (hk : a.kind ≠ .ret ∧ a.kind ≠ .array ∧ a.kind ≠ .hash) : a.render = b.render := by
  obtain ⟨hl, -⟩ := (a.alike_iff b).1 hab
  -- parameters and quoted nodes are not compared, but fixed by the stamps
  cases a with
  | ret => exact absurd rfl hk.1
  | array => exact absurd rfl hk.2.1
  | hash => exact absurd rfl hk.2.2
  | function c =>
    cases b with
    | function d =>
      have hcd : c = d := hK.coherent.closure_eq_of_same ha hb rfl rfl hab
      rw [hcd]
    | _ => cases hl
  | macroFn c =>
    cases b with
    | macroFn d =>
      have hcd : c = d := hK.coherent.closure_eq_of_same ha hb rfl rfl hab
      rw [hcd]
    | _ => cases hl
  | quote s n =>
    cases b with
    | quote t m =>
      cases hl
      cases hK.coherent.cell ha hb rfl rfl
      rfl
    | _ => cases hl
  | _ =>
    cases b <;> cases hl
    all_goals rfl

theorem render_stored_eq (hK : Faithful K) (hes : K (.hash s es)) (hfs : K (.hash t fs))
    {e f : Entry Value} (he : e ∈ es) (hf : f ∈ fs) (hkey : e.key = f.key) :
    e.stored.render = f.stored.render := by
  have hse : e.stored.hashKey = .ok e.key := hK.stored hes e he
  have hsf : f.stored.hashKey = .ok e.key := hkey ▸ hK.stored hfs f hf
  rcases Value.alike_or_collide hse hsf with halike | ⟨r, r', x, y, hx, hy, hword⟩
  · have hkind : e.stored.kind ∈ Kind.hashable :=
      e.stored.kind_mem_hashable_iff.2 (e.stored.isHashable_iff_hashKey.2 ⟨e.key, hse⟩)
    refine hK.render_eq_of_leaf (hK.coherent.part (.stored s he) hes)
      (hK.coherent.part (.stored t hf) hfs) halike ⟨?_, ?_, ?_⟩
    all_goals
      intro hk
      rw [hk] at hkind
      exact absurd hkind (by decide)
  · rw [hx, hy, hK.apart x y ⟨s, es, e, r, hes, he, hx⟩ ⟨t, fs, f, r', hfs, hf, hy⟩ hword]
    rfl

theorem exists_reordered_hash (hK : Faithful K) (hes : K (.hash s es)) (hfs : K (.hash t fs))
    (hp : (Value.hash s es).PartsAlike (.hash t fs))
    (values : ∀ e ∈ es, ∀ f ∈ fs, ∀ v', e.value.alike f.value = true → e.value.Reordered v' →
      ∃ w', f.value.Reordered w' ∧ w'.render = v'.render)
    (ha : (Value.hash s es).Reordered a) :
    ∃ b, (Value.hash t fs).Reordered b ∧ b.render = a.render := by
  obtain ⟨es₁, es₂, rfl, hperm, hes₂⟩ := ha.of_hash
  obtain ⟨hlen, hfound⟩ := hp
  obtain ⟨fs₁, hperm', hfs₁⟩ := Keyed.exists_counterparts (hK.coherent.keys hes) hlen
    (fun e he => (hfound e he).imp fun f hf => hf.1) hperm
  obtain ⟨fs₂, hfs₂, htexts⟩ := exists_follower
    (f := fun e : Entry Value => e.stored.render ++ ':' :: ' ' :: e.value.render) hfs₁ hes₂
    fun e he f hf g hef heg => by
      have hee : e ∈ es := hperm.mem_iff.2 he
      have hff : f ∈ fs := hperm'.mem_iff.2 hf
      obtain ⟨f', hf', halike⟩ := hfound e hee
      cases hef.symm.trans hf'
      have hkey : f.key = e.key := Keyed.key_of_find?_eq_some hef
      have hstored : e.stored.render = f.stored.render :=
        hK.render_stored_eq hes hfs hee hff hkey.symm
      cases heg with
      | mk key hs hv =>
        have hsame := hs.eq_of_hashKey (hK.stored hes _ hee)
        obtain ⟨w', hw', htext⟩ := values _ hee f hff _ halike hv
        refine ⟨⟨f.key, f.stored, w'⟩, .mk f.key (.self f.stored) hw', ?_⟩
        rw [htext, hsame, hstored]
  refine ⟨.hash t fs₂, .hash t hperm' hfs₂, ?_⟩
  rw [Value.render_hash, Value.render_hash, htexts]

/-- However the entries in one of two alike values are ordered, those in the other
one can be ordered so that both print the same text. -/
theorem exists_reordered (hK : Faithful K) (ha : K a) (hb : K b) (hab : a.alike b = true)
    {a' : Value} (ha' : a.Reordered a') : ∃ b', b.Reordered b' ∧ b'.render = a'.render := by
  induction a using Value.part_induction generalizing b a' with
  | step a ih =>
    obtain ⟨hl, hp⟩ := (a.alike_iff b).1 hab
    cases a with
    | ret s v =>
      cases b with
      | ret t w =>
        have hv : v.Part (.ret s v) := .inner s v
        have hw : w.Part (.ret t w) := .inner t w
        obtain ⟨v', rfl, hv'⟩ := ha'.of_ret
        obtain ⟨w', hw', htext⟩ :=
          ih v hv (hK.coherent.part hv ha) (hK.coherent.part hw hb) hp hv'
        exact ⟨.ret t w', .ret t hw', by rw [Value.render_ret, Value.render_ret, htext]⟩
      | _ => cases hl
    | array s vs =>
      cases b with
      | array t ws =>
        obtain ⟨vs', rfl, hvs'⟩ := ha'.of_array
        obtain ⟨ws', hws', htexts⟩ := exists_follower (f := Value.render) hp hvs'
          fun v hv w hw v' hvw hv' => by
            have hv : v.Part (.array s vs) := .item s hv
            have hw : w.Part (.array t ws) := .item t hw
            exact ih v hv (hK.coherent.part hv ha) (hK.coherent.part hw hb) hvw hv'
        refine ⟨.array t ws', .array t hws', ?_⟩
        rw [Value.render_array, Value.render_array, htexts]
      | _ => cases hl
    | hash s es =>
      cases b with
      | hash t fs =>
        refine hK.exists_reordered_hash ha hb hp (fun e he f hf v' hef hv' => ?_) ha'
        have hv : e.value.Part (.hash s es) := .value s he
        have hw : f.value.Part (.hash t fs) := .value t hf
        exact ih e.value hv (hK.coherent.part hv ha) (hK.coherent.part hw hb) hef hv'
      | _ => cases hl
    | _ =>
      cases ha'
      exact ⟨b, .self b, (hK.render_eq_of_leaf ha hb hab (by simp [Value.kind])).symm⟩

end Faithful

/-! ### Runs -/

namespace Host

variable {rs : List Request} {a b : Value}

theorem hashKey_stored_of_pairs (hrs : start.Admits rs)
    (hpairs : ∀ entries, Request.keyedHash entries ∉ rs) {s : Stamp} {es : List (Entry Value)}
    (hes : (start.serveAll rs).Knows (.hash s es)) : ∀ e ∈ es, e.stored.hashKey = .ok e.key := by
  obtain ⟨i, r, m, hi, -, hm, hc⟩ := exists_maker hrs hes (by simp [Value.cell?])
  cases m with
  | hash t fs =>
    cases hc
    obtain ⟨pairs, -, hmade⟩ | ⟨entries, rfl⟩ := hm
    · exact (entriesOfPairs_spec hmade).1
    · exact absurd (List.mem_of_getElem? hi) (hpairs entries)
  | _ => cases hc

theorem faithful_within (hrs : start.Admits rs)
    (hpairs : ∀ entries, Request.keyedHash entries ∉ rs)
    (ha : (start.serveAll rs).Knows a) (hb : (start.serveAll rs).Knows b)
    (hapart : KeysApart fun v => v.Within a ∨ v.Within b) :
    Faithful fun v => v.Within a ∨ v.Within b := by
  have hK : Coherent (start.serveAll rs).Knows :=
    (Leads.sound ⟨rs, hrs, rfl⟩ sound_start).coherent
  have hknown {v : Value} (hv : v.Within a ∨ v.Within b) : (start.serveAll rs).Knows v :=
    hv.elim (fun h => h.closed hK.part ha) (fun h => h.closed hK.part hb)
  have hcoherent : Coherent fun v => v.Within a ∨ v.Within b := by
    refine ⟨fun hw hv => ?_, fun hv hw => hK.cell (hknown hv) (hknown hw),
      fun hv => hK.keys (hknown hv)⟩
    exact hv.imp (fun h => h.head hw) (fun h => h.head hw)
  exact ⟨hcoherent, fun hv => hashKey_stored_of_pairs hrs hpairs (hknown hv), hapart⟩

end Host

end Scriptlet
