import Mathlib.Data.List.Forall2
import Mathlib.Data.List.Perm.Basic
import Scriptlet.Proofs.Parts
import Scriptlet.Value.Equality

/-!
# Equality by contents

Two values are alike when their contents are. Strings, errors, return wrappers
and arrays are compared without a look at their stamps; callables and quotes
have nothing else to be compared by. On values whose hashes hold one entry a
key this is an equivalence. Where a stamp stands for one payload only, it is
what equality of values decides.
-/
namespace Scriptlet

mutual

def Value.alike : Value → Value → Bool
  | .int m, .int n => m == n
  | .bool a, .bool b => a == b
  | .null, .null => true
  | .ret _ v, .ret _ w => v.alike w
  | .error _ a, .error _ b => a == b
  | .str _ a, .str _ b => a == b
  | .array _ xs, .array _ ys => alikeItems xs ys
  | .hash _ es, .hash _ fs => es.length == fs.length && alikeWithin es fs
  | .function c, .function d => c.same d
  | .builtin a, .builtin b => a == b
  | .macroFn c, .macroFn d => c.same d
  | .quote s _, .quote t _ => s == t
  | _, _ => false

def alikeItems : List Value → List Value → Bool
  | [], [] => true
  | v :: vs, w :: ws => v.alike w && alikeItems vs ws
  | _, _ => false

def alikeWithin : List (Entry Value) → List (Entry Value) → Bool
  | [], _ => true
  | ⟨key, _, value⟩ :: es, fs =>
    (match Keyed.find? key fs with
      | some f => value.alike f.value
      | none => false) && alikeWithin es fs

end

theorem alikeItems_iff (vs ws : List Value) :
    alikeItems vs ws = true ↔ List.Forall₂ (fun v w => v.alike w = true) vs ws := by
  induction vs generalizing ws with
  | nil => cases ws <;> simp [alikeItems]
  | cons v vs ih => cases ws <;> simp [alikeItems, ih]

theorem alikeWithin_iff (es fs : List (Entry Value)) :
    alikeWithin es fs = true ↔
      ∀ e ∈ es, ∃ f, Keyed.find? e.key fs = some f ∧ e.value.alike f.value = true := by
  induction es with
  | nil => simp [alikeWithin]
  | cons e es ih =>
    rw [alikeWithin, Bool.and_eq_true, ih, List.forall_mem_cons]
    cases Keyed.find? e.key fs <;> simp

/-- All that a value shows of itself apart from its parts. -/
inductive Label where
  | int (n : Int64)
  | bool (b : Bool)
  | null
  | ret
  | error (message : String)
  | str (text : String)
  | array
  | hash
  | function (stamp : Stamp) (scope : ScopeId)
  | builtin (b : Builtin)
  | macroFn (stamp : Stamp) (scope : ScopeId)
  | quote (stamp : Stamp)

namespace Value

def label : Value → Label
  | .int n => .int n
  | .bool b => .bool b
  | .null => .null
  | .ret _ _ => .ret
  | .error _ message => .error message
  | .str _ text => .str text
  | .array _ _ => .array
  | .hash _ _ => .hash
  | .function c => .function c.stamp c.scope
  | .builtin b => .builtin b
  | .macroFn c => .macroFn c.stamp c.scope
  | .quote s _ => .quote s

/-- The parts of two values of one kind are alike, where the kind has parts. -/
def PartsAlike : Value → Value → Prop
  | .ret _ v, .ret _ w => v.alike w = true
  | .array _ vs, .array _ ws => List.Forall₂ (fun v w => v.alike w = true) vs ws
  | .hash _ es, .hash _ fs => es.length = fs.length ∧
    ∀ e ∈ es, ∃ f, Keyed.find? e.key fs = some f ∧ e.value.alike f.value = true
  | _, _ => True

theorem alike_iff (v w : Value) : v.alike w = true ↔ v.label = w.label ∧ v.PartsAlike w := by
  cases v <;> cases w <;>
    simp [alike, label, PartsAlike, alikeItems_iff, alikeWithin_iff, Closure.same_iff]

end Value

/-! ### Lists with one element a key -/

namespace Keyed

variable {α κ : Type} [Keyed α κ] [DecidableEq κ]

theorem find?_of_mem {xs : List α} (hn : (keys xs).Nodup) {x : α} (hx : x ∈ xs) :
    find? (key x) xs = some x := by
  induction xs with
  | nil => cases hx
  | cons y ys ih =>
    rw [keys_cons, List.nodup_cons] at hn
    rw [find?_cons]
    rcases List.mem_cons.1 hx with rfl | hx
    · rw [if_pos rfl]
    · have hne : key y ≠ key x := fun he => hn.1 (he ▸ List.mem_map_of_mem hx)
      rw [if_neg hne, ih hn.2 hx]

omit [DecidableEq κ] in
/-- Of two lists of one length with one element a key, neither has a key that the
other one lacks. -/
theorem exists_key_eq_of_length_eq {xs ys : List α} (hn : (keys xs).Nodup)
    (hl : xs.length = ys.length) (h : ∀ x ∈ xs, ∃ y ∈ ys, key y = key x) :
    ∀ y ∈ ys, ∃ x ∈ xs, key x = key y := by
  have hsub : keys xs ⊆ keys ys := by
    intro k hk
    obtain ⟨x, hx, rfl⟩ := List.mem_map.1 hk
    obtain ⟨y, hy, hxy⟩ := h x hx
    exact hxy ▸ List.mem_map_of_mem hy
  have hlen : (keys ys).length ≤ (keys xs).length := by simp [keys, hl]
  have hperm : (keys xs).Perm (keys ys) := (List.subperm_of_subset hn hsub).perm_of_length_le hlen
  intro y hy
  exact List.mem_map.1 (hperm.mem_iff.2 (List.mem_map_of_mem hy))

end Keyed

/-! ### Likeness is an equivalence -/

/-- Each hash in the value holds one entry a key. -/
def Value.WellKeyed (v : Value) : Prop :=
  ∀ s es, (Value.hash s es).Within v → (Keyed.keys es).Nodup

theorem Value.WellKeyed.part {v w : Value} (h : v.WellKeyed) (hw : w.Part v) : w.WellKeyed :=
  fun s es hes => h s es (hes.of_part hw)

theorem Value.WellKeyed.keys {s : Stamp} {es : List (Entry Value)}
    (h : (Value.hash s es).WellKeyed) : (Keyed.keys es).Nodup :=
  h s es (.self _)

theorem alike_self {v : Value} (hv : v.WellKeyed) : v.alike v = true := by
  induction v using Value.part_induction with
  | step v ih =>
    refine (v.alike_iff v).2 ⟨rfl, ?_⟩
    cases v with
    | ret s v => exact ih v (.inner s v) (hv.part (.inner s v))
    | array s vs =>
      refine List.forall₂_same.2 fun v hm => ?_
      exact ih v (.item s hm) (hv.part (.item s hm))
    | hash s es =>
      refine ⟨rfl, fun e he => ⟨e, Keyed.find?_of_mem hv.keys he, ?_⟩⟩
      exact ih e.value (.value s he) (hv.part (.value s he))
    | _ => trivial

/-- Likeness of hashes is stated from one side only. It holds from the other side
too, since no key is left over there. -/
theorem alike_symm {v w : Value} (hv : v.WellKeyed) (hw : w.WellKeyed) (h : v.alike w = true) :
    w.alike v = true := by
  induction v using Value.part_induction generalizing w with
  | step v ih =>
    obtain ⟨hl, hp⟩ := (v.alike_iff w).1 h
    refine (w.alike_iff v).2 ⟨hl.symm, ?_⟩
    cases v with
    | ret s v =>
      cases w with
      | ret t w => exact ih v (.inner s v) (hv.part (.inner s v)) (hw.part (.inner t w)) hp
      | _ => trivial
    | array s vs =>
      cases w with
      | array t ws =>
        refine List.Forall₂.flip (List.forall₂_iff_zip.2 ⟨hp.length_eq, fun {a b} hab => ?_⟩)
        have ha : a.Part (.array s vs) := .item s (List.of_mem_zip hab).1
        have hb : b.Part (.array t ws) := .item t (List.of_mem_zip hab).2
        exact ih a ha (hv.part ha) (hw.part hb) ((List.forall₂_iff_zip.1 hp).2 hab)
      | _ => trivial
    | hash s es =>
      cases w with
      | hash t fs =>
        obtain ⟨hlen, hes⟩ := hp
        have hex : ∀ f ∈ fs, ∃ e ∈ es, e.key = f.key := by
          apply Keyed.exists_key_eq_of_length_eq hv.keys hlen
          intro e he
          obtain ⟨f, hf, -⟩ := hes e he
          exact ⟨f, Keyed.mem_of_find?_eq_some hf, Keyed.key_of_find?_eq_some hf⟩
        refine ⟨hlen.symm, fun f hf => ?_⟩
        obtain ⟨e, he, hk⟩ := hex f hf
        obtain ⟨f', hf', hef⟩ := hes e he
        -- the counterpart of `e` can only be `f`, which has its key
        have hff : f' = f := by
          have hfind : Keyed.find? f.key fs = some f := Keyed.find?_of_mem hw.keys hf
          rw [hk, hfind] at hf'
          exact (Option.some.inj hf').symm
        subst hff
        refine ⟨e, hk ▸ Keyed.find?_of_mem hv.keys he, ?_⟩
        exact ih e.value (.value s he) (hv.part (.value s he)) (hw.part (.value t hf)) hef
      | _ => trivial
    | _ => cases w <;> trivial

theorem forall₂_trans_of_mem {α : Type} {R : α → α → Prop} {us vs ws : List α}
    (trans : ∀ u ∈ us, ∀ v w, R u v → R v w → R u w) (huv : List.Forall₂ R us vs)
    (hvw : List.Forall₂ R vs ws) : List.Forall₂ R us ws := by
  induction huv generalizing ws with
  | nil => exact hvw
  | cons hr _ ih =>
    cases hvw with
    | cons hr' hvw =>
      refine .cons (trans _ List.mem_cons_self _ _ hr hr') (ih ?_ hvw)
      exact fun u hu => trans u (List.mem_cons_of_mem _ hu)

theorem alike_trans {u v w : Value} (huv : u.alike v = true) (hvw : v.alike w = true) :
    u.alike w = true := by
  induction u using Value.part_induction generalizing v w with
  | step u ih =>
    obtain ⟨hl, hp⟩ := (u.alike_iff v).1 huv
    obtain ⟨hl', hp'⟩ := (v.alike_iff w).1 hvw
    refine (u.alike_iff w).2 ⟨hl.trans hl', ?_⟩
    cases u with
    | ret s u =>
      cases v with
      | ret t v =>
        cases w with
        | ret r w => exact ih u (.inner s u) hp hp'
        | _ => trivial
      | _ => cases hl
    | array s us =>
      cases v with
      | array t vs =>
        cases w with
        | array r ws =>
          exact forall₂_trans_of_mem (fun u hu v w h h' => ih u (.item s hu) h h') hp hp'
        | _ => trivial
      | _ => cases hl
    | hash s es =>
      cases v with
      | hash t fs =>
        cases w with
        | hash r gs =>
          refine ⟨hp.1.trans hp'.1, fun e he => ?_⟩
          obtain ⟨f, hf, hef⟩ := hp.2 e he
          obtain ⟨g, hg, hfg⟩ := hp'.2 f (Keyed.mem_of_find?_eq_some hf)
          have hk : f.key = e.key := Keyed.key_of_find?_eq_some hf
          exact ⟨g, hk ▸ hg, ih e.value (.value s he) hef hfg⟩
        | _ => trivial
      | _ => cases hl
    | _ => cases w <;> trivial

/-! ### Equality of values -/

theorem sameItems_iff (vs ws : List Value) :
    sameItems vs ws = true ↔ List.Forall₂ (fun v w => v.same w = true) vs ws := by
  induction vs generalizing ws with
  | nil => cases ws <;> simp [sameItems]
  | cons v vs ih => cases ws <;> simp [sameItems, ih]

theorem entriesWithin_iff (es fs : List (Entry Value)) :
    entriesWithin es fs = true ↔
      ∀ e ∈ es, ∃ f, Keyed.find? e.key fs = some f ∧ e.value.same f.value = true := by
  induction es with
  | nil => simp [entriesWithin]
  | cons e es ih =>
    rw [entriesWithin, Bool.and_eq_true, ih, List.forall_mem_cons]
    cases Keyed.find? e.key fs <;> simp

/-- A glance at the stamps can only add to what is equal. -/
theorem same_of_alike {v w : Value} (h : v.alike w = true) : v.same w = true := by
  induction v using Value.part_induction generalizing w with
  | step v ih =>
    obtain ⟨-, hp⟩ := (v.alike_iff w).1 h
    cases v with
    | ret s v =>
      cases w with
      | ret t w =>
        rw [Value.same, ih v (.inner s v) hp, Bool.or_true]
      | _ => cases h
    | array s vs =>
      cases w with
      | array t ws =>
        have hitems : sameItems vs ws = true := by
          rw [sameItems_iff, List.forall₂_iff_zip]
          refine ⟨hp.length_eq, fun {a b} hab => ?_⟩
          exact ih a (.item s (List.of_mem_zip hab).1) ((List.forall₂_iff_zip.1 hp).2 hab)
        rw [Value.same, hitems, Bool.or_true]
      | _ => cases h
    | hash s es =>
      cases w with
      | hash t fs =>
        rw [Value.same, Bool.and_eq_true, beq_iff_eq, entriesWithin_iff]
        refine ⟨hp.1, fun e he => ?_⟩
        obtain ⟨f, hf, hef⟩ := hp.2 e he
        exact ⟨f, hf, ih e.value (.value s he) hef⟩
      | _ => cases h
    | error s a => cases w <;> simp_all [Value.same, Value.alike]
    | str s a => cases w <;> simp_all [Value.same, Value.alike]
    | _ => cases w <;> exact h

theorem same_self {v : Value} (hv : v.WellKeyed) : v.same v = true :=
  same_of_alike (alike_self hv)

theorem sameItems_eq_alikeItems {vs ws : List Value}
    (h : ∀ v ∈ vs, ∀ w ∈ ws, v.same w = v.alike w) : sameItems vs ws = alikeItems vs ws := by
  induction vs generalizing ws with
  | nil => cases ws <;> rfl
  | cons v vs ih =>
    cases ws with
    | nil => rfl
    | cons w ws =>
      have htail : sameItems vs ws = alikeItems vs ws :=
        ih fun v' hv w' hw => h v' (List.mem_cons_of_mem _ hv) w' (List.mem_cons_of_mem _ hw)
      rw [sameItems, alikeItems, h v List.mem_cons_self w List.mem_cons_self, htail]

theorem entriesWithin_eq_alikeWithin {es fs : List (Entry Value)}
    (h : ∀ e ∈ es, ∀ f ∈ fs, e.value.same f.value = e.value.alike f.value) :
    entriesWithin es fs = alikeWithin es fs := by
  induction es with
  | nil => rfl
  | cons e es ih =>
    rw [entriesWithin, alikeWithin, ih fun e' he => h e' (List.mem_cons_of_mem _ he)]
    cases hf : Keyed.find? e.key fs with
    | none => rfl
    | some f => simp only [h e List.mem_cons_self f (Keyed.mem_of_find?_eq_some hf)]

/-- A family of values that holds all parts of its members, in which one stamp
stands for one payload and each hash holds one entry a key. -/
structure Coherent (K : Value → Prop) : Prop where
  part : ∀ {v w : Value}, w.Part v → K v → K w
  cell : ∀ {v w : Value} {s : Stamp} {p q : Payload}, K v → K w →
    v.cell? = some (s, p) → w.cell? = some (s, q) → p = q
  keys : ∀ {s : Stamp} {es : List (Entry Value)}, K (.hash s es) → (Keyed.keys es).Nodup

namespace Coherent

variable {K : Value → Prop}

theorem wellKeyed (hK : Coherent K) {v : Value} (hv : K v) : v.WellKeyed := by
  intro s es hes
  exact hK.keys (hes.closed hK.part hv)

/-- Closures are compared by their stamps and scopes, and the stamp stands for the
parameters and the body too. -/
theorem closure_eq_of_same (hK : Coherent K) {v w : Value} {c d : Closure} (hv : K v) (hw : K w)
    (hc : v.closure? = some c) (hd : w.closure? = some d) (hsame : c.same d = true) : c = d := by
  obtain ⟨hstamp, -⟩ := (c.same_iff d).1 hsame
  rw [Value.closure?_eq_some_iff] at hc hd
  rw [← hstamp] at hd
  cases hK.cell hv hw hc hd
  rfl

/-- Looking at the stamps first does not change an answer that is yes for equal stamps. -/
theorem beq_or_eq {s t : Stamp} {b : Bool} (h : s = t → b = true) : (s == t || b) = b := by
  by_cases hst : s = t
  · rw [h hst, Bool.or_true]
  · rw [beq_false_of_ne hst, Bool.false_or]

/-- Two payloads with one stamp are one payload, which is like itself, so the
stamps can be left out of account at every depth. -/
theorem same_eq_alike (hK : Coherent K) {v w : Value} (hv : K v) (hw : K w) :
    v.same w = v.alike w := by
  induction v using Value.part_induction generalizing w with
  | step v ih =>
    cases v with
    | ret s v =>
      cases w with
      | ret t w =>
        have hpv : K v := hK.part (.inner s v) hv
        rw [Value.same, Value.alike, ih v (.inner s v) hpv (hK.part (.inner t w) hw)]
        refine beq_or_eq fun hst => ?_
        subst hst
        cases hK.cell hv hw rfl rfl
        exact alike_self (hK.wellKeyed hpv)
      | _ => rfl
    | error s a =>
      cases w with
      | error t b =>
        rw [Value.same, Value.alike]
        refine beq_or_eq fun hst => ?_
        subst hst
        cases hK.cell hv hw rfl rfl
        exact beq_self_eq_true a
      | _ => rfl
    | str s a =>
      cases w with
      | str t b =>
        rw [Value.same, Value.alike]
        refine beq_or_eq fun hst => ?_
        subst hst
        cases hK.cell hv hw rfl rfl
        exact beq_self_eq_true a
      | _ => rfl
    | array s vs =>
      cases w with
      | array t ws =>
        have hitems : sameItems vs ws = alikeItems vs ws :=
          sameItems_eq_alikeItems fun v hm w hm' =>
            ih v (.item s hm) (hK.part (.item s hm) hv) (hK.part (.item t hm') hw)
        rw [Value.same, Value.alike, hitems]
        refine beq_or_eq fun hst => ?_
        subst hst
        cases hK.cell hv hw rfl rfl
        have hself := alike_self (hK.wellKeyed hv)
        rwa [Value.alike] at hself
      | _ => rfl
    | hash s es =>
      cases w with
      | hash t fs =>
        have hentries : entriesWithin es fs = alikeWithin es fs :=
          entriesWithin_eq_alikeWithin fun e he f hf =>
            ih e.value (.value s he) (hK.part (.value s he) hv) (hK.part (.value t hf) hw)
        rw [Value.same, Value.alike, hentries]
      | _ => rfl
    | _ => cases w <;> rfl

theorem equivalence_same (hK : Coherent K) :
    Equivalence fun v w : {v : Value // K v} => v.1.same w.1 = true where
  refl v := by
    rw [hK.same_eq_alike v.2 v.2]
    exact alike_self (hK.wellKeyed v.2)
  symm {v w} h := by
    rw [hK.same_eq_alike v.2 w.2] at h
    rw [hK.same_eq_alike w.2 v.2]
    exact alike_symm (hK.wellKeyed v.2) (hK.wellKeyed w.2) h
  trans {u v w} huv hvw := by
    rw [hK.same_eq_alike u.2 v.2] at huv
    rw [hK.same_eq_alike v.2 w.2] at hvw
    rw [hK.same_eq_alike u.2 w.2]
    exact alike_trans huv hvw

end Coherent

end Scriptlet
