import Scriptlet.Proofs.EntryOrder

/-!
# Hashes in several places

A hash that stands in several places of a value is gone through in the same order
in each of them. An equal value may have different hashes in these places, each
with an order of its own, and then it has texts that the first value has not. Where
orders are chosen place by place, equal values print alike, and choosing place by
place is choosing hash by hash for a value in which no hash stands twice.
-/
namespace Scriptlet

/-! ### Hashes, place by place -/

mutual

/-- The hashes in a value, each as often as it stands there. -/
def Value.hashes : Value → List (Stamp × List (Entry Value))
  | .ret _ inner => inner.hashes
  | .array _ items => itemHashes items
  | .hash s entries => (s, entries) :: entryHashes entries
  | _ => []

def itemHashes : List Value → List (Stamp × List (Entry Value))
  | [] => []
  | v :: vs => v.hashes ++ itemHashes vs

def entryHashes : List (Entry Value) → List (Stamp × List (Entry Value))
  | [] => []
  | ⟨_, stored, value⟩ :: es => stored.hashes ++ value.hashes ++ entryHashes es

end

theorem itemHashes_eq_flatMap (vs : List Value) : itemHashes vs = vs.flatMap Value.hashes := by
  induction vs with
  | nil => rfl
  | cons v vs ih => rw [itemHashes, ih, List.flatMap_cons]

theorem entryHashes_eq_flatMap (es : List (Entry Value)) :
    entryHashes es = es.flatMap fun e => e.stored.hashes ++ e.value.hashes := by
  induction es with
  | nil => rfl
  | cons e es ih => rw [entryHashes, ih, List.flatMap_cons]

namespace Value

variable {v w : Value} {s t : Stamp} {es : List (Entry Value)}

theorem hashes_ret (s : Stamp) (v : Value) : (ret s v).hashes = v.hashes := rfl

theorem hashes_array (s : Stamp) (vs : List Value) :
    (array s vs).hashes = vs.flatMap hashes :=
  itemHashes_eq_flatMap vs

theorem hashes_hash (s : Stamp) (es : List (Entry Value)) :
    (hash s es).hashes = (s, es) :: es.flatMap fun e => e.stored.hashes ++ e.value.hashes :=
  congrArg _ (entryHashes_eq_flatMap es)

theorem hashes_subset_of_part (h : w.Part v) : w.hashes ⊆ v.hashes := by
  intro p hp
  cases h with
  | inner s => exact hp
  | item s hw =>
    rw [hashes_array]
    exact List.mem_flatMap.2 ⟨w, hw, hp⟩
  | stored s he =>
    rw [hashes_hash]
    exact List.mem_cons_of_mem _ (List.mem_flatMap.2 ⟨_, he, List.mem_append_left _ hp⟩)
  | value s he =>
    rw [hashes_hash]
    exact List.mem_cons_of_mem _ (List.mem_flatMap.2 ⟨_, he, List.mem_append_right _ hp⟩)

theorem mem_hashes_of_within (h : (hash s es).Within v) : (s, es) ∈ v.hashes := by
  induction h with
  | refl =>
    rw [hashes_hash]
    exact List.mem_cons_self
  | tail _ hpart ih => exact hashes_subset_of_part hpart ih

/-- However often a hash stands in the value, its entries are listed in one order. -/
def Steady (v : Value) : Prop :=
  ∀ s es fs, (hash s es).Within v → (hash s fs).Within v → es = fs

/-- No hash stands in two places. -/
def Unshared (v : Value) : Prop := (v.hashes.map Prod.fst).Nodup

instance (v : Value) : Decidable v.Unshared :=
  inferInstanceAs (Decidable (v.hashes.map Prod.fst).Nodup)

theorem Unshared.steady (h : v.Unshared) : v.Steady := by
  intro s es fs hes hfs
  have heq : (s, es) = (s, fs) :=
    List.inj_on_of_nodup_map h (mem_hashes_of_within hes) (mem_hashes_of_within hfs) rfl
  exact congrArg Prod.snd heq

theorem Reordered.stamps_perm (h : v.Reordered w) :
    (v.hashes.map Prod.fst).Perm (w.hashes.map Prod.fst) := by
  induction v using Value.part_induction generalizing w with
  | step v ih =>
    cases v with
    | ret s u =>
      obtain ⟨u', rfl, hu⟩ := h.of_ret
      rw [hashes_ret, hashes_ret]
      exact ih u (.inner s u) hu
    | array s vs =>
      obtain ⟨ws, rfl, hws⟩ := h.of_array
      rw [hashes_array, hashes_array, List.map_flatMap, List.map_flatMap]
      exact flatMap_perm_of_forall₂ (.refl vs) hws fun u hu u' huu => ih u (.item s hu) huu
    | hash s es =>
      obtain ⟨fs, gs, rfl, hperm, hgs⟩ := h.of_hash
      rw [hashes_hash, hashes_hash, List.map_cons, List.map_cons, List.map_flatMap,
        List.map_flatMap]
      refine (flatMap_perm_of_forall₂ hperm hgs fun e he g hg => ?_).cons s
      cases hg with
      | mk key hs hv =>
        rw [List.map_append, List.map_append]
        exact (ih _ (.stored s he) hs).append (ih _ (.value s he) hv)
    | _ =>
      cases h
      exact .refl _

theorem Reordered.steady (h : v.Reordered w) (hv : v.Unshared) : w.Steady :=
  Unshared.steady (h.stamps_perm.nodup_iff.1 hv)

/-! ### Keys -/

def keyTexts (v : Value) : List String :=
  v.hashes.flatMap fun p => p.2.filterMap fun e => e.stored.str?

theorem mem_keyTexts_of_within {x : String} (h : (hash s es).Within v) {e : Entry Value}
    (he : e ∈ es) (hx : e.stored = .str t x) : x ∈ v.keyTexts := by
  refine List.mem_flatMap.2 ⟨_, mem_hashes_of_within h, List.mem_filterMap.2 ⟨e, he, ?_⟩⟩
  rw [hx]
  rfl

end Value

theorem keysApart_within {a b : Value}
    (h : ∀ x ∈ a.keyTexts ++ b.keyTexts, ∀ y ∈ a.keyTexts ++ b.keyTexts,
      Fnv.ofString x = Fnv.ofString y → x = y) :
    KeysApart fun v => v.Within a ∨ v.Within b := by
  have hmem {x : String} (hx : KeyText (fun v => v.Within a ∨ v.Within b) x) :
      x ∈ a.keyTexts ++ b.keyTexts := by
    obtain ⟨s, es, e, t, hes | hes, he, hstored⟩ := hx
    · exact List.mem_append_left _ (Value.mem_keyTexts_of_within hes he hstored)
    · exact List.mem_append_right _ (Value.mem_keyTexts_of_within hes he hstored)
  exact fun x y hx hy => h x (hmem hx) y (hmem hy)

/-! ### One order for each hash -/

namespace Value

variable {s t : Stamp} {es : List (Entry Value)} {w : Value}

theorem Steady.exists_twice (hw : w.Steady) (h : (array t [hash s es, hash s es]).Reordered w) :
    ∃ u, (hash s es).Reordered u ∧ w = array t [u, u] := by
  obtain ⟨ws, rfl, hws⟩ := h.of_array
  obtain ⟨x, xs, hx, hxs, rfl⟩ := List.forall₂_cons_left_iff.1 hws
  obtain ⟨y, ys, hy, hys, rfl⟩ := List.forall₂_cons_left_iff.1 hxs
  cases hys
  obtain ⟨-, fs, rfl, -⟩ := hx.of_hash
  obtain ⟨-, gs, rfl, -⟩ := hy.of_hash
  have hfs : (hash s fs).Within (array t [hash s fs, hash s gs]) :=
    (Within.self _).of_part (.item t (by simp))
  have hgs : (hash s gs).Within (array t [hash s fs, hash s gs]) :=
    (Within.self _).of_part (.item t (by simp))
  cases hw s fs gs hfs hgs
  exact ⟨_, hx, rfl⟩

/-- A hash that stands twice prints the same text twice. It cannot give the text of two
values that print differently, where the text of the first is as long as its own. -/
theorem twice_render_ne {r : Stamp} {x y : Value}
    (hl : x.render.length = (hash s es).render.length) (hxy : x.render ≠ y.render)
    (h : (array t [hash s es, hash s es]).Reordered w) (hw : w.Steady) :
    w.render ≠ (array r [x, y]).render := by
  obtain ⟨u, hu, rfl⟩ := hw.exists_twice h
  intro heq
  rw [render_array, render_array] at heq
  have hparts : u.render ++ ',' :: ' ' :: u.render = x.render ++ ',' :: ' ' :: y.render :=
    List.append_cancel_right (List.cons.inj heq).2
  obtain ⟨hux, hrest⟩ := List.append_inj hparts (hu.render_perm.length_eq.symm.trans hl.symm)
  have huy : u.render = y.render := (List.cons.inj (List.cons.inj hrest).2).2
  exact hxy (hux.symm.trans huy)

end Value

/-! ### Equal values -/

namespace Host

variable {rs : List Request} {a b : Value}

/-- Equal values print alike, where the orders are chosen place by place. Let two values of
a run be equal, let all hashes of the run be made from pairs, and let no two strings
that are keys in the values have one hash. Whatever orders the entries of the hashes in the
one are gone through, there are orders for the other one that give the same text. A
hash that stands in several places of the other one may need several orders. Where no hash
stands in two places of it, there is one order for each hash. Where no hash in the
one holds two entries, there is one text for both. -/
theorem equal_values_print_alike (hrs : start.Admits rs)
    (hpairs : ∀ entries, Request.keyedHash entries ∉ rs)
    (ha : (start.serveAll rs).Knows a) (hb : (start.serveAll rs).Knows b) (hab : a.same b = true)
    (hapart : KeysApart fun v => v.Within a ∨ v.Within b) :
    (∀ a', a.Reordered a' →
      ∃ b', b.Reordered b' ∧ b'.render = a'.render ∧ (b.Unshared → b'.Steady)) ∧
      ((∀ s es, (Value.hash s es).Within a → es.length ≤ 1) → b.render = a.render) := by
  have hK := faithful_within hrs hpairs ha hb hapart
  have hina : a.Within a ∨ a.Within b := Or.inl (.self a)
  have hinb : b.Within a ∨ b.Within b := Or.inr (.self b)
  have halike : a.alike b = true := hK.coherent.same_eq_alike hina hinb ▸ hab
  refine ⟨fun a' ha' => ?_, fun hshort => ?_⟩
  · obtain ⟨b', hb', htext⟩ := hK.exists_reordered hina hinb halike ha'
    exact ⟨b', hb', htext, hb'.steady⟩
  · -- the order that `b` has is followed by one for `a`, which has only one
    have halike' : b.alike a = true :=
      alike_symm (hK.coherent.wellKeyed hina) (hK.coherent.wellKeyed hinb) halike
    obtain ⟨a', ha', htext⟩ := hK.exists_reordered hinb hina halike' (.self b)
    rw [← htext, ha'.eq_of_short hshort]

def tally (s : Stamp) (counts : List (Stamp × String × Int64)) : Value :=
  .hash s (counts.map fun p => ⟨⟨.str, Fnv.ofString p.2.1⟩, .str p.1 p.2.1, .int p.2.2⟩)

def tallies : List Request :=
  [.str "a", .str "b", .hash [(.str ⟨0⟩ "a", .int 1), (.str ⟨1⟩ "b", .int 2)],
    .hash [(.str ⟨1⟩ "b", .int 2), (.str ⟨0⟩ "a", .int 1)],
    .hash [(.str ⟨0⟩ "a", .int 1)], .hash [(.str ⟨0⟩ "a", .int 1)]]

theorem admits_tallies : start.Admits tallies := by
  have hallow {h : Host} {vs : List Value} {pairs : List (Value × Value)}
      (hmade : h.made = [.str ⟨0⟩ "a", .str ⟨1⟩ "b"] ++ vs)
      (hp : ∀ p ∈ pairs, p.1 ∈ [Value.str ⟨0⟩ "a", .str ⟨1⟩ "b"] ∧ ∃ n, p.2 = .int n) :
      h.Allows (.hash pairs) := by
    refine allows_of_scopes_nil rfl (forall_mem_pairs.2 fun p hpair => ?_)
    obtain ⟨hkey, n, hn⟩ := hp p hpair
    exact ⟨.made (hmade ▸ List.mem_append_left _ hkey), hn ▸ .int n⟩
  exact ⟨allows_plain rfl rfl, allows_plain rfl rfl, hallow rfl (by simp), hallow rfl (by simp),
    hallow rfl (by simp), hallow rfl (by simp), trivial⟩

theorem tallies_print_alike :
    let a := tally ⟨2⟩ [(⟨0⟩, "a", 1), (⟨1⟩, "b", 2)]
    let b := tally ⟨3⟩ [(⟨1⟩, "b", 2), (⟨0⟩, "a", 1)]
    let c := tally ⟨4⟩ [(⟨0⟩, "a", 1)]
    let d := tally ⟨5⟩ [(⟨0⟩, "a", 1)]
    start.Admits tallies ∧ a.same b = true ∧ b.render ≠ a.render ∧
      (∃ b', b.Reordered b' ∧ b'.render = a.render ∧ b'.Steady) ∧
      c.same d = true ∧ d.render = c.render := by
  intro a b c d
  have hpairs : ∀ entries, Request.keyedHash entries ∉ tallies := by simp [tallies]
  have hmade : (start.serveAll tallies).made = [.str ⟨0⟩ "a", .str ⟨1⟩ "b", a, b, c, d] := rfl
  have hknown {v : Value} (hv : v ∈ [Value.str ⟨0⟩ "a", .str ⟨1⟩ "b", a, b, c, d]) :
      (start.serveAll tallies).Knows v := .made (hmade ▸ hv)
  obtain ⟨hprint, -⟩ := equal_values_print_alike admits_tallies hpairs (a := a) (b := b)
    (hknown (by simp)) (hknown (by simp)) rfl (keysApart_within (by decide))
  obtain ⟨-, hone⟩ := equal_values_print_alike admits_tallies hpairs (a := c) (b := d)
    (hknown (by simp)) (hknown (by simp)) rfl (keysApart_within (by decide))
  have hshort : ∀ p ∈ c.hashes, p.2.length ≤ 1 := by decide
  obtain ⟨b', hb', htext, hsteady⟩ := hprint a (.self a)
  refine ⟨admits_tallies, rfl, by decide, ⟨b', hb', htext, hsteady (by decide)⟩, rfl, ?_⟩
  exact hone fun s es hes => hshort _ (Value.mem_hashes_of_within hes)

def diagonal (s : Stamp) (ns : List Int64) : Value :=
  .hash s (ns.map fun n => ⟨⟨.int, n.toUInt64⟩, .int n, .int n⟩)

/-- Two equal hashes are made with their pairs in different order. Then an array is made
of both, and another one of the first hash twice. -/
def mirrors : List Request :=
  [.hash [(.int 1, .int 1), (.int 2, .int 2)], .hash [(.int 2, .int 2), (.int 1, .int 1)],
   .array [diagonal ⟨0⟩ [1, 2], diagonal ⟨1⟩ [2, 1]],
   .array [diagonal ⟨0⟩ [1, 2], diagonal ⟨0⟩ [1, 2]]]

theorem admits_mirrors : start.Admits mirrors := by
  have hallow {h : Host} (ns : List Int64) :
      h.Allows (.hash (ns.map fun n => (.int n, .int n))) := by
    refine allows_of_scopes_nil rfl (forall_mem_pairs.2 fun p hp => ?_)
    obtain ⟨n, -, rfl⟩ := List.mem_map.1 hp
    exact ⟨.int n, .int n⟩
  have hknown {h : Host} {vs items : List Value}
      (hmade : h.made = [diagonal ⟨0⟩ [1, 2], diagonal ⟨1⟩ [2, 1]] ++ vs)
      (hi : ∀ v ∈ items, v ∈ [diagonal ⟨0⟩ [1, 2], diagonal ⟨1⟩ [2, 1]]) :
      h.Allows (.array items) :=
    allows_of_scopes_nil rfl fun v hv => .made (hmade ▸ List.mem_append_left _ (hi v hv))
  exact ⟨hallow [1, 2], hallow [2, 1], hknown rfl (by simp), hknown rfl (by simp), trivial⟩

/-- The two arrays meet all that is asked of equal values. The text of the first one shows
two orders, and no choice of one order for each hash gives this text for the second. -/
theorem mirrors_print_apart :
    let a : Value := .array ⟨2⟩ [diagonal ⟨0⟩ [1, 2], diagonal ⟨1⟩ [2, 1]]
    let b : Value := .array ⟨3⟩ [diagonal ⟨0⟩ [1, 2], diagonal ⟨0⟩ [1, 2]]
    start.Admits mirrors ∧ (∀ entries, Request.keyedHash entries ∉ mirrors) ∧
      (start.serveAll mirrors).Knows a ∧ (start.serveAll mirrors).Knows b ∧ a.same b = true ∧
      (KeysApart fun v => v.Within a ∨ v.Within b) ∧
      ∃ a', a.Reordered a' ∧ a'.Steady ∧
        ∀ b', b.Reordered b' → b'.Steady → b'.render ≠ a'.render := by
  intro a b
  have hmade : (start.serveAll mirrors).made =
      [diagonal ⟨0⟩ [1, 2], diagonal ⟨1⟩ [2, 1], a, b] := rfl
  have hsteady : a.Steady := Value.Unshared.steady (by decide)
  refine ⟨admits_mirrors, by simp [mirrors], .made (hmade ▸ by simp), .made (hmade ▸ by simp), rfl,
    keysApart_within (by decide), a, .self a, hsteady, fun b' hb' hs => ?_⟩
  exact Value.twice_render_ne rfl (by decide) hb' hs

end Host

end Scriptlet
