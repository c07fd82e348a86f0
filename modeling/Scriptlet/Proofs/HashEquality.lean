import Scriptlet.Proofs.LastWrite
import Scriptlet.Proofs.Likeness

/-!
# Equality of hashes

Hashes are compared by their sizes and by going through the entries of one of
them. That comes to the same as asking both for every key: two hashes are equal
when each look-up finds nothing in both or equal values in both. How the pairs
were ordered, and what was overwritten, leaves no trace.
-/
namespace Scriptlet

/-! ### Hashes as maps -/

/-- Two look-ups fail for one reason, find nothing, or find equal values. -/
inductive SameFound :
    Except LookupError (Option Value) → Except LookupError (Option Value) → Prop where
  | failed (e : LookupError) : SameFound (.error e) (.error e)
  | absent : SameFound (.ok none) (.ok none)
  | found {v w : Value} (h : v.same w = true) : SameFound (.ok (some v)) (.ok (some w))

theorem optionRel_iff {α : Type} {R : α → α → Prop} (o o' : Option α) :
    Option.Rel R o o' ↔
      (o.isSome = true ↔ o'.isSome = true) ∧ ∀ v w, o = some v → o' = some w → R v w := by
  constructor
  · intro h
    cases h with
    | none => simp
    | some h => simpa using h
  · rintro ⟨hsome, hrel⟩
    cases o with
    | none =>
      cases o' with
      | none => exact .none
      | some w => simp at hsome
    | some v =>
      cases o' with
      | none => simp at hsome
      | some w => exact .some (hrel v w rfl rfl)

theorem sameFound_ok_iff (o o' : Option Value) :
    SameFound (.ok o) (.ok o') ↔ Option.Rel (fun v w => v.same w = true) o o' := by
  constructor
  · intro h
    cases h with
    | absent => exact .none
    | found h => exact .some h
  · intro h
    cases h with
    | none => exact .absent
    | some h => exact .found h

theorem Keyed.length_eq_of_mem_keys_iff {α κ : Type} [Keyed α κ] {xs ys : List α}
    (hx : (Keyed.keys xs).Nodup) (hy : (Keyed.keys ys).Nodup)
    (h : ∀ k, k ∈ Keyed.keys xs ↔ k ∈ Keyed.keys ys) : xs.length = ys.length := by
  have hperm := ((List.perm_ext_iff_of_nodup hx hy).2 h).length_eq
  rwa [Keyed.keys, Keyed.keys, List.length_map, List.length_map] at hperm

theorem same_hash_iff {s t : Stamp} {es fs : List (Entry Value)} (he : (Keyed.keys es).Nodup)
    (hf : (Keyed.keys fs).Nodup) :
    (Value.hash s es).same (.hash t fs) = true ↔
      ∀ k, Option.Rel (fun v w => v.same w = true)
        ((Keyed.find? k es).map Entry.value) ((Keyed.find? k fs).map Entry.value) := by
  rw [Value.same, Bool.and_eq_true, beq_iff_eq, entriesWithin_iff]
  constructor
  · rintro ⟨hlen, hes⟩ k
    cases hk : Keyed.find? k es with
    | some e =>
      obtain ⟨f, hfind, hef⟩ := hes e (Keyed.mem_of_find?_eq_some hk)
      rw [← Keyed.key_of_find?_eq_some hk, Entry.keyed_key, hfind]
      exact .some hef
    | none =>
      -- a key that only the right side has would be one too many there
      have hback := Keyed.exists_key_eq_of_length_eq he hlen fun e hmem => by
        obtain ⟨f, hfind, -⟩ := hes e hmem
        exact ⟨f, Keyed.mem_of_find?_eq_some hfind, Keyed.key_of_find?_eq_some hfind⟩
      cases hk' : Keyed.find? k fs with
      | none => exact .none
      | some f =>
        obtain ⟨e, hmem, hef⟩ := hback f (Keyed.mem_of_find?_eq_some hk')
        have hfound := Keyed.find?_of_mem he hmem
        rw [hef, Keyed.key_of_find?_eq_some hk', hk] at hfound
        cases hfound
  · intro h
    simp only [optionRel_iff, Option.isSome_map, Keyed.find?_isSome_iff, forall_and] at h
    obtain ⟨hkeys, hvalues⟩ := h
    refine ⟨Keyed.length_eq_of_mem_keys_iff he hf hkeys, fun e hmem => ?_⟩
    have hfound : Keyed.find? e.key es = some e := Keyed.find?_of_mem he hmem
    have hkey : e.key ∈ Keyed.keys fs := (hkeys e.key).1 (List.mem_map_of_mem hmem)
    obtain ⟨f, hfind⟩ := Option.isSome_iff_exists.1 ((Keyed.find?_isSome_iff ..).2 hkey)
    exact ⟨f, hfind, hvalues e.key e.value f.value (by rw [hfound]; rfl) (by rw [hfind]; rfl)⟩

/-! ### Rearranged pairs -/

/-- Two neighbours with different hash keys change places, or a pair is left out
that a later one with its hash key overwrites. -/
inductive Rearranged : List (Value × Value) → List (Value × Value) → Prop where
  | swap (front back : List (Value × Value)) (p q : Value × Value)
      (h : p.1.hashKey ≠ q.1.hashKey) :
      Rearranged (front ++ p :: q :: back) (front ++ q :: p :: back)
  | drop (front mid back : List (Value × Value)) (p q : Value × Value)
      (h : p.1.hashKey = q.1.hashKey) :
      Rearranged (front ++ p :: (mid ++ q :: back)) (front ++ (mid ++ q :: back))

namespace Rearranged

variable {ps qs : List (Value × Value)}

theorem subset (h : Rearranged ps qs) : qs ⊆ ps := by
  intro x hx
  cases h with
  | swap front back p q =>
    simp only [List.mem_append, List.mem_cons] at hx ⊢
    tauto
  | drop front mid back p q =>
    simp only [List.mem_append, List.mem_cons] at hx ⊢
    tauto

theorem lastUnder?_eq (h : Rearranged ps qs) (k : HashKey) : lastUnder? k ps = lastUnder? k qs := by
  cases h with
  | swap front back p q hne =>
    -- of two pairs with different hash keys, only one can be under `k`
    have hone : ¬(p.1.hasKey k = true ∧ q.1.hasKey k = true) := by
      rw [Value.hasKey_iff, Value.hasKey_iff]
      exact fun hpq => hne (hpq.1.trans hpq.2.symm)
    have hswap : lastUnder? k (p :: q :: back) = lastUnder? k (q :: p :: back) := by
      simp only [lastUnder?_cons, Option.or_assoc]
      by_cases hp : p.1.hasKey k = true
      · rw [if_neg fun hq => hone ⟨hp, hq⟩, Option.none_or, Option.or_none]
      · rw [if_neg hp, Option.none_or, Option.or_none]
    rw [lastUnder?_append, hswap, ← lastUnder?_append]
  | drop front mid back p q heq =>
    have hdrop : lastUnder? k (p :: (mid ++ q :: back)) = lastUnder? k (mid ++ q :: back) := by
      rw [lastUnder?_cons, lastUnder?_append, lastUnder?_cons]
      by_cases hp : p.1.hasKey k = true
      · have hq : q.1.hasKey k = true := by
          rw [Value.hasKey_iff] at hp ⊢
          exact heq ▸ hp
        rw [if_pos hq]
        cases lastUnder? k back <;> rfl
      · rw [if_neg hp, Option.or_none]
    rw [lastUnder?_append, hdrop, ← lastUnder?_append]

theorem iterated (h : Relation.ReflTransGen Rearranged ps qs) :
    qs ⊆ ps ∧ ∀ k, lastUnder? k ps = lastUnder? k qs := by
  induction h with
  | refl => exact ⟨fun _ hp => hp, fun _ => rfl⟩
  | tail _ hstep ih =>
    refine ⟨fun p hp => ih.1 (hstep.subset hp), fun k => ?_⟩
    rw [ih.2 k, hstep.lastUnder?_eq k]

end Rearranged

theorem mem_values_of_lastUnder? {k : HashKey} {ps : List (Value × Value)} {v : Value}
    (h : lastUnder? k ps = some v) : ∃ p ∈ ps, p.2 = v := by
  obtain ⟨p, hp, rfl⟩ := Option.map_eq_some_iff.1 h
  exact ⟨p, (List.mem_filter.1 (List.mem_of_getLast? hp)).1, rfl⟩

namespace Store

variable {st st' after after' : Store} {ps qs : List (Value × Value)} {h h' : Value}

/-- Two hashes from pairs are equal when the last pairs under each key are. -/
theorem same_newHash_iff (hp : st.newHash ps = .ok (h, after))
    (hq : st'.newHash qs = .ok (h', after')) :
    h.same h' = true ↔
      ∀ k, Option.Rel (fun v w => v.same w = true) (lastUnder? k ps) (lastUnder? k qs) := by
  obtain ⟨es, hes, rfl, -⟩ := (newHash_eq_ok_iff ..).1 hp
  obtain ⟨fs, hfs, rfl, -⟩ := (newHash_eq_ok_iff ..).1 hq
  obtain ⟨-, hn, hfind⟩ := entriesOfPairs_spec hes
  obtain ⟨-, hn', hfind'⟩ := entriesOfPairs_spec hfs
  rw [same_hash_iff hn hn']
  simp only [hfind, hfind']

theorem lookup_newHash (hp : st.newHash ps = .ok (h, after)) {k : Value} {key : HashKey}
    (hk : k.hashKey = .ok key) : h.lookup k = .ok (lastUnder? key ps) := by
  obtain ⟨es, hes, rfl, -⟩ := (newHash_eq_ok_iff ..).1 hp
  rw [Value.lookup_hash hk, (entriesOfPairs_spec hes).2.2]

theorem lastUnder?_rel_iff_lookup (hp : st.newHash ps = .ok (h, after))
    (hq : st'.newHash qs = .ok (h', after')) :
    (∀ k, Option.Rel (fun v w => v.same w = true) (lastUnder? k ps) (lastUnder? k qs)) ↔
      ∀ k : Value, k.isHashable = true → SameFound (h.lookup k) (h'.lookup k) := by
  constructor
  · intro hrel k hk
    obtain ⟨key, hkey⟩ := k.isHashable_iff_hashKey.1 hk
    rw [lookup_newHash hp hkey, lookup_newHash hq hkey, sameFound_ok_iff]
    exact hrel key
  · intro hfound key
    by_cases hmem : key ∈ hashKeys (ps ++ qs)
    · obtain ⟨p, -, hkey⟩ := (mem_hashKeys_iff key _).1 hmem
      have hk := hfound p.1 (p.1.isHashable_iff_hashKey.2 ⟨key, hkey⟩)
      rwa [lookup_newHash hp hkey, lookup_newHash hq hkey, sameFound_ok_iff] at hk
    · rw [← lastUnder?_isSome_iff, lastUnder?_append, Bool.not_eq_true, Option.isSome_eq_false_iff,
        Option.isNone_iff_eq_none, Option.or_eq_none_iff] at hmem
      rw [hmem.1, hmem.2]
      exact .none

/-- Two hashes from pairs are equal exactly when every look-up finds nothing in
both or equal values in both, and exactly when the lists of pairs have the same
hash keys and equal values in their last pairs. Rearranging the pairs gives an
equal hash again, where the values in the pairs are such as can be made: none of
the hashes in them has a key twice (see `Coherent.wellKeyed`). -/
theorem newHash_equality_is_extensional (hp : st.newHash ps = .ok (h, after)) :
    (∀ (st' after' : Store) (qs : List (Value × Value)) (h' : Value),
      st'.newHash qs = .ok (h', after') →
      (h.same h' = true ↔
        ∀ k : Value, k.isHashable = true → SameFound (h.lookup k) (h'.lookup k)) ∧
      (h.same h' = true ↔
        (∀ k, k ∈ hashKeys ps ↔ k ∈ hashKeys qs) ∧
        ∀ k v w, lastUnder? k ps = some v → lastUnder? k qs = some w → v.same w = true)) ∧
    ((∀ p ∈ ps, p.2.WellKeyed) → ∀ (st' : Store) (qs : List (Value × Value)),
      Relation.ReflTransGen Rearranged ps qs →
      ∃ h' after', st'.newHash qs = .ok (h', after') ∧ h.same h' = true) := by
  refine ⟨fun st' after' qs h' hq => ?_, fun hwell st' qs hqs => ?_⟩
  · have hsame := same_newHash_iff hp hq
    refine ⟨hsame.trans (lastUnder?_rel_iff_lookup hp hq), hsame.trans ?_⟩
    simp only [optionRel_iff, forall_and, lastUnder?_isSome_iff]
  · obtain ⟨hsub, hlast⟩ := Rearranged.iterated hqs
    obtain ⟨fs, hfs, -⟩ := (newHash_eq_ok_iff ..).1 hp
    have hkinds : ∀ p ∈ qs, p.1.kind ∈ Kind.hashable := fun p hmem =>
      (exists_entriesOfPairs_iff ps).1 ⟨fs, hfs⟩ p (hsub hmem)
    obtain ⟨es, hes⟩ := (exists_entriesOfPairs_iff qs).2 hkinds
    have hq : st'.newHash qs = .ok (.hash st'.next es, st'.tick) :=
      (newHash_eq_ok_iff ..).2 ⟨es, hes, rfl, rfl⟩
    refine ⟨_, _, hq, (same_newHash_iff hp hq).2 fun k => ?_⟩
    rw [← hlast k]
    cases hv : lastUnder? k ps with
    | none => exact .none
    | some v =>
      obtain ⟨p, hmem, rfl⟩ := mem_values_of_lastUnder? hv
      exact .some (same_self (hwell p hmem))

theorem newHash_rearranged :
    let ps : List (Value × Value) := [(.int 1, .int 10), (.bool true, .int 2), (.int 1, .int 3)]
    let qs : List (Value × Value) := [(.int 1, .int 3), (.bool true, .int 2)]
    (∀ p ∈ ps, p.2.WellKeyed) ∧ Relation.ReflTransGen Rearranged ps qs ∧
      ∃ h after h' after', empty.newHash ps = .ok (h, after) ∧
        newHash after qs = .ok (h', after') ∧ h.same h' = true := by
  intro ps qs
  have hleaf (n : Int64) : (Value.int n).WellKeyed := by
    intro s es hin
    cases hin with
    | tail _ hpart => cases hpart
  have hwell : ∀ p ∈ ps, p.2.WellKeyed := by simp [ps, hleaf]
  have hdrop : Rearranged ps [(.bool true, .int 2), (.int 1, .int 3)] :=
    .drop [] [(.bool true, .int 2)] [] (.int 1, .int 10) (.int 1, .int 3) rfl
  have hswap : Rearranged [(.bool true, .int 2), (.int 1, .int 3)] qs :=
    .swap [] [] (.bool true, .int 2) (.int 1, .int 3) (by simp [Value.hashKey])
  have hqs : Relation.ReflTransGen Rearranged ps qs := .tail (.single hdrop) hswap
  obtain ⟨h', after', hq, hsame⟩ :=
    (newHash_equality_is_extensional rfl).2 hwell empty.tick qs hqs
  exact ⟨hwell, hqs, _, _, h', after', rfl, hq, hsame⟩

end Store

end Scriptlet
