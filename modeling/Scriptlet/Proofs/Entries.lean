import Scriptlet.Value.Hash

/-!
# Entries of hashes

However a hash is made, it holds one entry a key, and each of its entries was
given to it.
-/
namespace Scriptlet

theorem Keyed.mem_of_mem_put {α κ : Type} [Keyed α κ] [DecidableEq κ] {x y : α} {xs : List α}
    (h : y ∈ Keyed.put x xs) : y = x ∨ y ∈ xs := by
  induction xs with
  | nil => exact Or.inl (List.mem_singleton.1 h)
  | cons z zs ih =>
    rw [Keyed.put] at h
    split at h
    · rcases List.mem_cons.1 h with h | h
      · exact Or.inl h
      · exact Or.inr (List.mem_cons_of_mem _ h)
    · rcases List.mem_cons.1 h with h | h
      · exact Or.inr (h ▸ List.mem_cons_self)
      · exact (ih h).imp_right (List.mem_cons_of_mem _)

theorem Keyed.mem_foldl_put {α κ : Type} [Keyed α κ] [DecidableEq κ] {xs held : List α} {x : α}
    (h : x ∈ xs.foldl (fun held x => Keyed.put x held) held) : x ∈ held ∨ x ∈ xs := by
  induction xs generalizing held with
  | nil => exact Or.inl h
  | cons y ys ih =>
    rcases ih h with hput | hmem
    · rcases Keyed.mem_of_mem_put hput with rfl | hheld
      · exact Or.inr List.mem_cons_self
      · exact Or.inl hheld
    · exact Or.inr (List.mem_cons_of_mem _ hmem)

theorem Keyed.nodup_keys_foldl_put {α κ : Type} [Keyed α κ] [DecidableEq κ] (xs : List α)
    {held : List α} (hn : (Keyed.keys held).Nodup) :
    (Keyed.keys (xs.foldl (fun held x => Keyed.put x held) held)).Nodup := by
  induction xs generalizing held with
  | nil => exact hn
  | cons x xs ih => exact ih (Keyed.nodup_keys_put hn x)

/-! ### Entries with given keys -/

theorem nodup_keys_entriesOfKeyed (entries : List (Entry Value)) :
    (Keyed.keys (entriesOfKeyed entries)).Nodup :=
  Keyed.nodup_keys_foldl_put entries List.nodup_nil

theorem mem_of_mem_entriesOfKeyed {entries : List (Entry Value)} {e : Entry Value}
    (h : e ∈ entriesOfKeyed entries) : e ∈ entries :=
  (Keyed.mem_foldl_put h).resolve_left List.not_mem_nil

/-! ### Entries from pairs -/

/-- Adding pairs puts one entry for each pair, under the key of what it stores. -/
theorem exists_entries_of_addPairs {pairs : List (Value × Value)} {held es : List (Entry Value)}
    (h : addPairs held pairs = .ok es) :
    ∃ entries : List (Entry Value), entries.map (fun e => (e.stored, e.value)) = pairs ∧
      (∀ e ∈ entries, e.stored.hashKey = .ok e.key) ∧
      entries.foldl (fun held e => Keyed.put e held) held = es := by
  induction pairs generalizing held with
  | nil =>
    cases h
    exact ⟨[], rfl, by simp, rfl⟩
  | cons p pairs ih =>
    obtain ⟨key, value⟩ := p
    rw [addPairs] at h
    cases hk : key.hashKey with
    | ok k =>
      rw [hk] at h
      obtain ⟨entries, hmap, hkeys, hes⟩ := ih h
      refine ⟨⟨k, key, value⟩ :: entries, by rw [List.map_cons, hmap], ?_, hes⟩
      exact List.forall_mem_cons.2 ⟨hk, hkeys⟩
    | error f =>
      rw [hk] at h
      cases h

theorem exists_keyed_of_entriesOfPairs {pairs : List (Value × Value)} {es : List (Entry Value)}
    (h : entriesOfPairs pairs = .ok es) :
    ∃ entries : List (Entry Value), entries.map (fun e => (e.stored, e.value)) = pairs ∧
      (∀ e ∈ entries, e.stored.hashKey = .ok e.key) ∧ entriesOfKeyed entries = es :=
  exists_entries_of_addPairs h

theorem nodup_keys_entriesOfPairs {pairs : List (Value × Value)} {es : List (Entry Value)}
    (h : entriesOfPairs pairs = .ok es) : (Keyed.keys es).Nodup := by
  obtain ⟨entries, -, -, rfl⟩ := exists_keyed_of_entriesOfPairs h
  exact nodup_keys_entriesOfKeyed entries

theorem mem_of_mem_entriesOfPairs {pairs : List (Value × Value)} {es : List (Entry Value)}
    (h : entriesOfPairs pairs = .ok es) {e : Entry Value} (he : e ∈ es) :
    (e.stored, e.value) ∈ pairs := by
  obtain ⟨entries, rfl, -, rfl⟩ := exists_keyed_of_entriesOfPairs h
  exact List.mem_map_of_mem (mem_of_mem_entriesOfKeyed he)

end Scriptlet
