import Mathlib.Data.List.Dedup
import Scriptlet.Proofs.Entries
import Scriptlet.Store

/-!
# Hashes from pairs

A list of pairs makes a hash unless one of its keys cannot be hashed; the first
such key is to blame. The hash has one entry for each hash key of the list, and
looking a key up gives the value of the last pair with its hash key, as if the
list were read from its end.
-/
namespace Scriptlet

/-! ### Pairs with a given hash key -/

/-- The kinds of values that can be keys. -/
def Kind.hashable : List Kind := [.int, .bool, .str]

namespace Value

theorem kind_mem_hashable_iff (v : Value) : v.kind ∈ Kind.hashable ↔ v.isHashable = true := by
  cases v <;> simp [kind, isHashable, Kind.hashable]

theorem hashKey_of_kind_notMem {v : Value} (h : v.kind ∉ Kind.hashable) :
    v.hashKey = .error ⟨v.kind⟩ := by
  rw [kind_mem_hashable_iff, Bool.not_eq_true] at h
  exact (v.hashKey_eq_error_iff _).2 ⟨h, rfl⟩

theorem exists_hashKey_of_kind_mem {v : Value} (h : v.kind ∈ Kind.hashable) :
    ∃ k, v.hashKey = .ok k :=
  v.isHashable_iff_hashKey.1 (v.kind_mem_hashable_iff.1 h)

def hasKey (k : HashKey) (v : Value) : Bool := decide (v.hashKey.toOption = some k)

theorem hasKey_iff (k : HashKey) (v : Value) : v.hasKey k = true ↔ v.hashKey = .ok k := by
  rw [hasKey, decide_eq_true_iff]
  cases v.hashKey <;> simp [Except.toOption]

end Value

/-- The pairs of a list whose keys have the given hash key, in their order. -/
def pairsUnder (k : HashKey) (pairs : List (Value × Value)) : List (Value × Value) :=
  pairs.filter fun p => p.1.hasKey k

/-- The value of the last pair under the given hash key. -/
def lastUnder? (k : HashKey) (pairs : List (Value × Value)) : Option Value :=
  (pairsUnder k pairs).getLast?.map Prod.snd

/-- The hash keys of a list of pairs, with repetitions. -/
def hashKeys (pairs : List (Value × Value)) : List HashKey :=
  pairs.filterMap fun p => p.1.hashKey.toOption

theorem mem_hashKeys_iff (k : HashKey) (pairs : List (Value × Value)) :
    k ∈ hashKeys pairs ↔ ∃ p ∈ pairs, p.1.hashKey = .ok k := by
  simp only [hashKeys, List.mem_filterMap]
  refine exists_congr fun p => and_congr_right fun _ => ?_
  rw [← Value.hasKey_iff, Value.hasKey, decide_eq_true_iff]

theorem lastUnder?_isSome_iff (k : HashKey) (pairs : List (Value × Value)) :
    (lastUnder? k pairs).isSome = true ↔ k ∈ hashKeys pairs := by
  rw [lastUnder?, Option.isSome_map, List.getLast?_isSome, mem_hashKeys_iff, pairsUnder]
  simp [List.filter_eq_nil_iff, Value.hasKey_iff]

theorem lastUnder?_append (k : HashKey) (front back : List (Value × Value)) :
    lastUnder? k (front ++ back) = (lastUnder? k back).or (lastUnder? k front) := by
  unfold lastUnder? pairsUnder
  rw [List.filter_append, List.getLast?_append, Option.map_or]

theorem lastUnder?_cons (k : HashKey) (p : Value × Value) (pairs : List (Value × Value)) :
    lastUnder? k (p :: pairs) =
      (lastUnder? k pairs).or (if p.1.hasKey k = true then some p.2 else none) := by
  have hone : lastUnder? k [p] = if p.1.hasKey k = true then some p.2 else none := by
    by_cases hp : p.1.hasKey k = true <;> simp [lastUnder?, pairsUnder, hp]
  rw [← List.singleton_append, lastUnder?_append, hone]

/-! ### Reading back what was put -/

namespace Keyed

variable {α κ : Type} [Keyed α κ] [DecidableEq κ]

theorem find?_isSome_iff (k : κ) (xs : List α) : (find? k xs).isSome = true ↔ k ∈ keys xs := by
  induction xs with
  | nil => simp
  | cons x xs ih =>
    by_cases h : key x = k
    · simp [find?_cons, h]
    · simp [find?_cons, h, ih, Ne.symm h]

/-- Of the elements put one after the other, the last one with a key is found
under it; what was there before shows only where nothing was put. -/
theorem find?_foldl_put (k : κ) (xs held : List α) :
    find? k (xs.foldl (fun held x => put x held) held) =
      ((xs.filter fun x => decide (key x = k)).getLast?).or (find? k held) := by
  induction xs generalizing held with
  | nil => rfl
  | cons x xs ih =>
    rw [List.foldl_cons, ih, find?_put]
    by_cases h : key x = k
    · rw [List.filter_cons_of_pos (by simpa using h), List.getLast?_cons, if_pos h]
      cases (xs.filter fun x => decide (key x = k)).getLast? <;> rfl
    · rw [List.filter_cons_of_neg (by simpa using h), if_neg h]

end Keyed

/-! ### Hashes from pairs -/

theorem addPairs_eq_error_iff (pairs : List (Value × Value)) (held : List (Entry Value))
    (e : Unhashable) :
    addPairs held pairs = .error e ↔ ∃ front k v back, pairs = front ++ (k, v) :: back ∧
      (∀ p ∈ front, p.1.kind ∈ Kind.hashable) ∧ k.kind ∉ Kind.hashable ∧ e = ⟨k.kind⟩ := by
  induction pairs generalizing held with
  | nil => simp [addPairs]
  | cons p pairs ih =>
    obtain ⟨key, value⟩ := p
    rw [addPairs]
    by_cases hk : key.kind ∈ Kind.hashable
    · obtain ⟨k, hkey⟩ := Value.exists_hashKey_of_kind_mem hk
      simp only [hkey, ih]
      constructor
      · rintro ⟨front, k', v, back, rfl, hfront, hk', rfl⟩
        exact ⟨(key, value) :: front, k', v, back, rfl,
          List.forall_mem_cons.2 ⟨hk, hfront⟩, hk', rfl⟩
      · rintro ⟨front, k', v, back, heq, hfront, hk', rfl⟩
        cases front with
        | nil =>
          cases heq
          exact absurd hk hk'
        | cons q front =>
          cases heq
          exact ⟨front, k', v, back, rfl, (List.forall_mem_cons.1 hfront).2, hk', rfl⟩
    · simp only [Value.hashKey_of_kind_notMem hk, Except.error.injEq]
      constructor
      · rintro rfl
        exact ⟨[], key, value, pairs, rfl, by simp, hk, rfl⟩
      · rintro ⟨front, k', v, back, heq, hfront, hk', rfl⟩
        cases front with
        | nil =>
          cases heq
          rfl
        | cons q front =>
          cases heq
          exact absurd (List.forall_mem_cons.1 hfront).1 hk

theorem exists_entriesOfPairs_iff (pairs : List (Value × Value)) :
    (∃ es, entriesOfPairs pairs = .ok es) ↔ ∀ p ∈ pairs, p.1.kind ∈ Kind.hashable := by
  constructor
  · rintro ⟨es, hes⟩ p hp
    obtain ⟨entries, rfl, hkeys, -⟩ := exists_keyed_of_entriesOfPairs hes
    obtain ⟨e, he, rfl⟩ := List.mem_map.1 hp
    rw [Value.kind_mem_hashable_iff, Value.isHashable_iff_hashKey]
    exact ⟨e.key, hkeys e he⟩
  · intro h
    cases he : entriesOfPairs pairs with
    | ok es => exact ⟨es, rfl⟩
    | error e =>
      obtain ⟨front, k, v, back, rfl, -, hk, -⟩ := (addPairs_eq_error_iff ..).1 he
      have hmem : (k, v) ∈ front ++ (k, v) :: back := by simp
      exact absurd (h (k, v) hmem) hk

/-- All that a hash from pairs is: its entries have the keys of what they store, no
key occurs twice, and the last pair under a key gives the value found there. -/
theorem entriesOfPairs_spec {pairs : List (Value × Value)} {es : List (Entry Value)}
    (h : entriesOfPairs pairs = .ok es) :
    (∀ e ∈ es, e.stored.hashKey = .ok e.key) ∧ (Keyed.keys es).Nodup ∧
      ∀ k, (Keyed.find? k es).map Entry.value = lastUnder? k pairs := by
  have hnodup := nodup_keys_entriesOfPairs h
  obtain ⟨entries, rfl, hkeys, rfl⟩ := exists_keyed_of_entriesOfPairs h
  refine ⟨fun e he => hkeys e (mem_of_mem_entriesOfKeyed he), hnodup, fun k => ?_⟩
  have hfilter : entries.filter (fun e => decide (Keyed.key e = k)) =
      entries.filter ((fun p => p.1.hasKey k) ∘ fun e => (e.stored, e.value)) := by
    refine List.filter_congr fun e he => ?_
    rw [Bool.eq_iff_iff, decide_eq_true_iff, Function.comp_apply, Value.hasKey_iff, hkeys e he]
    simp
  rw [entriesOfKeyed, Keyed.find?_foldl_put, Keyed.find?_nil, Option.or_none, hfilter, lastUnder?,
    pairsUnder, List.filter_map, List.getLast?_map, Option.map_map]
  rfl

theorem keys_perm_of_entriesOfPairs {pairs : List (Value × Value)} {es : List (Entry Value)}
    (h : entriesOfPairs pairs = .ok es) : (Keyed.keys es).Perm (hashKeys pairs).dedup := by
  obtain ⟨-, hnodup, hfind⟩ := entriesOfPairs_spec h
  refine (List.perm_ext_iff_of_nodup hnodup (List.nodup_dedup _)).2 fun k => ?_
  rw [List.mem_dedup, ← Keyed.find?_isSome_iff, ← lastUnder?_isSome_iff, ← hfind, Option.isSome_map]

theorem Value.lookup_hash {k : Value} {key : HashKey} (h : k.hashKey = .ok key) (s : Stamp)
    (es : List (Entry Value)) :
    (Value.hash s es).lookup k = .ok ((Keyed.find? key es).map Entry.value) := by
  simp only [lookup, entries?, h]

namespace Store

theorem newHash_eq_ok_iff (st st' : Store) (pairs : List (Value × Value)) (v : Value) :
    st.newHash pairs = .ok (v, st') ↔
      ∃ es, entriesOfPairs pairs = .ok es ∧ v = .hash st.next es ∧ st' = st.tick := by
  rw [newHash]
  cases entriesOfPairs pairs <;> simp [eq_comm]

theorem newHash_eq_error_iff (st : Store) (pairs : List (Value × Value)) (e : Unhashable) :
    st.newHash pairs = .error e ↔ ∃ front k v back, pairs = front ++ (k, v) :: back ∧
      (∀ p ∈ front, p.1.kind ∈ Kind.hashable) ∧ k.kind ∉ Kind.hashable ∧ e = ⟨k.kind⟩ := by
  have hcause : st.newHash pairs = .error e ↔ entriesOfPairs pairs = .error e := by
    rw [newHash]
    cases entriesOfPairs pairs <;> simp
  rw [hcause, entriesOfPairs, addPairs_eq_error_iff]

/-- Making a hash from pairs fails exactly when some key cannot be hashed, and
names the kind of the first such key. Otherwise the hash maps each hash key of
the list to the value of the last pair with it, and nothing else. -/
theorem newHash_last_write_wins (st : Store) (pairs : List (Value × Value)) :
    ((∃ e, st.newHash pairs = .error e) ↔ ∃ p ∈ pairs, p.1.kind ∉ Kind.hashable) ∧
    (∀ e, st.newHash pairs = .error e ↔ ∃ front k v back, pairs = front ++ (k, v) :: back ∧
      (∀ p ∈ front, p.1.kind ∈ Kind.hashable) ∧ k.kind ∉ Kind.hashable ∧ e = ⟨k.kind⟩) ∧
    ((∀ p ∈ pairs, p.1.kind ∈ Kind.hashable) → ∃ es,
      st.newHash pairs = .ok (.hash st.next es, st.tick) ∧
      (∀ e ∈ es, e.stored.hashKey = .ok e.key) ∧
      es.length = (hashKeys pairs).dedup.length ∧
      (∀ k e, k.hashKey = .error e →
        (Value.hash st.next es).lookup k = .error (.unhashable ⟨k.kind⟩)) ∧
      ∀ k key, k.hashKey = .ok key →
        (Value.hash st.next es).lookup k = .ok (lastUnder? key pairs)) ∧
    ∀ receiver k : Value, receiver.kind ≠ .hash →
      receiver.lookup k = .error (.notHash receiver.kind) := by
  refine ⟨⟨?_, ?_⟩, st.newHash_eq_error_iff pairs, fun h => ?_, fun receiver k h => ?_⟩
  · rintro ⟨e, he⟩
    obtain ⟨front, k, v, back, rfl, -, hk, -⟩ := (newHash_eq_error_iff ..).1 he
    exact ⟨(k, v), by simp, hk⟩
  · rintro ⟨p, hp, hk⟩
    cases he : st.newHash pairs with
    | error e => exact ⟨e, rfl⟩
    | ok r =>
      obtain ⟨es, hes, -⟩ := (newHash_eq_ok_iff ..).1 he
      exact absurd ((exists_entriesOfPairs_iff pairs).1 ⟨es, hes⟩ p hp) hk
  · obtain ⟨es, hes⟩ := (exists_entriesOfPairs_iff pairs).2 h
    obtain ⟨hstored, -, hfind⟩ := entriesOfPairs_spec hes
    refine ⟨es, (newHash_eq_ok_iff ..).2 ⟨es, hes, rfl, rfl⟩, hstored, ?_, fun k e hk => ?_,
      fun k key hk => ?_⟩
    · rw [← (keys_perm_of_entriesOfPairs hes).length_eq, Keyed.keys, List.length_map]
    · obtain ⟨-, rfl⟩ := (k.hashKey_eq_error_iff e).1 hk
      simp only [Value.lookup, Value.entries?, hk]
    · rw [Value.lookup_hash hk, hfind]
  · cases receiver with
    | hash s es => exact absurd rfl h
    | _ => rfl

/-- An integer key that is written twice, with a boolean key between. -/
theorem newHash_overwrites :
    let pairs : List (Value × Value) := [(.int 1, .null), (.bool true, .int 2), (.int 1, .int 3)]
    (∀ p ∈ pairs, p.1.kind ∈ Kind.hashable) ∧ ∃ es,
      empty.newHash pairs = .ok (.hash ⟨0⟩ es, empty.tick) ∧ es.length = 2 ∧
        (Value.hash ⟨0⟩ es).lookup (.int 1) = .ok (some (.int 3)) := by
  intro pairs
  have hp : ∀ p ∈ pairs, p.1.kind ∈ Kind.hashable := by decide
  obtain ⟨es, hes, -, hlen, -, hlookup⟩ := (newHash_last_write_wins empty pairs).2.2.1 hp
  exact ⟨hp, es, hes, hlen, hlookup (.int 1) _ rfl⟩

end Store

end Scriptlet
