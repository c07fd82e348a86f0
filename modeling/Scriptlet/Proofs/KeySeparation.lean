import Scriptlet.Proofs.Congruence

/-!
# Which values share a hash key

A hash key is a kind with a word. The word of an integer or a boolean tells the
value, the word of a string only the hash of its text. So equal values share
their key, and different ones do at most when both are strings. As long as the
strings at hand have different hashes, a look-up therefore goes by equality of
values, although only hash keys are compared.
-/
namespace Scriptlet

namespace Value

/-- Both are strings, and their texts have one hash. -/
def TextsCollide (v w : Value) : Prop :=
  ∃ s t x y, v = .str s x ∧ w = .str t y ∧ Fnv.ofString x = Fnv.ofString y

variable {v w : Value} {k : HashKey}

theorem alike_or_collide (hv : v.hashKey = .ok k) (hw : w.hashKey = .ok k) :
    v.alike w = true ∨ v.TextsCollide w := by
  have hsame : v.hashKey = w.hashKey := hv.trans hw.symm
  cases v with
  | int n =>
    cases w with
    | int m =>
      have hword : n.toUInt64 = m.toUInt64 := by simpa [hashKey] using hsame
      have hnm : n = m := congrArg Int64.ofUInt64 hword
      exact Or.inl (hnm ▸ alike_int n)
    | _ => simp [hashKey] at hsame
  | bool b =>
    cases w with
    | bool c => cases b <;> cases c <;> simp [hashKey, alike] at hsame ⊢
    | _ => simp [hashKey] at hsame
  | str s x =>
    cases w with
    | str t y =>
      have hword : Fnv.ofString x = Fnv.ofString y := by simpa [hashKey] using hsame
      exact Or.inr ⟨s, t, x, y, rfl, rfl, hword⟩
    | _ => simp [hashKey] at hsame
  | _ => cases hv

theorem hashKey_eq_of_collide (h : v.TextsCollide w) : v.hashKey = w.hashKey := by
  obtain ⟨s, t, x, y, rfl, rfl, hxy⟩ := h
  rw [hashKey, hashKey, hxy]

end Value

/-- No two different strings among the values have one hash. -/
def TextsApart (vs : List Value) : Prop :=
  ∀ s t x y, .str s x ∈ vs → .str t y ∈ vs → Fnv.ofString x = Fnv.ofString y → x = y

namespace Coherent

variable {K : Value → Prop} {v w : Value} {k l : HashKey}

theorem key_eq_iff (hK : Coherent K) (hv : K v) (hw : K w) (hvk : v.hashKey = .ok k)
    (hwl : w.hashKey = .ok l) : k = l ↔ v.same w = true ∨ v.TextsCollide w := by
  rw [hK.same_eq_alike hv hw]
  constructor
  · rintro rfl
    exact Value.alike_or_collide hvk hwl
  · intro h
    have hkeys : v.hashKey = w.hashKey :=
      h.elim Value.hashKey_eq_of_alike Value.hashKey_eq_of_collide
    rw [hvk, hwl] at hkeys
    exact Except.ok.inj hkeys

theorem hasKey_iff_same (hK : Coherent K) {vs : List Value} (hvs : ∀ u ∈ vs, K u)
    (hapart : TextsApart vs) (hv : v ∈ vs) (hw : w ∈ vs) (hhash : v.isHashable = true)
    (hwk : w.hashKey = .ok k) : v.hasKey k = true ↔ v.same w = true := by
  obtain ⟨l, hvl⟩ := v.isHashable_iff_hashKey.1 hhash
  have hkey : l = k ↔ v.same w = true ∨ v.TextsCollide w :=
    hK.key_eq_iff (hvs v hv) (hvs w hw) hvl hwk
  have hcollide : v.TextsCollide w → v.same w = true := by
    rintro ⟨s, t, x, y, rfl, rfl, hxy⟩
    rw [hK.same_eq_alike (hvs _ hv) (hvs _ hw), hapart s t x y hv hw hxy]
    simp [Value.alike]
  rw [Value.hasKey_iff, hvl, Except.ok.injEq, hkey]
  exact or_iff_left_of_imp hcollide

end Coherent

/-! ### Look-ups -/

theorem lastUnder?_of_split {k : HashKey} {front back : List (Value × Value)} {p : Value × Value}
    (hp : p.1.hasKey k = true) (hback : ∀ q ∈ back, q.1.hasKey k = false) :
    lastUnder? k (front ++ p :: back) = some p.2 := by
  have hnone : lastUnder? k back = none := by
    rw [← Option.not_isSome_iff_eq_none, lastUnder?_isSome_iff, mem_hashKeys_iff]
    rintro ⟨q, hq, hkey⟩
    rw [← Value.hasKey_iff, hback q hq] at hkey
    cases hkey
  rw [lastUnder?_append, lastUnder?_cons, hnone, if_pos hp, Option.none_or, Option.some_or]

namespace Host

/-- Two values that a host knows and that have hash keys share their key exactly
when they are equal, or both are strings with one hash. So in a hash made from
pairs whose keys are known and can be hashed, where no two different strings
among these keys and the key asked for have one hash, something is found exactly
when one of the keys equals the one asked for: the value of the last such pair. -/
theorem keys_separate_values {h : Host} (hl : start.Leads h) :
    (∀ v w k l, h.Knows v → h.Knows w → v.hashKey = .ok k → w.hashKey = .ok l →
      (k = l ↔ v.same w = true ∨ v.TextsCollide w)) ∧
    ∀ (pairs : List (Value × Value)) (key : Value),
      (∀ v ∈ key :: pairs.map Prod.fst, h.Knows v ∧ v.isHashable = true) →
      TextsApart (key :: pairs.map Prod.fst) →
      ∃ made after found, h.store.newHash pairs = .ok (made, after) ∧
        made.lookup key = .ok found ∧
        (found.isSome = true ↔ ∃ p ∈ pairs, p.1.same key = true) ∧
        ∀ front p back, pairs = front ++ p :: back → p.1.same key = true →
          (∀ q ∈ back, q.1.same key = false) → found = some p.2 := by
  have hc : Coherent h.Knows := (hl.sound sound_start).coherent
  refine ⟨fun v w k l hv hw => hc.key_eq_iff hv hw, fun pairs key hkeys hapart => ?_⟩
  have hmem {p : Value × Value} (hp : p ∈ pairs) : p.1 ∈ key :: pairs.map Prod.fst :=
    List.mem_cons_of_mem _ (List.mem_map_of_mem hp)
  obtain ⟨k, hk⟩ := key.isHashable_iff_hashKey.1 (hkeys key List.mem_cons_self).2
  have hunder {p : Value × Value} (hp : p ∈ pairs) :
      p.1.hasKey k = true ↔ p.1.same key = true :=
    hc.hasKey_iff_same (fun v hv => (hkeys v hv).1) hapart (hmem hp) List.mem_cons_self
      (hkeys p.1 (hmem hp)).2 hk
  obtain ⟨es, hes⟩ := (exists_entriesOfPairs_iff pairs).2 fun p hp =>
    p.1.kind_mem_hashable_iff.2 (hkeys p.1 (hmem hp)).2
  have hmade : h.store.newHash pairs = .ok (.hash h.store.next es, h.store.tick) :=
    (Store.newHash_eq_ok_iff ..).2 ⟨es, hes, rfl, rfl⟩
  refine ⟨_, _, lastUnder? k pairs, hmade, Store.lookup_newHash hmade hk, ?_, ?_⟩
  · rw [lastUnder?_isSome_iff, mem_hashKeys_iff]
    refine exists_congr fun p => and_congr_right fun hp => ?_
    rw [← Value.hasKey_iff, hunder hp]
  · rintro front p back rfl hp hback
    refine lastUnder?_of_split ((hunder (by simp)).2 hp) fun q hq => ?_
    rw [← Bool.not_eq_true, hunder (by simp [hq]), hback q hq]
    exact Bool.false_ne_true

def spellings : List Request := [.str "1", .str "1", .str "2"]

theorem spellings_are_told_apart :
    let h := start.serveAll spellings
    let pairs : List (Value × Value) := [(.int 1, .null), (.str ⟨0⟩ "1", .int 2),
      (.bool true, .int 3), (.str ⟨0⟩ "1", .int 4), (.str ⟨2⟩ "2", .int 5), (.int (-1), .int 6)]
    let keys := .str ⟨1⟩ "1" :: pairs.map Prod.fst
    start.Leads h ∧ (∀ v ∈ keys, h.Knows v ∧ v.isHashable = true) ∧ TextsApart keys ∧
      ∃ made after, h.store.newHash pairs = .ok (made, after) ∧
        made.lookup (.str ⟨1⟩ "1") = .ok (some (.int 4)) := by
  intro h pairs keys
  have hl : start.Leads h :=
    ⟨spellings, ⟨allows_plain rfl rfl, allows_plain rfl rfl, allows_plain rfl rfl, trivial⟩, rfl⟩
  have hknown : ∀ v ∈ [Value.str ⟨0⟩ "1", .str ⟨1⟩ "1", .str ⟨2⟩ "2"], h.Knows v :=
    fun v hv => .made hv
  have hkeys : ∀ v ∈ keys, h.Knows v ∧ v.isHashable = true := by
    simp only [List.forall_mem_cons] at hknown
    obtain ⟨h₀, h₁, h₂, -⟩ := hknown
    have hint (n : Int64) : h.Knows (.int n) := .int n
    have hbool (b : Bool) : h.Knows (.bool b) := .bool b
    simp [keys, pairs, h₀, h₁, h₂, hint, hbool, Value.isHashable]
  have hne : Fnv.ofString "1" ≠ Fnv.ofString "2" := by decide
  have hapart : TextsApart keys := by
    have htext : ∀ v ∈ keys, ∀ u z, v = .str u z → z = "1" ∨ z = "2" := by simp [keys, pairs]
    intro s t x y hx hy hxy
    rcases htext _ hx s x rfl with rfl | rfl <;> rcases htext _ hy t y rfl with rfl | rfl
    · rfl
    · exact absurd hxy hne
    · exact absurd hxy.symm hne
    · rfl
  obtain ⟨made, after, found, hmade, hfound, -, hlast⟩ :=
    (keys_separate_values hl).2 pairs (.str ⟨1⟩ "1") hkeys hapart
  have hlater : ∀ q ∈ pairs.drop 4, q.1.same (.str ⟨1⟩ "1") = false := by decide
  rw [hlast (pairs.take 3) (.str ⟨0⟩ "1", .int 4) (pairs.drop 4) rfl (by decide) hlater] at hfound
  exact ⟨hl, hkeys, hapart, made, after, hmade, hfound⟩

end Host

end Scriptlet
