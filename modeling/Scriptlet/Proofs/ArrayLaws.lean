import Scriptlet.Proofs.Host

/-!
# Laws of the array builtins

Scripts walk along an array by `first` and `rest` and build one up by `push`. On an array
each builtin is an operation on its items: `rest` drops the first one, `push` adds one at
the end, and the others look. Taking `rest` again and again therefore shows the items one
by one, and pushing them one by one onto an empty array gives back an equal array.
-/
namespace Scriptlet

namespace Store

/-- The value and the store after as many calls of `rest` in a row. -/
def restTimes (st : Store) (id : ChannelId) : Nat → Value → Value × Store
  | 0, v => (v, st)
  | k + 1, v => (st.call id .rest [v]).2.restTimes id k (st.call id .rest [v]).1

/-- The value and the store after pushing the items onto the value, one call for each. -/
def pushAll (st : Store) (id : ChannelId) (v : Value) : List Value → Value × Store
  | [] => (v, st)
  | x :: xs => (st.call id .push [v, x]).2.pushAll id (st.call id .push [v, x]).1 xs

section Calls

variable (st : Store) (id : ChannelId) (s : Stamp)

theorem call_first_array (xs : List Value) :
    (st.call id .first [.array s xs]).1 = xs.head?.getD .null := rfl

theorem call_last_array (xs : List Value) :
    (st.call id .last [.array s xs]).1 = xs.getLast?.getD .null := rfl

theorem call_rest_nil : st.call id .rest [.array s []] = (.null, st) := rfl

theorem call_rest_cons (x : Value) (xs : List Value) :
    st.call id .rest [.array s (x :: xs)] = st.newArray xs := rfl

theorem call_push_array (xs : List Value) (x : Value) :
    st.call id .push [.array s xs, x] = st.newArray (xs ++ [x]) := rfl

theorem call_len_array {xs : List Value} (hn : (xs.length : Int) ≤ Int64.maxValue.toInt) :
    (st.call id .len [.array s xs]).1.int?.map Int64.toInt = some (xs.length : Int) := by
  have hle : xs.length ≤ 9223372036854775807 := by
    rw [show Int64.maxValue.toInt = 9223372036854775807 from rfl] at hn
    omega
  have hcall : (st.call id .len [.array s xs]).1 =
      .int (if xs.length ≤ 9223372036854775807 then Int64.ofNat xs.length else Int64.maxValue) := rfl
  rw [hcall, if_pos hle, Value.int?, Option.map_some, Int64.toInt_ofNat_of_lt (by omega)]

end Calls

theorem restTimes_array (id : ChannelId) {k : Nat} {xs : List Value} (hk : k ≤ xs.length)
    (st : Store) (s : Stamp) :
    ∃ t after, st.restTimes id k (.array s xs) = (.array t (xs.drop k), after) := by
  induction k generalizing xs st s with
  | zero => exact ⟨s, st, rfl⟩
  | succ k ih =>
    cases xs with
    | nil => exact absurd hk (Nat.not_succ_le_zero k)
    | cons x xs =>
      rw [restTimes, call_rest_cons]
      exact ih (Nat.le_of_succ_le_succ hk) st.tick st.next

theorem pushAll_array (id : ChannelId) (xs ys : List Value) (st : Store) (s : Stamp) :
    ∃ t after, st.pushAll id (.array s ys) xs = (.array t (ys ++ xs), after) := by
  induction xs generalizing ys st s with
  | nil => exact ⟨s, st, by rw [List.append_nil]; rfl⟩
  | cons x xs ih =>
    rw [pushAll, call_push_array, List.append_cons ys x xs]
    exact ih (ys ++ [x]) st.tick st.next

end Store

theorem Value.same_array {xs : List Value} (hxs : ∀ v ∈ xs, v.WellKeyed) (s t : Stamp) :
    (Value.array s xs).same (.array t xs) = true := by
  apply same_of_alike
  rw [alike_iff]
  exact ⟨rfl, List.forall₂_same.2 fun v hv => alike_self (hxs v hv)⟩

namespace Host

/-- The builtins agree on what an array holds. In terms of the items `xs` of an array, told
are, in this order: what any number of calls of `rest` leaves, and what the other builtins
say of it; what pushing all items onto an empty array gives; and how the builtins see an
array onto which one more value was pushed. -/
theorem array_builtins_agree {h : Host} (hl : start.Leads h) (id : ChannelId) {s : Stamp}
    {xs : List Value} (ha : h.Knows (.array s xs))
    (hn : (xs.length : Int) ≤ Int64.maxValue.toInt) :
    (∀ k ≤ xs.length, ∃ left after,
      h.store.restTimes id k (.array s xs) = (left, after) ∧
      left.items? = some (xs.drop k) ∧
      (after.call id .len [left]).1.int?.map Int64.toInt = some (xs.length - k : Int) ∧
      (k < xs.length →
        some (after.call id .first [left]).1 = xs[k]? ∧
        some (after.call id .last [left]).1 = xs.getLast?) ∧
      (k = xs.length →
        (after.call id .first [left]).1 = .null ∧ (after.call id .last [left]).1 = .null ∧
        (after.call id .rest [left]).1 = .null)) ∧
    (let blank := h.store.newArray []
      let copy := (blank.2.pushAll id blank.1 xs).1
      copy.items? = some xs ∧ copy.same (.array s xs) = true) ∧
    ∀ x, h.Knows x → (xs.length : Int) < Int64.maxValue.toInt →
      let p := h.store.call id .push [.array s xs, x]
      (p.2.call id .last [p.1]).1 = x ∧
      (p.2.call id .len [p.1]).1.int?.map Int64.toInt = some (xs.length + 1 : Int) ∧
      (0 < xs.length →
        (p.2.call id .first [p.1]).1 = (p.2.call id .first [.array s xs]).1 ∧
        let q := p.2.call id .rest [p.1]
        let r := q.2.call id .rest [.array s xs]
        q.1.same (r.2.call id .push [r.1, x]).1 = true) ∧
      (xs.length = 0 →
        (p.2.call id .first [p.1]).1 = x ∧ (p.2.call id .rest [p.1]).1.items? = some []) := by
  have hK : Coherent h.Knows := (hl.sound sound_start).coherent
  have hitems : ∀ v ∈ xs, v.WellKeyed := fun v hv => hK.wellKeyed (.part (.item s hv) ha)
  refine ⟨fun k hk => ?_, ?_, fun x hx hlt => ?_⟩
  · obtain ⟨t, after, hleft⟩ := Store.restTimes_array id hk h.store s
    have hlen : ((xs.drop k).length : Int) = xs.length - k := by
      rw [List.length_drop, Int.ofNat_sub hk]
    refine ⟨.array t (xs.drop k), after, hleft, rfl, ?_, fun hlt => ⟨?_, ?_⟩, fun hend => ?_⟩
    · rw [Store.call_len_array _ _ _ (by omega), hlen]
    · rw [Store.call_first_array, List.head?_drop, List.getElem?_eq_getElem hlt, Option.getD_some]
    · have hne : xs ≠ [] := List.ne_nil_of_length_pos (by omega)
      rw [Store.call_last_array, List.getLast?_drop, if_neg (by omega),
        List.getLast?_eq_getLast_of_ne_nil hne, Option.getD_some]
    · rw [hend, List.drop_length, Store.call_first_array, Store.call_last_array,
        Store.call_rest_nil]
      exact ⟨rfl, rfl, rfl⟩
  · obtain ⟨t, after, hcopy⟩ := Store.pushAll_array id xs [] h.store.tick h.store.next
    intro blank copy
    have harray : copy = .array t xs := congrArg Prod.fst hcopy
    rw [harray]
    exact ⟨rfl, Value.same_array hitems t s⟩
  · have hpush : ∀ v ∈ xs ++ [x], v.WellKeyed :=
      List.forall_mem_append.2 ⟨hitems, List.forall_mem_singleton.2 (hK.wellKeyed hx)⟩
    intro p
    have hp : p = h.store.newArray (xs ++ [x]) := h.store.call_push_array id s xs x
    have hlen : ((xs ++ [x]).length : Int) = xs.length + 1 := by simp
    refine ⟨?_, ?_, fun hpos => ?_, fun hzero => ?_⟩
    · rw [hp, Store.newArray, Store.call_last_array, List.getLast?_concat, Option.getD_some]
    · rw [hp, Store.newArray, Store.call_len_array _ _ _ (by omega), hlen]
    · obtain ⟨y, ys, rfl⟩ := List.exists_cons_of_length_pos hpos
      exact ⟨rfl, Value.same_array (fun v hv => hpush v (List.mem_cons_of_mem y hv)) _ _⟩
    · obtain rfl := List.length_eq_zero_iff.1 hzero
      exact ⟨rfl, rfl⟩

def nest : List Request := [.array [], .array [.null, .array ⟨0⟩ [], .null]]

/-- A first item that is null does not end the walk: two more items follow, and the array
built from all three is equal to the one they came from. -/
theorem nest_is_walked :
    let h := start.serveAll nest
    let xs := [Value.null, .array ⟨0⟩ [], .null]
    start.Leads h ∧ h.Knows (.array ⟨1⟩ xs) ∧ (xs.length : Int) ≤ Int64.maxValue.toInt ∧
      (∃ left after, h.store.restTimes ⟨0⟩ 1 (.array ⟨1⟩ xs) = (left, after) ∧
        left.items? = some [.array ⟨0⟩ [], .null] ∧
        (after.call ⟨0⟩ .len [left]).1.int?.map Int64.toInt = some 2 ∧
        some (after.call ⟨0⟩ .first [left]).1 = some (.array ⟨0⟩ [])) ∧
      (h.store.tick.pushAll ⟨0⟩ (.array ⟨2⟩ []) xs).1.same (.array ⟨1⟩ xs) = true := by
  intro h xs
  have hempty : start.Allows (.array []) := allows_plain rfl rfl
  have hitems : ∀ v ∈ xs, (start.serve (.array [])).Knows v := by
    have hknown : (start.serve (.array [])).Knows (.array ⟨0⟩ []) := .made List.mem_cons_self
    simp only [xs, List.forall_mem_cons]
    exact ⟨.null, hknown, .null, List.forall_mem_nil _⟩
  have hl : start.Leads h := ⟨nest, ⟨hempty, allows_of_scopes_nil rfl hitems, trivial⟩, rfl⟩
  have ha : h.Knows (.array ⟨1⟩ xs) := .made (List.mem_cons_of_mem _ List.mem_cons_self)
  have hn : (xs.length : Int) ≤ Int64.maxValue.toInt := by decide
  obtain ⟨hwalk, hcopy, -⟩ := array_builtins_agree hl ⟨0⟩ ha hn
  obtain ⟨left, after, hleft, hitems, hlen, hfirst, -⟩ := hwalk 1 (by decide)
  exact ⟨hl, ha, hn, ⟨left, after, hleft, hitems, hlen, (hfirst (by decide)).1⟩, hcopy.2⟩

end Host

end Scriptlet
