import Scriptlet.Proofs.Host

/-!
# Control values are not stored

Return wrappers and errors are on their way through a script. A value is
storable when it is neither of them and none of them lies in it. As long as a
host puts only storable values into arrays, hashes, bindings and calls, every
binding of every scope stays storable, and the only control value that a
builtin answers with is an error of its own.
-/
namespace Scriptlet

mutual

def Value.storable : Value → Bool
  | .ret _ _ | .error _ _ => false
  | .array _ items => allStorable items
  | .hash _ entries => allEntriesStorable entries
  | _ => true

def allStorable : List Value → Bool
  | [] => true
  | v :: vs => v.storable && allStorable vs

def allEntriesStorable : List (Entry Value) → Bool
  | [] => true
  | ⟨_, stored, value⟩ :: es => stored.storable && value.storable && allEntriesStorable es

end

theorem allStorable_iff (vs : List Value) :
    allStorable vs = true ↔ ∀ v ∈ vs, v.storable = true := by
  induction vs with
  | nil => simp [allStorable]
  | cons v vs ih => simp [allStorable, ih]

theorem allEntriesStorable_iff (es : List (Entry Value)) :
    allEntriesStorable es = true ↔
      ∀ e ∈ es, e.stored.storable = true ∧ e.value.storable = true := by
  induction es with
  | nil => simp [allEntriesStorable]
  | cons e es ih => simp [allEntriesStorable, ih]

namespace Value

theorem storable_array_iff (s : Stamp) (vs : List Value) :
    (array s vs).storable = true ↔ ∀ v ∈ vs, v.storable = true := by
  rw [storable, allStorable_iff]

theorem storable_hash_iff (s : Stamp) (es : List (Entry Value)) :
    (hash s es).storable = true ↔ ∀ e ∈ es, e.stored.storable = true ∧ e.value.storable = true := by
  rw [storable, allEntriesStorable_iff]

theorem storable_of_part {v w : Value} (hw : w.Part v) (hv : v.storable = true) :
    w.storable = true := by
  cases hw with
  | inner s => cases hv
  | item s hm => exact (storable_array_iff s _).1 hv w hm
  | stored s he => exact ((storable_hash_iff s _).1 hv _ he).1
  | value s he => exact ((storable_hash_iff s _).1 hv _ he).2

theorem kind_ne_error_of_storable {v : Value} (h : v.storable = true) : v.kind ≠ .error := by
  cases v with
  | error s message => cases h
  | _ => simp [kind]

end Value

/-! ### Answers of builtins -/

def Answer.isFault : Answer → Bool
  | .fault _ => true
  | _ => false

namespace Builtin

/-- How many arguments a builtin wants, where it wants a fixed number. -/
def arity? : Builtin → Option Nat
  | .len | .first | .last | .rest => some 1
  | .push => some 2
  | .puts => none

/-- Whether a builtin takes a first argument of the kind. -/
def takes (b : Builtin) (k : Kind) : Bool :=
  match b with
  | .len => k == .str || k == .array
  | .first | .last | .rest | .push => k == .array
  | .puts => true

/-- The number of arguments is wrong, or else the first one is of a wrong kind. -/
def Rejects (b : Builtin) (args : List Value) : Prop :=
  (∃ n, b.arity? = some n ∧ args.length ≠ n) ∨ ∃ v, args.head? = some v ∧ b.takes v.kind = false

theorem isFault_onArray_iff (b : Builtin) (v : Value) {f : List Value → Answer}
    (hf : ∀ items, (f items).isFault = false) :
    (b.onArray v f).isFault = true ↔ (v.kind == .array) = false := by
  cases v with
  | array s items => simp [onArray, Value.items?, Value.kind, hf]
  | _ => simp [onArray, Value.items?, Value.kind, Answer.isFault]

theorem isFault_onOne_iff {b : Builtin} (hb : b.arity? = some 1) {f : Value → Answer}
    (hf : ∀ v, (f v).isFault = true ↔ b.takes v.kind = false) (args : List Value) :
    (onOne args f).isFault = true ↔ b.Rejects args := by
  rcases args with _ | ⟨v, _ | ⟨w, rest⟩⟩
  · simp [onOne, Answer.isFault, Rejects, hb]
  · simp [onOne, Rejects, hb, hf]
  · simp [onOne, Answer.isFault, Rejects, hb]

/-- A builtin answers with a fault exactly when it rejects its arguments. -/
theorem isFault_answer_iff (b : Builtin) (args : List Value) :
    (b.answer args).isFault = true ↔ b.Rejects args := by
  cases b with
  | len =>
    refine isFault_onOne_iff rfl (fun v => ?_) args
    cases v <;> simp [takes, Value.kind, Answer.isFault, Answer.count]
  | first => exact isFault_onOne_iff rfl (fun v => isFault_onArray_iff _ v fun _ => rfl) args
  | last => exact isFault_onOne_iff rfl (fun v => isFault_onArray_iff _ v fun _ => rfl) args
  | rest =>
    refine isFault_onOne_iff rfl (fun v => isFault_onArray_iff _ v fun items => ?_) args
    cases items <;> rfl
  | push =>
    rcases args with _ | ⟨target, _ | ⟨item, _ | ⟨more, rest⟩⟩⟩
    · simp [answer, Answer.isFault, Rejects, arity?]
    · simp [answer, Answer.isFault, Rejects, arity?]
    · have hkind := isFault_onArray_iff .push target (f := fun items => .array (items ++ [item]))
        fun _ => rfl
      simp [answer, hkind, Rejects, arity?, takes]
    · simp [answer, Answer.isFault, Rejects, arity?]
  | puts => simp [answer, Answer.isFault, Rejects, arity?, takes]

end Builtin

namespace Store

/-- What comes of an answer whose values are storable: an error for a fault, and
a storable value otherwise. -/
theorem newAnswer_storable {a : Answer} (ha : a.All fun v => v.storable = true) (st : Store) :
    ((st.newAnswer a).1.storable = true ∨ (st.newAnswer a).1.kind = .error) ∧
      ((st.newAnswer a).1.kind = .error ↔ a.isFault = true) := by
  cases a with
  | value v =>
    have hne : v.kind ≠ .error := Value.kind_ne_error_of_storable ha
    exact ⟨Or.inl ha, by simp [newAnswer, Answer.isFault, hne]⟩
  | array items =>
    have hs : (Value.array st.next items).storable = true := (Value.storable_array_iff _ _).2 ha
    exact ⟨Or.inl hs, by simp [newAnswer, newArray, Answer.isFault, Value.kind]⟩
  | fault f =>
    exact ⟨Or.inr rfl, by simp [newAnswer, newFault, newError, Answer.isFault, Value.kind]⟩

theorem call_storable (st : Store) (id : ChannelId) (b : Builtin) {args : List Value}
    (hargs : ∀ v ∈ args, v.storable = true) :
    ((st.call id b args).1.storable = true ∨ (st.call id b args).1.kind = .error) ∧
      ((st.call id b args).1.kind = .error ↔ b.Rejects args) := by
  have ha : (b.answer args).All fun v => v.storable = true :=
    Builtin.answer_all (P := fun v => v.storable = true) (fun _ => rfl) rfl
      (fun s vs => (Value.storable_array_iff s vs).1) b hargs
  rw [← b.isFault_answer_iff args]
  exact newAnswer_storable ha _

end Store

/-! ### Bindings -/

namespace Scopes

theorem mem_bindings_setAll {t : Scopes Value} {e f : ScopeId} {bs : List (Binding Value)}
    {b : Binding Value} (h : b ∈ (t.setAll e bs).bindings f) :
    b ∈ t.bindings f ∨ f = e ∧ b ∈ bs := by
  rw [bindings_setAll] at h
  split at h
  · next hfe => exact (Keyed.mem_foldl_put h).imp_right fun hb => ⟨hfe.1, hb⟩
  · exact Or.inl h

/-- A binding that stands after a change stood before it or was made on the way. -/
theorem Change.mem_bindings {t t' : Scopes Value} {os : List (Option ScopeId)} {ws : List Write}
    (h : Change t os ws t') {e : ScopeId} {b : Binding Value} (hb : b ∈ t'.bindings e) :
    b ∈ t.bindings e ∨ Write.ofBinding e b ∈ ws := by
  cases h with
  | rest => exact Or.inl hb
  | bind he bs =>
    rcases mem_bindings_setAll hb with hold | ⟨rfl, hnew⟩
    · exact Or.inl hold
    · exact Or.inr (List.mem_map_of_mem hnew)
  | grow outer ho bs =>
    rcases mem_bindings_setAll hb with hold | ⟨rfl, hnew⟩
    · rw [bindings_push] at hold
      exact Or.inl hold
    · exact Or.inr (List.mem_map_of_mem hnew)

theorem exists_binding_of_get? {t : Scopes Value} {e : ScopeId} {name : String} {v : Value}
    (h : t.get? e name = some v) : ∃ f, ∃ b ∈ t.bindings f, b.value = v := by
  obtain ⟨f, -, hf⟩ := List.exists_of_findSome?_eq_some h
  obtain ⟨b, hb, rfl⟩ := Option.map_eq_some_iff.1 hf
  exact ⟨f, b, Keyed.mem_of_find?_eq_some hb, rfl⟩

end Scopes

namespace Request

/-- The values that a request puts into an array, a hash or a binding or passes
to a call. A return wrapper may be put around anything, and the entries of a hash
whose keys are given may hold anything. -/
def kept : Request → List Value
  | .ret _ | .keyedHash _ => []
  | r => r.values

def Careful (r : Request) : Prop := ∀ v ∈ r.kept, v.storable = true

instance (r : Request) : Decidable r.Careful :=
  inferInstanceAs (Decidable (∀ v ∈ r.kept, v.storable = true))

theorem Careful.storable_of_mem_writes {r : Request} (hr : r.Careful) {st : Store} {w : Write}
    (hw : w ∈ r.writes st) : w.value.storable = true := by
  rcases Host.write_value_mem hw with hm | ⟨b, hb⟩
  · cases r with
    | ret inner => cases hw
    | keyedHash entries => cases hw
    | _ => exact hr _ hm
  · rw [hb]
    rfl

end Request

namespace Store

/-- Every binding of every scope is storable. -/
def Clean (st : Store) : Prop := ∀ e, ∀ b ∈ st.scopes.bindings e, b.value.storable = true

theorem clean_empty : empty.Clean := by
  intro e b hb
  rw [Scopes.bindings_of_notMem (Nat.not_lt_zero _)] at hb
  cases hb

variable {st : Store}

theorem Clean.serve (h : st.Clean) {r : Request} (ha : r.Admitted st) (hr : r.Careful) :
    (st.serve r).2.Clean := by
  intro e b hb
  rcases (serve_change ha).mem_bindings hb with hold | hnew
  · exact h e b hold
  · exact hr.storable_of_mem_writes hnew

theorem Clean.serveAll (h : st.Clean) {rs : List Request} (ha : st.Admits rs)
    (hrs : ∀ r ∈ rs, r.Careful) : (st.serveAll rs).Clean := by
  induction rs generalizing st with
  | nil => exact h
  | cons r rs ih =>
    obtain ⟨hr, hrest⟩ := List.forall_mem_cons.1 hrs
    exact ih (h.serve ha.1 hr) ha.2 hrest

/-- In every state that careful requests lead to, all bindings are storable, and
so is all that is found under a name, under a key of a storable hash, as a
builtin of a name, or in a return wrapper around a storable value. A builtin
called there on storable arguments gives a storable value or an error, and an
error exactly when it rejects the arguments. -/
theorem ReachedBy.control_values_never_persist {rs : List Request} (h : st.ReachedBy rs)
    (hrs : ∀ r ∈ rs, r.Careful) :
    (∀ e, ∀ b ∈ st.scopes.bindings e, b.value.storable = true) ∧
    (∀ e name v, st.scopes.get? e name = some v → v.storable = true) ∧
    (∀ receiver key v : Value, receiver.storable = true → receiver.lookup key = .ok (some v) →
      v.storable = true) ∧
    (∀ name v, (Builtin.ofName? name).map Value.builtin = some v → v.storable = true) ∧
    (∀ (s : Stamp) (inner : Value), inner.storable = true →
      (Value.ret s inner).unwrapped.storable = true) ∧
    ∀ (id : ChannelId) (b : Builtin) (args : List Value), (∀ v ∈ args, v.storable = true) →
      ((st.call id b args).1.storable = true ∨ (st.call id b args).1.kind = .error) ∧
        ((st.call id b args).1.kind = .error ↔ b.Rejects args) := by
  obtain ⟨ha, rfl⟩ := h
  have hclean : (empty.serveAll rs).Clean := clean_empty.serveAll ha hrs
  refine ⟨hclean, ?_, ?_, ?_, fun _ _ h => h, ?_⟩
  · intro e name v hv
    obtain ⟨f, b, hb, rfl⟩ := Scopes.exists_binding_of_get? hv
    exact hclean f b hb
  · intro receiver key v hr hv
    exact Value.storable_of_part (Value.part_of_lookup hv) hr
  · intro name v hv
    obtain ⟨b, -, rfl⟩ := Option.map_eq_some_iff.1 hv
    rfl
  · intro id b args hargs
    exact call_storable _ id b hargs

/-- An array is bound and then passed to a closure, while a return wrapper, an
error and a hash that holds the error are made and left aside. -/
def errand : List Request :=
  [.newScope, .str "a", .array [.str ⟨0⟩ "a", .null], .set ⟨0⟩ "xs" (.array ⟨1⟩ [.str ⟨0⟩ "a", .null]),
   .ret (.array ⟨1⟩ [.str ⟨0⟩ "a", .null]), .error "stop",
   .keyedHash [⟨⟨.int, 0⟩, .int 0, .error ⟨3⟩ "stop"⟩],
   .activate ⟨⟨5⟩, ["p"], [], ⟨0⟩⟩ [.array ⟨1⟩ [.str ⟨0⟩ "a", .null]]]

theorem errand_keeps_storable :
    let st := empty.serveAll errand
    let xs := Value.array ⟨1⟩ [.str ⟨0⟩ "a", .null]
    st.ReachedBy errand ∧ (∀ r ∈ errand, r.Careful) ∧
      (∀ b ∈ st.scopes.bindings ⟨1⟩, b.value.storable = true) ∧
      (st.call ⟨0⟩ .push [xs, xs]).1.kind ≠ .error ∧ (st.call ⟨0⟩ .first []).1.kind = .error := by
  intro st xs
  have hr : st.ReachedBy errand := ⟨by decide, rfl⟩
  have hc : ∀ r ∈ errand, r.Careful := by decide
  obtain ⟨hbound, -, -, -, -, hcall⟩ := hr.control_values_never_persist hc
  refine ⟨hr, hc, hbound ⟨1⟩, fun herr => ?_, ?_⟩
  · have hrej := (hcall ⟨0⟩ .push [xs, xs] (by decide)).2.1 herr
    simp [Builtin.Rejects, Builtin.arity?, Builtin.takes, xs, Value.kind] at hrej
  · refine (hcall ⟨0⟩ .first [] (List.forall_mem_nil _)).2.2 (Or.inl ⟨1, rfl, by decide⟩)

end Store

end Scriptlet
