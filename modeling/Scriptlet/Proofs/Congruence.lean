import Scriptlet.Proofs.HashEquality
import Scriptlet.Proofs.Host

/-!
# What equal values have in common

Equal values answer every question alike, be it about their kind, their content,
their size or what lies under a key, and a builtin called on equal arguments
gives equal results. Most answers can be read off the label of a value. The node
of a quote is no part of its label; it is the same for equal quotes because the
stamp of a quote stands for one node.
-/
namespace Scriptlet

/-! ### Answers given by the label -/

/-- The plainest value with a given label. -/
def Label.sample : Label → Value
  | .int n => .int n
  | .bool b => .bool b
  | .null => .null
  | .ret => .ret ⟨0⟩ .null
  | .error message => .error ⟨0⟩ message
  | .str text => .str ⟨0⟩ text
  | .array => .array ⟨0⟩ []
  | .hash => .hash ⟨0⟩ []
  | .function stamp scope => .function ⟨stamp, [], [], scope⟩
  | .builtin b => .builtin b
  | .macroFn stamp scope => .macroFn ⟨stamp, [], [], scope⟩
  | .quote stamp => .quote stamp (.program [])

namespace Value

/-- A question whose answer is the same for a value and for the plainest value
with its label has one answer for all values with that label. -/
theorem congr_of_label {β : Type} {f : Value → β} (hf : ∀ v, f v = f v.label.sample) {v w : Value}
    (h : v.label = w.label) : f v = f w := by
  rw [hf v, hf w, h]

/-- All that can be asked of one value has the same answer for both. -/
structure Indistinct (v w : Value) : Prop where
  kind : v.kind = w.kind
  truthy : v.truthy = w.truthy
  isError : v.isError = w.isError
  isNull : v.isNull = w.isNull
  isControl : v.isControl = w.isControl
  isHashable : v.isHashable = w.isHashable
  hashKey : v.hashKey = w.hashKey
  int? : v.int? = w.int?
  bool? : v.bool? = w.bool?
  str? : v.str? = w.str?
  errorMessage? : v.errorMessage? = w.errorMessage?
  arraySize : v.items?.map List.length = w.items?.map List.length
  hashSize : v.entries?.map List.length = w.entries?.map List.length
  unwrapped : v.unwrapped.same w.unwrapped = true
  quotedNode : v.quotedNode = w.quotedNode

variable {v w : Value}

theorem hashKey_eq_of_alike (h : v.alike w = true) : v.hashKey = w.hashKey :=
  congr_of_label (fun v => by cases v <;> rfl) ((v.alike_iff w).1 h).1

theorem kind_eq_of_alike (h : v.alike w = true) : v.kind = w.kind :=
  congr_of_label (fun v => by cases v <;> rfl) ((v.alike_iff w).1 h).1

theorem arraySize_eq_of_alike (h : v.alike w = true) :
    v.items?.map List.length = w.items?.map List.length := by
  obtain ⟨hl, hp⟩ := (v.alike_iff w).1 h
  cases v with
  | array s vs =>
    cases w with
    | array t ws => exact congrArg some hp.length_eq
    | _ => cases hl
  | _ => cases w <;> first | rfl | cases hl

theorem hashSize_eq_of_alike (h : v.alike w = true) :
    v.entries?.map List.length = w.entries?.map List.length := by
  obtain ⟨hl, hp⟩ := (v.alike_iff w).1 h
  cases v with
  | hash s es =>
    cases w with
    | hash t fs => exact congrArg some hp.1
    | _ => cases hl
  | _ => cases w <;> first | rfl | cases hl

theorem unwrapped_alike (h : v.alike w = true) : v.unwrapped.alike w.unwrapped = true := by
  cases v with
  | ret s v =>
    cases w with
    | ret t w => exact ((Value.alike_iff _ _).1 h).2
    | _ => cases h
  | _ =>
    cases w with
    | ret t w => cases h
    | _ => exact h

end Value

theorem Value.alike_int (n : Int64) : (Value.int n).alike (.int n) = true := by
  simp [alike]

namespace Coherent

variable {K : Value → Prop} {v w : Value}

theorem quotedNode_eq (hK : Coherent K) (hv : K v) (hw : K w) (h : v.alike w = true) :
    v.quotedNode = w.quotedNode := by
  have hkind := Value.kind_eq_of_alike h
  obtain ⟨hl, -⟩ := (v.alike_iff w).1 h
  cases v with
  | quote s n =>
    cases w with
    | quote t m =>
      cases hl
      cases hK.cell hv hw rfl rfl
      rfl
    | _ => cases hl
  | _ =>
    cases w with
    | quote t m => cases hl
    | _ => exact congrArg (fun k => Except.error (NotQuoted.mk k)) hkind

theorem indistinct (hK : Coherent K) (hv : K v) (hw : K w) (h : v.same w = true) :
    v.Indistinct w := by
  rw [hK.same_eq_alike hv hw] at h
  have hl : v.label = w.label := ((v.alike_iff w).1 h).1
  exact {
    kind := Value.kind_eq_of_alike h
    truthy := Value.congr_of_label (fun v => by cases v <;> rfl) hl
    isError := Value.congr_of_label (fun v => by cases v <;> rfl) hl
    isNull := Value.congr_of_label (fun v => by cases v <;> rfl) hl
    isControl := Value.congr_of_label (fun v => by cases v <;> rfl) hl
    isHashable := Value.congr_of_label (fun v => by cases v <;> rfl) hl
    hashKey := Value.hashKey_eq_of_alike h
    int? := Value.congr_of_label (fun v => by cases v <;> rfl) hl
    bool? := Value.congr_of_label (fun v => by cases v <;> rfl) hl
    str? := Value.congr_of_label (fun v => by cases v <;> rfl) hl
    errorMessage? := Value.congr_of_label (fun v => by cases v <;> rfl) hl
    arraySize := Value.arraySize_eq_of_alike h
    hashSize := Value.hashSize_eq_of_alike h
    unwrapped := same_of_alike (Value.unwrapped_alike h)
    quotedNode := hK.quotedNode_eq hv hw h }

theorem sameFound_lookup (hK : Coherent K) {k l : Value} (hv : K v) (hw : K w) (hk : K k) (hl : K l)
    (h : v.same w = true) (hkey : k.same l = true) : SameFound (v.lookup k) (w.lookup l) := by
  have hkind : v.kind = w.kind := (hK.indistinct hv hw h).kind
  have hhash : k.hashKey = l.hashKey := (hK.indistinct hk hl hkey).hashKey
  cases v with
  | hash s es =>
    cases w with
    | hash t fs =>
      cases hc : k.hashKey with
      | error e =>
        have hc' : l.hashKey = .error e := hhash.symm.trans hc
        simp only [Value.lookup, Value.entries?, hc, hc']
        exact .failed _
      | ok key =>
        rw [Value.lookup_hash hc, Value.lookup_hash (hhash.symm.trans hc), sameFound_ok_iff]
        exact (same_hash_iff (hK.keys hv) (hK.keys hw)).1 h key
    | _ => cases hkind
  | _ =>
    cases w with
    | hash t fs => cases hkind
    | _ =>
      simp only [Value.lookup, Value.entries?, hkind]
      exact .failed _

theorem alike_args (hK : Coherent K) {args args' : List Value} (hargs : ∀ v ∈ args, K v)
    (hargs' : ∀ v ∈ args', K v) (h : List.Forall₂ (fun v w => v.same w = true) args args') :
    List.Forall₂ (fun v w => v.alike w = true) args args' := by
  obtain ⟨hlen, hzip⟩ := List.forall₂_iff_zip.1 h
  refine List.forall₂_iff_zip.2 ⟨hlen, fun {v w} hvw => ?_⟩
  obtain ⟨hv, hw⟩ := List.of_mem_zip hvw
  rw [← hK.same_eq_alike (hargs v hv) (hargs' w hw)]
  exact hzip hvw

end Coherent

/-! ### Builtins on equal arguments -/

/-- Two answers pass on values that are alike, or they are for one fault. -/
inductive Answer.Alike : Answer → Answer → Prop where
  | value {v w : Value} (h : v.alike w = true) : Alike (.value v) (.value w)
  | array {vs ws : List Value} (h : List.Forall₂ (fun v w => v.alike w = true) vs ws) :
      Alike (.array vs) (.array ws)
  | fault (f : Fault) : Alike (.fault f) (.fault f)

theorem Answer.alike_ofOption {o o' : Option Value}
    (h : Option.Rel (fun v w => v.alike w = true) o o') : (ofOption o).Alike (ofOption o') := by
  cases h with
  | none => exact .value rfl
  | some h => exact .value h

theorem optionRel_head? {α : Type} {R : α → α → Prop} {xs ys : List α} (h : List.Forall₂ R xs ys) :
    Option.Rel R xs.head? ys.head? := by
  cases h with
  | nil => exact .none
  | cons h _ => exact .some h

theorem optionRel_getLast? {α : Type} {R : α → α → Prop} {xs ys : List α}
    (h : List.Forall₂ R xs ys) : Option.Rel R xs.getLast? ys.getLast? := by
  rw [List.getLast?_eq_head?_reverse, List.getLast?_eq_head?_reverse]
  exact optionRel_head? (List.rel_reverse h)

namespace Builtin

variable {args args' : List Value}

theorem onOne_alike {f : Value → Answer}
    (hargs : List.Forall₂ (fun v w => v.alike w = true) args args')
    (hf : ∀ v w, v.alike w = true → (f v).Alike (f w)) : (onOne args f).Alike (onOne args' f) := by
  cases hargs with
  | nil => exact .fault _
  | cons h htail =>
    cases htail with
    | nil => exact hf _ _ h
    | cons _ hrest =>
      simp only [onOne, List.length_cons, hrest.length_eq]
      exact .fault _

theorem onArray_alike (b : Builtin) {v w : Value} {f g : List Value → Answer} (h : v.alike w = true)
    (hf : ∀ vs ws, List.Forall₂ (fun v w => v.alike w = true) vs ws → (f vs).Alike (g ws)) :
    (b.onArray v f).Alike (b.onArray w g) := by
  have hkind := Value.kind_eq_of_alike h
  cases v with
  | array s vs =>
    cases w with
    | array t ws => exact hf vs ws ((Value.alike_iff _ _).1 h).2
    | _ => cases hkind
  | _ =>
    cases w with
    | array t ws => cases hkind
    | _ =>
      simp only [onArray, Value.items?, hkind]
      exact .fault _

/-- A builtin looks at its arguments only through what alike values share. -/
theorem answer_alike (b : Builtin) (hargs : List.Forall₂ (fun v w => v.alike w = true) args args') :
    (b.answer args).Alike (b.answer args') := by
  cases b with
  | len =>
    refine onOne_alike hargs fun v w h => ?_
    have hkind := Value.kind_eq_of_alike h
    obtain ⟨hl, hp⟩ := (v.alike_iff w).1 h
    cases v with
    | str s a =>
      cases w with
      | str t b =>
        cases hl
        exact .value (Value.alike_int _)
      | _ => cases hl
    | array s vs =>
      cases w with
      | array t ws =>
        simp only [hp.length_eq]
        exact .value (Value.alike_int _)
      | _ => cases hl
    | _ =>
      cases w with
      | str t b => cases hl
      | array t ws => cases hl
      | _ =>
        simp only [hkind]
        exact .fault _
  | first =>
    refine onOne_alike hargs fun v w h => onArray_alike _ h fun vs ws hitems => ?_
    exact Answer.alike_ofOption (optionRel_head? hitems)
  | last =>
    refine onOne_alike hargs fun v w h => onArray_alike _ h fun vs ws hitems => ?_
    exact Answer.alike_ofOption (optionRel_getLast? hitems)
  | rest =>
    refine onOne_alike hargs fun v w h => onArray_alike _ h fun vs ws hitems => ?_
    cases hitems with
    | nil => exact .value rfl
    | cons _ htail => exact .array htail
  | push =>
    cases hargs with
    | nil => exact .fault _
    | cons h htail =>
      cases htail with
      | nil => exact .fault _
      | cons hitem hrest =>
        cases hrest with
        | nil =>
          refine onArray_alike _ h fun vs ws hitems => .array ?_
          exact List.rel_append hitems (.cons hitem .nil)
        | cons _ hmore =>
          simp only [answer, List.length_cons, hmore.length_eq]
          exact .fault _
  | puts => exact .value rfl

end Builtin

namespace Store

theorem newAnswer_alike (st st' : Store) {a a' : Answer} (h : a.Alike a') :
    (st.newAnswer a).1.alike (st'.newAnswer a').1 = true := by
  cases h with
  | value h => exact h
  | array h => exact (Value.alike_iff _ _).2 ⟨rfl, h⟩
  | fault f => exact (Value.alike_iff _ _).2 ⟨rfl, trivial⟩

/-- Wherever and whenever a builtin is called, alike arguments give alike results. -/
theorem call_alike (st st' : Store) (id id' : ChannelId) (b : Builtin) {args args' : List Value}
    (h : List.Forall₂ (fun v w => v.alike w = true) args args') :
    (st.call id b args).1.alike (st'.call id' b args').1 = true :=
  newAnswer_alike _ _ (b.answer_alike h)

end Store

namespace Host

/-- Among the values that a host knows, equal ones have the same answer to every
question, finding equal values under equal keys, and every builtin gives equal
results on lists of equal arguments. -/
theorem same_is_congruence {h : Host} (hl : start.Leads h) :
    (∀ v w, h.Knows v → h.Knows w → v.same w = true → v.Indistinct w) ∧
    (∀ v w k l, h.Knows v → h.Knows w → h.Knows k → h.Knows l →
      v.same w = true → k.same l = true → SameFound (v.lookup k) (w.lookup l)) ∧
    ∀ (b : Builtin) (args args' : List Value),
      (∀ v ∈ args, h.Knows v) → (∀ v ∈ args', h.Knows v) →
      List.Forall₂ (fun v w => v.same w = true) args args' →
      ∀ (st st' : Store) (id id' : ChannelId),
        (st.call id b args).1.same (st'.call id' b args').1 = true := by
  have hc : Coherent h.Knows := (hl.sound sound_start).coherent
  refine ⟨fun v w hv hw => hc.indistinct hv hw, fun v w k l hv hw hk hl => ?_,
    fun b args args' hargs hargs' hsame st st' id id' => ?_⟩
  · exact hc.sameFound_lookup hv hw hk hl
  · exact same_of_alike (Store.call_alike st st' id id' b (hc.alike_args hargs hargs' hsame))

/-- Two strings with one text, and a hash and an array around each of them. -/
def twins : List Request :=
  [.str "x", .str "x", .hash [(.int 1, .str ⟨0⟩ "x")], .hash [(.int 1, .str ⟨1⟩ "x")],
    .array [.str ⟨0⟩ "x"], .array [.str ⟨1⟩ "x"]]

/-- The two hashes are equal and have the same answers, and pushing each of them
onto the array with its string gives equal arrays. -/
theorem twins_are_congruent :
    let h := start.serveAll twins
    let v := Value.hash ⟨2⟩ [⟨⟨.int, 1⟩, .int 1, .str ⟨0⟩ "x"⟩]
    let w := Value.hash ⟨3⟩ [⟨⟨.int, 1⟩, .int 1, .str ⟨1⟩ "x"⟩]
    let a := Value.array ⟨4⟩ [.str ⟨0⟩ "x"]
    let b := Value.array ⟨5⟩ [.str ⟨1⟩ "x"]
    start.Leads h ∧ (∀ u ∈ [v, w, a, b], h.Knows u) ∧ v.same w = true ∧ v.Indistinct w ∧
      SameFound (v.lookup (.int 1)) (w.lookup (.int 1)) ∧
      (h.store.call ⟨0⟩ .push [a, v]).1.same (h.store.tick.call ⟨0⟩ .push [b, w]).1 = true := by
  intro h v w a b
  have hl : start.Leads h := by
    refine ⟨twins, ⟨allows_plain rfl rfl, allows_plain rfl rfl, ?_, ?_, ?_, ?_, trivial⟩, rfl⟩
    · refine allows_of_scopes_nil rfl (forall_mem_pairs.2 (List.forall_mem_singleton.2 ?_))
      exact ⟨.int 1, .made List.mem_cons_self⟩
    · refine allows_of_scopes_nil rfl (forall_mem_pairs.2 (List.forall_mem_singleton.2 ?_))
      exact ⟨.int 1, .made (List.mem_cons_of_mem _ List.mem_cons_self)⟩
    · refine allows_of_scopes_nil rfl (List.forall_mem_singleton.2 ?_)
      exact .made List.mem_cons_self
    · refine allows_of_scopes_nil rfl (List.forall_mem_singleton.2 ?_)
      exact .made (List.mem_cons_of_mem _ List.mem_cons_self)
  have hmade : h.made = .str ⟨0⟩ "x" :: .str ⟨1⟩ "x" :: [v, w, a, b] := rfl
  have hknown : ∀ u ∈ [v, w, a, b], h.Knows u := by
    intro u hu
    refine .made ?_
    rw [hmade]
    exact List.mem_cons_of_mem _ (List.mem_cons_of_mem _ hu)
  have hv : h.Knows v := hknown v (by simp)
  have hw : h.Knows w := hknown w (by simp)
  have ha : h.Knows a := hknown a (by simp)
  have hb : h.Knows b := hknown b (by simp)
  have hvw : v.same w = true := by decide
  have hargs : List.Forall₂ (fun v w => v.same w = true) [a, v] [b, w] :=
    .cons (by decide) (.cons hvw .nil)
  obtain ⟨hind, hfound, hcall⟩ := same_is_congruence hl
  have hresults := hcall .push [a, v] [b, w] (by simp [ha, hv]) (by simp [hb, hw]) hargs
  exact ⟨hl, hknown, hvw, hind v w hv hw hvw, hfound v w _ _ hv hw (.int 1) (.int 1) hvw rfl,
    hresults _ _ _ _⟩

end Host

end Scriptlet
