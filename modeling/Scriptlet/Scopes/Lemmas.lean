import Scriptlet.Scopes.Basic

/-!
# What the operations do to scopes

Binding a name changes the bindings of one scope and no link; adding a scope
changes nothing about those already there. Everything on the chain of a scope
is at most as young as the scope.
-/
namespace Scriptlet.Scopes

variable {α : Type}

theorem next_notMem (t : Scopes α) : t.next ∉ t := by
  simp [mem_def, next]

theorem outer_mem {t : Scopes α} {e o : ScopeId} (h : t.outer? e = some o) : o ∈ t := by
  obtain ⟨s, hs, ho⟩ := Option.bind_eq_some_iff.1 h
  obtain ⟨he, -⟩ := Array.getElem?_eq_some_iff.1 hs
  exact Nat.lt_trans (t.outer_lt hs ho) he

theorem mem_of_outer? {t : Scopes α} {e o : ScopeId} (h : t.outer? e = some o) : e ∈ t := by
  obtain ⟨s, hs, -⟩ := Option.bind_eq_some_iff.1 h
  exact (Array.getElem?_eq_some_iff.1 hs).1

theorem outer?_of_notMem {t : Scopes α} {e : ScopeId} (h : e ∉ t) : t.outer? e = none := by
  cases ho : t.outer? e with
  | none => rfl
  | some o => exact absurd (mem_of_outer? ho) h

theorem bindings_of_notMem {t : Scopes α} {e : ScopeId} (h : e ∉ t) : t.bindings e = [] := by
  have hs : t.table.size ≤ e.index := Nat.le_of_not_lt h
  simp [bindings, hs]

/-- Walking outward: induction along the chain of a scope. -/
theorem chain_induction {t : Scopes α} {motive : ScopeId → Prop}
    (top : ∀ e, t.outer? e = none → motive e)
    (inner : ∀ e o, t.outer? e = some o → motive o → motive e) (e : ScopeId) : motive e := by
  obtain ⟨i⟩ := e
  induction i using Nat.strongRecOn with
  | ind i ih =>
    cases h : t.outer? ⟨i⟩ with
    | none => exact top _ h
    | some o => exact inner _ o h (ih o.index (index_lt_of_outer? h))

theorem self_mem_chain (t : Scopes α) (e : ScopeId) : e ∈ t.chain e := by
  cases h : t.outer? e with
  | none => simp [chain_of_none h]
  | some o => simp [chain_of_some h]

theorem index_le_of_mem_chain {t : Scopes α} {e f : ScopeId} (h : f ∈ t.chain e) :
    f.index ≤ e.index := by
  induction e using t.chain_induction with
  | top e ho =>
    rw [chain_of_none ho, List.mem_singleton] at h
    exact h ▸ Nat.le_refl _
  | inner e o ho ih =>
    rw [chain_of_some ho, List.mem_cons] at h
    rcases h with h | h
    · exact h ▸ Nat.le_refl _
    · exact Nat.le_trans (ih h) (Nat.le_of_lt (index_lt_of_outer? ho))

theorem mem_of_mem_chain {t : Scopes α} {e f : ScopeId} (he : e ∈ t) (h : f ∈ t.chain e) : f ∈ t :=
  Nat.lt_of_le_of_lt (index_le_of_mem_chain h) he

theorem depth_of_none {t : Scopes α} {e : ScopeId} (h : t.outer? e = none) : t.depth e = 0 := by
  simp [depth, chain_of_none h]

theorem depth_of_some {t : Scopes α} {e o : ScopeId} (h : t.outer? e = some o) :
    t.depth e = t.depth o + 1 := by
  have hc : t.chain o ≠ [] := List.ne_nil_of_mem (t.self_mem_chain o)
  have := List.length_pos_iff.2 hc
  simp only [depth, chain_of_some h, List.tail_cons, List.length_tail]
  omega

theorem get?_of_none {t : Scopes α} {e : ScopeId} (h : t.outer? e = none) (name : String) :
    t.get? e name = t.getLocal? e name := by
  cases hl : t.getLocal? e name <;> simp [get?, chain_of_none h, hl]

theorem get?_of_some {t : Scopes α} {e o : ScopeId} (h : t.outer? e = some o) (name : String) :
    t.get? e name = (t.getLocal? e name).or (t.get? o name) := by
  cases hl : t.getLocal? e name <;> simp [get?, chain_of_some h, hl]

/-! ### Binding a name -/

theorem mem_set (t : Scopes α) (e f : ScopeId) (name : String) (v : α) :
    f ∈ t.set e name v ↔ f ∈ t := by
  simp [mem_def, set]

@[simp]
theorem outer?_set (t : Scopes α) (e f : ScopeId) (name : String) (v : α) :
    (t.set e name v).outer? f = t.outer? f := by
  simp only [outer?, set, Array.getElem?_modify]
  split
  · cases t.table[f.index]? <;> rfl
  · rfl

@[simp]
theorem chain_set (t : Scopes α) (e f : ScopeId) (name : String) (v : α) :
    (t.set e name v).chain f = t.chain f := by
  induction f using t.chain_induction with
  | top f h => rw [chain_of_none h, chain_of_none ((outer?_set ..).trans h)]
  | inner f o h ih => rw [chain_of_some h, chain_of_some ((outer?_set ..).trans h), ih]

@[simp]
theorem depth_set (t : Scopes α) (e f : ScopeId) (name : String) (v : α) :
    (t.set e name v).depth f = t.depth f := by
  simp [depth]

theorem bindings_set (t : Scopes α) (e f : ScopeId) (name : String) (v : α) :
    (t.set e name v).bindings f =
      if f = e ∧ e ∈ t then Keyed.put ⟨name, v⟩ (t.bindings f) else t.bindings f := by
  simp only [bindings, set, Array.getElem?_modify]
  by_cases h : f = e
  · subst h
    by_cases hf : f ∈ t
    · have hs : t.table[f.index]? = some t.table[f.index] := Array.getElem?_eq_getElem hf
      simp [hs, hf]
    · have hs : t.table[f.index]? = none := Array.getElem?_eq_none (Nat.le_of_not_lt hf)
      simp [hs, hf]
  · have hi : e.index ≠ f.index := fun hi => h (ScopeId.ext hi.symm)
    simp [h, hi]

theorem getLocal?_set {t : Scopes α} {e : ScopeId} (he : e ∈ t) (f : ScopeId)
    (name other : String) (v : α) :
    (t.set e name v).getLocal? f other =
      if f = e ∧ other = name then some v else t.getLocal? f other := by
  simp only [getLocal?, bindings_set, he, and_true]
  by_cases h : f = e
  · by_cases hn : other = name
    · subst h hn
      simp [Keyed.find?_put]
    · have hn' : ¬name = other := fun h => hn h.symm
      simp [h, hn, hn', Keyed.find?_put]
  · simp [h]

/-! ### Adding a scope -/

theorem mem_push (t : Scopes α) (outer : Option ScopeId) (h) (e : ScopeId) :
    e ∈ t.push outer h ↔ e ∈ t ∨ e = t.next := by
  simp only [mem_def, push, Array.size_push, next, ScopeId.ext_iff]
  omega

theorem outer?_push_next (t : Scopes α) (outer : Option ScopeId) (h) :
    (t.push outer h).outer? t.next = outer := by
  simp [outer?, push, next]

theorem outer?_push_of_mem {t : Scopes α} {e : ScopeId} (he : e ∈ t) (outer : Option ScopeId) (h) :
    (t.push outer h).outer? e = t.outer? e := by
  have hi : e.index ≠ t.table.size := Nat.ne_of_lt he
  simp [outer?, push, Array.getElem?_push, hi]

theorem bindings_push (t : Scopes α) (outer : Option ScopeId) (h) (e : ScopeId) :
    (t.push outer h).bindings e = t.bindings e := by
  simp only [bindings, push, Array.getElem?_push]
  split
  · next hi => simp [hi]
  · rfl

theorem chain_push_of_mem {t : Scopes α} {e : ScopeId} (he : e ∈ t) (outer : Option ScopeId) (h) :
    (t.push outer h).chain e = t.chain e := by
  induction e using t.chain_induction with
  | top e ho => rw [chain_of_none ho, chain_of_none ((outer?_push_of_mem he ..).trans ho)]
  | inner e o ho ih =>
    rw [chain_of_some ho, chain_of_some ((outer?_push_of_mem he ..).trans ho), ih (outer_mem ho)]

end Scriptlet.Scopes
