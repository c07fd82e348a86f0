import Scriptlet.Proofs.Printing

/-!
# Texts and the order of entries

The separators of an enumeration go by position, not by part, so rearranging the
parts rearranges the characters of the whole. Whatever orders are chosen for the
entries of the hashes in a value, at every level, its texts have the same
characters, each the same number of times. Where no hash in the value has two
entries there is only one text.
-/
namespace Scriptlet

theorem forall₂_map_of_mem {α β : Type} {R : α → α → Prop} {S : β → β → Prop} {f : α → β}
    {xs ys : List α} (h : List.Forall₂ R xs ys) (step : ∀ x ∈ xs, ∀ y, R x y → S (f x) (f y)) :
    List.Forall₂ S (xs.map f) (ys.map f) := by
  induction h with
  | nil => exact .nil
  | cons hr _ ih =>
    exact .cons (step _ List.mem_cons_self _ hr) (ih fun x hx => step x (List.mem_cons_of_mem _ hx))

/-- Elements change places, and then each of them changes into one that makes the same
contribution up to order. -/
theorem flatMap_perm_of_forall₂ {α β : Type} {R : α → α → Prop} {f : α → List β}
    {xs ys zs : List α} (hp : xs.Perm ys) (h : List.Forall₂ R ys zs)
    (step : ∀ x ∈ xs, ∀ z, R x z → (f x).Perm (f z)) : (xs.flatMap f).Perm (zs.flatMap f) := by
  refine (hp.flatMap_right f).trans (List.Perm.flatten_congr ?_)
  exact forall₂_map_of_mem h fun x hx => step x (hp.mem_iff.2 hx)

/-! ### Characters of an enumeration -/

namespace Text

theorem count_commaSep (c : Char) (parts : List Text) :
    (commaSep parts).count c = parts.flatten.count c + (parts.length - 1) * [',', ' '].count c := by
  induction parts with
  | nil => simp
  | cons part parts ih =>
    cases parts with
    | nil => simp
    | cons next rest =>
      have hparts : commaSep (part :: next :: rest) =
          part ++ ([',', ' '] ++ commaSep (next :: rest)) := commaSep_cons_cons part next rest
      have hflat : (part :: next :: rest).flatten.count c =
          part.count c + (next :: rest).flatten.count c := by
        rw [List.flatten_cons, List.count_append]
      have hlen : (part :: next :: rest).length - 1 = (next :: rest).length - 1 + 1 := rfl
      rw [hparts, hflat, hlen, List.count_append, List.count_append, ih, Nat.succ_mul]
      omega

theorem commaSep_perm {xs ys : List Text} (hl : xs.length = ys.length)
    (h : xs.flatten.Perm ys.flatten) : (commaSep xs).Perm (commaSep ys) := by
  refine List.perm_iff_count.2 fun c => ?_
  rw [count_commaSep, count_commaSep, hl, h.count_eq]

end Text

namespace Value

variable {v w : Value}

theorem Reordered.render_perm (h : v.Reordered w) : v.render.Perm w.render := by
  induction v using Value.part_induction generalizing w with
  | step v ih =>
    cases v with
    | ret s u =>
      obtain ⟨u', rfl, hu⟩ := h.of_ret
      rw [render_ret, render_ret]
      exact ih u (.inner s u) hu
    | array s vs =>
      obtain ⟨ws, rfl, hws⟩ := h.of_array
      rw [render_array, render_array]
      refine ((Text.commaSep_perm ?_ ?_).cons '[').append_right [']']
      · rw [List.length_map, List.length_map, hws.length_eq]
      · exact flatMap_perm_of_forall₂ (.refl vs) hws fun u hu u' huu => ih u (.item s hu) huu
    | hash s es =>
      obtain ⟨fs, gs, rfl, hperm, hgs⟩ := h.of_hash
      rw [render_hash, render_hash]
      refine ((Text.commaSep_perm ?_ ?_).cons '\x7b').append_right ['\x7d']
      · rw [List.length_map, List.length_map, hperm.length_eq, hgs.length_eq]
      · refine flatMap_perm_of_forall₂ hperm hgs fun e he g hg => ?_
        cases hg with
        | mk key hs hv =>
          exact (ih _ (.stored s he) hs).append (((ih _ (.value s he) hv).cons ' ').cons ':')
    | _ =>
      cases h
      exact .refl _

/-! ### Values with one text -/

theorem anyUnordered_eq_any (vs : List Value) : anyUnordered vs = vs.any unordered := by
  induction vs with
  | nil => rfl
  | cons v vs ih => simp only [anyUnordered, List.any_cons, ih]

theorem anyEntryUnordered_eq_any (es : List (Entry Value)) :
    anyEntryUnordered es = es.any fun e => e.stored.unordered || e.value.unordered := by
  induction es with
  | nil => rfl
  | cons e es ih => simp only [anyEntryUnordered, List.any_cons, ih]

theorem unordered_array_iff (s : Stamp) (vs : List Value) :
    (array s vs).unordered = true ↔ ∃ v ∈ vs, v.unordered = true := by
  rw [← List.any_eq_true, ← anyUnordered_eq_any]
  rfl

theorem unordered_hash_iff (s : Stamp) (es : List (Entry Value)) :
    (hash s es).unordered = true ↔
      1 < es.length ∨ ∃ e ∈ es, e.stored.unordered = true ∨ e.value.unordered = true := by
  have hdef : (hash s es).unordered = (decide (1 < es.length) || anyEntryUnordered es) := rfl
  simp [hdef, anyEntryUnordered_eq_any]

theorem unordered_of_part (h : w.Part v) (hw : w.unordered = true) : v.unordered = true := by
  cases h with
  | inner s => exact hw
  | item s hv => exact (unordered_array_iff s _).2 ⟨w, hv, hw⟩
  | stored s he => exact (unordered_hash_iff s _).2 (Or.inr ⟨_, he, Or.inl hw⟩)
  | value s he => exact (unordered_hash_iff s _).2 (Or.inr ⟨_, he, Or.inr hw⟩)

/-- A value counts as unordered exactly when some hash in it has two entries. -/
theorem unordered_iff (v : Value) :
    v.unordered = true ↔ ∃ s es, (hash s es).Within v ∧ 1 < es.length := by
  constructor
  · intro hv
    induction v using Value.part_induction with
    | step v ih =>
      have hpart {u : Value} (hu : u.Part v) (huu : u.unordered = true) :
          ∃ s es, (hash s es).Within v ∧ 1 < es.length := by
        obtain ⟨s, es, hes, hlong⟩ := ih u hu huu
        exact ⟨s, es, hes.of_part hu, hlong⟩
      cases v with
      | ret s u => exact hpart (.inner s u) hv
      | array s vs =>
        obtain ⟨u, hu, huu⟩ := (unordered_array_iff s vs).1 hv
        exact hpart (.item s hu) huu
      | hash s es =>
        rcases (unordered_hash_iff s es).1 hv with hlong | ⟨e, he, hstored | hvalue⟩
        · exact ⟨s, es, .self _, hlong⟩
        · exact hpart (.stored s he) hstored
        · exact hpart (.value s he) hvalue
      | _ => cases hv
  · rintro ⟨s, es, hes, hlong⟩
    by_contra hv
    have hclosed : ¬(hash s es).unordered = true :=
      hes.closed (P := fun u => ¬u.unordered = true)
        (fun hp hu hw => hu (unordered_of_part hp hw)) hv
    exact hclosed ((unordered_hash_iff s es).2 (Or.inl hlong))

/-- Any two orders of the entries in a value give texts with the same characters, each
the same number of times. They give the same text unless the value is unordered. -/
theorem texts_of_orders_agree {v w w' : Value} (h : v.Reordered w) (h' : v.Reordered w') :
    w.render.Perm w'.render ∧ (v.unordered = false → w.render = w'.render) := by
  refine ⟨h.render_perm.symm.trans h'.render_perm, fun hv => ?_⟩
  have hshort : ∀ s es, (hash s es).Within v → es.length ≤ 1 := by
    intro s es hes
    by_contra hlong
    have hun : v.unordered = true := (unordered_iff v).2 ⟨s, es, hes, Nat.lt_of_not_le hlong⟩
    rw [hv] at hun
    cases hun
  rw [h.eq_of_short hshort, h'.eq_of_short hshort]

/-- A hash in an array, gone through in two orders, and a wrapped hash with one entry. -/
theorem shuffled_texts_agree :
    let p : Entry Value := ⟨⟨.int, 1⟩, .int 1, .bool true⟩
    let q : Entry Value := ⟨⟨.int, 2⟩, .int 2, .array ⟨0⟩ []⟩
    let v : Value := .array ⟨2⟩ [.hash ⟨1⟩ [p, q]]
    let w : Value := .array ⟨2⟩ [.hash ⟨1⟩ [q, p]]
    let u : Value := .ret ⟨4⟩ (.hash ⟨3⟩ [p])
    v.Reordered w ∧ w.render ≠ v.render ∧ w.render.Perm v.render ∧
      u.unordered = false ∧ ∀ u', u.Reordered u' → u'.render = u.render := by
  intro p q v w u
  have hsame : List.Forall₂ (Entry.Rel Reordered) [q, p] [q, p] :=
    .cons (.mk _ (.self _) (.self _)) (.cons (.mk _ (.self _) (.self _)) .nil)
  have hw : v.Reordered w := .array ⟨2⟩ (.cons (.hash ⟨1⟩ (.swap q p []) hsame) .nil)
  refine ⟨hw, by decide, (texts_of_orders_agree hw (.self v)).1, rfl, fun u' hu' => ?_⟩
  exact (texts_of_orders_agree hu' (.self u)).2 rfl

end Value

end Scriptlet
