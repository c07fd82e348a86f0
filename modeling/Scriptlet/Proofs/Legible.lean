import Scriptlet.Text.Basic

/-!
# Reading texts back

When two texts are known to start with the texts of things, what is there to
read depends on what may follow. A word is read up to the first character that
is no part of a word, a number up to the first character that is no digit, and
an enumeration up to its closing bracket, provided its parts can be read one by
one.
-/
namespace Scriptlet

/-- If the texts of the two things, each followed by an allowed rest, agree, then
so do the things and the rests. -/
def Legible {α : Type} (text : α → Text) (Rest : Text → Prop) (a b : α) : Prop :=
  ∀ r r', Rest r → Rest r' → text a ++ r = text b ++ r' → a = b ∧ r = r'

theorem Legible.symm {α : Type} {text : α → Text} {Rest : Text → Prop} {a b : α}
    (h : Legible text Rest a b) : Legible text Rest b a := by
  intro r r' hr hr' heq
  obtain ⟨hab, hrest⟩ := h r' r hr' hr heq.symm
  exact ⟨hab.symm, hrest.symm⟩

namespace Text

/-! ### Words -/

/-- The text does not go on with a character of the given class. -/
def Ends (p : Char → Bool) (r : Text) : Prop := ∀ c ∈ r.head?, p c = false

variable {p q : Char → Bool}

@[simp]
theorem ends_nil : Ends p [] := by simp [Ends]

@[simp]
theorem ends_cons_iff (c : Char) (r : Text) : Ends p (c :: r) ↔ p c = false := by simp [Ends]

theorem Ends.mono {r : Text} (h : Ends q r) (hpq : ∀ c, q c = false → p c = false) : Ends p r :=
  fun c hc => hpq c (h c hc)

/-- A run of characters of one class, followed by what ends it. -/
theorem append_inj_of_ends {u v r r' : Text} (hu : ∀ c ∈ u, p c = true) (hv : ∀ c ∈ v, p c = true)
    (hr : Ends p r) (hr' : Ends p r') (h : u ++ r = v ++ r') : u = v ∧ r = r' := by
  induction u generalizing v with
  | nil =>
    cases v with
    | nil => exact ⟨rfl, h⟩
    | cons d v =>
      rw [List.nil_append] at h
      rw [h, List.cons_append, ends_cons_iff, hv d List.mem_cons_self] at hr
      cases hr
  | cons c u ih =>
    cases v with
    | nil =>
      rw [List.nil_append] at h
      rw [← h, List.cons_append, ends_cons_iff, hu c List.mem_cons_self] at hr'
      cases hr'
    | cons d v =>
      rw [List.cons_append, List.cons_append, List.cons.injEq] at h
      obtain ⟨huv, hrest⟩ := ih (List.forall_mem_cons.1 hu).2 (List.forall_mem_cons.1 hv).2 h.2
      exact ⟨by rw [h.1, huv], hrest⟩

/-! ### Numbers -/

theorem isDigit_of_mem_ofNat {n : Nat} {c : Char} (h : c ∈ ofNat n) : c.isDigit = true :=
  Nat.isDigit_of_mem_toDigits (by decide) (by decide) h

theorem ofNat_injective {m n : Nat} (h : ofNat m = ofNat n) : m = n := by
  have hread (k : Nat) : Nat.ofDigitChars 10 (ofNat k) 0 = k :=
    Nat.ofDigitChars_toDigits (by decide) (by decide)
  rw [← hread m, ← hread n, h]

theorem exists_ofNat_eq_cons (n : Nat) : ∃ c t, ofNat n = c :: t ∧ c.isDigit = true := by
  have hne : ofNat n ≠ [] := Nat.toDigits_ne_nil
  obtain ⟨c, t, hct⟩ := List.exists_cons_of_ne_nil hne
  have hmem : c ∈ ofNat n := hct ▸ List.mem_cons_self
  exact ⟨c, t, hct, isDigit_of_mem_ofNat hmem⟩

theorem legible_ofNat (m n : Nat) : Legible ofNat (Ends Char.isDigit) m n := by
  intro r r' hr hr' h
  obtain ⟨hmn, hrest⟩ := append_inj_of_ends (fun c => isDigit_of_mem_ofNat)
    (fun c => isDigit_of_mem_ofNat) hr hr' h
  exact ⟨ofNat_injective hmn, hrest⟩

theorem ofNat_append_ne_minus (n : Nat) (r t : Text) : ofNat n ++ r ≠ '-' :: t := by
  obtain ⟨c, u, hn, hc⟩ := exists_ofNat_eq_cons n
  intro h
  rw [hn, List.cons_append, List.cons.injEq] at h
  rw [h.1] at hc
  cases hc

/-- A minus sign is no digit, so the sign of a number is read off first. -/
theorem legible_ofInt (m n : Int) : Legible ofInt (Ends Char.isDigit) m n := by
  intro r r' hr hr' h
  cases m with
  | ofNat m =>
    cases n with
    | ofNat n =>
      obtain ⟨hmn, hrest⟩ := legible_ofNat m n r r' hr hr' h
      exact ⟨congrArg Int.ofNat hmn, hrest⟩
    | negSucc n => exact absurd h (ofNat_append_ne_minus m r _)
  | negSucc m =>
    cases n with
    | ofNat n => exact absurd h.symm (ofNat_append_ne_minus n r' _)
    | negSucc n =>
      obtain ⟨hmn, hrest⟩ := legible_ofNat (m + 1) (n + 1) r r' hr hr' (List.cons.inj h).2
      exact ⟨congrArg Int.negSucc (Nat.succ.inj hmn), hrest⟩

/-! ### Sequences and enumerations -/

section Sequence

variable {α : Type} {text : α → Text} {Rest Stop : Text → Prop}

/-- Texts written one behind the other are read one by one, up to a stop that none of
them can be taken for. -/
theorem legible_flatMap (hrest : ∀ a r, Rest (text a ++ r)) (hstop : ∀ r, Stop r → Rest r)
    (hlead : ∀ a r t, Stop t → text a ++ r ≠ t) {as bs : List α}
    (hparts : ∀ a ∈ as, ∀ b ∈ bs, Legible text Rest a b) :
    Legible (fun as => as.flatMap text) Stop as bs := by
  have hnext (as : List α) {r : Text} (hr : Stop r) : Rest (as.flatMap text ++ r) := by
    cases as with
    | nil => exact hstop r hr
    | cons a as =>
      rw [List.flatMap_cons, List.append_assoc]
      exact hrest a _
  intro r r' hr hr' h
  induction as generalizing bs with
  | nil =>
    cases bs with
    | nil => exact ⟨rfl, h⟩
    | cons b bs =>
      simp only [List.flatMap_nil, List.nil_append, List.flatMap_cons, List.append_assoc] at h
      exact absurd h.symm (hlead b _ r hr)
  | cons a as ih =>
    cases bs with
    | nil =>
      simp only [List.flatMap_nil, List.nil_append, List.flatMap_cons, List.append_assoc] at h
      exact absurd h (hlead a _ r' hr')
    | cons b bs =>
      simp only [List.flatMap_cons, List.append_assoc] at h
      have hab := hparts a List.mem_cons_self b List.mem_cons_self
      obtain ⟨rfl, htail⟩ := hab _ _ (hnext as hr) (hnext bs hr') h
      have hmore : ∀ a ∈ as, ∀ b ∈ bs, Legible text Rest a b := fun a ha b hb =>
        hparts a (List.mem_cons_of_mem _ ha) b (List.mem_cons_of_mem _ hb)
      obtain ⟨rfl, hr⟩ := ih hmore htail
      exact ⟨rfl, hr⟩

theorem commaSep_cons (part : Text) (parts : List Text) :
    commaSep (part :: parts) = part ++ parts.flatMap fun next => ',' :: ' ' :: next := by
  induction parts generalizing part with
  | nil => simp
  | cons next parts ih => rw [commaSep_cons_cons, ih, List.flatMap_cons]; rfl

/-- A part of an enumeration with the comma and the blank before it. -/
def behindComma (text : α → Text) (a : α) : Text := ',' :: ' ' :: text a

theorem commaSep_map_cons (a : α) (as : List α) (r : Text) :
    commaSep ((a :: as).map text) ++ r = text a ++ (as.flatMap (behindComma text) ++ r) := by
  rw [List.map_cons, commaSep_cons, List.flatMap_map, List.append_assoc]
  rfl

/-- An enumeration is read part by part, up to a stop that no part can be taken for. -/
theorem legible_enumerated (hcomma : ∀ t, Rest (',' :: t))
    (hstop : ∀ r, Stop r → Rest r ∧ r.head? ≠ some ',') {as bs : List α}
    (hparts : ∀ a ∈ as, ∀ b ∈ bs, Legible text Rest a b)
    (hlead : ∀ a, a ∈ as ∨ a ∈ bs → ∀ r t, Stop t → text a ++ r ≠ t) :
    Legible (fun as => commaSep (as.map text)) Stop as bs := by
  have hbehind : ∀ a ∈ as, ∀ b ∈ bs, Legible (behindComma text) Rest a b := by
    intro a ha b hb r r' hr hr' h
    exact hparts a ha b hb r r' hr hr' (List.cons.inj (List.cons.inj h).2).2
  have hsequence : Legible (fun as => as.flatMap (behindComma text)) Stop as bs := by
    refine legible_flatMap (fun a r => hcomma _) (fun r hr => (hstop r hr).1) ?_ hbehind
    rintro a r t ht rfl
    exact (hstop _ ht).2 rfl
  intro r r' hr hr' h
  cases as with
  | nil =>
    cases bs with
    | nil => exact ⟨rfl, h⟩
    | cons b bs =>
      simp only [commaSep_map_cons] at h
      exact absurd h.symm (hlead b (Or.inr List.mem_cons_self) _ r hr)
  | cons a as =>
    cases bs with
    | nil =>
      simp only [commaSep_map_cons] at h
      exact absurd h (hlead a (Or.inl List.mem_cons_self) _ r' hr')
    | cons b bs =>
      -- with a comma before the first part too, it is a sequence
      simp only [commaSep_map_cons] at h
      refine hsequence r r' hr hr' ?_
      simp only [List.flatMap_cons, List.append_assoc, behindComma, List.cons_append, h]

/-- An enumeration is read part by part, up to its closing bracket. -/
theorem legible_commaSep {close : Char} (hclose : close ≠ ',') (hcomma : ∀ t, Rest (',' :: t))
    (hend : ∀ t, Rest (close :: t)) {as bs : List α}
    (hparts : ∀ a ∈ as, ∀ b ∈ bs, Legible text Rest a b)
    (hlead : ∀ a, a ∈ as ∨ a ∈ bs → ∃ c t, text a = c :: t ∧ c ≠ close) :
    Legible (fun as => commaSep (as.map text)) (fun r => ∃ t, r = close :: t) as bs := by
  refine legible_enumerated hcomma ?_ hparts ?_
  · rintro r ⟨t, rfl⟩
    exact ⟨hend t, fun h => hclose (Option.some.inj h)⟩
  · rintro a ha r _ ⟨t, rfl⟩ h
    obtain ⟨c, u, hu, hc⟩ := hlead a ha
    rw [hu] at h
    exact hc (List.cons.inj h).1

end Sequence

end Text

end Scriptlet
