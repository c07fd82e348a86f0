import Mathlib.Tactic.SplitIfs
import Scriptlet.Proofs.Legible
import Scriptlet.Text.Quoted

/-!
# Reading quoted strings back

A character inside quotes is written in one of three ways: by a backslash and one
more character, by its code point, or as itself. What stands behind a backslash
tells the first two apart, and neither a quote nor a backslash is ever written as
itself. So the characters can be read one by one up to the closing quote, whatever
the string holds and whichever characters are written by code point.
-/
namespace Scriptlet.Text

/-! ### Hexadecimal numbers -/

theorem exists_digit_of_mem_hex {n : Nat} {c : Char} (h : c ∈ Nat.toDigits 16 n) :
    ∃ d < 16, c = d.digitChar := by
  induction n using Nat.strongRecOn with
  | ind n ih =>
    rw [Nat.toDigits_eq_if (by decide)] at h
    split at h
    · next hn => exact ⟨n, hn, List.mem_singleton.1 h⟩
    · next hn =>
      rcases List.mem_append.1 h with h | h
      · exact ih (n / 16) (by omega) h
      · exact ⟨n % 16, Nat.mod_lt n (by decide), List.mem_singleton.1 h⟩

theorem ne_brace_of_mem_hex {n : Nat} {c : Char} (h : c ∈ Nat.toDigits 16 n) : c ≠ '\x7d' := by
  obtain ⟨d, hd, rfl⟩ := exists_digit_of_mem_hex h
  have hall : ∀ d < 16, d.digitChar ≠ '\x7d' := by decide
  exact hall d hd

theorem hex_injective {m n : Nat} (h : Nat.toDigits 16 m = Nat.toDigits 16 n) : m = n := by
  have hdigit : ∀ d < 16, ∀ e < 16, d.digitChar = e.digitChar → d = e := by decide
  have hshort {k : Nat} {c d : Char} : [c] ≠ Nat.toDigits 16 k ++ [d] := by
    intro hk
    have hlength := congrArg List.length hk
    have hpos := List.length_pos_iff.2 (Nat.toDigits_ne_nil (n := k) (b := 16))
    simp only [List.length_singleton, List.length_append] at hlength
    omega
  induction m using Nat.strongRecOn generalizing n with
  | ind m ih =>
    rw [Nat.toDigits_eq_if (by decide), Nat.toDigits_eq_if (n := n) (by decide)] at h
    split at h <;> split at h
    · next hm hn => exact hdigit m hm n hn (List.singleton_inj.1 h)
    · exact absurd h hshort
    · exact absurd h.symm hshort
    · obtain ⟨hhigh, hlow⟩ := List.append_inj' h rfl
      have hdiv : m / 16 = n / 16 := ih (m / 16) (by omega) hhigh
      have hmod : m % 16 = n % 16 := hdigit _ (Nat.mod_lt m (by decide)) _
        (Nat.mod_lt n (by decide)) (List.singleton_inj.1 hlow)
      omega

/-! ### Escapes -/

/-- The characters with a short escape, each with what stands behind the backslash. -/
def shortEscapes : List (Char × Char) :=
  [('\x00', '0'), ('\t', 't'), ('\n', 'n'), ('\r', 'r'), ('"', '"'), ('\\', '\\')]

theorem short_injective {c d k : Char} (hc : (c, k) ∈ shortEscapes) (hd : (d, k) ∈ shortEscapes) :
    c = d := by
  have hall : ∀ p ∈ shortEscapes, ∀ q ∈ shortEscapes, p.2 = q.2 → p.1 = q.1 := by decide
  exact hall _ hc _ hd rfl

theorem short_ne_u {c k : Char} (h : (c, k) ∈ shortEscapes) : k ≠ 'u' := by
  have hall : ∀ p ∈ shortEscapes, p.2 ≠ 'u' := by decide
  exact hall _ h

/-- The three ways in which a character is written. -/
inductive Escaped (c : Char) : Text → Prop where
  | short {k : Char} (hk : (c, k) ∈ shortEscapes) : Escaped c ['\\', k]
  | codePoint : Escaped c (codePoint c)
  | plain (hquote : c ≠ '"') (hslash : c ≠ '\\') : Escaped c [c]

theorem escaped_escape (hidden : Char → Bool) (c : Char) : Escaped c (escape hidden c) := by
  have hshort {d k : Char} (hd : c = d) (hk : (d, k) ∈ shortEscapes) : Escaped c ['\\', k] :=
    hd ▸ .short (hd ▸ hk)
  unfold escape
  split_ifs with hnul htab hfeed hreturn hquote hslash hhidden
  · exact hshort hnul (by decide)
  · exact hshort htab (by decide)
  · exact hshort hfeed (by decide)
  · exact hshort hreturn (by decide)
  · exact hshort hquote (by decide)
  · exact hshort hslash (by decide)
  · exact .codePoint
  · exact .plain hquote hslash

theorem codePoint_append (c : Char) (r : Text) :
    codePoint c ++ r = '\\' :: 'u' :: '\x7b' :: (Nat.toDigits 16 c.toNat ++ '\x7d' :: r) := by
  simp [codePoint]

theorem legible_codePoint (c d : Char) : Legible codePoint (fun _ => True) c d := by
  intro r r' _ _ h
  simp only [codePoint_append, List.cons.injEq, true_and] at h
  have hnum {n : Nat} : ∀ x ∈ Nat.toDigits 16 n, (x != '\x7d') = true := fun x hx =>
    bne_iff_ne.2 (ne_brace_of_mem_hex hx)
  obtain ⟨hcode, hrest⟩ := append_inj_of_ends hnum hnum (by simp) (by simp) h
  exact ⟨Char.toNat_inj.1 (hex_injective hcode), (List.cons.inj hrest).2⟩

theorem Escaped.eq_of_append {c d : Char} {u v r r' : Text} (hu : Escaped c u) (hv : Escaped d v)
    (h : u ++ r = v ++ r') : c = d ∧ r = r' := by
  cases hu with
  | short hk =>
    cases hv with
    | short hl =>
      simp only [List.cons_append, List.nil_append, List.cons.injEq, true_and] at h
      obtain ⟨rfl, hrest⟩ := h
      exact ⟨short_injective hk hl, hrest⟩
    | codePoint =>
      rw [codePoint_append] at h
      exact absurd (List.cons.inj (List.cons.inj h).2).1 (short_ne_u hk)
    | plain _ hslash => exact absurd (List.cons.inj h).1.symm hslash
  | codePoint =>
    cases hv with
    | short hl =>
      rw [codePoint_append] at h
      exact absurd (List.cons.inj (List.cons.inj h).2).1.symm (short_ne_u hl)
    | codePoint => exact legible_codePoint c d r r' trivial trivial h
    | plain _ hslash => exact absurd (List.cons.inj h).1.symm hslash
  | plain _ hslash =>
    cases hv with
    | short => exact absurd (List.cons.inj h).1 hslash
    | codePoint => exact absurd (List.cons.inj h).1 hslash
    | plain => exact List.cons.inj h

theorem Escaped.append_ne_quote {c : Char} {u : Text} (h : Escaped c u) (r t : Text) :
    u ++ r ≠ '"' :: t := by
  intro heq
  cases h with
  | short => exact absurd (List.cons.inj heq).1 (by decide)
  | codePoint => exact absurd (List.cons.inj heq).1 (by decide)
  | plain hquote => exact absurd (List.cons.inj heq).1 hquote

/-! ### Quoted strings -/

/-- A quoted string can be read back, whatever stands behind it. -/
theorem legible_quoted (hidden : Char → Bool) (t t' : Text) :
    Legible (quoted hidden) (fun _ => True) t t' := by
  have hchar (c d : Char) : Legible (escape hidden) (fun _ => True) c d := fun r r' _ _ h =>
    (escaped_escape hidden c).eq_of_append (escaped_escape hidden d) h
  have hbody : Legible (fun t => t.flatMap (escape hidden)) (fun r => ∃ s, r = '"' :: s) t t' := by
    refine legible_flatMap (fun _ _ => trivial) (fun _ _ => trivial) ?_ fun c _ d _ => hchar c d
    rintro c r _ ⟨s, rfl⟩
    exact (escaped_escape hidden c).append_ne_quote r s
  have happend (t r : Text) :
      quoted hidden t ++ r = '"' :: (t.flatMap (escape hidden) ++ '"' :: r) := by
    simp [quoted]
  intro r r' _ _ h
  rw [happend, happend, List.cons.injEq] at h
  obtain ⟨htext, hrest⟩ := hbody _ _ ⟨r, rfl⟩ ⟨r', rfl⟩ h.2
  exact ⟨htext, (List.cons.inj hrest).2⟩

end Scriptlet.Text
